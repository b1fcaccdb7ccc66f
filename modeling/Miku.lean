import Miku.Proofs.ForkContents
import Miku.Proofs.VmaRuns
import Miku.Proofs.FlatDisk
import Miku.Proofs.CommitRecover
import Miku.Proofs.ExtentInsert
import Miku.Proofs.InitialStack
import Miku.Proofs.Partitions
import Miku.Proofs.AccessMode
import Miku.Proofs.TcpSegments
import Miku.Proofs.WaitWakeups
import Miku.Proofs.ExitStatus
import Miku.Proofs.SignalFrames
import Miku.Proofs.PipeEof
import Miku.Proofs.PipeStream
import Miku.Proofs.SocketOwners
import Miku.Proofs.SuperblockFrame
import Miku.Proofs.DhcpLease
import Miku.Proofs.DnsBound
import Miku.Proofs.HttpSafe
import Miku.Proofs.HpackSafe
import Miku.Proofs.FrameSafe
import Miku.Proofs.ExtentWalks
import Miku.Proofs.XattrMap
import Miku.Proofs.TlsPlaintext
import Miku.Proofs.FinalLinks
import Miku.Proofs.SwapBounds
import Miku.Proofs.WriterOrder
import Miku.Proofs.LzRoundTrip
import Miku.Proofs.Calendar
import Miku.Proofs.ModularPowers
import Miku.Proofs.LoadOnce
import Miku.Proofs.LineDiscipline
import Miku.Proofs.ReapUnused
import Miku.Proofs.TlsCertificate
