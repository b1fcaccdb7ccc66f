import Miku.Vfs.State

namespace Miku.Vfs

namespace MikuVfs

/-- A component looked up: neither empty nor one of the two dots. -/
def isName (c : Str) : Bool := !c.isEmpty && !isDot c && !isDotDot c

/-- The parent, if the number it is kept under can be one. -/
def upward (s : MikuVfs) (cur : Nat) : Nat :=
  if (s.nodes cur).parent < maxVnodes then (s.nodes cur).parent else cur

def lookupChild (s : MikuVfs) (parent : Nat) (name : Str) : Except VfsError Nat :=
  match (s.nodes parent).children.findByName name with
  | some c => if s.validVnode c then .ok c else .error .notFound
  | none => .error .notFound

/-- The walk through the components of a path. `follow` is what is done at a symbolic
link, `last` whether it is done at the last component too; `limited` bounds the number of
lookups, of which there were `depth`. -/
def walk (s : MikuVfs) (follow : Nat → Except VfsError Nat) (limited last : Bool) :
    Nat → List Str → Nat → Except VfsError Nat
  | _, [], cur => .ok cur
  | depth, c :: cs, cur =>
    if c.isEmpty || isDot c then walk s follow limited last depth cs cur
    else if isDotDot c then walk s follow limited last depth cs (s.upward cur)
    else if limited && decide (maxPathDepth < depth + 1) then .error .invalidPath
    else if !(s.nodes cur).isDir then .error .notDirectory
    else
      match s.lookupChild cur c with
      | .error e => .error e
      | .ok next =>
        if (s.nodes next).isSymlink && (last || cs.any isName) then
          match follow next with
          | .error e => .error e
          | .ok next => walk s follow limited last (depth + 1) cs next
        else walk s follow limited last (depth + 1) cs next

/-- Where the target of a link starts from. -/
def linkBase (s : MikuVfs) (link : Nat) : Nat :=
  if (s.nodes link).parent < maxVnodes then (s.nodes link).parent else 0

def startOf (path : Str) (base : Nat) : Nat := if path.head? = some '/' then 0 else base

/-- The first argument is how many links may still be followed. -/
def followSymlink (s : MikuVfs) : Nat → Nat → Except VfsError Nat
  | 0, _ => .error .tooManySymlinks
  | n + 1, link =>
    if !(s.nodes link).isSymlink then .ok link
    else
      let target := (s.nodes link).symlinkTarget
      if target.isEmpty then .error .invalidPath
      else walk s (followSymlink s n) false true 0 (splitSlash target)
        (startOf target (s.linkBase link))

def resolveWith (s : MikuVfs) (last : Bool) (cwd : Nat) (path : Str) : Except VfsError Nat :=
  let path := trim path
  if path.isEmpty then .ok cwd
  else if maxVnodes ≤ startOf path cwd then .error .invalidPath
  else walk s (s.followSymlink maxSymlinkDepth) true last 0 (splitSlash path) (startOf path cwd)

def resolvePath (s : MikuVfs) (cwd : Nat) (path : Str) : Except VfsError Nat :=
  s.resolveWith true cwd path

/-- The last component is not followed. -/
def resolvePathLstat (s : MikuVfs) (cwd : Nat) (path : Str) : Except VfsError Nat :=
  s.resolveWith false cwd path

/-- The links at the end of a path, at most as many as the first argument. -/
def followLast (s : MikuVfs) : Nat → Nat → Except VfsError Nat
  | n, id =>
    if !(s.nodes id).isSymlink then .ok id
    else
      match n with
      | 0 => .error .tooManySymlinks
      | n + 1 =>
        let target := (s.nodes id).symlinkTarget
        if target.isEmpty then .error .invalidPath
        else
          match s.resolvePath (s.linkBase id) target with
          | .error e => .error e
          | .ok id => if maxVnodes ≤ id then .error .invalidPath else s.followLast n id

def resolvePathFollow (s : MikuVfs) (cwd : Nat) (path : Str) : Except VfsError Nat :=
  match s.resolvePath cwd path with
  | .error e => .error e
  | .ok id => if maxVnodes ≤ id then .error .invalidPath else s.followLast maxSymlinkDepth id

/-- The directory and the name that the text behind the last slash is. -/
def splitPath (s : MikuVfs) (cwd : Nat) (path : Str) : Except VfsError (Nat × Str) :=
  match rsplitSlash path with
  | none => .ok (cwd,path)
  | some (dir,name) =>
    if name.isEmpty then .error .invalidPath
    else
      match s.resolvePath cwd (if dir.isEmpty then ['/'] else dir) with
      | .error e => .error e
      | .ok parent => .ok (parent,name)

def validateName (name : Str) : Except VfsError Unit :=
  if name.isEmpty || nameLen < byteLen name then .error .nameTooLong
  else if name.contains '/' || name.contains '\x00' then .error .invalidArgument
  else if isDot name || isDotDot name then .error .invalidArgument
  else .ok ()

/-- `ensure_no_duplicate` finds nothing. -/
def noDuplicate (s : MikuVfs) (parent : Nat) (name : Str) : Bool :=
  match (s.nodes parent).children.findByName name with
  | some c => !s.validVnode c
  | none => true

end MikuVfs

end Miku.Vfs
