/-! The loading of shared libraries by `ld_miku`. -/

namespace Miku.Ld

abbrev Name := List UInt8

def maxLibs : Nat := 32
def maxNeeded : Nat := 32

/-- The libraries that can be found and mapped, with the names they need. -/
abbrev Libs := Name → Option (List Name)

/-- What is done with a library; the relocations are applied in two parts. -/
inductive Phase
  | map
  | relocate
  | exportSymbols
  deriving DecidableEq

/-- The table of loaded libraries, and what has been done so far. -/
structure Loader where
  libs : List Name
  done : List (Phase × Name)

def isLoaded (s : Loader) (name : Name) : Bool := s.libs.contains name

/-- A full table stays as it is. -/
def registerLib (s : Loader) (name : Name) : Loader :=
  if maxLibs ≤ s.libs.length then s else { s with libs := s.libs ++ [name.take 63] }

def Loader.did (s : Loader) (p : Phase) (name : Name) : Loader := { s with done := s.done ++ [(p,name)] }

def trimmed (soname : Name) : Name := soname.takeWhile (· != 0)

/-- Of the needed names the first 32 are kept, each with its first 63 bytes. -/
def parseNeeded (needed : List Name) : List Name := (needed.take maxNeeded).map (List.take 63)

/-- The first argument bounds the depth of the recursion. -/
def loadLibrary (found : Libs) : Nat → Name → Loader → Option Loader
  | 0, _, _ => none
  | fuel + 1, soname, s =>
    let name := trimmed soname
    if name = [] ∨ isLoaded s name then some s
    else match found name with
      | none => some s
      | some needed => do
        let s ← (parseNeeded needed).foldlM (fun s n => loadLibrary found fuel n s)
          (registerLib (s.did .map name) name)
        some ((s.did .relocate name).did .exportSymbols name)

/-- The libraries that the program needs, one after the other on the same table. -/
def loadNeeded (found : Libs) (fuel : Nat) (needed : List Name) (s : Loader) : Option Loader :=
  needed.foldlM (fun s n => loadLibrary found fuel n s) s

end Miku.Ld
