import DeskCalculator.Fault
/-!
Paths: how a text names a file or a directory. The names between its slashes are followed one after
the other, each from the directory that the names before it lead to.
-/
namespace DeskCalculator

/-- A path. Of what stands between its slashes, the names that stay in their directory are left out. -/
structure Path where
  fromRoot : Bool := false
  names : List String := []
  ofDirectory : Bool := false
deriving DecidableEq, Repr, Inhabited

namespace Path

def above : String := ".."

/-- Does a name stay in its directory? One does that is empty, and a single point. -/
def isStill (name : String) : Bool := name == "" || name == "."

def maxSize : Nat := 4095

/-- The path that a text writes. There is none for a text that is too long or has the NUL in it. -/
def ofText (text : String) : Except Fault Path :=
  let cs := text.toList
  if maxSize < text.utf8ByteSize || cs.contains '\x00' then .error Fault.storage
  else
    let segments := (cs.splitOn '/').map String.ofList
    .ok { fromRoot := cs.head? == some '/'
          names := segments.filter fun name => !isStill name
          ofDirectory := text != "" && segments.getLast?.any isStill }

def isEmpty (path : Path) : Bool := !path.fromRoot && path.names.isEmpty && !path.ofDirectory

def parent (path : Path) : Path := { path with names := path.names.dropLast, ofDirectory := false }

def child (path : Path) (name : String) : Path :=
  { path with names := path.names ++ [name], ofDirectory := false }

def render (path : Path) : String :=
  (if path.fromRoot then "/" else "")
    ++ "/".intercalate (path.names ++ if path.ofDirectory then ["."] else [])

example : ofText "a/.././b//" = .ok ⟨false, ["a", "..", "b"], true⟩ := by rfl
example : ofText "/x/." = .ok ⟨true, ["x"], true⟩ := by rfl
example : ofText "" = .ok {} := by rfl

end Path

end DeskCalculator
