import Std.Data.TreeMap
import DeskCalculator.Store.Path
/-!
Disks: the files and directories at the places that paths lead to. A path is followed name by name, and
what it leads to decides whether a file can be read or written there.
-/
namespace DeskCalculator

namespace Disk

abbrev Place := List String

inductive Node where
  | directory
  | file (content : ByteArray)
deriving Inhabited

end Disk

/-- A disk: what stands at each place other than the root, which is a directory. -/
structure Disk where
  nodes : Std.TreeMap Disk.Place Disk.Node := ∅
  here : Disk.Place := []
deriving Inhabited

namespace Disk

inductive Target where
  | directory (place : Place)
  | file (place : Place) (content : ByteArray)
  | vacant (place : Place)
  | missing
  | barred

inductive Reading where
  | content (bytes : ByteArray)
  | missing
  | unreadable

def empty : Disk := {}

def node? (disk : Disk) (place : Place) : Option Node :=
  if place = [] then some .directory else disk.nodes[place]?

def put (disk : Disk) (place : Place) (node : Node) : Disk :=
  { disk with nodes := disk.nodes.insert place node }

def isTooLong (name : String) : Bool := 255 < name.utf8ByteSize

/-- What names lead to from a directory on. The root is the directory above itself. A name is looked up
only in a directory that exists, so that of two obstacles the first one counts. -/
def follow (disk : Disk) (place : Place) : List String → Target
  | [] => .directory place
  | name :: rest =>
    if name = Path.above then follow disk place.dropLast rest
    else if isTooLong name then .barred
    else
      match disk.node? (place ++ [name]) with
      | some .directory => follow disk (place ++ [name]) rest
      | some (.file content) => if rest = [] then .file (place ++ [name]) content else .barred
      | none => if rest = [] then .vacant (place ++ [name]) else .missing

def start (disk : Disk) (path : Path) : Place := if path.fromRoot then [] else disk.here

/-- What a path leads to. A path of a directory does not lead to a file, and no file can come to be
under it. -/
def find (disk : Disk) (path : Path) : Target :=
  if path.isEmpty then .missing
  else
    match disk.follow (disk.start path) path.names with
    | .file place content => if path.ofDirectory then .barred else .file place content
    | .vacant place => if path.ofDirectory then .missing else .vacant place
    | target => target

def read (disk : Disk) (path : Path) : Reading :=
  match disk.find path with
  | .file _ content => .content content
  | .vacant _ | .missing => .missing
  | .directory _ | .barred => .unreadable

/-- Writes a file, in place of any file that was there; its directory must exist. -/
def write? (disk : Disk) (path : Path) (content : ByteArray) : Option Disk :=
  match disk.find path with
  | .file place _ | .vacant place => some (disk.put place (.file content))
  | .directory _ | .missing | .barred => none

/-- Makes each directory that names lead to from a directory on, as far as that goes: it ends at a file
and at a name that is too long. -/
def makeFrom (disk : Disk) (place : Place) : List String → Disk
  | [] => disk
  | name :: rest =>
    if name = Path.above then makeFrom disk place.dropLast rest
    else if isTooLong name then disk
    else
      match disk.node? (place ++ [name]) with
      | some .directory => makeFrom disk (place ++ [name]) rest
      | some (.file _) => disk
      | none => makeFrom (disk.put (place ++ [name]) .directory) (place ++ [name]) rest

def makeDirectories (disk : Disk) (path : Path) : Disk := disk.makeFrom (disk.start path) path.names

end Disk

end DeskCalculator
