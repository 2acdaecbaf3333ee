import DeskCalculator.Store.Basic
import DeskCalculator.Store.Disk
import DeskCalculator.Text.Json
/-!
Stores in a file. The file holds one JSON object with the keys in order and is written as a whole on
every save; it is read once, when the store is opened.
-/
namespace DeskCalculator

open Text

namespace TextMap

def renderField (field : String × String) : String :=
  "  " ++ Quoted.encode field.1 ++ ": " ++ Quoted.encode field.2

def render (values : TextMap) : String :=
  if values.isEmpty then "\x7b\x7d"
  else "\x7b\n" ++ ",\n".intercalate (values.toList.map renderField) ++ "\n\x7d"

def field? : Option String × Json → Option (String × String)
  | (some key, .string (some text)) => some (key, text)
  | _ => none

/-- The texts of a document that is an object of texts; of a repeated key the last text counts. -/
def ofDocument? (document : String) : Option TextMap :=
  match Json.parse? document with
  | some (.object fields) => (fields.mapM field?).map fun fields => Std.TreeMap.ofList fields compare
  | _ => none

end TextMap

structure FileStore where
  disk : Disk
  path : Path
  values : TextMap

namespace FileStore

/-- The texts in the file under a path: none if there is no file or if it holds no object of texts. A
file that cannot be read, or whose bytes are no text, is a fault. -/
def readValues (disk : Disk) (path : Path) : Except Fault TextMap :=
  match disk.read path with
  | .missing => .ok ∅
  | .unreadable => .error Fault.storage
  | .content bytes =>
    match String.fromUTF8? bytes with
    | some document => .ok ((TextMap.ofDocument? document).getD ∅)
    | none => .error Fault.storage

def openAt (disk : Disk) (path : Path) : Except Fault FileStore :=
  (readValues disk path).map fun values => ⟨disk, path, values⟩

/-- Writes all texts to the file, after making the directories on the way to it. The directories stay
even if the file cannot be written. -/
def flush (store : FileStore) : Except Fault Unit × FileStore :=
  let disk := store.disk.makeDirectories store.path.parent
  match disk.write? store.path (TextMap.render store.values).toUTF8 with
  | some disk => (.ok (), { store with disk })
  | none => (.error Fault.storage, { store with disk })

instance : Store FileStore where
  load store key := .ok store.values[key]?
  save store key text := { store with values := store.values.insert key text }.flush

def reopen (store : FileStore) : Except Fault FileStore := openAt store.disk store.path

end FileStore

inductive Backing where
  | memory (store : MemoryStore)
  | file (store : FileStore)

namespace Backing

instance : Store Backing where
  load
    | memory store, key => Store.load store key
    | file store, key => Store.load store key
  save
    | memory store, key, text => (Store.save store key text).map id memory
    | file store, key, text => (Store.save store key text).map id file

def disk? : Backing → Option Disk
  | memory _ => none
  | file store => some store.disk

def document? : Backing → Option (Path × String)
  | memory _ => none
  | file store => some (store.path, TextMap.render store.values)

end Backing

end DeskCalculator
