import DeskCalculator.Fault
import DeskCalculator.Text.Digits
import DeskCalculator.Text.Json
/-!
The history: the last ten calculations, newest first, and their JSON form, a list of objects with the
fields `expression`, `result` and `timestamp`.
-/
namespace DeskCalculator

open Text

namespace History

/-- A calculation: what was calculated, its written result, and when, in milliseconds since 1970. -/
structure Entry where
  expression : String
  result : String
  timestamp : Int64
deriving DecidableEq, Repr, Inhabited

def limit : Nat := 10

end History

structure History where
  entries : List History.Entry
  bounded : entries.length ≤ History.limit
deriving DecidableEq, Repr

namespace History

def ofList (entries : List Entry) : History := ⟨entries.take limit, List.length_take_le ..⟩

def empty : History := ⟨[], Nat.zero_le _⟩

instance : Inhabited History := ⟨empty⟩

/-- The history with a new calculation; the oldest one goes if there are too many. -/
def push (h : History) (entry : Entry) : History := ofList (entry :: h.entries)

def size (h : History) : Nat := h.entries.length

def isEmpty (h : History) : Bool := h.entries.isEmpty

def get? (h : History) (index : Nat) : Option Entry := h.entries[index]?

def Entry.toJson (e : Entry) : String :=
  "\x7b" ++ Quoted.encode "expression" ++ ":" ++ Quoted.encode e.expression
    ++ "," ++ Quoted.encode "result" ++ ":" ++ Quoted.encode e.result
    ++ "," ++ Quoted.encode "timestamp" ++ ":" ++ toString e.timestamp.toInt ++ "\x7d"

def toJson (h : History) : String := "[" ++ ",".intercalate (h.entries.map Entry.toJson) ++ "]"

def textOf? : Json → Option String
  | .string text => text
  | _ => none

/-- The integer that digits and a minus sign spell, if it is written in its shortest form and fits 64
bits. A fraction or an exponent makes a number no integer, and so does the sign of `-0`. -/
def integerOf? : Json → Option Int64
  | .number ('-' :: digits) =>
    let n := digitsValue digits
    if digits.all Char.isDigit && 0 < n && n ≤ 0x8000000000000000 then some (Int64.ofInt (-n)) else none
  | .number digits =>
    let n := digitsValue digits
    if digits.all Char.isDigit && n < 0x8000000000000000 then some (Int64.ofInt n) else none
  | _ => none

def only? : List Json → Option Json
  | [value] => some value
  | _ => none

def Entry.ofValues? (expression result timestamp : Json) : Option Entry := do
  return ⟨← textOf? expression, ← textOf? result, ← integerOf? timestamp⟩

/-- A calculation from an object that has each of the three fields once, or from a list of the three
values. Other fields are passed over, but their names must be texts. -/
def Entry.ofJson? : Json → Option Entry
  | .object fields => do
    if fields.all (·.1.isSome) then
      Entry.ofValues? (← only? (Json.fieldsNamed "expression" fields))
        (← only? (Json.fieldsNamed "result" fields)) (← only? (Json.fieldsNamed "timestamp" fields))
    else none
  | .array [expression, result, timestamp] => Entry.ofValues? expression result timestamp
  | _ => none

/-- The history that a JSON document holds; calculations beyond the limit are dropped. -/
def ofJson (document : String) : Except Fault History :=
  match Json.parse? document with
  | some (.array items) =>
    match items.mapM Entry.ofJson? with
    | some entries => .ok (ofList entries)
    | none => .error Fault.storage
  | _ => .error Fault.storage

end History

end DeskCalculator
