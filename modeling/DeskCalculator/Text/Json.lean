import DeskCalculator.Text.Quoted
/-!
JSON documents: the values, and a reader that accepts exactly the grammar of the format. A number keeps
its spelling, an object its fields in the order of the document, repetitions included.
-/
namespace DeskCalculator.Text

/-- A JSON value. A string is `none` where the literal holds half of a surrogate pair. -/
inductive Json where
  | null
  | bool (value : Bool)
  | number (spelling : List Char)
  | string (text : Option String)
  | array (items : List Json)
  | object (fields : List (Option String × Json))
deriving Inhabited

namespace Json

abbrev Reader (α : Type) := List Char → Option (α × List Char)

def isSpace (c : Char) : Bool := c == ' ' || c == '\t' || c == '\n' || c == '\r'

def dropSpaces (cs : List Char) : List Char := cs.dropWhile isSpace

def readDigits : Reader (List Char) := fun cs =>
  match cs.takeWhile Char.isDigit with
  | [] => none
  | digits => some (digits, cs.dropWhile Char.isDigit)

def readWhole : Reader (List Char)
  | '0' :: rest => some (['0'], rest)
  | cs => readDigits cs

def readFraction : Reader (List Char)
  | '.' :: rest => (readDigits rest).map fun (digits, rest) => ('.' :: digits, rest)
  | cs => some ([], cs)

def readSign : List Char → List Char × List Char
  | '+' :: rest => (['+'], rest)
  | '-' :: rest => (['-'], rest)
  | cs => ([], cs)

def readExponent : Reader (List Char)
  | [] => some ([], [])
  | c :: rest =>
    if c == 'e' || c == 'E' then
      let (sign, rest) := readSign rest
      (readDigits rest).map fun (digits, rest) => (c :: sign ++ digits, rest)
    else some ([], c :: rest)

def readMagnitude : Reader (List Char) := fun cs => do
  let (whole, cs) ← readWhole cs
  let (fraction, cs) ← readFraction cs
  let (exponent, cs) ← readExponent cs
  return (whole ++ fraction ++ exponent, cs)

def readNumber : Reader (List Char)
  | '-' :: rest => (readMagnitude rest).map fun (spelling, rest) => ('-' :: spelling, rest)
  | cs => readMagnitude cs

/-- A list of things divided by commas, up to the closing bracket. The bound on its length is the
first argument. -/
def readSequence {α : Type} (item : Reader α) (close : Char) : Nat → Reader (List α)
  | 0, _ => none
  | bound + 1, cs => do
    let (first, rest) ← item cs
    match dropSpaces rest with
    | ',' :: rest =>
      let (others, rest) ← readSequence item close bound rest
      return (first :: others, rest)
    | c :: rest => if c = close then some ([first], rest) else none
    | [] => none

def readGroup {α : Type} (item : Reader α) (close : Char) : Reader (List α) := fun cs =>
  match dropSpaces cs with
  | c :: rest => if c = close then some ([], rest) else readSequence item close cs.length (c :: rest)
  | [] => none

def readField (value : Reader Json) : Reader (Option String × Json) := fun cs =>
  match dropSpaces cs with
  | '"' :: rest => do
    let (key, rest) ← Quoted.read rest
    match dropSpaces rest with
    | ':' :: rest =>
      let (v, rest) ← value rest
      return ((key, v), rest)
    | _ => none
  | _ => none

/-- A value that is nested less deep than the first argument. -/
def readValue : Nat → Reader Json
  | 0, _ => none
  | depth + 1, cs =>
    match dropSpaces cs with
    | 'n' :: 'u' :: 'l' :: 'l' :: rest => some (null, rest)
    | 't' :: 'r' :: 'u' :: 'e' :: rest => some (bool true, rest)
    | 'f' :: 'a' :: 'l' :: 's' :: 'e' :: rest => some (bool false, rest)
    | '"' :: rest => (Quoted.read rest).map fun (text, rest) => (string text, rest)
    | '[' :: rest => (readGroup (readValue depth) ']' rest).map fun (items, rest) => (array items, rest)
    | '{' :: rest =>
      (readGroup (readField (readValue depth)) '}' rest).map fun (fields, rest) => (object fields, rest)
    | cs => (readNumber cs).map fun (spelling, rest) => (number spelling, rest)

def parse? (document : String) : Option Json :=
  let cs := document.toList
  match readValue (cs.length + 1) cs with
  | some (value, rest) => if dropSpaces rest = [] then some value else none
  | none => none

def fieldsNamed (key : String) (fields : List (Option String × Json)) : List Json :=
  fields.filterMap fun (name, value) => if name = some key then some value else none

end Json

end DeskCalculator.Text
