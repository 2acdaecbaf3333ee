import DeskCalculator.Session.Input
import DeskCalculator.Text.Blank
import DeskCalculator.Text.Bytes
/-!
Keys: how a typed line is read. A word that starts with a colon is a command, and every character of
another word is a key of its own. A line with one word that cannot be read has no keys at all.
-/
namespace DeskCalculator

inductive Key where
  | input (input : Input)
  | help
  | quit
deriving DecidableEq, Repr, Inhabited

namespace Key

def ofChar (c : Char) : Except Fault Input :=
  match Operator.ofChar? c with
  | some op => .ok (.operator op)
  | none =>
    if Base.hex.isDigit c then .ok (.digit c)
    else match c with
      | '.' => .ok .point
      | '(' => .ok .opening
      | ')' => .ok .closing
      | '=' => .ok .equals
      | _ => .error (Fault.unknownKey c)

def ofField? (name value : String) : Option Input :=
  match name with
  | "start" => some (.setStart value)
  | "end" => some (.setEnd value)
  | "birth" => some (.setBirth value)
  | _ => none

def ofPlainName? : String → Option Key
  | "help" => some help
  | "quit" => some quit
  | "clear" => some (input .clear)
  | "back" => some (input .backspace)
  | "angle" => some (input .toggleAngle)
  | "and" => some (input (.bitwise .and))
  | "or" => some (input (.bitwise .or))
  | "xor" => some (input (.bitwise .xor))
  | "not" => some (input (.bitwise .not))
  | "shl" => some (input (.bitwise .shiftLeft))
  | "shr" => some (input (.bitwise .shiftRight))
  | "diff" => some (input .difference)
  | "age" => some (input .age)
  | "theme" => some (input .toggleTheme)
  | "history" => some (input .toggleHistory)
  | _ => none

def ofName? (name : String) : Option Key :=
  ((ScientificFunction.ofName? name).map fun function => input (.function function))
    <|> ofPlainName? name
    <|> ((Mode.ofName name).toOption.map fun mode => input (.setMode mode))
    <|> ((Base.ofName name).toOption.map fun base => input (.setBase base))

/-- The answer to a command: its key, or that it is unknown. -/
def orUnknown (command : List Char) : Option Key → Except Fault Key
  | some key => .ok key
  | none => .error (Fault.unknownCommand (String.ofList command))

/-- The key of a command, given without its colon. The case of letters in its name does not matter;
what follows the first `=` is a value and is kept as it is. -/
def ofCommand (command : List Char) : Except Fault Key :=
  let name := (String.ofList (command.takeWhile (· != '='))).toLower
  orUnknown command (match command.dropWhile (· != '=') with
    | [] => ofName? name
    | _ :: value => (ofField? name (String.ofList value)).map input)

/-- The key of a command, with the value of a field cut out of the bytes. The whole command is taken in small letters,
and where the name ends there is where it ends in the command. There is no result where the cut would be within a
character. -/
def byBytes? (command : List Char) : Option (Except Fault Key) :=
  let lower := command.map Char.toLower
  if '=' ∈ lower then
    let name := lower.takeWhile (· != '=')
    (Text.cutAt? (Text.bytes name + 1) command).map fun (_, value) =>
      orUnknown command ((ofField? (String.ofList name) (String.ofList value)).map input)
  else some (orUnknown command (ofName? (String.ofList lower)))

def ofWord : List Char → Except Fault (List Key)
  | ':' :: command => (ofCommand command).map fun key => [key]
  | word => word.mapM fun c => (ofChar c).map input

def ofLine (line : String) : Except Fault (List Key) :=
  ((Text.words line.toList).mapM ofWord).map List.flatten

def commands : List String :=
  [":clear", ":back", ":std", ":sci", ":prog", ":date", ":bin", ":oct", ":dec", ":hex", ":angle",
    ":sin", ":cos", ":tan", ":log", ":ln", ":sqrt", ":sq", ":exp", ":fact", ":not", ":shl", ":shr",
    ":and", ":or", ":xor", ":start=", ":end=", ":birth=", ":diff", ":age", ":theme", ":history",
    ":help", ":quit"]

end Key

end DeskCalculator
