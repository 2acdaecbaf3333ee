import DeskCalculator.Session.Input
/-!
The command line: options, read from left to right, and what they ask for.
-/
namespace DeskCalculator

/-- The options of a run. The log level is taken but has no effect on what is calculated. -/
structure Options where
  store : Option String := none
  noSave : Bool := false
  mode : Option Mode := none
  logLevel : Option String := none
deriving DecidableEq, Repr, Inhabited

inductive Invocation where
  | run (options : Options)
  | version
  | help
  | misuse
deriving DecidableEq, Repr, Inhabited

namespace Options

def withValue? (options : Options) (name value : String) : Option Options :=
  match name with
  | "store" => if options.store.isNone && value != "" then some { options with store := some value } else none
  | "mode" =>
    match options.mode, Mode.ofName value with
    | none, .ok mode => some { options with mode := some mode }
    | _, _ => none
  | "log-level" =>
    if options.logLevel.isNone then some { options with logLevel := some value } else none
  | _ => none

def checked (options : Options) : Invocation :=
  if options.noSave && options.store.isSome then .misuse else .run options

/-- Can a word be the value of the option before it? A word that looks like an option cannot. -/
def isValue (word : String) : Bool := word == "-" || !word.startsWith "-"

def splitValue? (word : String) : Option (String × String) :=
  let cs := word.toList.drop 2
  match cs.dropWhile (· != '=') with
  | [] => none
  | _ :: value => some (String.ofList (cs.takeWhile (· != '=')), String.ofList value)

def valued : List String := ["--store", "--mode", "--log-level"]

def read (options : Options) : List String → Invocation
  | [] => options.checked
  | ["--"] => options.checked
  | "--no-save" :: rest => if options.noSave then .misuse else read { options with noSave := true } rest
  | "--version" :: _ => .version
  | "--help" :: _ => .help
  | word :: rest =>
    if word.startsWith "-V" then .version
    else if word.startsWith "-h" then .help
    else if valued.contains word then
      match rest with
      | value :: rest =>
        match isValue value, options.withValue? (String.ofList (word.toList.drop 2)) value with
        | true, some options => read options rest
        | _, _ => .misuse
      | [] => .misuse
    else if word.startsWith "--" then
      match splitValue? word with
      | some (name, value) =>
        match options.withValue? name value with
        | some options => read options rest
        | none => .misuse
      | none => .misuse
    else .misuse

end Options

namespace Invocation

def ofArguments (arguments : List String) : Invocation := Options.read {} arguments

def exitCode : Invocation → Nat
  | misuse => 2
  | run _ | version | help => 0

def answer : Invocation → String
  | version => "multicalc 0.1.0\n"
  | run _ | help | misuse => ""

end Invocation

end DeskCalculator
