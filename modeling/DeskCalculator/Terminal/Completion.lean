import DeskCalculator.Terminal.Keys
/-!
Completion of commands at a tab.
-/
namespace DeskCalculator.Completion

/-- The characters that a word which is being completed cannot hold. -/
def isBreak (c : Char) : Bool := " \t\n\"\\'\x60@$><=;|&\x7b(".toList.contains c

def candidates (word : List Char) : List String :=
  Key.commands.filter fun command => word.isPrefixOf command.toList

def ending (command : String) : List Char := if command.endsWith "=" then [] else [' ']

/-- The text after a tab was typed at its end: if its last word starts with a colon and begins a single
command, that command is written out. -/
def complete (typed : List Char) : List Char :=
  let word := (typed.reverse.takeWhile fun c => !isBreak c).reverse
  let before := typed.take (typed.length - word.length)
  match word, candidates word with
  | ':' :: _, [command] => before ++ command.toList ++ ending command
  | _, _ => typed

def expand (typed : String) : String :=
  String.ofList (typed.toList.foldl (fun line c => if c = '\t' then complete line else line ++ [c]) [])

end DeskCalculator.Completion
