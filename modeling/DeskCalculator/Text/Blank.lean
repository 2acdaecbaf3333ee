/-!
Blank characters: the 25 characters with the `White_Space` property, and texts cut at them.
-/
namespace DeskCalculator.Text

/-- A blank is a character with the `White_Space` property. -/
def isBlank (c : Char) : Bool :=
  let n := c.toNat
  (9 ≤ n && n ≤ 13) || n == 0x20 || n == 0x85 || n == 0xA0 || n == 0x1680
    || (0x2000 ≤ n && n ≤ 0x200A) || n == 0x2028 || n == 0x2029 || n == 0x202F || n == 0x205F
    || n == 0x3000

def dropBlanks (cs : List Char) : List Char := cs.dropWhile isBlank

def strip (cs : List Char) : List Char := (dropBlanks (dropBlanks cs).reverse).reverse

/-- One character read from the right: a blank ends a word, any other character extends the word
that it stands before. The first component is the word that the text starts with. -/
def takeIntoWords (c : Char) : List Char × List (List Char) → List Char × List (List Char)
  | (word, words) =>
    if isBlank c then ([], if word = [] then words else word :: words) else (c :: word, words)

def words (cs : List Char) : List (List Char) :=
  match cs.foldr takeIntoWords ([], []) with
  | ([], rest) => rest
  | (word, rest) => word :: rest

example : words "  ab c\u3000d ".toList = ["ab".toList, "c".toList, "d".toList] := by decide

end DeskCalculator.Text
