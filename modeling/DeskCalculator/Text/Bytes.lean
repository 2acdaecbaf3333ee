/-!
Texts by the bytes that their characters take up.
-/
namespace DeskCalculator.Text

/-- The length of a text in bytes. -/
def bytes : List Char → Nat
  | [] => 0
  | c :: cs => c.utf8Size + bytes cs

/-- A text cut after some of its bytes, which have to end with a character. -/
def cutAt? : Nat → List Char → Option (List Char × List Char)
  | 0, cs => some ([], cs)
  | _ + 1, [] => none
  | bytes + 1, c :: cs =>
    if c.utf8Size ≤ bytes + 1 then
      (cutAt? (bytes + 1 - c.utf8Size) cs).map fun (front, rest) => (c :: front, rest)
    else none

end DeskCalculator.Text
