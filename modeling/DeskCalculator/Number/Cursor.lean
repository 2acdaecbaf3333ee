import DeskCalculator.Number.Numeral
import DeskCalculator.Text.Bytes
/-!
Reading the numeral at the front of a text with a cursor that moves over its bytes.
-/
namespace DeskCalculator
open Text

/-- Where a numeral ends as far as it is known, in bytes, and what has been seen of it. -/
structure Cursor where
  stop : Nat := 0
  seenDigit : Bool := false
  seenPoint : Bool := false

namespace Cursor

/-- Goes past a sign at the front, a digit or the first point. All that is before the character has been gone past, so
that it starts where the cursor stops. -/
def accept? (cursor : Cursor) (c : Char) : Option Cursor :=
  let stop := cursor.stop + c.utf8Size
  if (c == '+' || c == '-') && cursor.stop == 0 then some { cursor with stop }
  else if c.isDigit then some { cursor with stop, seenDigit := true }
  else if c == '.' && !cursor.seenPoint then some { cursor with stop, seenPoint := true }
  else none

def advance (cursor : Cursor) : List Char → Cursor
  | [] => cursor
  | c :: cs =>
    match cursor.accept? c with
    | some next => next.advance cs
    | none => cursor

end Cursor

namespace Numeral

/-- The bytes of an exponent at the front of a text. -/
def exponentBytes? : List Char → Option Nat
  | [] => some 0
  | c :: rest =>
    if c == 'e' || c == 'E' then do
      let sign := if rest.head? = some '+' ∨ rest.head? = some '-' then 1 else 0
      let (_, unsigned) ← cutAt? sign rest
      let digits := (unsigned.takeWhile Char.isDigit).length
      return if 0 < digits then 1 + sign + digits else 0
    else some 0

/-- The numeral at the front of a text, read by a cursor. There is no result where the text would be cut within a
character, nor where what is cut off would not be a numeral. -/
def byCursor? (cs : List Char) : Option Float := do
  let cursor := ({} : Cursor).advance cs
  if cursor.seenDigit then
    let (_, rest) ← cutAt? cursor.stop cs
    let more ← exponentBytes? rest
    let (front, _) ← cutAt? (cursor.stop + more) cs
    read? (String.ofList front)
  else return Binary64.nan

end Numeral

end DeskCalculator
