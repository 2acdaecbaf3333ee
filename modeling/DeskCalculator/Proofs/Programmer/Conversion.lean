import DeskCalculator.Proofs.Programmer.Integers

/-! Conversion between bases goes by the integer that a text stands for, which is zero where the text begins
with none that fits. What comes out stands for the same integer, so that the way through other bases does not
matter. -/
namespace DeskCalculator

namespace Base

/-- The integer that a text stands for in a base. -/
def valueOf (base : Base) (text : String) : Int64 := (base.read text).toOption.getD 0

theorem valueOf_of_read {base : Base} {text : String} {n : Int64} (h : base.read text = .ok n) :
    base.valueOf text = n := by
  rw [valueOf, h]
  rfl

theorem valueOf_of_fault {base : Base} {text : String} {fault : Fault} (h : base.read text = .error fault) :
    base.valueOf text = 0 := by
  rw [valueOf, h]
  rfl

theorem natAbs_valueOf_le (base : Base) (text : String) :
    (base.valueOf text).toInt.natAbs ≤ maxMagnitude := by
  cases h : base.read text with
  | ok n =>
    rw [valueOf_of_read h]
    exact natAbs_le_of_read h
  | error fault =>
    rw [valueOf_of_fault h]
    exact Nat.zero_le _

/-- The two texts that are not read at all stand for zero in every base. -/
theorem valueOf_of_short {base : Base} {text : String} (h : text = "" ∨ text = "0") : base.valueOf text = 0 := by
  rcases h with rfl | rfl
  · exact valueOf_of_fault base.read_empty
  · exact valueOf_of_read base.read_zero

/-- Conversion is the same for all texts, so that it makes no difference that two of them are not read. -/
theorem convert_eq_write (text : String) (source target : Base) :
    convert text source target = target.write (source.valueOf text) := by
  unfold convert
  by_cases hshort : text = "" ∨ text = "0"
  · rw [if_pos (by simpa using hshort), valueOf_of_short hshort, write_zero]
  · rw [if_neg (by simpa using hshort)]
    cases h : source.read text with
    | ok n => rw [valueOf_of_read h]
    | error fault => rw [valueOf_of_fault h, write_zero]

/-- A text that was converted stands for the integer that it stood for. -/
theorem valueOf_convert (text : String) (source target : Base) :
    target.valueOf (convert text source target) = source.valueOf text := by
  rw [convert_eq_write]
  exact valueOf_of_read (target.read_write_of_natAbs_le (source.natAbs_valueOf_le text))

end Base

open Base

theorem convert_convert (text : String) (a b c : Base) :
    convert (convert text a b) b c = convert text a c := by
  rw [convert_eq_write, valueOf_convert, ← convert_eq_write]

/-- A text that is converted from base to base along a path. -/
def convertAlong (text : String) (source : Base) : List Base → String
  | [] => text
  | next :: path => convertAlong (convert text source next) next path

/-- Only the first base and the last one count on a way through bases, for every text: numerals, and what is
none or does not fit. -/
theorem convert_independent_of_path (text : String) (a c : Base) :
    (∀ path : List Base, convertAlong text a (path ++ [c]) = convert text a c) ∧
      (∀ b : Base, convert (convert text a b) b c = convert text a c) ∧
      ∀ b : Base, convert (convert text a b) b a = convert text a a := by
  refine ⟨?_, fun b => convert_convert text a b c, fun b => convert_convert text a b a⟩
  intro path
  induction path generalizing text a with
  | nil => rfl
  | cons b path ih => exact (ih (convert text a b) b).trans (convert_convert text a b c)

theorem minus_1f_in_octal :
    convertAlong "\t-1fg" .hex [.dec, .bin, .oct] = "-37" ∧ convert (convert "\t-1fg" .hex .bin) .bin .oct = "-37" := by
  obtain ⟨hpath, hthrough, -⟩ := convert_independent_of_path "\t-1fg" .hex .oct
  have hdirect : convert "\t-1fg" .hex .oct = "-37" := by decide
  exact ⟨(hpath [.dec, .bin]).trans hdirect, (hthrough .bin).trans hdirect⟩

end DeskCalculator
