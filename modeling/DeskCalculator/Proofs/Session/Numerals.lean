import DeskCalculator.Proofs.Number.Layout
import DeskCalculator.Proofs.Session.Changes

/-! Numerals under the keys that edit them. A digit keeps a numeral one; a point and Backspace do unless the
numeral has an exponent, into which they cut. -/
namespace DeskCalculator
open Number Session

/-- A text that ends in an exponent of one digit, with its sign. -/
def EndsInShortExponent (text : String) : Prop :=
  ∃ front sign digit, (sign = '+' ∨ sign = '-') ∧ text.toList = front ++ ['e', sign, digit]

variable {text : String} {sign whole fraction exponent : List Char} {c : Char}

namespace Number

theorem isLaidOut_singleton (htext : text.toList = [c]) (hc : c.isDigit = true) : IsLaidOut text :=
  ⟨[], [c], [], [], by simp [htext], Or.inl rfl, by simp, by simpa using hc, .none, .none⟩

theorem isLaidOut_zero : IsLaidOut "0" := isLaidOut_singleton rfl (by decide)

/-- A digit goes to the last of the parts that are there. -/
theorem Layout.push_digit {next : String} (h : Layout text sign whole fraction exponent)
    (hc : c.isDigit = true) (hnext : next.toList = text.toList ++ [c]) : IsLaidOut next := by
  have hdigits {ds : List Char} (hds : ∀ d ∈ ds, d.isDigit = true) : ∀ d ∈ ds ++ [c], d.isDigit = true := by
    intro d hd
    rcases List.mem_append.mp hd with hd | hd
    · exact hds d hd
    · exact List.mem_singleton.mp hd ▸ hc
  rw [h.toList_eq] at hnext
  cases hexponent : h.isExponent with
  | @signed s ds hsign hne hds =>
    exact ⟨sign, whole, fraction, 'e' :: s :: (ds ++ [c]), by simp [hnext], h.isSign, h.whole_ne_nil,
      h.whole_digits, h.isFraction, .signed hsign (by simp) (hdigits hds)⟩
  | none =>
    cases h.isFraction with
    | @point ds hds =>
      exact ⟨sign, whole, '.' :: (ds ++ [c]), [], by simp [hnext], h.isSign, h.whole_ne_nil,
        h.whole_digits, .point (hdigits hds), .none⟩
    | none =>
      exact ⟨sign, whole ++ [c], [], [], by simp [hnext], h.isSign, by simp, hdigits h.whole_digits,
        .none, .none⟩

theorem IsLaidOut.extended (h : IsLaidOut text) (hc : c.isDigit = true) : IsLaidOut (extended text c) := by
  by_cases hzero : text = "0"
  · subst hzero
    exact isLaidOut_singleton (extended_zero c) hc
  · obtain ⟨sign, whole, fraction, exponent, h⟩ := h
    exact h.push_digit hc (extended_of_ne hzero c)

theorem Layout.lastNumeral_eq (h : Layout text sign whole fraction []) :
    lastNumeral text = whole ++ fraction := by
  refine lastNumeral_of_eq (by rw [h.toList_eq, List.append_nil, List.append_assoc]) ?_ h.isLiteralChar
  rcases h.isSign with rfl | rfl <;> simp
  decide

theorem Layout.push_point {next : String} (h : Layout text sign whole fraction exponent)
    (he : 'e' ∉ text.toList) (hpoint : '.' ∉ lastNumeral text) (hnext : next.toList = text.toList ++ ['.']) :
    IsLaidOut next := by
  obtain rfl := h.exponent_eq_nil he
  rw [h.lastNumeral_eq] at hpoint
  rw [h.toList_eq] at hnext
  cases h.isFraction with
  | none =>
    exact ⟨sign, whole, ['.'], [], by simp [hnext], h.isSign, h.whole_ne_nil, h.whole_digits,
      .point (by simp), .none⟩
  | point => simp at hpoint

theorem IsLaidOut.push_point (h : IsLaidOut text) (he : 'e' ∉ text.toList) (hpoint : '.' ∉ lastNumeral text) :
    IsLaidOut (text.push '.') := by
  obtain ⟨sign, whole, fraction, exponent, h⟩ := h
  exact h.push_point he hpoint (String.toList_push ..)

/-- The digits of an exponent count as a numeral of their own, and they hold no point. -/
theorem IsLaidOut.point_not_mem_lastNumeral (h : IsLaidOut text) (he : 'e' ∈ text.toList) :
    '.' ∉ lastNumeral text := by
  obtain ⟨sign, whole, fraction, exponent, h⟩ := h
  have hexponent := h.exponent_ne_nil he
  have htext := h.toList_eq
  cases h.isExponent with
  | none => exact absurd rfl hexponent
  | @signed s ds hsign hne hds =>
    have hsplit : text.toList = sign ++ whole ++ fraction ++ ['e', s] ++ ds := by simp [htext]
    have hliteral : ∀ d ∈ (sign ++ whole ++ fraction ++ ['e', s]).getLast?, Token.isLiteralChar d = false := by
      rcases hsign with rfl | rfl <;> simp <;> decide
    rw [lastNumeral_of_eq hsplit hliteral fun d hd => isLiteralChar_of_isDigit (hds d hd)]
    exact fun hmem => ne_of_isDigit (hds _ hmem) (by decide) rfl

theorem Layout.mem_whole (h : Layout text sign whole fraction exponent) :
    ∃ d ∈ text.toList, d.isDigit = true := by
  obtain ⟨d, ds, hcons⟩ := List.exists_cons_of_ne_nil h.whole_ne_nil
  exact ⟨d, by simp [h.toList_eq, hcons], h.whole_digits d (by simp [hcons])⟩

/-- Backspace leaves what stood before the last character, if that is a numeral. -/
theorem isLaidOut_shortened_of_eq {front : List Char} (htext : text.toList = front ++ [c])
    (hfront : IsLaidOut (String.ofList front)) : IsLaidOut (shortened text) := by
  obtain ⟨sign, whole, fraction, exponent, h⟩ := hfront
  obtain ⟨d, hmem, hd⟩ := h.mem_whole
  rw [String.toList_ofList] at hmem
  have hrest := toList_shortened htext hmem (ne_of_isDigit hd (by decide))
  exact ⟨sign, whole, fraction, exponent, by rw [hrest, ← h.toList_eq, String.toList_ofList], h.isSign,
    h.whole_ne_nil, h.whole_digits, h.isFraction, h.isExponent⟩

/-- Backspace takes the last character of the last part that is there. A part that is left empty goes, but
for an exponent, which must keep a digit after its sign. -/
theorem IsLaidOut.shortened (h : IsLaidOut text) (hlong : ¬ EndsInShortExponent text) :
    IsLaidOut (shortened text) := by
  obtain ⟨sign, whole, fraction, exponent, h⟩ := h
  have htext := h.toList_eq
  have hkept (whole fraction exponent : List Char) (c : Char)
      (hsplit : text.toList = sign ++ whole ++ fraction ++ exponent ++ [c]) (hne : whole ≠ [])
      (hwhole : ∀ d ∈ whole, d.isDigit = true) (hfraction : IsFraction fraction)
      (hexponent : IsExponent exponent) : IsLaidOut (DeskCalculator.shortened text) :=
    isLaidOut_shortened_of_eq hsplit ⟨sign, whole, fraction, exponent, String.toList_ofList, h.isSign, hne,
      hwhole, hfraction, hexponent⟩
  cases h.isExponent with
  | @signed s ds hsign hne hds =>
    obtain ⟨es, d, rfl⟩ := (List.eq_nil_or_concat' ds).resolve_left hne
    by_cases hnil : es = []
    · exact absurd ⟨sign ++ whole ++ fraction, s, d, hsign, by simp [htext, hnil]⟩ hlong
    · exact hkept whole fraction ('e' :: s :: es) d (by simp [htext]) h.whole_ne_nil h.whole_digits
        h.isFraction (.signed hsign hnil fun c hc => hds c (by simp [hc]))
  | none =>
    cases h.isFraction with
    | @point ds hds =>
      rcases List.eq_nil_or_concat' ds with rfl | ⟨es, d, rfl⟩
      · exact hkept whole [] [] '.' (by simpa using htext) h.whole_ne_nil h.whole_digits .none .none
      · exact hkept whole ('.' :: es) [] d (by simpa using htext) h.whole_ne_nil h.whole_digits
          (.point fun c hc => hds c (by simp [hc])) .none
    | none =>
      obtain ⟨es, d, rfl⟩ := (List.eq_nil_or_concat' whole).resolve_left h.whole_ne_nil
      by_cases hnil : es = []
      · subst hnil
        rw [shortened_of_eq (by simpa using htext), if_pos h.isSign]
        exact isLaidOut_zero
      · exact hkept es [] [] d (by simpa using htext) hnil (fun c hc => h.whole_digits c (by simp [hc])) .none
          .none

end Number

/-- What Backspace leaves of a short exponent ends in its sign. -/
theorem EndsInShortExponent.exists_shortened (h : EndsInShortExponent text) :
    ∃ front sign, (shortened text).toList = front ++ [sign] ∧ 'e' ∈ front ∧ sign.isDigit = false := by
  obtain ⟨front, sign, digit, hsign, htext⟩ := h
  have hsplit : text.toList = front ++ ['e', sign] ++ [digit] := by simp [htext]
  have hrest := toList_shortened hsplit (d := 'e') (by simp) (by decide)
  refine ⟨front ++ ['e'], sign, by simp [hrest], by simp, ?_⟩
  rcases hsign with rfl | rfl <;> decide

end DeskCalculator
