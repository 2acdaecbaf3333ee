import DeskCalculator.Number.Cursor
import DeskCalculator.Proofs.Number.Longest

/-! A reader of leading numerals that moves a cursor over the bytes of a text. It stands where the longest numeral
ends, so that it never cuts a text within a character and always finds a numeral in what it has cut off. -/
namespace DeskCalculator
open Text

namespace Text

theorem utf8Size_of_isDigit {c : Char} (hc : c.isDigit = true) : c.utf8Size = 1 :=
  forall_digit (P := fun c => c.utf8Size = 1) (by decide) hc

theorem IsSign.utf8Size {sign : List Char} (hsign : IsSign sign) : ∀ c ∈ sign, c.utf8Size = 1 := by
  have hplus : '+'.utf8Size = 1 := by decide
  have hminus : '-'.utf8Size = 1 := by decide
  rcases hsign with rfl | rfl | rfl <;> simp [hplus, hminus]

theorem bytes_eq_length {cs : List Char} (hcs : ∀ c ∈ cs, c.utf8Size = 1) : bytes cs = cs.length := by
  induction cs with
  | nil => rfl
  | cons c cs ih =>
    rw [bytes, hcs c (by simp), ih fun d hd => hcs d (by simp [hd]), List.length_cons, Nat.add_comm]

/-- A cut after the bytes of what a text starts with takes that off. -/
theorem cutAt?_bytes (front rest : List Char) : cutAt? (bytes front) (front ++ rest) = some (front, rest) := by
  induction front with
  | nil => simp [bytes, cutAt?]
  | cons c front ih =>
    have hpos := c.utf8Size_pos
    obtain ⟨n, hn⟩ : ∃ n, c.utf8Size + bytes front = n + 1 := ⟨c.utf8Size + bytes front - 1, by omega⟩
    have hleft : n + 1 - c.utf8Size = bytes front := by omega
    have hfits : c.utf8Size ≤ n + 1 := by omega
    rw [bytes, hn, List.cons_append, cutAt?, if_pos hfits, hleft, ih]
    rfl

/-- Where all characters have one byte, a cut after a number of bytes is one after as many characters. -/
theorem cutAt?_append {front : List Char} (hfront : ∀ c ∈ front, c.utf8Size = 1) (rest : List Char) :
    cutAt? front.length (front ++ rest) = some (front, rest) := by
  rw [← bytes_eq_length hfront, cutAt?_bytes]

end Text

namespace Cursor
open Number

/-- A cursor that has gone past digits and points. -/
def past (cursor : Cursor) (run : List Char) : Cursor where
  stop := cursor.stop + run.length
  seenDigit := cursor.seenDigit || run.any Char.isDigit
  seenPoint := cursor.seenPoint || run.contains '.'

theorem past_cons (cursor : Cursor) (c : Char) (run : List Char) :
    cursor.past (c :: run) = (cursor.past [c]).past run := by
  simp only [past, List.length_cons, List.any_cons, List.any_nil, List.contains_cons, List.contains_nil,
    Bool.or_assoc, Bool.or_false, Cursor.mk.injEq, and_true]
  simp only [List.length_nil]
  omega

variable {cursor : Cursor} {c : Char}

theorem accept?_of_isLiteralChar (hc : Token.isLiteralChar c = true) (hpoint : c = '.' → cursor.seenPoint = false) :
    cursor.accept? c = some (cursor.past [c]) := by
  by_cases hdigit : c.isDigit = true
  · have hne {d : Char} (hd : d.isDigit = false) : (c == d) = false := by simpa using ne_of_isDigit hdigit hd
    have hpointNe : '.' ≠ c := (ne_of_isDigit hdigit (by decide)).symm
    simp [accept?, past, hdigit, hne, hpointNe, utf8Size_of_isDigit hdigit]
  · obtain rfl : c = '.' := by simpa [Token.isLiteralChar, hdigit] using hc
    have hsize : '.'.utf8Size = 1 := by decide
    simp [accept?, past, hpoint rfl, hsize]

theorem accept?_eq_none (hdigit : c.isDigit = false) (hpoint : c = '.' → cursor.seenPoint = true)
    (hsign : c = '+' ∨ c = '-' → cursor.stop ≠ 0) : cursor.accept? c = none := by
  have hnosign : ((c == '+' || c == '-') && cursor.stop == 0) = false := by
    simpa [Bool.and_eq_false_iff] using hsign
  have hnopoint : (c == '.' && !cursor.seenPoint) = false := by
    simpa [Bool.and_eq_false_iff] using hpoint
  simp [accept?, hnosign, hdigit, hnopoint]

/-- Does a cursor stand still before a text? -/
def Halts (cursor : Cursor) (rest : List Char) : Prop := ∀ c ∈ rest.head?, cursor.accept? c = none

theorem Halts.advance {rest : List Char} (h : cursor.Halts rest) : cursor.advance rest = cursor := by
  cases rest with
  | nil => rfl
  | cons c rest => rw [Cursor.advance, h c rfl]

theorem advance_run {run rest : List Char} (hliteral : ∀ c ∈ run, Token.isLiteralChar c = true)
    (hcount : run.count '.' + cursor.seenPoint.toNat ≤ 1) (hrest : (cursor.past run).Halts rest) :
    cursor.advance (run ++ rest) = cursor.past run := by
  induction run generalizing cursor with
  | nil =>
    have hnil : cursor.past [] = cursor := by simp [past]
    rw [hnil] at hrest ⊢
    exact hrest.advance
  | cons c run ih =>
    have hpoint : c = '.' → cursor.seenPoint = false := by
      rintro rfl
      rw [List.count_cons_self] at hcount
      exact Bool.toNat_eq_zero.mp (by omega)
    -- a point is either ahead or behind
    have hcount' : run.count '.' + (cursor.past [c]).seenPoint.toNat ≤ 1 := by
      by_cases hc : c = '.'
      · subst hc
        rw [List.count_cons_self] at hcount
        have hle := Bool.toNat_le (cursor.past ['.']).seenPoint
        omega
      · rw [List.count_cons_of_ne hc] at hcount
        simpa [past, Ne.symm hc] using hcount
    rw [past_cons] at hrest ⊢
    rw [List.cons_append, Cursor.advance, accept?_of_isLiteralChar (hliteral c (by simp)) hpoint]
    exact ih (fun d hd => hliteral d (by simp [hd])) hcount' hrest

/-- A sign is gone past at the front, and digits and points after it, up to where they cannot go on. -/
theorem advance_append {sign run rest : List Char} (hsign : IsSign sign) (hrun : Numeral.IsRun run)
    (hstops : Numeral.Stops run rest) (hunsigned : (takeSign (sign ++ (run ++ rest))).2 = run ++ rest) :
    ({} : Cursor).advance (sign ++ (run ++ rest)) = Cursor.past { stop := sign.length } run := by
  have hhalts : (Cursor.past { stop := sign.length } run).Halts rest := by
    intro c hc
    obtain ⟨hdigit, hpoint⟩ := hstops c hc
    refine accept?_eq_none hdigit (by simpa [past] using hpoint) fun hcsign hstop => ?_
    -- a sign at the front would have been taken for the sign
    obtain ⟨rfl, rfl⟩ : sign = [] ∧ run = [] := by simpa [past] using hstop
    exact head?_of_takeSign hunsigned c hc hcsign
  have hplus : '+'.utf8Size = 1 := by decide
  have hminus : '-'.utf8Size = 1 := by decide
  have hsigned : ({} : Cursor).advance (sign ++ (run ++ rest))
      = Cursor.advance { stop := sign.length } (run ++ rest) := by
    rcases hsign with rfl | rfl | rfl
    · rfl
    · simp [Cursor.advance, accept?, hplus]
    · simp [Cursor.advance, accept?, hminus]
  rw [hsigned]
  exact advance_run hrun.1 hrun.2 hhalts

end Cursor

namespace Numeral
open Number

theorem signBytes_eq {sign rest : List Char} (hsign : IsSign sign) (hrest : rest = sign ++ (takeSign rest).2) :
    (if rest.head? = some '+' ∨ rest.head? = some '-' then 1 else 0) = sign.length := by
  rcases hsign with rfl | rfl | rfl
  · have hnone := head?_of_takeSign hrest.symm
    rw [if_neg fun h => h.elim (fun h => hnone _ h (Or.inl rfl)) fun h => hnone _ h (Or.inr rfl)]
    rfl
  · rw [hrest]
    simp
  · rw [hrest]
    simp

/-- The bytes of an exponent are those of the characters that are taken for it. -/
theorem exponentBytes?_eq (cs : List Char) : exponentBytes? cs = some (cs.length - (takeExponent cs).2.length) := by
  cases cs with
  | nil => rfl
  | cons c rest =>
    by_cases hc : c = 'e' ∨ c = 'E'
    · have hletter : (c == 'e' || c == 'E') = true := by simpa using hc
      obtain ⟨sign, hsign, hrest⟩ := exists_sign rest
      have hbytes := signBytes_eq hsign hrest
      have hcut := cutAt?_append hsign.utf8Size (takeSign rest).2
      rw [← hrest] at hcut
      set unsigned := (takeSign rest).2
      by_cases hnil : unsigned.takeWhile Char.isDigit = []
      · rw [takeExponent_of_no_digits hnil]
        simp [exponentBytes?, hletter, hbytes, hcut, hnil]
      · -- what is left of the text is as long as all of it without the letter, the sign and the digits
        have htaken := takeExponent_append hc hsign hnil (fun d hd => List.mem_takeWhile_imp hd)
          (dropWhile_ends Char.isDigit unsigned)
        rw [List.cons_append, List.append_assoc, List.takeWhile_append_dropWhile, ← hrest] at htaken
        have hpos : 0 < (unsigned.takeWhile Char.isDigit).length := List.length_pos_iff.mpr hnil
        have hlength := congrArg List.length hrest
        have hdigits := congrArg List.length (takeDigits_append unsigned)
        simp only [takeDigits, List.length_append] at hlength hdigits
        simp only [exponentBytes?, hletter, if_true, hbytes, hcut, Option.bind_eq_bind, Option.bind_some, if_pos hpos,
          Option.pure_def, htaken, List.length_cons]
        congr 1
        omega
    · have hletter : (c == 'e' || c == 'E') = false := by simpa using hc
      rw [takeExponent_of_ne hc]
      simp [exponentBytes?, hletter]

theorem utf8Size_of_isLiteralChar {c : Char} (hc : Token.isLiteralChar c = true) : c.utf8Size = 1 := by
  simp only [Token.isLiteralChar, Bool.or_eq_true, beq_iff_eq] at hc
  rcases hc with hdigit | rfl
  · exact utf8Size_of_isDigit hdigit
  · decide

theorem IsPower.utf8Size {power : List Char} (h : IsPower power) : ∀ c ∈ power, c.utf8Size = 1 := by
  cases h with
  | none => simp
  | letter hc hsign _ hds =>
    intro d hd
    rcases List.mem_cons.mp hd with rfl | hd
    · rcases hc with rfl | rfl <;> decide
    · exact (List.mem_append.mp hd).elim (hsign.utf8Size d) fun hd => utf8Size_of_isDigit (hds d hd)

/-- The text is cut after the mantissa first, and after the exponent with all of it. -/
theorem byCursor?_append {sign run power rest : List Char} (hsign : IsSign sign) (hrun : IsRun run)
    (hpower : IsPower power) (hstops : Stops run (power ++ rest)) (hdigit : ∃ c ∈ run, c.isDigit = true)
    (hunsigned : (takeSign (sign ++ (run ++ (power ++ rest)))).2 = run ++ (power ++ rest))
    (htaken : (takeExponent (power ++ rest)).2 = rest) :
    byCursor? (sign ++ (run ++ (power ++ rest))) = read? (String.ofList (sign ++ (run ++ power))) := by
  have hmantissa : ∀ c ∈ sign ++ run, c.utf8Size = 1 := by
    intro c hc
    exact (List.mem_append.mp hc).elim (hsign.utf8Size c) fun hc => utf8Size_of_isLiteralChar (hrun.1 c hc)
  have hall : ∀ c ∈ sign ++ (run ++ power), c.utf8Size = 1 := by
    intro c hc
    rw [← List.append_assoc] at hc
    exact (List.mem_append.mp hc).elim (hmantissa c) (hpower.utf8Size c)
  have hseen : (Cursor.past { stop := sign.length } run).seenDigit = true := by
    simpa only [Cursor.past, Bool.false_or, List.any_eq_true] using hdigit
  have hstop : (Cursor.past { stop := sign.length } run).stop = (sign ++ run).length := List.length_append.symm
  have hcut := cutAt?_append hmantissa (power ++ rest)
  have hbytes : exponentBytes? (power ++ rest) = some power.length := by
    rw [exponentBytes?_eq, htaken, List.length_append, Nat.add_sub_cancel]
  have hcut' := cutAt?_append hall rest
  have hlength : (sign ++ run).length + power.length = (sign ++ (run ++ power)).length := by
    simp only [List.length_append, Nat.add_assoc]
  simp only [List.append_assoc] at hcut hcut'
  rw [byCursor?, Cursor.advance_append hsign hrun hstops hunsigned, if_pos hseen, hstop, hcut]
  simp only [Option.bind_eq_bind, Option.bind_some, hbytes, hlength, hcut']

/-- The cursor reads the numeral that the scanner takes off. -/
theorem byCursor?_eq (cs : List Char) :
    byCursor? cs = some (((scan cs).map fun taken => taken.1.value).getD Binary64.nan) := by
  obtain ⟨sign, hsign, hcs⟩ := exists_sign cs
  obtain ⟨whole, point, tail, htail, hwhole, hpoint, hstops⟩ := exists_mantissa (takeSign cs).2
  have hrun := isRun_append hwhole hpoint
  have hdigit := exists_isDigit_iff hwhole hpoint
  have hunsigned : (takeSign (sign ++ (whole ++ point ++ tail))).2 = whole ++ point ++ tail := by
    rw [← htail, ← hcs]
  rw [htail] at hcs
  by_cases hne : whole ++ point.tail = []
  · -- a point and a sign alone have no digit for either of them
    have hscan : scan cs = none := by
      rw [scan_eq, htail, takeMantissa_append hwhole hpoint hstops]
      simp [hne]
    have hseen : ¬ (Cursor.past { stop := sign.length } (whole ++ point)).seenDigit = true := by
      simpa only [Cursor.past, Bool.false_or, List.any_eq_true, hdigit, not_not, ne_eq] using hne
    rw [hscan, byCursor?, hcs, Cursor.advance_append hsign hrun hstops hunsigned, if_neg hseen]
    rfl
  · -- the scanner is run on the whole text, and once more on what the cursor has cut off
    obtain ⟨power, rest, rfl, hpower, htaken, halone⟩ := exists_power tail
    have hscan := scan_append hsign hwhole hpoint hne hstops
    have hfront := scan_append hsign hwhole hpoint hne (hpower.isOfKind.ends.stops _)
    rw [← hcs, htaken] at hscan
    rw [halone] at hfront
    rw [hscan, hcs, byCursor?_append hsign hrun hpower.isOfKind hstops (hdigit.mpr hne) hunsigned (by rw [htaken]),
      read?, String.toList_ofList, hfront]
    rfl

theorem code_le (d : Decimal) : d.code ≤ Binary64.infinityCode := by
  unfold Decimal.code
  split_ifs
  · exact Nat.zero_le _
  · exact le_rfl
  · exact Nat.zero_le _
  · unfold Binary64.codeOfQuotient
    dsimp only
    split_ifs with hfinite
    · exact hfinite.le
    · exact le_rfl

theorem isNaN_value (n : Numeral) : n.value.isNaN = false := by
  have hle := code_le n.decimal
  rw [Bool.eq_false_iff, ne_eq, Binary64.isNaN_iff, value, Binary64.code_ofCode _ hle]
  exact Nat.not_lt.mpr hle

/-- A number is read off the front of a text as the longest numeral there, with blanks before it left out. -/
theorem leading_numeral (text : String) :
    ((leading text).isNaN = true ↔ ∀ front, front <+: dropBlanks text.toList → ¬ IsSpelling front) ∧
      ((leading text).isNaN = true → leading text = Binary64.nan) ∧
      ((leading text).isNaN = false → ∃ front, IsLongest IsSpelling front (dropBlanks text.toList) ∧
        read? (String.ofList front) = some (leading text)) ∧
      byCursor? (dropBlanks text.toList) = some (leading text) := by
  set cs := dropBlanks text.toList
  cases hscan : scan cs with
  | none =>
    have hleading : leading text = Binary64.nan := by simp only [leading, cs, hscan]
    have hnan : (leading text).isNaN = true := by
      rw [hleading]
      decide +kernel
    refine ⟨⟨fun _ front => not_isSpelling_of_scan hscan, fun _ => hnan⟩, fun _ => hleading,
      fun h => absurd (hnan.symm.trans h) (by decide), ?_⟩
    rw [byCursor?_eq, hscan, hleading]
    rfl
  | some taken =>
    obtain ⟨n, rest⟩ := taken
    have hleading : leading text = n.value := by simp only [leading, cs, hscan]
    have hnan : (leading text).isNaN = false := by rw [hleading, isNaN_value]
    obtain ⟨front, -, hlongest, halone⟩ := scan_longest hscan
    have hnumber : ¬ (leading text).isNaN = true := by
      rw [hnan]
      decide
    refine ⟨⟨fun h => absurd h hnumber, fun h => absurd hlongest.isOfKind (h front hlongest.isPrefix)⟩,
      fun h => absurd h hnumber, fun _ => ⟨front, hlongest, ?_⟩, ?_⟩
    · rw [hleading, read?, String.toList_ofList, halone]
    · rw [byCursor?_eq, hscan, hleading]
      rfl

end Numeral

end DeskCalculator
