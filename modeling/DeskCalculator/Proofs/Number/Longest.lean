import DeskCalculator.Proofs.Number.Layout

/-! The numeral that a text starts with. A numeral may be spelled in many ways; of all that a text starts with, the
longest one is taken off its front, and it is read alone as it is read there. -/
namespace DeskCalculator

/-- The longest of the texts of a kind that a text starts with. -/
structure IsLongest (kind : List Char → Prop) (front cs : List Char) : Prop where
  isPrefix : front <+: cs
  isOfKind : kind front
  length_le : ∀ other, other <+: cs → kind other → other.length ≤ front.length

theorem IsLongest.covers {kind : List Char → Prop} {front cs other : List Char} (h : IsLongest kind front cs)
    (hfront : other <+: cs) (hkind : kind other) : other <+: front :=
  List.prefix_of_prefix_length_le hfront h.isPrefix (h.length_le other hfront hkind)

namespace Numeral
open Text Number

/-- Nothing, or the letter in either case, a sign or none, and at least one digit. -/
inductive IsPower : List Char → Prop
  | none : IsPower []
  | letter {c : Char} {sign ds : List Char} (hc : c = 'e' ∨ c = 'E') (hsign : IsSign sign) (hne : ds ≠ [])
      (hds : ∀ d ∈ ds, d.isDigit = true) : IsPower (c :: (sign ++ ds))

/-- A numeral in any of its spellings: a sign or none, digits with at most one point among them, and an exponent or
none. -/
def IsSpelling (cs : List Char) : Prop :=
  ∃ sign mantissa power, cs = sign ++ (mantissa ++ power) ∧ IsSign sign ∧ IsMantissa mantissa ∧ IsPower power

/-! ### Exponents -/

theorem takeSign_digits {sign ds : List Char} (hsign : IsSign sign) (hne : ds ≠ [])
    (hds : ∀ d ∈ ds, d.isDigit = true) (rest : List Char) :
    takeSign (sign ++ (ds ++ rest)) = (sign == ['-'], ds ++ rest) := by
  obtain ⟨d, es, rfl⟩ := List.exists_cons_of_ne_nil hne
  have hd : d.isDigit = true := hds d (by simp)
  exact hsign.takeSign_append (ne_of_isDigit hd (by decide)) (ne_of_isDigit hd (by decide)) _

theorem takeExponent_of_ne {c : Char} (hc : ¬ (c = 'e' ∨ c = 'E')) (rest : List Char) :
    takeExponent (c :: rest) = (0, c :: rest) := by
  simp only [not_or] at hc
  simp [takeExponent, hc]

theorem takeExponent_of_no_digits {c : Char} {rest : List Char} (h : (takeSign rest).2.takeWhile Char.isDigit = []) :
    takeExponent (c :: rest) = (0, c :: rest) := by
  simp [takeExponent, takeDigits, h]

/-- What an exponent is worth: nothing there is zero. -/
def powerValue (power : List Char) : Int := (takeExponent power).1

theorem takeExponent_append {c : Char} {sign ds rest : List Char} (hc : c = 'e' ∨ c = 'E') (hsign : IsSign sign)
    (hne : ds ≠ []) (hds : ∀ d ∈ ds, d.isDigit = true) (hrest : ∀ d ∈ rest.head?, d.isDigit = false) :
    takeExponent (c :: (sign ++ ds) ++ rest)
      = (if sign == ['-'] then -(digitsValue ds : Int) else digitsValue ds, rest) := by
  have hletter : (c == 'e' || c == 'E') = true := by simpa using hc
  have hsigned : takeSign (sign ++ ds ++ rest) = (sign == ['-'], ds ++ rest) := by
    rw [List.append_assoc, takeSign_digits hsign hne hds]
  have hdigits := takeDigits_of_digits hds hrest
  simp only [List.cons_append, takeExponent, hletter, if_true, hsigned, hdigits]

/-- An exponent at the front of a text has the letter there, and the digits after it and its sign are among those that
are taken. -/
theorem IsPower.of_front {c : Char} {tail power : List Char} (h : IsPower power) (hfront : power <+: c :: tail) :
    power = [] ∨ (c = 'e' ∨ c = 'E') ∧ ∃ sign ds, power = c :: (sign ++ ds) ∧ ds ≠ [] ∧
      ds <+: (takeSign tail).2.takeWhile Char.isDigit ∧ tail.length = sign.length + (takeSign tail).2.length := by
  cases h with
  | none => exact Or.inl rfl
  | @letter c' sign ds hletter hsign hne hds =>
    obtain ⟨rfl, t, htail⟩ := List.cons_prefix_cons.mp hfront
    rw [List.append_assoc] at htail
    have htaken := takeSign_digits hsign hne hds t
    rw [htail] at htaken
    refine Or.inr ⟨hletter, sign, ds, rfl, hne, ?_, ?_⟩
    · rw [htaken, List.takeWhile_append_of_pos hds]
      exact List.prefix_append _ _
    · rw [htaken, ← htail, List.length_append]

/-- The exponent that is taken off the front of a text: it is the longest one there, and it is taken alone as it is
there. -/
structure TakesPower (cs power rest : List Char) : Prop where
  text_eq : cs = power ++ rest
  isLongest : IsLongest IsPower power cs
  taken : takeExponent cs = (powerValue power, rest)
  alone : takeExponent power = (powerValue power, [])

theorem takesPower_none {cs : List Char} (hcs : takeExponent cs = (0, cs))
    (hother : ∀ other, other <+: cs → IsPower other → other = []) : TakesPower cs [] cs where
  text_eq := rfl
  isLongest := ⟨List.nil_prefix, .none, fun other hfront hpower => by rw [hother other hfront hpower]⟩
  taken := hcs
  alone := rfl

theorem takesPower_letter {c : Char} {sign ds rest : List Char} (hc : c = 'e' ∨ c = 'E') (hsign : IsSign sign)
    (hne : ds ≠ []) (hds : ∀ d ∈ ds, d.isDigit = true) (hrest : ∀ d ∈ rest.head?, d.isDigit = false) :
    TakesPower (c :: (sign ++ ds) ++ rest) (c :: (sign ++ ds)) rest := by
  have hnothing : ∀ d ∈ ([] : List Char).head?, d.isDigit = false := by simp
  have halone := takeExponent_append hc hsign hne hds hnothing
  rw [List.append_nil] at halone
  refine ⟨rfl, ⟨⟨rest, rfl⟩, .letter hc hsign hne hds, fun other hfront hpower => ?_⟩, ?_, ?_⟩
  · -- any other one has the same sign and starts with the same digits
    have htail : takeSign (sign ++ ds ++ rest) = (sign == ['-'], ds ++ rest) := by
      rw [List.append_assoc, takeSign_digits hsign hne hds]
    rw [List.cons_append] at hfront
    obtain rfl | ⟨-, sign', ds', rfl, -, hds', hlength⟩ := hpower.of_front hfront
    · exact Nat.zero_le _
    · rw [htail, (takeRun hds hrest).1] at hds'
      rw [htail] at hlength
      have hle := hds'.length_le
      simp only [List.length_cons, List.length_append] at hlength ⊢
      omega
  · rw [powerValue, halone, takeExponent_append hc hsign hne hds hrest]
  · rw [powerValue, halone]

theorem exists_power (cs : List Char) : ∃ power rest, TakesPower cs power rest := by
  cases cs with
  | nil => exact ⟨[], [], takesPower_none rfl fun other hfront _ => List.prefix_nil.mp hfront⟩
  | cons c tail =>
    by_cases hc : c = 'e' ∨ c = 'E'
    · obtain ⟨sign, hsign, htail⟩ := exists_sign tail
      by_cases hdigits : (takeSign tail).2.takeWhile Char.isDigit = []
      · refine ⟨[], c :: tail, takesPower_none (takeExponent_of_no_digits hdigits) fun other hfront hpower => ?_⟩
        obtain hnil | ⟨-, sign, ds, -, hne, hds, -⟩ := hpower.of_front hfront
        · exact hnil
        · rw [hdigits] at hds
          exact absurd (List.prefix_nil.mp hds) hne
      · have hpower := takesPower_letter hc hsign hdigits (fun d hd => List.mem_takeWhile_imp hd)
          (dropWhile_ends Char.isDigit (takeSign tail).2)
        rw [List.cons_append, List.append_assoc, List.takeWhile_append_dropWhile, ← htail] at hpower
        exact ⟨_, _, hpower⟩
    · refine ⟨[], c :: tail, takesPower_none (takeExponent_of_ne hc tail) fun other hfront hpower => ?_⟩
      exact (hpower.of_front hfront).resolve_right fun hletter => hc hletter.1

/-! ### Digits with a point -/

/-- Digits with at most one point among them. -/
def IsRun (cs : List Char) : Prop := (∀ c ∈ cs, Token.isLiteralChar c = true) ∧ cs.count '.' ≤ 1

/-- Takes digits with a point among them: the digits before it and those after it. -/
def takeMantissa (cs : List Char) : (List Char × List Char) × List Char :=
  let (whole, cs) := takeDigits cs
  let (fraction, cs) := takeFraction cs
  ((whole, fraction), cs)

theorem scan_eq (cs : List Char) :
    scan cs =
      let ((whole, fraction), rest) := takeMantissa (takeSign cs).2
      if whole ++ fraction = [] then none
      else some (⟨(takeSign cs).1, ⟨digitsValue (whole ++ fraction), (takeExponent rest).1 - fraction.length⟩⟩,
        (takeExponent rest).2) := rfl

/-- Can a run not go on into the rest of a text? -/
def Stops (run rest : List Char) : Prop := ∀ c ∈ rest.head?, c.isDigit = false ∧ (c = '.' → '.' ∈ run)

theorem Ends.stops {rest : List Char} (h : Ends rest) (run : List Char) : Stops run rest := fun c hc =>
  ⟨(h c hc).1, fun hpoint => absurd hpoint (h c hc).2⟩

theorem IsRun.isLongest {run rest : List Char} (h : IsRun run) (hstops : Stops run rest) :
    IsLongest IsRun run (run ++ rest) := by
  refine ⟨List.prefix_append _ _, h, fun other hfront hrun => ?_⟩
  by_contra hlonger
  -- a longer run would have the character that the rest starts with
  obtain ⟨t, rfl⟩ := List.prefix_of_prefix_length_le (List.prefix_append run rest) hfront (by omega)
  cases t with
  | nil => simp at hlonger
  | cons c t =>
    obtain ⟨rest', rfl⟩ := (List.prefix_append_right_inj run).mp hfront
    obtain ⟨hdigit, hpoint⟩ := hstops c rfl
    have hliteral : Token.isLiteralChar c = true := hrun.1 c (by simp)
    obtain rfl : c = '.' := by simpa [Token.isLiteralChar, hdigit] using hliteral
    have hmore : 1 ≤ run.count '.' := List.one_le_count_iff.mpr (hpoint rfl)
    have hcount := hrun.2
    rw [List.count_append, List.count_cons_self] at hcount
    omega

theorem isRun_append {whole point : List Char} (hwhole : ∀ c ∈ whole, c.isDigit = true) (hpoint : IsFraction point) :
    IsRun (whole ++ point) := by
  have hcount {cs : List Char} (hcs : ∀ c ∈ cs, c.isDigit = true) : cs.count '.' = 0 :=
    List.count_eq_zero.mpr fun hmem => ne_of_isDigit (hcs _ hmem) (by decide) rfl
  constructor
  · intro c hc
    rcases List.mem_append.mp hc with hc | hc
    · exact isLiteralChar_of_isDigit (hwhole c hc)
    · exact hpoint.isLiteralChar c hc
  · rw [List.count_append, hcount hwhole]
    cases hpoint with
    | none => simp
    | point hds => simp [hcount hds]

theorem takeMantissa_append {whole point rest : List Char} (hwhole : ∀ c ∈ whole, c.isDigit = true)
    (hpoint : IsFraction point) (hstops : Stops (whole ++ point) rest) :
    takeMantissa (whole ++ point ++ rest) = ((whole, point.tail), rest) := by
  have hrest : ∀ c ∈ rest.head?, c.isDigit = false := fun c hc => (hstops c hc).1
  cases hpoint with
  | none =>
    have hends : Ends rest := by
      refine fun c hc => ⟨hrest c hc, fun hpoint => ?_⟩
      rw [List.append_nil] at hstops
      exact ne_of_isDigit (hwhole _ ((hstops c hc).2 hpoint)) (by decide) rfl
    rw [List.append_nil]
    simp only [takeMantissa, takeDigits_of_digits hwhole hrest, takeFraction_of_ends hends, List.tail_nil]
  | @point ds hds =>
    have hfirst : takeDigits (whole ++ '.' :: (ds ++ rest)) = (whole, '.' :: (ds ++ rest)) :=
      takeDigits_of_digits hwhole (by rintro c ⟨⟩; decide)
    rw [List.append_assoc, List.cons_append]
    simp only [takeMantissa, hfirst, takeFraction, takeDigits_of_digits hds hrest, List.tail_cons]

theorem exists_mantissa (cs : List Char) :
    ∃ whole point rest, cs = whole ++ point ++ rest ∧ (∀ c ∈ whole, c.isDigit = true) ∧ IsFraction point ∧
      Stops (whole ++ point) rest := by
  have hhead := dropWhile_ends Char.isDigit
  have hdigits (cs : List Char) : ∀ c ∈ cs.takeWhile Char.isDigit, c.isDigit = true :=
    fun c hc => List.mem_takeWhile_imp hc
  have hsplit (cs : List Char) : cs = cs.takeWhile Char.isDigit ++ cs.dropWhile Char.isDigit :=
    List.takeWhile_append_dropWhile.symm
  have hleft := hhead cs
  by_cases hpoint : ∃ after, cs.dropWhile Char.isDigit = '.' :: after
  · obtain ⟨after, hafter⟩ := hpoint
    refine ⟨_, '.' :: after.takeWhile Char.isDigit, after.dropWhile Char.isDigit, ?_, hdigits cs, .point (hdigits _),
      fun c hc => ⟨hhead after c hc, fun _ => by simp⟩⟩
    rw [List.append_assoc, List.cons_append, ← hsplit after, ← hafter]
    exact hsplit cs
  · refine ⟨_, [], _, by rw [List.append_nil]; exact hsplit cs, hdigits cs, .none,
      fun c hc => ⟨hleft c hc, ?_⟩⟩
    rintro rfl
    obtain ⟨after, hafter⟩ := List.head?_eq_some_iff.mp (Option.mem_def.mp hc)
    exact absurd ⟨after, hafter⟩ hpoint

/-! ### Numerals -/

theorem exists_isDigit_iff {whole point : List Char} (hwhole : ∀ c ∈ whole, c.isDigit = true)
    (hpoint : IsFraction point) : (∃ c ∈ whole ++ point, c.isDigit = true) ↔ whole ++ point.tail ≠ [] := by
  have hdigits : ∀ c ∈ whole ++ point.tail, c.isDigit = true := by
    intro c hc
    rcases List.mem_append.mp hc with hc | hc
    · exact hwhole c hc
    · cases hpoint with
      | none => simp at hc
      | point hds => exact hds c hc
  constructor
  · rintro ⟨c, hc, hdigit⟩ hnil
    obtain ⟨rfl, htail⟩ := List.append_eq_nil_iff.mp hnil
    cases hpoint with
    | none => simp at hc
    | point hds =>
      obtain rfl : _ = [] := htail
      obtain rfl : c = '.' := by simpa using hc
      exact absurd hdigit (by decide)
  · intro hne
    obtain ⟨c, cs, hcons⟩ := List.exists_cons_of_ne_nil hne
    have hc : c ∈ whole ++ point.tail := by simp [hcons]
    exact ⟨c, List.mem_append.mpr ((List.mem_append.mp hc).imp_right List.mem_of_mem_tail), hdigits c hc⟩

theorem takeSign_mantissa {sign mantissa : List Char} (hsign : IsSign sign) (hmantissa : IsMantissa mantissa)
    (rest : List Char) : takeSign (sign ++ (mantissa ++ rest)) = (sign == ['-'], mantissa ++ rest) := by
  obtain ⟨hliteral, -, d, hd, -⟩ := hmantissa
  obtain ⟨c, cs, rfl⟩ := List.exists_cons_of_ne_nil (List.ne_nil_of_mem hd)
  have hc : Token.isLiteralChar c = true := hliteral c (by simp)
  exact hsign.takeSign_append (by rintro rfl; exact absurd hc (by decide))
    (by rintro rfl; exact absurd hc (by decide)) _

/-- A power cannot be taken for more of the digits before it. -/
theorem IsPower.ends {power : List Char} (h : IsPower power) : Ends power := by
  cases h with
  | none => exact ends_nil
  | letter hc =>
    rintro c ⟨⟩
    rcases hc with rfl | rfl <;> decide

/-- The parts that are taken off the front of a text that a numeral stands at the front of. -/
theorem scan_append {sign whole point rest : List Char} (hsign : IsSign sign)
    (hwhole : ∀ c ∈ whole, c.isDigit = true) (hpoint : IsFraction point) (hne : whole ++ point.tail ≠ [])
    (hstops : Stops (whole ++ point) rest) :
    scan (sign ++ (whole ++ point ++ rest))
      = some (⟨sign == ['-'], ⟨digitsValue (whole ++ point.tail), (takeExponent rest).1 - point.tail.length⟩⟩,
          (takeExponent rest).2) := by
  obtain ⟨hliteral, hcount⟩ := isRun_append hwhole hpoint
  have hmantissa : IsMantissa (whole ++ point) := ⟨hliteral, hcount, (exists_isDigit_iff hwhole hpoint).mpr hne⟩
  rw [scan_eq, takeSign_mantissa hsign hmantissa]
  simp only [takeMantissa_append hwhole hpoint hstops, if_neg hne]

/-- A sign, digits with a point, and an exponent, each of them the longest there is, make the longest numeral. -/
theorem isLongest_append {sign mantissa power rest : List Char} (hsign : IsSign sign)
    (hmantissa : IsMantissa mantissa)
    (hlongest : IsLongest IsRun mantissa (mantissa ++ (power ++ rest)))
    (hpower : IsLongest IsPower power (power ++ rest)) :
    IsLongest IsSpelling (sign ++ (mantissa ++ power)) (sign ++ (mantissa ++ (power ++ rest))) := by
  refine ⟨⟨rest, by simp⟩, ⟨sign, mantissa, power, rfl, hsign, hmantissa, hpower.isOfKind⟩, ?_⟩
  rintro other ⟨t, htext⟩ ⟨sign', mantissa', power', rfl, hsign', hmantissa', hpower'⟩
  have hreassoc : sign' ++ (mantissa' ++ power') ++ t = sign' ++ (mantissa' ++ (power' ++ t)) := by simp
  rw [hreassoc] at htext
  -- after the sign the texts are the same, so that the signs are as long
  have hunsigned : mantissa' ++ (power' ++ t) = mantissa ++ (power ++ rest) := by
    have htaken := congrArg (fun cs => (takeSign cs).2) htext
    simpa only [takeSign_mantissa hsign hmantissa, takeSign_mantissa hsign' hmantissa'] using htaken
  have hlength := congrArg List.length htext
  rw [hunsigned, List.length_append, List.length_append] at hlength
  obtain ⟨more, rfl⟩ := hlongest.covers ⟨_, hunsigned⟩ ⟨hmantissa'.1, hmantissa'.2.1⟩
  simp only [List.length_append] at hlength ⊢
  cases more with
  | nil =>
    rw [List.append_nil] at hunsigned
    have hle := hpower.length_le power' ⟨t, List.append_cancel_left hunsigned⟩ hpower'
    simp only [List.length_nil]
    omega
  | cons c more =>
    -- digits go on where the exponent of a shorter numeral would start
    have hpower_nil : power' = [] := by
      by_contra hne
      obtain ⟨c', cs, rfl⟩ := List.exists_cons_of_ne_nil hne
      rw [List.append_assoc] at hunsigned
      obtain ⟨rfl, -⟩ := List.cons.inj (List.append_cancel_left hunsigned)
      have hliteral : Token.isLiteralChar c' = true := hmantissa.1 c' (by simp)
      have hends := hpower'.ends c' rfl
      simp [Token.isLiteralChar, hends] at hliteral
    rw [hpower_nil]
    simp only [List.length_cons, List.length_nil]
    omega

/-- What is taken off the front of a text is the longest numeral that the text starts with, and it is taken off alone
as it is there. -/
theorem scan_longest {cs rest : List Char} {n : Numeral} (h : scan cs = some (n, rest)) :
    ∃ front, cs = front ++ rest ∧ IsLongest IsSpelling front cs ∧ scan front = some (n, []) := by
  obtain ⟨sign, hsign, hcs⟩ := exists_sign cs
  obtain ⟨whole, point, tail, htail, hwhole, hpoint, hstops⟩ := exists_mantissa (takeSign cs).2
  obtain ⟨power, left, rfl, hpower, htaken, halone⟩ := exists_power tail
  have hne : whole ++ point.tail ≠ [] := by
    intro hnil
    rw [scan_eq, htail, takeMantissa_append hwhole hpoint hstops] at h
    simp [hnil] at h
  have hrun := isRun_append hwhole hpoint
  have hmantissa : IsMantissa (whole ++ point) := ⟨hrun.1, hrun.2, (exists_isDigit_iff hwhole hpoint).mpr hne⟩
  rw [htail] at hcs
  rw [hcs, scan_append hsign hwhole hpoint hne hstops, htaken] at h
  obtain ⟨rfl, rfl⟩ := Prod.mk.inj (Option.some.inj h)
  refine ⟨sign ++ (whole ++ point ++ power), by rw [hcs]; simp, ?_, ?_⟩
  · rw [hcs]
    exact isLongest_append hsign hmantissa (hrun.isLongest hstops) hpower
  · rw [scan_append hsign hwhole hpoint hne (hpower.isOfKind.ends.stops _), halone]

/-- Where nothing is taken off, the text starts with no numeral. -/
theorem not_isSpelling_of_scan {cs front : List Char} (h : scan cs = none) (hfront : front <+: cs) :
    ¬ IsSpelling front := by
  rintro ⟨sign, mantissa, power, rfl, hsign, hmantissa, -⟩
  obtain ⟨t, hcs⟩ := hfront
  rw [List.append_assoc, List.append_assoc] at hcs
  have hunsigned : (takeSign cs).2 = mantissa ++ (power ++ t) := by
    rw [← hcs, takeSign_mantissa hsign hmantissa]
  obtain ⟨whole, point, rest, htail, hwhole, hpoint, hstops⟩ := exists_mantissa (takeSign cs).2
  have hnil : whole ++ point.tail = [] := by
    by_contra hne
    rw [scan_eq, htail, takeMantissa_append hwhole hpoint hstops] at h
    simp [hne] at h
  -- the digit of a numeral would stand among those that are taken
  have hwithin : mantissa <+: whole ++ point := by
    refine ((isRun_append hwhole hpoint).isLongest hstops).covers ?_ ⟨hmantissa.1, hmantissa.2.1⟩
    rw [← htail, hunsigned]
    exact List.prefix_append _ _
  obtain ⟨c, hc, hdigit⟩ := hmantissa.2.2
  exact (exists_isDigit_iff hwhole hpoint).mp ⟨c, hwithin.subset hc, hdigit⟩ hnil

end Numeral
end DeskCalculator
