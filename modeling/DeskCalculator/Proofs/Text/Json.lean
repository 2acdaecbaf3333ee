import DeskCalculator.Proofs.Text.Grammar
import Mathlib.Data.List.DropRight

/-! The reader takes exactly the documents of the grammar, each for the value that it holds. For each of its parts there
are two lemmas: what it took is of the grammar, and what is of the grammar it takes, in front of anything that does not
go on with it. -/
namespace DeskCalculator.Text.Json

variable {α : Type}

/-- What follows a value and does not go on with a number. -/
def Stops (rest : List Char) : Prop :=
  ∀ c ∈ rest.head?, c.isDigit = false ∧ c ≠ '.' ∧ c ≠ 'e' ∧ c ≠ 'E'

theorem stops_nil : Stops [] := by simp [Stops]

theorem stops_cons {c : Char} (hc : c ∈ [' ', '\t', '\n', '\r', ',', ']', '}']) (rest : List Char) :
    Stops (c :: rest) := by
  have hall : ∀ c ∈ [' ', '\t', '\n', '\r', ',', ']', '}'], c.isDigit = false ∧ c ≠ '.' ∧ c ≠ 'e' ∧ c ≠ 'E' := by
    simp only [List.forall_mem_cons]
    exact ⟨by decide, by decide, by decide, by decide, by decide, by decide, by decide, List.forall_mem_nil _⟩
  intro d hd
  obtain rfl : c = d := Option.some.inj hd
  exact hall c hc

theorem IsGap.stops {gap : List Char} (hgap : IsGap gap) {rest : List Char} (hrest : Stops rest) :
    Stops (gap ++ rest) := by
  cases gap with
  | nil => exact hrest
  | cons c gap =>
    have hc : isSpace c = true := hgap c (by simp)
    simp only [isSpace, Bool.or_eq_true, beq_iff_eq] at hc
    exact stops_cons (by simp; tauto) _

/-! Spaces. -/

theorem dropSpaces_append {gap : List Char} (hgap : IsGap gap) (cs : List Char) :
    dropSpaces (gap ++ cs) = dropSpaces cs := List.dropWhile_append_of_pos hgap

theorem dropSpaces_of_not_isSpace {c : Char} (hc : isSpace c = false) (cs : List Char) :
    dropSpaces (c :: cs) = c :: cs := by
  rw [dropSpaces, List.dropWhile_cons_of_neg (by simp [hc])]

theorem dropSpaces_dropSpaces (cs : List Char) : dropSpaces (dropSpaces cs) = dropSpaces cs :=
  List.dropWhile_idempotent _ _

theorem exists_gap (cs : List Char) : ∃ gap, IsGap gap ∧ cs = gap ++ dropSpaces cs :=
  ⟨cs.takeWhile isSpace, fun _ hc => List.mem_takeWhile_imp hc, List.takeWhile_append_dropWhile.symm⟩

/-! Numbers. -/

theorem isDigits_of_readDigits {cs digits rest : List Char} (h : readDigits cs = some (digits, rest)) :
    IsDigits digits ∧ cs = digits ++ rest := by
  unfold readDigits at h
  split at h
  · cases h
  · next hne =>
    cases h
    exact ⟨⟨hne, fun _ hc => List.mem_takeWhile_imp hc⟩, List.takeWhile_append_dropWhile.symm⟩

theorem readDigits_append {digits : List Char} (hdigits : IsDigits digits) {rest : List Char}
    (hrest : ∀ c ∈ rest.head?, c.isDigit = false) : readDigits (digits ++ rest) = some (digits, rest) := by
  obtain ⟨hne, hall⟩ := hdigits
  obtain ⟨htake, hdrop⟩ := takeRun hall hrest
  unfold readDigits
  rw [htake, hdrop]
  cases digits with
  | nil => exact absurd rfl hne
  | cons d ds => rfl

theorem isWhole_of_readWhole {cs whole rest : List Char} (h : readWhole cs = some (whole, rest)) :
    IsWhole whole ∧ cs = whole ++ rest := by
  unfold readWhole at h
  split at h
  · cases h
    exact ⟨⟨⟨List.cons_ne_nil _ _, List.forall_mem_singleton.mpr rfl⟩, fun _ => rfl⟩, rfl⟩
  · next hzero =>
    obtain ⟨hdigits, rfl⟩ := isDigits_of_readDigits h
    refine ⟨⟨hdigits, fun hhead => ?_⟩, rfl⟩
    obtain ⟨others, rfl⟩ := List.head?_eq_some_iff.mp hhead
    exact absurd rfl (hzero _)

theorem readWhole_append {whole : List Char} (hwhole : IsWhole whole) {rest : List Char}
    (hrest : ∀ c ∈ rest.head?, c.isDigit = false) : readWhole (whole ++ rest) = some (whole, rest) := by
  obtain ⟨hdigits, hzero⟩ := hwhole
  unfold readWhole
  split
  · next others heq =>
    obtain ⟨digit, digits, rfl⟩ := List.exists_cons_of_ne_nil hdigits.1
    obtain ⟨rfl, rfl⟩ := List.cons.inj heq
    cases hzero rfl
    rfl
  · exact readDigits_append hdigits hrest

theorem isFraction_of_readFraction {cs fraction rest : List Char} (h : readFraction cs = some (fraction, rest)) :
    IsFraction fraction ∧ cs = fraction ++ rest := by
  unfold readFraction at h
  split at h
  · obtain ⟨⟨digits, rest⟩, hread, h⟩ := Option.map_eq_some_iff.mp h
    cases h
    obtain ⟨hdigits, rfl⟩ := isDigits_of_readDigits hread
    exact ⟨Or.inr ⟨digits, hdigits, rfl⟩, rfl⟩
  · cases h
    exact ⟨Or.inl rfl, rfl⟩

theorem readFraction_append {fraction : List Char} (hfraction : IsFraction fraction) {rest : List Char}
    (hrest : ∀ c ∈ rest.head?, c.isDigit = false ∧ c ≠ '.') :
    readFraction (fraction ++ rest) = some (fraction, rest) := by
  obtain rfl | ⟨digits, hdigits, rfl⟩ := hfraction
  · rw [List.nil_append]
    unfold readFraction
    split
    · exact absurd rfl (hrest '.' rfl).2
    · rfl
  · rw [List.cons_append, readFraction, readDigits_append hdigits fun c hc => (hrest c hc).1]
    rfl

theorem isSign_of_readSign {cs sign rest : List Char} (h : readSign cs = (sign, rest)) :
    IsSign sign ∧ cs = sign ++ rest := by
  unfold readSign at h
  split at h
  · cases h
    exact ⟨Or.inr (Or.inl rfl), rfl⟩
  · cases h
    exact ⟨Or.inr (Or.inr rfl), rfl⟩
  · cases h
    exact ⟨Or.inl rfl, rfl⟩

theorem readSign_append {sign : List Char} (hsign : IsSign sign) {rest : List Char}
    (hrest : ∀ c ∈ rest.head?, c.isDigit = true) : readSign (sign ++ rest) = (sign, rest) := by
  rcases hsign with rfl | rfl | rfl
  · rw [List.nil_append]
    unfold readSign
    split
    · exact absurd (hrest '+' rfl) (by decide)
    · exact absurd (hrest '-' rfl) (by decide)
    · rfl
  · rfl
  · rfl

theorem isExponent_of_readExponent {cs exponent rest : List Char} (h : readExponent cs = some (exponent, rest)) :
    IsExponent exponent ∧ cs = exponent ++ rest := by
  unfold readExponent at h
  split at h
  · cases h
    exact ⟨Or.inl rfl, rfl⟩
  · next e cs =>
    split at h
    · next he =>
      rcases hsigned : readSign cs with ⟨sign, tail⟩
      obtain ⟨hsign, rfl⟩ := isSign_of_readSign hsigned
      rw [hsigned] at h
      obtain ⟨⟨digits, rest⟩, hread, h⟩ := Option.map_eq_some_iff.mp h
      cases h
      obtain ⟨hdigits, rfl⟩ := isDigits_of_readDigits hread
      rw [Bool.or_eq_true, beq_iff_eq, beq_iff_eq] at he
      exact ⟨Or.inr ⟨e, sign, digits, he, hsign, hdigits, rfl⟩, by simp⟩
    · cases h
      exact ⟨Or.inl rfl, rfl⟩

theorem readExponent_append {exponent : List Char} (hexponent : IsExponent exponent) {rest : List Char}
    (hrest : Stops rest) : readExponent (exponent ++ rest) = some (exponent, rest) := by
  obtain rfl | ⟨e, sign, digits, he, hsign, hdigits, rfl⟩ := hexponent
  · rw [List.nil_append]
    unfold readExponent
    split
    · rfl
    · next c rest =>
      have hc := hrest c rfl
      simp [hc]
  · have hhead : ∀ c ∈ (digits ++ rest).head?, c.isDigit = true := by
      obtain ⟨digit, others, rfl⟩ := List.exists_cons_of_ne_nil hdigits.1
      simpa using hdigits.2 digit (by simp)
    have hread := readDigits_append hdigits fun c hc => (hrest c hc).1
    rcases he with rfl | rfl <;> simp [readExponent, readSign_append hsign hhead, hread]

/-- What follows the digits of a whole number. -/
theorem IsExponent.head {exponent : List Char} (h : IsExponent exponent) {rest : List Char} (hrest : Stops rest) :
    ∀ c ∈ (exponent ++ rest).head?, c.isDigit = false ∧ c ≠ '.' := by
  obtain rfl | ⟨e, sign, digits, he, hsign, hdigits, rfl⟩ := h
  · exact fun c hc => ⟨(hrest c hc).1, (hrest c hc).2.1⟩
  · rcases he with rfl | rfl <;> simp

theorem IsFraction.head {fraction : List Char} (h : IsFraction fraction) {rest : List Char}
    (hrest : ∀ c ∈ rest.head?, c.isDigit = false) : ∀ c ∈ (fraction ++ rest).head?, c.isDigit = false := by
  obtain rfl | ⟨digits, hdigits, rfl⟩ := h
  · exact hrest
  · simp

theorem isMagnitude_of_readMagnitude {cs magnitude rest : List Char} (h : readMagnitude cs = some (magnitude, rest)) :
    IsMagnitude magnitude ∧ cs = magnitude ++ rest := by
  simp only [readMagnitude, Option.bind_eq_bind, Option.bind_eq_some_iff, Option.pure_def] at h
  obtain ⟨⟨whole, cs⟩, hwhole, ⟨fraction, cs⟩, hfraction, ⟨exponent, cs⟩, hexponent, h⟩ := h
  cases h
  obtain ⟨iswhole, rfl⟩ := isWhole_of_readWhole hwhole
  obtain ⟨isfraction, rfl⟩ := isFraction_of_readFraction hfraction
  obtain ⟨isexponent, rfl⟩ := isExponent_of_readExponent hexponent
  exact ⟨⟨whole, fraction, exponent, iswhole, isfraction, isexponent, rfl⟩, by simp⟩

theorem readMagnitude_append {magnitude : List Char} (h : IsMagnitude magnitude) {rest : List Char}
    (hrest : Stops rest) : readMagnitude (magnitude ++ rest) = some (magnitude, rest) := by
  obtain ⟨whole, fraction, exponent, hwhole, hfraction, hexponent, rfl⟩ := h
  -- no part is read on into the next one, for each of these starts with another character, or is not there
  have hafter := hexponent.head hrest
  have hread := readWhole_append hwhole (hfraction.head fun c hc => (hafter c hc).1)
  simp [readMagnitude, hread, readFraction_append hfraction hafter, readExponent_append hexponent hrest]

theorem isNumber_of_readNumber {cs spelling rest : List Char} (h : readNumber cs = some (spelling, rest)) :
    IsNumber spelling ∧ cs = spelling ++ rest := by
  unfold readNumber at h
  split at h
  · obtain ⟨⟨magnitude, rest⟩, hread, h⟩ := Option.map_eq_some_iff.mp h
    cases h
    obtain ⟨hmagnitude, rfl⟩ := isMagnitude_of_readMagnitude hread
    exact ⟨Or.inr ⟨magnitude, hmagnitude, rfl⟩, rfl⟩
  · obtain ⟨hmagnitude, hcs⟩ := isMagnitude_of_readMagnitude h
    exact ⟨Or.inl hmagnitude, hcs⟩

theorem readNumber_append {spelling : List Char} (h : IsNumber spelling) {rest : List Char} (hrest : Stops rest) :
    readNumber (spelling ++ rest) = some (spelling, rest) := by
  obtain hmagnitude | ⟨magnitude, hmagnitude, rfl⟩ := h
  · obtain ⟨d, ds, rfl, hd⟩ := hmagnitude.exists_digit
    rw [← readMagnitude_append hmagnitude hrest, List.cons_append]
    unfold readNumber
    split
    · next heq =>
      rw [(List.cons.inj heq).1] at hd
      exact absurd hd (by decide)
    · rfl
  · rw [List.cons_append, readNumber, readMagnitude_append hmagnitude hrest]
    rfl

/-! Lists and objects. -/

/-- A reader takes a text for a value, but for spaces after it, whatever comes then. -/
def Takes (read : Reader α) (text : List Char) (value : α) : Prop :=
  ∀ rest, Stops rest → ∃ gap, IsGap gap ∧ read (text ++ rest) = some (value, gap ++ rest)

theorem Takes.of_eq {read : Reader α} {text : List Char} {value : α}
    (h : ∀ rest, Stops rest → read (text ++ rest) = some (value, rest)) : Takes read text value :=
  fun rest hrest => ⟨[], isGap_nil, h rest hrest⟩

/-- A reader that passes over the spaces in front. -/
def SkipsSpaces (read : Reader α) : Prop := ∀ cs, read (dropSpaces cs) = read cs

theorem skipsSpaces_readValue (depth : Nat) : SkipsSpaces (readValue depth) := by
  intro cs
  cases depth with
  | zero => rfl
  | succ depth => simp only [readValue, dropSpaces_dropSpaces]

theorem skipsSpaces_readField (value : Reader Json) : SkipsSpaces (readField value) := by
  intro cs
  simp only [readField, dropSpaces_dropSpaces]

theorem readSequence_skips {item : Reader α} (hskips : SkipsSpaces item) (close : Char) (bound : Nat)
    (cs : List Char) : readSequence item close bound (dropSpaces cs) = readSequence item close bound cs := by
  cases bound with
  | zero => rfl
  | succ bound => rw [readSequence, readSequence, hskips cs]

/-- A value with spaces around it. -/
theorem Takes.spaced {read : Reader α} (hskips : SkipsSpaces read) {p : Piece α} (h : Takes read p.text p.value)
    (hspaced : p.IsSpaced) : Takes read p.written p.value := by
  intro rest hrest
  obtain ⟨hbefore, hafter⟩ := hspaced
  obtain ⟨gap, hgap, hread⟩ := h (p.after ++ rest) (hafter.stops hrest)
  refine ⟨gap ++ p.after, List.forall_mem_append.mpr ⟨hgap, hafter⟩, ?_⟩
  rw [Piece.written, List.append_assoc, List.append_assoc, List.append_assoc, ← hskips, dropSpaces_append hbefore,
    hskips, hread]

section
variable {β : Type} {item : Reader α} {written : β → List Char} {value : β → α} {close : Char} {gap : List Char}

/-- A bracket that closes a list or an object. -/
def Closes (close : Char) : Prop := close = ']' ∨ close = '}'

theorem Closes.stops (h : Closes close) (rest : List Char) : Stops (close :: rest) := by
  rcases h with rfl | rfl
  · exact stops_cons (by decide) rest
  · exact stops_cons (by decide) rest

theorem Closes.dropSpaces_eq (h : Closes close) (hgap : IsGap gap) (rest : List Char) :
    dropSpaces (gap ++ close :: rest) = close :: rest := by
  have hclose : isSpace close = false := by
    rcases h with rfl | rfl <;> rfl
  rw [dropSpaces_append hgap, dropSpaces_of_not_isSpace hclose]

/-- A list of one thing or more, from the first to the closing bracket. -/
theorem readSequence_of_takes (hclose : Closes close) (hgap : IsGap gap) {first : β} {others : List β}
    (htakes : ∀ x ∈ first :: others, Takes item (written x) (value x)) {bound : Nat} (hbound : others.length < bound)
    (rest : List Char) :
    readSequence item close bound ([','].intercalate ((first :: others).map written) ++ gap ++ close :: rest)
      = some ((first :: others).map value, rest) := by
  obtain ⟨bound, rfl⟩ := Nat.exists_eq_add_one_of_ne_zero (Nat.ne_zero_of_lt hbound)
  induction others generalizing first bound with
  | nil =>
    obtain ⟨space, hspace, hfirst⟩ := htakes first (by simp) _ (hgap.stops (hclose.stops rest))
    have hdrop : dropSpaces (space ++ (gap ++ close :: rest)) = close :: rest := by
      rw [dropSpaces_append hspace, hclose.dropSpaces_eq hgap]
    simp only [List.map_cons, List.map_nil, List.intercalate_singleton, List.append_assoc, readSequence, hfirst,
      Option.bind_eq_bind, Option.bind_some, hdrop]
    rcases hclose with rfl | rfl <;> rfl
  | cons second others ih =>
    obtain ⟨hfirst, hrest⟩ := List.forall_mem_cons.mp htakes
    rw [List.length_cons] at hbound
    obtain ⟨bound, rfl⟩ := Nat.exists_eq_add_one_of_ne_zero (by omega : bound ≠ 0)
    have hothers := ih hrest bound (by omega)
    set tail := [','].intercalate ((second :: others).map written) ++ gap ++ close :: rest with htail
    have hwritten : [','].intercalate ((first :: second :: others).map written) ++ gap ++ close :: rest
        = written first ++ ',' :: tail := by
      simp [htail, List.intercalate_cons_cons]
    obtain ⟨space, hspace, hfirst⟩ := hfirst (',' :: tail) (stops_cons (by decide) tail)
    have hdrop : dropSpaces (space ++ ',' :: tail) = ',' :: tail := by
      rw [dropSpaces_append hspace, dropSpaces_of_not_isSpace (by decide)]
    rw [hwritten, readSequence]
    simp [hfirst, hdrop, hothers]

/-- A text starts, but for spaces, with something else than a closing bracket. -/
def Opens (text : List Char) : Prop := ∃ gap c cs, text = gap ++ c :: cs ∧ IsGap gap ∧ isSpace c = false ∧ ¬ Closes c

theorem length_le_intercalate (texts : List (List Char)) :
    texts.length ≤ ([','].intercalate texts).length + 1 := by
  induction texts with
  | nil => simp
  | cons text texts ih =>
    cases texts with
    | nil => simp
    | cons next texts =>
      simp only [List.intercalate_cons_cons, List.length_append, List.length_cons] at ih ⊢
      omega

theorem readGroup_of_takes (hclose : Closes close) (hgap : IsGap gap) (hskips : SkipsSpaces item) {xs : List β}
    (htakes : ∀ x ∈ xs, Takes item (written x) (value x)) (hopens : ∀ x ∈ xs, Opens (written x)) (rest : List Char) :
    readGroup item close ([','].intercalate (xs.map written) ++ gap ++ close :: rest) = some (xs.map value, rest) := by
  cases xs with
  | nil =>
    unfold readGroup
    simp [hclose.dropSpaces_eq hgap]
  | cons first others =>
    set cs := [','].intercalate ((first :: others).map written) ++ gap ++ close :: rest with hcs
    have hbound : others.length < cs.length := by
      have hlength := length_le_intercalate ((first :: others).map written)
      rw [List.length_map, List.length_cons] at hlength
      rw [hcs, List.length_append, List.length_append, List.length_cons]
      omega
    have hsequence := readSequence_of_takes hclose hgap htakes hbound rest
    -- the group is no empty one, since its first thing does not start with the bracket
    obtain ⟨space, c, tail, hfirst, hspace, hc, hopen⟩ := hopens first (by simp)
    obtain ⟨tail', hfront⟩ : ∃ tail', cs = space ++ c :: tail' := by
      cases others <;> simp [hcs, hfirst, List.intercalate_cons_cons]
    have hdrop : dropSpaces cs = c :: tail' := by
      rw [hfront, dropSpaces_append hspace, dropSpaces_of_not_isSpace hc]
    have hne : c ≠ close := by
      rintro rfl
      exact hopen hclose
    rw [← hcs, ← readSequence_skips hskips, hdrop] at hsequence
    unfold readGroup
    rw [hdrop]
    simp only [if_neg hne, hsequence]

/-- Whatever a reader takes is the writing of a thing of a kind, with the spaces behind it. -/
def TakesOnly (read : Reader α) (Kind : β → Prop) (written : β → List Char) (value : β → α) : Prop :=
  ∀ cs a gap rest, IsGap gap → read cs = some (a, gap ++ rest) → ∃ x, Kind x ∧ value x = a ∧ cs = written x ++ rest

theorem written_of_readSequence {Kind : β → Prop} (honly : TakesOnly item Kind written value) {bound : Nat}
    {cs rest : List Char} {as : List α} (h : readSequence item close bound cs = some (as, rest)) :
    ∃ first others, (∀ x ∈ first :: others, Kind x) ∧ (first :: others).map value = as
      ∧ cs = [','].intercalate ((first :: others).map written) ++ close :: rest := by
  induction bound generalizing cs as with
  | zero => cases h
  | succ bound ih =>
    simp only [readSequence, Option.bind_eq_bind, Option.bind_eq_some_iff] at h
    obtain ⟨⟨a, tail⟩, hitem, h⟩ := h
    -- the spaces in front of a comma or of the bracket are counted to the thing before
    obtain ⟨gap, hgap, htail⟩ := exists_gap tail
    rw [htail] at hitem
    obtain ⟨x, hx, rfl, rfl⟩ := honly _ _ _ _ hgap hitem
    split at h
    · next others hcomma =>
      simp only [Option.bind_eq_some_iff, Option.pure_def] at h
      obtain ⟨⟨as, rest⟩, hothers, h⟩ := h
      cases h
      obtain ⟨y, ys, hys, rfl, rfl⟩ := ih hothers
      refine ⟨x, y :: ys, List.forall_mem_cons.mpr ⟨hx, hys⟩, rfl, ?_⟩
      rw [hcomma]
      simp [List.intercalate_cons_cons]
    · next c rest _ hdrop =>
      split at h
      · next hc =>
        cases h
        refine ⟨x, [], List.forall_mem_cons.mpr ⟨hx, List.forall_mem_nil _⟩, rfl, ?_⟩
        rw [hdrop, hc]
        simp
      · cases h
    · cases h

theorem written_of_readGroup {Kind : β → Prop} (honly : TakesOnly item Kind written value)
    (hskips : SkipsSpaces item) {cs rest : List Char} {as : List α} (h : readGroup item close cs = some (as, rest)) :
    ∃ (xs : List β) (gap : List Char), (∀ x ∈ xs, Kind x) ∧ IsGap gap ∧ xs.map value = as
      ∧ cs = [','].intercalate (xs.map written) ++ gap ++ close :: rest := by
  unfold readGroup at h
  split at h
  · next c tail hdrop =>
    split at h
    · next hc =>
      cases h
      obtain ⟨gap, hgap, hcs⟩ := exists_gap cs
      rw [hdrop, hc] at hcs
      exact ⟨[], gap, List.forall_mem_nil _, hgap, rfl, hcs⟩
    · rw [← hdrop, readSequence_skips hskips] at h
      obtain ⟨first, others, hkind, hvalues, hcs⟩ := written_of_readSequence honly h
      exact ⟨first :: others, [], hkind, isGap_nil, hvalues, by rw [List.append_nil, hcs]⟩
  · cases h

end

/-! Values. -/

/-- No digit and no sign is a space or closes a list, and none starts another kind of value. -/
theorem number_head {c : Char} (hc : c.isDigit = true ∨ c = '-') :
    isSpace c = false ∧ (c ≠ ']' ∧ c ≠ '}') ∧ c ∉ ['n', 't', 'f', '"', '[', '{'] := by
  rcases hc with hc | rfl
  · exact forall_digit (P := fun c => isSpace c = false ∧ (c ≠ ']' ∧ c ≠ '}') ∧ c ∉ ['n', 't', 'f', '"', '[', '{'])
      (by decide) hc
  · decide

theorem Spells.opens {text : List Char} {value : Json} (h : Spells text value) : Opens text := by
  have hopens (c : Char) (cs : List Char) (hspace : isSpace c = false) (hc : c ≠ ']' ∧ c ≠ '}') : Opens (c :: cs) :=
    ⟨[], c, cs, rfl, isGap_nil, hspace, not_or.mpr hc⟩
  cases h with
  | null => exact hopens _ _ rfl (by decide)
  | yes => exact hopens _ _ rfl (by decide)
  | no => exact hopens _ _ rfl (by decide)
  | number h =>
    obtain ⟨c, cs, rfl, hc⟩ := h.head
    obtain ⟨hspace, hclose, -⟩ := number_head hc
    exact hopens _ _ hspace hclose
  | string h =>
    obtain ⟨body, -, rfl⟩ := h
    exact hopens _ _ rfl (by decide)
  | array => exact hopens _ _ rfl (by decide)
  | object => exact hopens _ _ rfl (by decide)

theorem Piece.opens {p : Piece Json} (hspaced : p.IsSpaced) (h : Spells p.text p.value) : Opens p.written := by
  obtain ⟨gap, c, cs, htext, hgap, hc, hclose⟩ := h.opens
  refine ⟨p.before ++ gap, c, cs ++ p.after, ?_, List.forall_mem_append.mpr ⟨hspaced.1, hgap⟩, hc, hclose⟩
  simp [Piece.written, htext]

theorem Member.opens {m : Member} (hnamed : m.IsNamed) : Opens m.written := by
  obtain ⟨body, -, hbody⟩ := hnamed.literal
  refine ⟨m.name.before, '"', body ++ '"' :: (m.name.after ++ ':' :: m.item.written), ?_, hnamed.name.1, rfl, ?_⟩
  · simp [Member.written, Piece.written, hbody]
  · simp [Closes]

/-- A value that starts with a digit or a sign is a number. -/
theorem readValue_of_number {c : Char} (hc : c.isDigit = true ∨ c = '-') (depth : Nat) (cs : List Char) :
    readValue (depth + 1) (c :: cs)
      = (readNumber (c :: cs)).map fun spelled => (number spelled.1, spelled.2) := by
  obtain ⟨hspace, -, hother⟩ := number_head hc
  rw [readValue, dropSpaces_of_not_isSpace hspace]
  -- no other kind of value starts with such a character
  split
  all_goals first
    | rfl
    | next heq => exact absurd (List.cons.inj heq).1 (by rintro rfl; simp at hother)

theorem readValue_of_quote (depth : Nat) (cs : List Char) : readValue (depth + 1) ('"' :: cs)
    = (Quoted.read cs).map fun literal => (string literal.1, literal.2) := rfl

theorem readValue_of_bracket (depth : Nat) (cs : List Char) : readValue (depth + 1) ('[' :: cs)
    = (readGroup (readValue depth) ']' cs).map fun group => (array group.1, group.2) := rfl

theorem readValue_of_brace (depth : Nat) (cs : List Char) : readValue (depth + 1) ('{' :: cs)
    = (readGroup (readField (readValue depth)) '}' cs).map fun group => (object group.1, group.2) := rfl

theorem Member.takes {m : Member} (hnamed : m.IsNamed) {value : Reader Json} (hskips : SkipsSpaces value)
    (h : Takes value m.item.text m.item.value) : Takes (readField value) m.written m.field := by
  intro rest hrest
  obtain ⟨gap, hgap, hvalue⟩ := h.spaced hskips hnamed.item rest hrest
  obtain ⟨body, hmeans, hbody⟩ := hnamed.literal
  set tail := m.name.after ++ ':' :: (m.item.written ++ rest) with htail
  have hwritten : m.written ++ rest = m.name.before ++ '"' :: (body ++ '"' :: tail) := by
    simp [htail, Member.written, Piece.written, hbody]
  have hquote : dropSpaces (m.written ++ rest) = '"' :: (body ++ '"' :: tail) := by
    rw [hwritten, dropSpaces_append hnamed.name.1, dropSpaces_of_not_isSpace (by decide)]
  have hcolon : dropSpaces tail = ':' :: (m.item.written ++ rest) := by
    rw [dropSpaces_append hnamed.name.2, dropSpaces_of_not_isSpace (by decide)]
  refine ⟨gap, hgap, ?_⟩
  simp only [readField, hquote, hmeans.read, hcolon, hvalue, Option.bind_eq_bind, Option.bind_some]
  rfl

theorem Piece.length_text_le (p : Piece α) : p.text.length ≤ p.written.length := by
  simp only [written, List.length_append]
  omega

theorem Member.length_text_le (m : Member) : m.item.text.length ≤ m.written.length := by
  have hitem := m.item.length_text_le
  simp only [written, List.length_append, List.length_cons]
  omega

theorem length_le_of_mem {text : List Char} {texts : List (List Char)} (h : text ∈ texts) :
    text.length ≤ ([','].intercalate texts).length := by
  induction texts with
  | nil => cases h
  | cons first texts ih =>
    cases texts with
    | nil =>
      obtain rfl := List.mem_singleton.mp h
      simp
    | cons second texts =>
      rw [List.intercalate_cons_cons, List.length_append, List.length_append]
      rcases List.mem_cons.mp h with rfl | h
      · omega
      · have hrest := ih h
        omega

/-- A text is taken for the value that it spells if it is no longer than values may be nested. -/
theorem Spells.takes {text : List Char} {value : Json} (h : Spells text value) {depth : Nat}
    (hdepth : text.length ≤ depth) : Takes (readValue depth) text value := by
  -- on the depth, since what stands within brackets is shorter by them
  induction depth generalizing text value with
  | zero =>
    obtain ⟨gap, c, cs, rfl, -⟩ := h.opens
    simp at hdepth
  | succ depth ih =>
    cases h with
    | null => exact .of_eq fun rest _ => rfl
    | yes => exact .of_eq fun rest _ => rfl
    | no => exact .of_eq fun rest _ => rfl
    | number h =>
      refine .of_eq fun rest hrest => ?_
      have hnumber := readNumber_append h hrest
      obtain ⟨c, cs, rfl, hc⟩ := h.head
      rw [List.cons_append] at hnumber ⊢
      rw [readValue_of_number hc, hnumber]
      rfl
    | string h =>
      refine .of_eq fun rest _ => ?_
      obtain ⟨body, hmeans, rfl⟩ := h
      rw [List.cons_append, List.append_assoc, List.singleton_append, readValue_of_quote, hmeans.read]
      rfl
    | @array items gap hgap hspaced hitems =>
      refine .of_eq fun rest _ => ?_
      have htakes : ∀ p ∈ items, Takes (readValue depth) p.written p.value := by
        intro p hp
        have hwritten := length_le_of_mem (List.mem_map_of_mem hp : p.written ∈ items.map Piece.written)
        have htext := p.length_text_le
        simp only [List.length_cons, List.length_append] at hdepth
        exact (ih (hitems p hp) (by omega)).spaced (skipsSpaces_readValue depth) (hspaced p hp)
      have hgroup := readGroup_of_takes (Or.inl rfl) hgap (skipsSpaces_readValue depth) htakes
        (fun p hp => p.opens (hspaced p hp) (hitems p hp)) rest
      rw [List.cons_append, List.append_assoc _ [']'], List.singleton_append, readValue_of_bracket, hgroup]
      rfl
    | @object members gap hgap hnamed hitems =>
      refine .of_eq fun rest _ => ?_
      have htakes : ∀ m ∈ members, Takes (readField (readValue depth)) m.written m.field := by
        intro m hm
        have hwritten := length_le_of_mem (List.mem_map_of_mem hm : m.written ∈ members.map Member.written)
        have htext := m.length_text_le
        simp only [List.length_cons, List.length_append] at hdepth
        exact m.takes (hnamed m hm) (skipsSpaces_readValue depth) (ih (hitems m hm) (by omega))
      have hgroup := readGroup_of_takes (Or.inr rfl) hgap (skipsSpaces_readField _) htakes
        (fun m hm => m.opens (hnamed m hm)) rest
      rw [List.cons_append, List.append_assoc _ ['}'], List.singleton_append, readValue_of_brace, hgroup]
      rfl

/-- What a reader takes for a value spells it, with spaces in front. -/
def Spelled (read : Reader Json) : Prop :=
  ∀ cs value rest, read cs = some (value, rest) →
    ∃ before text, IsGap before ∧ Spells text value ∧ cs = before ++ text ++ rest

theorem Spelled.takesOnly {read : Reader Json} (h : Spelled read) :
    TakesOnly read (fun p : Piece Json => p.IsSpaced ∧ Spells p.text p.value) Piece.written Piece.value := by
  intro cs value gap rest hgap hread
  obtain ⟨before, text, hbefore, htext, rfl⟩ := h _ _ _ hread
  exact ⟨⟨before, text, gap, value⟩, ⟨⟨hbefore, hgap⟩, htext⟩, rfl, by simp [Piece.written]⟩

theorem takesOnly_readField {value : Reader Json} (h : Spelled value) :
    TakesOnly (readField value) (fun m : Member => m.IsNamed ∧ Spells m.item.text m.item.value) Member.written
      Member.field := by
  intro cs field gap rest hgap hread
  unfold readField at hread
  split at hread
  · next tail hquote =>
    simp only [Option.bind_eq_bind, Option.bind_eq_some_iff] at hread
    obtain ⟨⟨name, tail⟩, hname, hread⟩ := hread
    obtain ⟨body, rfl, hmeans⟩ := Quoted.read_eq_some_iff.mp hname
    split at hread
    · next tail' hcolon =>
      simp only [Option.bind_eq_some_iff, Option.pure_def] at hread
      obtain ⟨⟨v, tail''⟩, hvalue, hread⟩ := hread
      cases hread
      obtain ⟨p, ⟨hspaced, htext⟩, rfl, rfl⟩ := h.takesOnly _ _ _ _ hgap hvalue
      obtain ⟨before, hbefore, hcs⟩ := exists_gap cs
      obtain ⟨after, hafter, htail⟩ := exists_gap tail
      refine ⟨⟨⟨before, '"' :: (body ++ ['"']), after, name⟩, p⟩,
        ⟨⟨⟨hbefore, hafter⟩, hspaced, body, hmeans, rfl⟩, htext⟩, rfl, ?_⟩
      rw [hquote, htail, hcolon] at hcs
      rw [hcs]
      simp [Member.written, Piece.written]
    · cases hread
  · cases hread

theorem spelled_readValue (depth : Nat) : Spelled (readValue depth) := by
  induction depth with
  | zero => exact fun _ _ _ h => nomatch h
  | succ depth ih =>
    intro cs value rest h
    obtain ⟨before, hbefore, hcs⟩ := exists_gap cs
    suffices hspelled : ∃ text, Spells text value ∧ dropSpaces cs = text ++ rest by
      obtain ⟨text, htext, hdrop⟩ := hspelled
      exact ⟨before, text, hbefore, htext, by rw [hcs, hdrop, List.append_assoc]⟩
    unfold readValue at h
    split at h
    · next hnull =>
      cases h
      exact ⟨_, .null, hnull⟩
    · next hyes =>
      cases h
      exact ⟨_, .yes, hyes⟩
    · next hno =>
      cases h
      exact ⟨_, .no, hno⟩
    · next hstring =>
      obtain ⟨⟨text, rest⟩, hread, h⟩ := Option.map_eq_some_iff.mp h
      cases h
      obtain ⟨body, rfl, hmeans⟩ := Quoted.read_eq_some_iff.mp hread
      exact ⟨_, .string ⟨body, hmeans, rfl⟩, by simp [hstring]⟩
    · next harray =>
      obtain ⟨⟨values, rest⟩, hread, h⟩ := Option.map_eq_some_iff.mp h
      cases h
      obtain ⟨items, gap, hitems, hgap, rfl, rfl⟩ :=
        written_of_readGroup ih.takesOnly (skipsSpaces_readValue depth) hread
      exact ⟨_, .array hgap (fun p hp => (hitems p hp).1) (fun p hp => (hitems p hp).2), by simp [harray]⟩
    · next hobject =>
      obtain ⟨⟨fields, rest⟩, hread, h⟩ := Option.map_eq_some_iff.mp h
      cases h
      obtain ⟨members, gap, hmembers, hgap, rfl, rfl⟩ :=
        written_of_readGroup (takesOnly_readField ih) (skipsSpaces_readField _) hread
      exact ⟨_, .object hgap (fun m hm => (hmembers m hm).1) (fun m hm => (hmembers m hm).2), by simp [hobject]⟩
    · obtain ⟨⟨spelling, rest⟩, hread, h⟩ := Option.map_eq_some_iff.mp h
      cases h
      obtain ⟨hnumber, hspelling⟩ := isNumber_of_readNumber hread
      exact ⟨_, .number hnumber, hspelling⟩

/-- The reader takes the documents of the grammar, and no others. -/
theorem parse?_eq_some_iff {document : String} {value : Json} :
    parse? document = some value ↔ Holds document value := by
  unfold parse?
  constructor
  · intro h
    dsimp only at h
    split at h
    · next found rest hread =>
      split at h
      · next hdrop =>
        cases h
        obtain ⟨before, text, hbefore, htext, hcs⟩ := spelled_readValue _ _ _ _ hread
        obtain ⟨after, hafter, hrest⟩ := exists_gap rest
        rw [hdrop, List.append_nil] at hrest
        exact ⟨before, text, after, hbefore, hafter, htext, by rw [hcs, hrest]⟩
      · cases h
    · cases h
  · rintro ⟨before, text, after, hbefore, hafter, htext, hdocument⟩
    -- a value is nested no deeper than its text is long
    have hlength : text.length ≤ document.toList.length + 1 := by
      simp only [hdocument, List.length_append]
      omega
    have htakes := (htext.takes hlength).spaced (p := ⟨before, text, after, value⟩) (skipsSpaces_readValue _)
      ⟨hbefore, hafter⟩
    obtain ⟨gap, hgap, hread⟩ := htakes [] stops_nil
    have hdrop : dropSpaces (gap ++ []) = [] := dropSpaces_append hgap []
    rw [List.append_nil, Piece.written, ← hdocument] at hread
    simp only [hread, hdrop, if_true]

end DeskCalculator.Text.Json
