import DeskCalculator.Text.Quoted
import Mathlib.Data.Char

/-! Literals apart from any reader: what stands between the quotes, and which text it means. The reader takes
exactly that, and every text is written as a literal that means it. -/
namespace DeskCalculator.Text.Quoted

/-- What stands between the quotes for a character, or for the half of a surrogate pair. -/
inductive Spells : List Char → Nat → Prop
  | plain {c : Char} (hquote : c ≠ '"') (hbackslash : c ≠ '\\') (hcontrol : ¬ c.toNat < 0x20) : Spells [c] c.toNat
  | short {e c : Char} (h : shortEscape? e = some c) : Spells ['\\', e] c.toNat
  | codeUnit {a b c d : Char} {unit : Nat} (h : codeUnit? a b c d = some unit) : Spells ['\\', 'u', a, b, c, d] unit

/-- The characters between the quotes, and the characters and halves of pairs that they stand for. -/
inductive Body : List Char → List Nat → Prop
  | nil : Body [] []
  | cons {part body : List Char} {unit : Nat} {units : List Nat} (hpart : Spells part unit) (hbody : Body body units) :
      Body (part ++ body) (unit :: units)

/-- The halves of the surrogate pair that a character beyond the first plane stands as. -/
def highHalf (c : Char) : Nat := 0xD800 + (c.toNat - 0x10000) / 0x400

def lowHalf (c : Char) : Nat := 0xDC00 + (c.toNat - 0x10000) % 0x400

/-- Numbers that join to a text. -/
inductive Joins : List Nat → List Char → Prop
  | nil : Joins [] []
  | character {units : List Nat} {cs : List Char} (c : Char) (hrest : Joins units cs) :
      Joins (c.toNat :: units) (c :: cs)
  | pair {units : List Nat} {cs : List Char} {c : Char} (hc : 0x10000 ≤ c.toNat) (hrest : Joins units cs) :
      Joins (highHalf c :: lowHalf c :: units) (c :: cs)

/-- The text that the characters between the quotes mean, if there is one. -/
def Means (body : List Char) (text : Option String) : Prop :=
  ∃ units, Body body units ∧ ∀ meant : String, text = some meant ↔ Joins units meant.toList

def IsLiteral (cs : List Char) (text : Option String) : Prop := ∃ body, Means body text ∧ cs = '"' :: (body ++ ['"'])

/-! Scanning. -/

/-- What is scanned with one more number in front of it. -/
def withUnit (unit : Nat) (scanned : Option (List Nat × List Char)) : Option (List Nat × List Char) :=
  scanned.map fun (units, rest) => (unit :: units, rest)

theorem scan_short {e c : Char} (h : shortEscape? e = some c) (rest : List Char) :
    scan ('\\' :: e :: rest) = withUnit c.toNat (scan rest) := by
  have hunit : ∀ a b c d : Char, ∀ tail : List Char, e = 'u' → rest = a :: b :: c :: d :: tail → False := by
    rintro a b c d tail rfl -
    simp [shortEscape?] at h
  rw [scan.eq_3 e rest hunit, h]
  cases scan rest <;> rfl

theorem scan_codeUnit {a b c d : Char} {unit : Nat} (h : codeUnit? a b c d = some unit) (rest : List Char) :
    scan ('\\' :: 'u' :: a :: b :: c :: d :: rest) = withUnit unit (scan rest) := by
  rw [scan, h]
  cases scan rest <;> rfl

theorem scan_plain {c : Char} (hquote : c ≠ '"') (hbackslash : c ≠ '\\') (hcontrol : ¬ c.toNat < 0x20)
    (rest : List Char) : scan (c :: rest) = withUnit c.toNat (scan rest) := by
  rw [scan.eq_4 c rest hquote (fun _ _ _ _ _ h => absurd h hbackslash) (fun _ _ h => absurd h hbackslash),
    if_neg hcontrol]
  cases scan rest <;> rfl

theorem scan_spells {part : List Char} {unit : Nat} (h : Spells part unit) (rest : List Char) :
    scan (part ++ rest) = withUnit unit (scan rest) := by
  cases h with
  | plain hquote hbackslash hcontrol => exact scan_plain hquote hbackslash hcontrol rest
  | short h => exact scan_short h rest
  | codeUnit h => exact scan_codeUnit h rest

theorem scan_body {body : List Char} {units : List Nat} (h : Body body units) (rest : List Char) :
    scan (body ++ '"' :: rest) = some (units, rest) := by
  induction h with
  | nil => rfl
  | cons hpart _ ih =>
    rw [List.append_assoc, scan_spells hpart, ih]
    rfl

/-- Whatever is scanned is the body of a literal, up to the quote that closes it. -/
theorem body_of_scan {cs rest : List Char} {units : List Nat} (h : scan cs = some (units, rest)) :
    ∃ body, cs = body ++ '"' :: rest ∧ Body body units := by
  -- by the branches of the scanner: the closing quote, the two kinds of escapes, a character for itself
  fun_induction scan cs generalizing units with
  | case1 =>
    cases h
    exact ⟨[], rfl, .nil⟩
  | case2 a b c d cs ih =>
    simp only [Option.bind_eq_bind, Option.bind_eq_some_iff, Option.pure_def] at h
    obtain ⟨unit, hunit, ⟨others, tail⟩, hscan, h⟩ := h
    cases h
    obtain ⟨body, rfl, hbody⟩ := ih hscan
    exact ⟨_, rfl, .cons (.codeUnit hunit) hbody⟩
  | case3 e cs hlong ih =>
    simp only [Option.bind_eq_bind, Option.bind_eq_some_iff, Option.pure_def] at h
    obtain ⟨c, hc, ⟨others, tail⟩, hscan, h⟩ := h
    cases h
    obtain ⟨body, rfl, hbody⟩ := ih hscan
    exact ⟨_, rfl, .cons (.short hc) hbody⟩
  | case4 => cases h
  | case5 c cs hquote hlong hshort hcontrol ih =>
    simp only [Option.bind_eq_bind, Option.bind_eq_some_iff, Option.pure_def] at h
    obtain ⟨⟨others, tail⟩, hscan, h⟩ := h
    cases h
    obtain ⟨body, rfl, hbody⟩ := ih hscan
    -- something follows, so that a backslash would have been taken for an escape
    have hbackslash : c ≠ '\\' := by
      rintro rfl
      cases body with
      | nil => exact hshort _ _ rfl rfl
      | cons e body => exact hshort _ _ rfl rfl
    exact ⟨_, rfl, .cons (.plain hquote hbackslash hcontrol) hbody⟩
  | case6 => cases h

/-! Joining. -/

theorem toNat_lt (c : Char) : c.toNat < 0x110000 := by
  have hvalid : c.toNat < 0xD800 ∨ 0xDFFF < c.toNat ∧ c.toNat < 0x110000 := c.valid
  omega

theorem hexValue?_lt {c : Char} {n : Nat} (h : hexValue? c = some n) : n < 16 := by
  have hle (a b : Char) : a ≤ b ↔ a.toNat ≤ b.toNat := UInt32.le_iff_toNat_le
  simp only [hexValue?, Bool.and_eq_true, decide_eq_true_eq, hle, Char.reduceToNat] at h
  -- a decimal digit, a small letter or a capital
  split at h
  · cases h
    omega
  split at h
  · cases h
    omega
  split at h
  · cases h
    omega
  · cases h

theorem codeUnit?_lt {a b c d : Char} {unit : Nat} (h : codeUnit? a b c d = some unit) : unit < 0x10000 := by
  simp only [codeUnit?, Option.bind_eq_bind, Option.bind_eq_some_iff, Option.pure_def, Option.some.injEq] at h
  obtain ⟨i, hi, j, hj, k, hk, l, hl, rfl⟩ := h
  have hi := hexValue?_lt hi
  have hj := hexValue?_lt hj
  have hk := hexValue?_lt hk
  have hl := hexValue?_lt hl
  omega

theorem Spells.lt {part : List Char} {unit : Nat} (h : Spells part unit) : unit < 0x110000 := by
  cases h with
  | plain => exact toNat_lt _
  | short => exact toNat_lt _
  | codeUnit h =>
    have hunit := codeUnit?_lt h
    omega

theorem Body.lt {body : List Char} {units : List Nat} (h : Body body units) : ∀ unit ∈ units, unit < 0x110000 := by
  induction h with
  | nil => exact List.forall_mem_nil _
  | cons hpart _ ih => exact List.forall_mem_cons.mpr ⟨hpart.lt, ih⟩

theorem not_isSurrogate (c : Char) : isHighSurrogate c.toNat = false ∧ isLowSurrogate c.toNat = false := by
  have hvalid : c.toNat < 0xD800 ∨ 0xDFFF < c.toNat ∧ c.toNat < 0x110000 := c.valid
  simp only [isHighSurrogate, isLowSurrogate, Bool.and_eq_false_iff, decide_eq_false_iff_not]
  omega

theorem isHighSurrogate_highHalf {c : Char} (hc : 0x10000 ≤ c.toNat) : isHighSurrogate (highHalf c) = true := by
  have hlt := toNat_lt c
  simp only [isHighSurrogate, Bool.and_eq_true, decide_eq_true_eq]
  unfold highHalf
  omega

theorem isLowSurrogate_lowHalf (c : Char) : isLowSurrogate (lowHalf c) = true := by
  simp only [isLowSurrogate, Bool.and_eq_true, decide_eq_true_eq]
  unfold lowHalf
  omega

theorem assemble_of_joins {units : List Nat} {cs : List Char} (h : Joins units cs) : assemble units = some cs := by
  induction h with
  | nil => rfl
  | @character units cs c _ ih =>
    obtain ⟨hhigh, hlow⟩ := not_isSurrogate c
    cases units with
    | nil =>
      cases ih
      simp [assemble, hhigh, hlow]
    | cons unit units => simp [assemble, hhigh, hlow, ih]
  | @pair units cs c hc _ ih =>
    have hjoined : 0x10000 + (highHalf c - 0xD800) * 0x400 + (lowHalf c - 0xDC00) = c.toNat := by
      simp only [highHalf, lowHalf]
      omega
    rw [assemble, isHighSurrogate_highHalf hc, isLowSurrogate_lowHalf, ih, hjoined]
    simp

theorem toNat_ofNat {n : Nat} (hn : n < 0xD800 ∨ 0xDFFF < n ∧ n < 0x110000) : (Char.ofNat n).toNat = n := by
  rw [Char.ofNat, dif_pos hn]
  rfl

/-- A number that is no half of a pair is that of a character. -/
theorem joins_character {n : Nat} (hn : n < 0x110000) (hhigh : ¬ isHighSurrogate n = true)
    (hlow : ¬ isLowSurrogate n = true) {units : List Nat} {cs : List Char} (hrest : Joins units cs) :
    Joins (n :: units) (Char.ofNat n :: cs) := by
  have hvalue : (Char.ofNat n).toNat = n := by
    simp only [isHighSurrogate, isLowSurrogate, Bool.and_eq_true, decide_eq_true_eq] at hhigh hlow
    exact toNat_ofNat (by omega)
  have hjoins := Joins.character (Char.ofNat n) hrest
  rwa [hvalue] at hjoins

/-- Two halves are those of one character. -/
theorem joins_pair {n m : Nat} (hn : isHighSurrogate n = true) (hm : isLowSurrogate m = true) {units : List Nat}
    {cs : List Char} (hrest : Joins units cs) :
    Joins (n :: m :: units) (Char.ofNat (0x10000 + (n - 0xD800) * 0x400 + (m - 0xDC00)) :: cs) := by
  simp only [isHighSurrogate, isLowSurrogate, Bool.and_eq_true, decide_eq_true_eq] at hn hm
  have hvalue := toNat_ofNat (n := 0x10000 + (n - 0xD800) * 0x400 + (m - 0xDC00)) (by omega)
  generalize Char.ofNat _ = c at hvalue ⊢
  have hhigh : highHalf c = n := by
    unfold highHalf
    omega
  have hlow : lowHalf c = m := by
    unfold lowHalf
    omega
  have hjoins := Joins.pair (c := c) (by omega) hrest
  rwa [hhigh, hlow] at hjoins

theorem joins_of_assemble {units : List Nat} {cs : List Char} (hunits : ∀ unit ∈ units, unit < 0x110000)
    (h : assemble units = some cs) : Joins units cs := by
  -- the bound is needed: a number beyond all characters would be made the character zero
  fun_induction assemble units generalizing cs with
  | case1 =>
    cases h
    exact .nil
  | case2 => cases h
  | case3 n hsurrogate =>
    rw [Bool.or_eq_true, not_or] at hsurrogate
    cases h
    exact joins_character (hunits n (by simp)) hsurrogate.1 hsurrogate.2 .nil
  | case4 n m rest hhigh hlow ih =>
    obtain ⟨cs, hrest, rfl⟩ := Option.map_eq_some_iff.mp h
    exact joins_pair hhigh hlow (ih (fun unit hunit => hunits unit (by simp [hunit])) hrest)
  | case5 => cases h
  | case6 => cases h
  | case7 n m rest hhigh hlow ih =>
    obtain ⟨cs, hrest, rfl⟩ := Option.map_eq_some_iff.mp h
    exact joins_character (hunits n (by simp)) hhigh hlow (ih (fun unit hunit => hunits unit (by simp [hunit])) hrest)

theorem means_iff {body : List Char} {text : Option String} :
    Means body text ↔ ∃ units, Body body units ∧ text = (assemble units).map String.ofList := by
  have hmeant {units : List Nat} (hbody : Body body units) (meant : String) :
      (assemble units).map String.ofList = some meant ↔ Joins units meant.toList := by
    rw [Option.map_eq_some_iff]
    constructor
    · rintro ⟨cs, hcs, rfl⟩
      rw [String.toList_ofList]
      exact joins_of_assemble hbody.lt hcs
    · intro hjoins
      exact ⟨_, assemble_of_joins hjoins, String.ofList_toList⟩
  constructor
  · rintro ⟨units, hbody, htext⟩
    refine ⟨units, hbody, Option.ext fun meant => ?_⟩
    rw [htext meant, hmeant hbody meant]
  · rintro ⟨units, hbody, rfl⟩
    exact ⟨units, hbody, hmeant hbody⟩

/-- What is read is a literal with its meaning, up to the quote that closes it. -/
theorem read_eq_some_iff {cs rest : List Char} {text : Option String} :
    read cs = some (text, rest) ↔ ∃ body, cs = body ++ '"' :: rest ∧ Means body text := by
  constructor
  · intro h
    obtain ⟨⟨units, tail⟩, hscan, h⟩ := Option.map_eq_some_iff.mp h
    cases h
    obtain ⟨body, rfl, hbody⟩ := body_of_scan hscan
    exact ⟨body, rfl, means_iff.mpr ⟨units, hbody, rfl⟩⟩
  · rintro ⟨body, rfl, hmeans⟩
    obtain ⟨units, hbody, rfl⟩ := means_iff.mp hmeans
    rw [read, scan_body hbody]
    rfl

theorem Means.read {body : List Char} {text : Option String} (h : Means body text) (rest : List Char) :
    Quoted.read (body ++ '"' :: rest) = some (text, rest) :=
  read_eq_some_iff.mpr ⟨body, rfl, h⟩

/-! Writing. -/

theorem codeUnit?_control {n : Nat} (hn : n < 0x20) :
    codeUnit? '0' '0' (hexDigit (n / 16)) (hexDigit (n % 16)) = some n := by
  have hall : ∀ n : Fin 0x20,
      codeUnit? '0' '0' (hexDigit (n.val / 16)) (hexDigit (n.val % 16)) = some n.val := by decide
  exact hall ⟨n, hn⟩

/-- However a character is written, it stands for itself. -/
theorem spells_escape (c : Char) : Spells (escape c) c.toNat := by
  by_cases hshort : c ∈ ['"', '\\', '\x08', '\x0c', '\n', '\r', '\t']
  · have hall : ∀ c ∈ ['"', '\\', '\x08', '\x0c', '\n', '\r', '\t'],
        ∃ e, escape c = ['\\', e] ∧ shortEscape? e = some c := by
      simp only [List.forall_mem_cons]
      exact ⟨⟨'"', rfl, rfl⟩, ⟨'\\', rfl, rfl⟩, ⟨'b', rfl, rfl⟩, ⟨'f', rfl, rfl⟩, ⟨'n', rfl, rfl⟩, ⟨'r', rfl, rfl⟩,
        ⟨'t', rfl, rfl⟩, List.forall_mem_nil _⟩
    obtain ⟨e, hescape, h⟩ := hall c hshort
    rw [hescape]
    exact .short h
  · simp only [List.mem_cons, List.not_mem_nil, or_false, not_or] at hshort
    obtain ⟨hquote, hbackslash, hbackspace, hfeed, hline, hreturn, htab⟩ := hshort
    unfold escape
    rw [if_neg hquote, if_neg hbackslash, if_neg hbackspace, if_neg hfeed, if_neg hline, if_neg hreturn, if_neg htab]
    by_cases hcontrol : c.toNat < 0x20
    · rw [if_pos hcontrol]
      exact .codeUnit (codeUnit?_control hcontrol)
    · rw [if_neg hcontrol]
      exact .plain hquote hbackslash hcontrol

theorem body_escape (cs : List Char) : Body (cs.flatMap escape) (cs.map Char.toNat) := by
  induction cs with
  | nil => exact .nil
  | cons c cs ih => exact .cons (spells_escape c) ih

theorem joins_characters (cs : List Char) : Joins (cs.map Char.toNat) cs := by
  induction cs with
  | nil => exact .nil
  | cons c cs ih => exact .character c ih

/-- A text is written as a literal that means it. -/
theorem isLiteral_encode (text : String) : IsLiteral (encode text).toList (some text) := by
  refine ⟨text.toList.flatMap escape, means_iff.mpr ⟨_, body_escape _, ?_⟩, String.toList_ofList⟩
  rw [assemble_of_joins (joins_characters _), Option.map_some, String.ofList_toList]

end DeskCalculator.Text.Quoted
