import DeskCalculator.Proofs.Text.Digits
import DeskCalculator.Proofs.Text.Quoted
import DeskCalculator.Text.Json

/-! The grammar of documents, apart from any reader. A document has one value with spaces around it, and spaces may
stand around every thing in a list and around every name and value of a field. -/
namespace DeskCalculator.Text.Json

def IsGap (cs : List Char) : Prop := ∀ c ∈ cs, isSpace c = true

theorem isGap_nil : IsGap [] := List.forall_mem_nil _

def IsDigits (cs : List Char) : Prop := cs ≠ [] ∧ ∀ c ∈ cs, c.isDigit = true

/-- The digits of a whole number; nothing stands after a leading zero. -/
def IsWhole (cs : List Char) : Prop := IsDigits cs ∧ (cs.head? = some '0' → cs = ['0'])

def IsFraction (cs : List Char) : Prop := cs = [] ∨ ∃ digits, IsDigits digits ∧ cs = '.' :: digits

def IsExponent (cs : List Char) : Prop :=
  cs = [] ∨ ∃ e sign digits, (e = 'e' ∨ e = 'E') ∧ IsSign sign ∧ IsDigits digits ∧ cs = e :: sign ++ digits

def IsMagnitude (cs : List Char) : Prop :=
  ∃ whole fraction exponent, IsWhole whole ∧ IsFraction fraction ∧ IsExponent exponent
    ∧ cs = whole ++ fraction ++ exponent

def IsNumber (cs : List Char) : Prop := IsMagnitude cs ∨ ∃ magnitude, IsMagnitude magnitude ∧ cs = '-' :: magnitude

theorem IsMagnitude.exists_digit {magnitude : List Char} (h : IsMagnitude magnitude) :
    ∃ d ds, magnitude = d :: ds ∧ d.isDigit = true := by
  obtain ⟨whole, fraction, exponent, ⟨⟨hne, hdigits⟩, -⟩, -, -, rfl⟩ := h
  obtain ⟨d, ds, rfl⟩ := List.exists_cons_of_ne_nil hne
  exact ⟨d, _, rfl, hdigits d (by simp)⟩

theorem IsNumber.head {spelling : List Char} (h : IsNumber spelling) :
    ∃ c cs, spelling = c :: cs ∧ (c.isDigit = true ∨ c = '-') := by
  obtain hmagnitude | ⟨magnitude, -, rfl⟩ := h
  · obtain ⟨d, ds, hcons, hd⟩ := hmagnitude.exists_digit
    exact ⟨d, ds, hcons, Or.inl hd⟩
  · exact ⟨'-', magnitude, rfl, Or.inr rfl⟩

theorem IsNumber.behind_minus {cs : List Char} (h : IsNumber ('-' :: cs)) : IsMagnitude cs := by
  obtain hmagnitude | ⟨magnitude, hmagnitude, heq⟩ := h
  · obtain ⟨d, ds, heq, hd⟩ := hmagnitude.exists_digit
    rw [← (List.cons.inj heq).1] at hd
    exact absurd hd (by decide)
  · rwa [(List.cons.inj heq).2]

theorem IsNumber.of_no_minus {cs : List Char} (h : IsNumber cs) (hminus : ∀ ds, cs = '-' :: ds → False) :
    IsMagnitude cs :=
  h.resolve_right fun ⟨magnitude, _, heq⟩ => hminus magnitude heq

/-- A magnitude of digits alone is a whole number. -/
theorem IsMagnitude.isWhole {magnitude : List Char} (h : IsMagnitude magnitude)
    (hdigits : ∀ c ∈ magnitude, c.isDigit = true) : IsWhole magnitude := by
  obtain ⟨whole, fraction, exponent, hwhole, hfraction, hexponent, rfl⟩ := h
  have hnofraction : fraction = [] := by
    obtain rfl | ⟨digits, -, rfl⟩ := hfraction
    · rfl
    · exact absurd (hdigits '.' (by simp)) (by decide)
  have hnoexponent : exponent = [] := by
    obtain rfl | ⟨e, sign, digits, rfl | rfl, -, -, rfl⟩ := hexponent
    · rfl
    · exact absurd (hdigits 'e' (by simp)) (by decide)
    · exact absurd (hdigits 'E' (by simp)) (by decide)
  rwa [hnofraction, hnoexponent, List.append_nil, List.append_nil]

/-- A part of a document with the spaces around it, and what it stands for. -/
structure Piece (α : Type) where
  before : List Char
  text : List Char
  after : List Char
  value : α

namespace Piece
variable {α : Type}

def written (p : Piece α) : List Char := p.before ++ p.text ++ p.after

def IsSpaced (p : Piece α) : Prop := IsGap p.before ∧ IsGap p.after

end Piece

/-- The name of a field and its value. -/
structure Member where
  name : Piece (Option String)
  item : Piece Json

namespace Member

def written (m : Member) : List Char := m.name.written ++ ':' :: m.item.written

def field (m : Member) : Option String × Json := (m.name.value, m.item.value)

/-- A field whose name is a text, with spaces in front of the name and of the value. -/
def ofText (indent : List Char) (name : String) (gap text : List Char) (value : Json) : Member :=
  ⟨⟨indent, (Quoted.encode name).toList, [], some name⟩, ⟨gap, text, [], value⟩⟩

@[simp] theorem name_ofText (indent : List Char) (name : String) (gap text : List Char) (value : Json) :
    (ofText indent name gap text value).name = ⟨indent, (Quoted.encode name).toList, [], some name⟩ := rfl

@[simp] theorem item_ofText (indent : List Char) (name : String) (gap text : List Char) (value : Json) :
    (ofText indent name gap text value).item = ⟨gap, text, [], value⟩ := rfl

/-- The spaces of a field are spaces, and its name is a literal. -/
structure IsNamed (m : Member) : Prop where
  name : m.name.IsSpaced
  item : m.item.IsSpaced
  literal : Quoted.IsLiteral m.name.text m.name.value

theorem isNamed_ofText {indent gap : List Char} (hindent : IsGap indent) (hgap : IsGap gap) (name : String)
    (text : List Char) (value : Json) : (ofText indent name gap text value).IsNamed := by
  constructor
  · exact ⟨hindent, isGap_nil⟩
  · exact ⟨hgap, isGap_nil⟩
  · simp only [name_ofText]
    exact Quoted.isLiteral_encode name

end Member

/-- The texts that stand for a value. -/
inductive Spells : List Char → Json → Prop
  | null : Spells ['n', 'u', 'l', 'l'] null
  | yes : Spells ['t', 'r', 'u', 'e'] (bool true)
  | no : Spells ['f', 'a', 'l', 's', 'e'] (bool false)
  | number {cs : List Char} (h : IsNumber cs) : Spells cs (number cs)
  | string {cs : List Char} {text : Option String} (h : Quoted.IsLiteral cs text) : Spells cs (string text)
  | array {items : List (Piece Json)} {gap : List Char} (hgap : IsGap gap) (hspaced : ∀ p ∈ items, p.IsSpaced)
      (hitems : ∀ p ∈ items, Spells p.text p.value) :
      Spells ('[' :: ([','].intercalate (items.map Piece.written) ++ gap ++ [']'])) (array (items.map Piece.value))
  | object {members : List Member} {gap : List Char} (hgap : IsGap gap) (hnamed : ∀ m ∈ members, m.IsNamed)
      (hitems : ∀ m ∈ members, Spells m.item.text m.item.value) :
      Spells ('{' :: ([','].intercalate (members.map Member.written) ++ gap ++ ['}']))
        (object (members.map Member.field))

def IsSpelled (value : Json) : Prop := ∃ text, Spells text value

theorem IsSpelled.number {cs : List Char} (h : IsSpelled (number cs)) : IsNumber cs := by
  obtain ⟨text, htext⟩ := h
  cases htext with
  | number h => exact h

theorem IsSpelled.items {items : List Json} (h : IsSpelled (array items)) : ∀ item ∈ items, IsSpelled item := by
  obtain ⟨text, htext⟩ := h
  cases htext with
  | array _ _ hitems => exact List.forall_mem_map.mpr fun p hp => ⟨p.text, hitems p hp⟩

theorem IsSpelled.fields {fields : List (Option String × Json)} (h : IsSpelled (object fields)) :
    ∀ field ∈ fields, IsSpelled field.2 := by
  obtain ⟨text, htext⟩ := h
  cases htext with
  | object _ _ hitems => exact List.forall_mem_map.mpr fun m hm => ⟨m.item.text, hitems m hm⟩

theorem IsSpelled.fieldsNamed {fields : List (Option String × Json)} (h : IsSpelled (object fields)) (key : String) :
    ∀ value ∈ fieldsNamed key fields, IsSpelled value := by
  intro value hvalue
  obtain ⟨⟨name, v⟩, hfield, hnamed⟩ := List.mem_filterMap.mp hvalue
  obtain ⟨-, hsame⟩ := Option.ite_none_right_eq_some.mp hnamed
  obtain rfl : v = value := Option.some.inj hsame
  exact h.fields _ hfield

/-- A document that holds a value. -/
def Holds (document : String) (value : Json) : Prop :=
  ∃ before text after, IsGap before ∧ IsGap after ∧ Spells text value ∧ document.toList = before ++ text ++ after

theorem Holds.isSpelled {document : String} {value : Json} (h : Holds document value) : IsSpelled value := by
  obtain ⟨_, text, _, -, -, htext, -⟩ := h
  exact ⟨text, htext⟩

/-- A document that is nothing but the text of a value. -/
theorem Spells.holds {document : String} {value : Json} (h : Spells document.toList value) : Holds document value :=
  ⟨[], _, [], isGap_nil, isGap_nil, h, by simp⟩

/-! Integers. -/

/-- The digits of an integer, after a sign if it is negative. -/
def integerText (n : Int) : List Char :=
  if 0 ≤ n then Nat.toDigits 10 n.natAbs else '-' :: Nat.toDigits 10 n.natAbs

theorem toList_repr (n : Int) : n.repr.toList = integerText n := by
  unfold integerText
  rw [Int.repr_eq_if]
  by_cases hn : 0 ≤ n
  · have habs : n.toNat = n.natAbs := by omega
    rw [if_pos hn, if_pos hn, Nat.toList_repr, habs]
  · have habs : (-n).toNat = n.natAbs := by omega
    rw [if_neg hn, if_neg hn, String.toList_append, Nat.toList_repr, habs]
    rfl

theorem toDigits_head {n : Nat} (hn : n ≠ 0) : ∃ d ds, Nat.toDigits 10 n = d :: ds ∧ d ≠ '0' := by
  induction n using Nat.strong_induction_on with
  | _ n ih =>
    rw [Nat.toDigits_eq_if (by decide)]
    split
    · next hlt =>
      have hall : ∀ n : Fin 10, n.val ≠ 0 → Nat.digitChar n ≠ '0' := by decide
      exact ⟨_, [], rfl, hall ⟨n, hlt⟩ hn⟩
    · obtain ⟨d, ds, hdigits, hd⟩ := ih (n / 10) (by omega) (by omega)
      exact ⟨d, ds ++ [Nat.digitChar (n % 10)], by rw [hdigits, List.cons_append], hd⟩

theorem isWhole_toDigits (n : Nat) : IsWhole (Nat.toDigits 10 n) := by
  refine ⟨⟨Nat.toDigits_ne_nil, fun d hd => Nat.isDigit_of_mem_toDigits (by decide) (by decide) hd⟩, fun hzero => ?_⟩
  by_cases hn : n = 0
  · rw [hn, Nat.toDigits_zero]
  · obtain ⟨d, ds, hcons, hd⟩ := toDigits_head hn
    rw [hcons] at hzero
    exact absurd (Option.some.inj hzero) hd

theorem digit_value {d : Char} (hd : d.isDigit = true) : d.toNat - '0'.toNat < 10
    ∧ (d ≠ '0' → 0 < d.toNat - '0'.toNat) ∧ Nat.toDigits 10 (d.toNat - '0'.toNat) = [d] :=
  forall_digit (P := fun d => d.toNat - '0'.toNat < 10
    ∧ (d ≠ '0' → 0 < d.toNat - '0'.toNat) ∧ Nat.toDigits 10 (d.toNat - '0'.toNat) = [d]) (by decide) hd

/-- Digits behind those of a number that is not zero. -/
theorem toDigits_append {n : Nat} (hn : 0 < n) {ds : List Char} (hds : ∀ c ∈ ds, c.isDigit = true) :
    Nat.toDigits 10 n ++ ds = Nat.toDigits 10 (Nat.ofDigitChars 10 ds n) := by
  -- the number in front takes in one digit after the other, and stays above zero
  induction ds generalizing n with
  | nil => rw [List.append_nil, Nat.ofDigitChars_nil]
  | cons d ds ih =>
    obtain ⟨hd, hds⟩ := List.forall_mem_cons.mp hds
    obtain ⟨hvalue, -, hspelled⟩ := digit_value hd
    have hnext : 0 < 10 * n + (d.toNat - '0'.toNat) := by omega
    calc Nat.toDigits 10 n ++ d :: ds
        = Nat.toDigits 10 n ++ Nat.toDigits 10 (d.toNat - '0'.toNat) ++ ds := by rw [hspelled]; simp
      _ = Nat.toDigits 10 (10 * n + (d.toNat - '0'.toNat)) ++ ds := by
          rw [Nat.toDigits_append_toDigits (by decide) hn hvalue]
      _ = Nat.toDigits 10 (Nat.ofDigitChars 10 (d :: ds) n) := by rw [ih hnext hds, Nat.ofDigitChars_cons]

/-- A whole number is spelled by the digits of its value, and in no other way. -/
theorem toDigits_digitsValue {ds : List Char} (h : IsWhole ds) : Nat.toDigits 10 (digitsValue ds) = ds := by
  obtain ⟨⟨hne, hdigits⟩, hzero⟩ := h
  cases ds with
  | nil => exact absurd rfl hne
  | cons d ds =>
    by_cases hd : d = '0'
    · subst hd
      rw [hzero rfl]
      rfl
    · obtain ⟨hfirst, hothers⟩ := List.forall_mem_cons.mp hdigits
      obtain ⟨-, hpos, hspelled⟩ := digit_value hfirst
      have happend := toDigits_append (hpos hd) hothers
      rw [hspelled, List.singleton_append] at happend
      rw [digitsValue, Nat.ofDigitChars_cons, Nat.mul_zero, Nat.zero_add, happend]

theorem isNumber_integerText (n : Int) : IsNumber (integerText n) := by
  have hmagnitude : IsMagnitude (Nat.toDigits 10 n.natAbs) :=
    ⟨_, [], [], isWhole_toDigits n.natAbs, Or.inl rfl, Or.inl rfl, by simp⟩
  unfold integerText
  by_cases hn : 0 ≤ n
  · rw [if_pos hn]
    exact Or.inl hmagnitude
  · rw [if_neg hn]
    exact Or.inr ⟨_, hmagnitude, rfl⟩

/-! Values as they are written without spaces. -/

theorem spells_integer (n : Int) : Spells n.repr.toList (number (integerText n)) := by
  rw [toList_repr]
  exact .number (isNumber_integerText n)

theorem spells_text (text : String) : Spells (Quoted.encode text).toList (string (some text)) :=
  .string (Quoted.isLiteral_encode text)

theorem spells_array {β : Type} {text : β → List Char} {value : β → Json} {xs : List β}
    (h : ∀ x ∈ xs, Spells (text x) (value x)) :
    Spells ('[' :: ([','].intercalate (xs.map text) ++ [']'])) (array (xs.map value)) := by
  let items : List (Piece Json) := xs.map fun x => ⟨[], text x, [], value x⟩
  have hspelled : Spells _ (array (items.map Piece.value)) :=
    .array isGap_nil (List.forall_mem_map.mpr fun _ _ => ⟨isGap_nil, isGap_nil⟩) (List.forall_mem_map.mpr h)
  simpa [items, Piece.written, Function.comp_def] using hspelled

end DeskCalculator.Text.Json
