import DeskCalculator.Expression.Tree
import DeskCalculator.Proofs.Outcome
/-!
The grammar of expressions as a relation between token lists and trees without places, and the proof
that the reader of trees follows it. A nesting counts the signs and pairs of parentheses around a
token; operators and the length of a chain count nothing. The reader accepts exactly the sums in which
no token lies under more than 128 levels, and its tree is the only one that the grammar has for them.
-/
namespace DeskCalculator

open Token (Placed)

inductive Shape where
  | number (value : Float)
  | negation (operand : Shape)
  | binary (op : Operator) (left right : Shape)
deriving DecidableEq

def Tree.shape : Tree → Shape
  | number _ value => .number value
  | negation _ operand => .negation operand.shape
  | binary op _ left right => .binary op left.shape right.shape

namespace Tree

theorem eq_number_of_shape {t : Tree} {x : Float} (h : t.shape = .number x) : ∃ column, t = number column x := by
  cases t with
  | number column y => exact ⟨column, by rw [Shape.number.inj h]⟩
  | negation column operand => exact Shape.noConfusion h
  | binary op column left right => exact Shape.noConfusion h

theorem eq_negation_of_shape {t : Tree} {s : Shape} (h : t.shape = .negation s) :
    ∃ column operand, t = negation column operand ∧ operand.shape = s := by
  cases t with
  | number column y => exact Shape.noConfusion h
  | negation column operand => exact ⟨column, operand, rfl, Shape.negation.inj h⟩
  | binary op column left right => exact Shape.noConfusion h

theorem eq_binary_of_shape {t : Tree} {op : Operator} {l r : Shape} (h : t.shape = .binary op l r) :
    ∃ column left right, t = binary op column left right ∧ left.shape = l ∧ right.shape = r := by
  cases t with
  | number column y => exact Shape.noConfusion h
  | negation column operand => exact Shape.noConfusion h
  | binary op' column left right =>
    obtain ⟨rfl, hl, hr⟩ := Shape.binary.inj h
    exact ⟨column, left, right, rfl, hl, hr⟩

end Tree

inductive Phrase where
  | sum
  | product
  | operand
deriving DecidableEq

/-- `Spells phrase nesting tokens shape`: the tokens are a phrase of the grammar, `shape` is its tree,
and `nesting` is the greatest number of levels that one of the tokens lies under. A chain of operators
of one level is read from the left: all but its last operand is the left side. -/
inductive Spells : Phrase → Nat → List Token → Shape → Prop
  | literal {text : String} {value : Float} (hread : Numeral.read? text = some value) :
      Spells .operand 0 [.literal text] (.number value)
  | plus {n : Nat} {ts : List Token} {s : Shape} (h : Spells .operand n ts s) :
      Spells .operand (n + 1) (.operator .plus :: ts) s
  | minus {n : Nat} {ts : List Token} {s : Shape} (h : Spells .operand n ts s) :
      Spells .operand (n + 1) (.operator .minus :: ts) (.negation s)
  | group {n : Nat} {ts : List Token} {s : Shape} (h : Spells .sum n ts s) :
      Spells .operand (n + 1) (.opening :: (ts ++ [.closing])) s
  | operand {n : Nat} {ts : List Token} {s : Shape} (h : Spells .operand n ts s) :
      Spells .product n ts s
  | times {m n : Nat} {ts us : List Token} {l r : Shape} {op : Operator}
      (hl : Spells .product m ts l) (hop : op = .times ∨ op = .divide) (hr : Spells .operand n us r) :
      Spells .product (max m n) (ts ++ .operator op :: us) (.binary op l r)
  | product {n : Nat} {ts : List Token} {s : Shape} (h : Spells .product n ts s) :
      Spells .sum n ts s
  | plusMinus {m n : Nat} {ts us : List Token} {l r : Shape} {op : Operator}
      (hl : Spells .sum m ts l) (hop : op = .plus ∨ op = .minus) (hr : Spells .product n us r) :
      Spells .sum (max m n) (ts ++ .operator op :: us) (.binary op l r)

theorem Spells.ne_nil {phrase : Phrase} {n : Nat} {ts : List Token} {s : Shape}
    (h : Spells phrase n ts s) : ts ≠ [] := by
  induction h <;> simp_all

/-- A phrase that fits into `room` levels of nesting. -/
def Fits (room : Nat) (phrase : Phrase) (ts : List Token) (s : Shape) : Prop :=
  ∃ n ≤ room, Spells phrase n ts s

namespace Operator

theorem isProduct_iff (op : Operator) : op.isProduct = true ↔ op = .times ∨ op = .divide := by
  cases op <;> decide

theorem isSum_iff (op : Operator) : op.isSum = true ↔ op = .plus ∨ op = .minus := by
  cases op <;> decide

end Operator

namespace Fits

variable {room : Nat} {ts us : List Token} {l r s : Shape} {op : Operator}

theorem times (hl : Fits room .product ts l) (hop : op.isProduct = true)
    (hr : Fits room .operand us r) :
    Fits room .product (ts ++ .operator op :: us) (.binary op l r) := by
  obtain ⟨m, hm, hl⟩ := hl
  obtain ⟨n, hn, hr⟩ := hr
  exact ⟨max m n, by omega, .times hl ((Operator.isProduct_iff op).mp hop) hr⟩

theorem plusMinus (hl : Fits room .sum ts l) (hop : op.isSum = true)
    (hr : Fits room .product us r) :
    Fits room .sum (ts ++ .operator op :: us) (.binary op l r) := by
  obtain ⟨m, hm, hl⟩ := hl
  obtain ⟨n, hn, hr⟩ := hr
  exact ⟨max m n, by omega, .plusMinus hl ((Operator.isSum_iff op).mp hop) hr⟩

end Fits

/-- The grammar with places: the tokens are a phrase in which none lies under more than `room` levels, and each node of
the tree is at the place of its own token. Parentheses and plus signs have no node. -/
inductive SpellsAt : Phrase → Nat → List Placed → Tree → Prop
  | literal {room : Nat} {text : String} {value : Float} {column : Column} (hread : Numeral.read? text = some value) :
      SpellsAt .operand room [⟨.literal text, column⟩] (.number column value)
  | plus {room : Nat} {ps : List Placed} {t : Tree} {column : Column} (h : SpellsAt .operand room ps t) :
      SpellsAt .operand (room + 1) (⟨.operator .plus, column⟩ :: ps) t
  | minus {room : Nat} {ps : List Placed} {t : Tree} {column : Column} (h : SpellsAt .operand room ps t) :
      SpellsAt .operand (room + 1) (⟨.operator .minus, column⟩ :: ps) (.negation column t)
  | group {room : Nat} {ps : List Placed} {t : Tree} {column column' : Column} (h : SpellsAt .sum room ps t) :
      SpellsAt .operand (room + 1) (⟨.opening, column⟩ :: (ps ++ [⟨.closing, column'⟩])) t
  | operand {room : Nat} {ps : List Placed} {t : Tree} (h : SpellsAt .operand room ps t) :
      SpellsAt .product room ps t
  | times {room : Nat} {ps qs : List Placed} {l r : Tree} {op : Operator} {column : Column}
      (hl : SpellsAt .product room ps l) (hop : op.isProduct = true) (hr : SpellsAt .operand room qs r) :
      SpellsAt .product room (ps ++ ⟨.operator op, column⟩ :: qs) (.binary op column l r)
  | product {room : Nat} {ps : List Placed} {t : Tree} (h : SpellsAt .product room ps t) :
      SpellsAt .sum room ps t
  | plusMinus {room : Nat} {ps qs : List Placed} {l r : Tree} {op : Operator} {column : Column}
      (hl : SpellsAt .sum room ps l) (hop : op.isSum = true) (hr : SpellsAt .product room qs r) :
      SpellsAt .sum room (ps ++ ⟨.operator op, column⟩ :: qs) (.binary op column l r)

namespace Tree

abbrev tokensOf (ps : List Placed) : List Token := ps.map Placed.token

theorem tokensOf_place (start : Nat) (ts : List Token) : tokensOf (Token.place start ts) = ts := by
  induction ts generalizing start with
  | nil => rfl
  | cons token ts ih => simp [Token.place, ih]

/-! ### Chains of operators -/

def startsWith (level : Operator → Bool) : List Placed → Bool
  | ⟨.operator op, _⟩ :: _ => level op
  | _ => false

theorem chain_of_not_startsWith {level : Operator → Bool} {rest : List Placed}
    (h : startsWith level rest = false) (item : Reader) (bound : Nat) (left : Tree) :
    chain level item bound left rest = .ok (left, rest) := by
  unfold chain
  split
  · rename_i op column tail
    have hop : level op = false := h
    simp [hop]
  · rfl

theorem chain_operator {level : Operator → Bool} {op : Operator} (hop : level op = true)
    (item : Reader) (bound : Nat) (left : Tree) (column : Column) (rest : List Placed) :
    chain level item (bound + 1) left (⟨.operator op, column⟩ :: rest) =
      item rest >>= fun (right, rest) => chain level item bound (binary op column left right) rest := by
  rw [chain, if_pos hop]

theorem eq_of_startsWith {level : Operator → Bool} {ps : List Placed}
    (h : startsWith level ps = true) :
    ∃ op column rest, ps = ⟨.operator op, column⟩ :: rest ∧ level op = true := by
  unfold startsWith at h
  split at h
  · exact ⟨_, _, _, rfl, h⟩
  · simp at h

/-! ### What is accepted is in the grammar -/

/-- A reader yields trees of a kind if it takes the tokens of one off the front of the list. -/
def Yields (reader : Reader) (accepts : List Placed → Tree → Prop) : Prop :=
  ∀ ps t rest, reader ps = .ok (t, rest) → ∃ used, ps = used ++ rest ∧ accepts used t

/-- A reader is sound for a kind of phrase if it takes such a phrase off the front of the list and
returns a tree with the shape of that phrase. -/
def Sound (reader : Reader) (accepts : List Token → Shape → Prop) : Prop :=
  ∀ ps t rest, reader ps = .ok (t, rest) →
    ∃ used, ps = used ++ rest ∧ accepts (tokensOf used) t.shape

section
variable {level : Operator → Bool} {item : Reader} {accepts whole : List Placed → Tree → Prop}

theorem yields_of_nothing_used {before : List Placed} {left t : Tree} {ps rest : List Placed}
    (hleft : whole before left) (h : (.ok (left, ps) : Except Fault (Tree × List Placed)) = .ok (t, rest)) :
    ∃ used, ps = used ++ rest ∧ whole (before ++ used) t := by
  obtain ⟨rfl, rfl⟩ := Prod.mk.inj (Except.ok.inj h)
  exact ⟨[], rfl, by simpa using hleft⟩

/-- What a chain yields that has read `before` so far. The induction is on the bound of the number of
operators: every turn moves one operator and one operand from the list to what was read. -/
theorem chain_yields (hitem : Yields item accepts)
    (hmore : ∀ ps l op column qs r, whole ps l → level op = true → accepts qs r →
      whole (ps ++ ⟨.operator op, column⟩ :: qs) (binary op column l r))
    (bound : Nat) (before : List Placed) (left : Tree) (hleft : whole before left)
    (ps : List Placed) (t : Tree) (rest : List Placed)
    (h : chain level item bound left ps = .ok (t, rest)) :
    ∃ used, ps = used ++ rest ∧ whole (before ++ used) t := by
  induction bound generalizing before left ps with
  | zero => exact yields_of_nothing_used hleft (by simpa [chain] using h)
  | succ bound ih =>
    cases hs : startsWith level ps with
    | false => exact yields_of_nothing_used hleft (by rwa [chain_of_not_startsWith hs] at h)
    | true =>
      obtain ⟨op, column, tail, rfl, hop⟩ := eq_of_startsWith hs
      rw [chain_operator hop] at h
      obtain ⟨⟨right, after⟩, hread, hchain⟩ := Outcome.bind_eq_ok.mp h
      obtain ⟨operandUsed, rfl, hright⟩ := hitem _ _ _ hread
      have hnext : whole (before ++ ⟨.operator op, column⟩ :: operandUsed) (binary op column left right) :=
        hmore _ _ _ _ _ _ hleft hop hright
      obtain ⟨used, rfl, hused⟩ := ih _ _ hnext _ hchain
      refine ⟨⟨.operator op, column⟩ :: operandUsed ++ used, by simp, ?_⟩
      simpa using hused

theorem chainOf_yields (hitem : Yields item accepts) (hone : ∀ ps t, accepts ps t → whole ps t)
    (hmore : ∀ ps l op column qs r, whole ps l → level op = true → accepts qs r →
      whole (ps ++ ⟨.operator op, column⟩ :: qs) (binary op column l r)) :
    Yields (chainOf level item) whole := by
  intro ps t rest h
  obtain ⟨⟨first, after⟩, hread, hchain⟩ := Outcome.bind_eq_ok.mp h
  obtain ⟨firstUsed, rfl, hfirst⟩ := hitem _ _ _ hread
  obtain ⟨used, rfl, hused⟩ := chain_yields hitem hmore _ _ _ (hone _ _ hfirst) _ _ _ hchain
  exact ⟨firstUsed ++ used, by simp, hused⟩

end

theorem chainOf_sound {level : Operator → Bool} {item : Reader}
    {accepts whole : List Token → Shape → Prop} (hitem : Sound item accepts)
    (hone : ∀ ts s, accepts ts s → whole ts s)
    (hmore : ∀ ts l op us r, whole ts l → level op = true → accepts us r →
      whole (ts ++ .operator op :: us) (.binary op l r)) :
    Sound (chainOf level item) whole := by
  refine @chainOf_yields level item (fun ps t => accepts (tokensOf ps) t.shape)
    (fun ps t => whole (tokensOf ps) t.shape) hitem (fun _ _ => hone _ _) ?_
  intro ps l op column qs r hl hop hr
  simpa [shape] using hmore _ _ _ _ _ hl hop hr

theorem product_sound {room : Nat} {item : Reader} (hitem : Sound item (Fits room .operand)) :
    Sound (product item) (Fits room .product) :=
  chainOf_sound hitem (fun _ _ ⟨n, hn, h⟩ => ⟨n, hn, .operand h⟩)
    (fun _ _ _ _ _ hl hop hr => hl.times hop hr)

theorem sum_sound {room : Nat} {item : Reader} (hitem : Sound item (Fits room .operand)) :
    Sound (sum item) (Fits room .sum) :=
  chainOf_sound (product_sound hitem) (fun _ _ ⟨n, hn, h⟩ => ⟨n, hn, .product h⟩)
    (fun _ _ _ _ _ hl hop hr => hl.plusMinus hop hr)

theorem sum_yields {room : Nat} {item : Reader} (hitem : Yields item (SpellsAt .operand room)) :
    Yields (sum item) (SpellsAt .sum room) :=
  chainOf_yields (chainOf_yields hitem (fun _ _ h => .operand h) fun _ _ _ _ _ _ hl hop hr => .times hl hop hr)
    (fun _ _ h => .product h) fun _ _ _ _ _ _ hl hop hr => .plusMinus hl hop hr

theorem close_eq_ok {last : Column} {t t' : Tree} {ps rest : List Placed}
    (h : close last (t, ps) = .ok (t', rest)) : ∃ column, ps = ⟨.closing, column⟩ :: rest ∧ t = t' := by
  unfold close at h
  split at h <;> simp_all

theorem operandWithin_yields {last : Column} {inner : Option Reader} {room : Nat}
    (hinner : ∀ reader ∈ inner, ∃ smaller, room = smaller + 1 ∧ Yields reader (SpellsAt .operand smaller)) :
    Yields (operandWithin last inner) (SpellsAt .operand room) := by
  intro ps t rest h
  unfold operandWithin at h
  -- No token at all, a literal, the two signs, a parenthesis, and any other token.
  split at h
  · simp at h
  · rename_i text column tail
    split at h
    · rename_i value hread
      obtain ⟨rfl, rfl⟩ := Prod.mk.inj (Except.ok.inj h)
      exact ⟨[⟨.literal text, column⟩], rfl, .literal hread⟩
    · simp at h
  · rename_i column tail
    cases inner with
    | none => simp at h
    | some reader =>
      obtain ⟨smaller, rfl, hreader⟩ := hinner reader rfl
      obtain ⟨used, rfl, hs⟩ := hreader _ _ _ h
      exact ⟨⟨.operator .plus, column⟩ :: used, rfl, .plus hs⟩
  · rename_i column tail
    cases inner with
    | none => simp at h
    | some reader =>
      obtain ⟨smaller, rfl, hreader⟩ := hinner reader rfl
      obtain ⟨⟨t', rest'⟩, hread, heq⟩ := Outcome.map_eq_ok.mp h
      obtain ⟨rfl, rfl⟩ := Prod.mk.inj heq
      obtain ⟨used, rfl, hs⟩ := hreader _ _ _ hread
      exact ⟨⟨.operator .minus, column⟩ :: used, rfl, .minus hs⟩
  · rename_i column tail
    cases inner with
    | none => simp at h
    | some reader =>
      obtain ⟨smaller, rfl, hreader⟩ := hinner reader rfl
      obtain ⟨⟨t', after⟩, hread, hclose⟩ := Outcome.bind_eq_ok.mp h
      obtain ⟨used, rfl, hs⟩ := sum_yields hreader _ _ _ hread
      obtain ⟨column', rfl, rfl⟩ := close_eq_ok hclose
      exact ⟨⟨.opening, column⟩ :: (used ++ [⟨.closing, column'⟩]), by simp, .group hs⟩
  · simp at h

theorem operand_yields (last : Column) (room : Nat) : Yields (operand last room) (SpellsAt .operand room) := by
  induction room with
  | zero => exact operandWithin_yields (by simp)
  | succ room ih =>
    refine operandWithin_yields fun reader hreader => ⟨room, rfl, ?_⟩
    obtain rfl := Option.some.inj hreader
    exact ih

/-- Without the places it is a phrase of the grammar, with its shape. -/
theorem fits_of_spellsAt {phrase : Phrase} {room : Nat} {ps : List Placed} {t : Tree}
    (h : SpellsAt phrase room ps t) : Fits room phrase (tokensOf ps) t.shape := by
  induction h with
  | literal hread => exact ⟨0, Nat.zero_le _, .literal hread⟩
  | plus _ ih =>
    obtain ⟨n, hn, hs⟩ := ih
    exact ⟨n + 1, by omega, .plus hs⟩
  | minus _ ih =>
    obtain ⟨n, hn, hs⟩ := ih
    exact ⟨n + 1, by omega, .minus hs⟩
  | group _ ih =>
    obtain ⟨n, hn, hs⟩ := ih
    refine ⟨n + 1, by omega, ?_⟩
    simpa using Spells.group hs
  | operand _ ih =>
    obtain ⟨n, hn, hs⟩ := ih
    exact ⟨n, hn, .operand hs⟩
  | times _ hop _ ihl ihr => simpa [shape] using ihl.times hop ihr
  | product _ ih =>
    obtain ⟨n, hn, hs⟩ := ih
    exact ⟨n, hn, .product hs⟩
  | plusMinus _ hop _ ihl ihr => simpa [shape] using ihl.plusMinus hop ihr

theorem operand_sound (last : Column) (room : Nat) : Sound (operand last room) (Fits room .operand) := by
  intro ps t rest h
  obtain ⟨used, hused, hs⟩ := operand_yields last room ps t rest h
  exact ⟨used, hused, fits_of_spellsAt hs⟩

/-! ### What is in the grammar is accepted -/

/-- A reader of operands reads a phrase off the front of any list that starts with it: an operand is
returned, and a chain is read up to where its own operators would go on. For a sum that is the case
unless an operator of a product follows. -/
def Reads (item : Reader) : Phrase → List Token → Shape → Prop
  | .operand, ts, s => ∀ ps rest, tokensOf ps = ts →
    ∃ t, item (ps ++ rest) = .ok (t, rest) ∧ t.shape = s
  | .product, ts, s => ∀ ps rest, tokensOf ps = ts →
    ∃ t bound, product item (ps ++ rest) = chain Operator.isProduct item bound t rest ∧
      rest.length ≤ bound ∧ t.shape = s
  | .sum, ts, s => ∀ ps rest, tokensOf ps = ts → startsWith Operator.isProduct rest = false →
    ∃ t bound, sum item (ps ++ rest) = chain Operator.isSum (product item) bound t rest ∧
      rest.length ≤ bound ∧ t.shape = s

section Completeness

variable {item : Reader} {ts us : List Token} {l r s : Shape} {op : Operator}

theorem tokensOf_eq_cons {token : Token} {ps : List Placed} (h : tokensOf ps = token :: us) :
    ∃ column after, ps = ⟨token, column⟩ :: after ∧ tokensOf after = us := by
  obtain ⟨⟨_, column⟩, after, rfl, rfl, hafter⟩ := List.map_eq_cons_iff.mp h
  exact ⟨column, after, rfl, hafter⟩

theorem tokensOf_eq_append {token : Token} {ps : List Placed} (h : tokensOf ps = ts ++ token :: us) :
    ∃ before column after, ps = before ++ ⟨token, column⟩ :: after ∧
      tokensOf before = ts ∧ tokensOf after = us := by
  obtain ⟨before, tail, rfl, hbefore, htail⟩ := List.map_eq_append_iff.mp h
  obtain ⟨column, after, rfl, hafter⟩ := tokensOf_eq_cons htail
  exact ⟨before, column, after, rfl, hbefore, hafter⟩

theorem reads_product_of_operand (h : Reads item .operand ts s) : Reads item .product ts s := by
  intro ps rest hps
  obtain ⟨t, hread, hshape⟩ := h ps rest hps
  refine ⟨t, rest.length, ?_, Nat.le_refl _, hshape⟩
  rw [product, chainOf, hread]
  rfl

theorem reads_times (hl : Reads item .product ts l) (hop : op.isProduct = true)
    (hr : Reads item .operand us r) :
    Reads item .product (ts ++ .operator op :: us) (.binary op l r) := by
  intro ps rest hps
  obtain ⟨before, column, after, rfl, hbefore, hafter⟩ := tokensOf_eq_append hps
  obtain ⟨left, bound, hchain, hbound, hleft⟩ :=
    hl before (⟨.operator op, column⟩ :: after ++ rest) hbefore
  obtain ⟨right, hread, hright⟩ := hr after rest hafter
  obtain ⟨bound, rfl⟩ : ∃ smaller, bound = smaller + 1 :=
    Nat.exists_eq_succ_of_ne_zero (by simp at hbound; omega)
  refine ⟨binary op column left right, bound, ?_, by simp at hbound; omega, ?_⟩
  · rw [List.append_assoc, hchain, List.cons_append, chain_operator hop, hread]
    rfl
  · rw [Tree.shape, hleft, hright]

theorem reads_sum_of_product (h : Reads item .product ts s) : Reads item .sum ts s := by
  intro ps rest hps hrest
  obtain ⟨t, bound, hchain, _, hshape⟩ := h ps rest hps
  refine ⟨t, rest.length, ?_, Nat.le_refl _, hshape⟩
  rw [sum, chainOf, hchain, chain_of_not_startsWith hrest]
  rfl

theorem reads_plusMinus (hl : Reads item .sum ts l) (hop : op.isSum = true)
    (hr : Reads item .product us r) :
    Reads item .sum (ts ++ .operator op :: us) (.binary op l r) := by
  intro ps rest hps hrest
  obtain ⟨before, column, after, rfl, hbefore, hafter⟩ := tokensOf_eq_append hps
  -- The sum on the left ends where its own operator follows, since that one is of no product.
  have hnext : startsWith Operator.isProduct (⟨.operator op, column⟩ :: after ++ rest) = false := by
    simpa [startsWith, Operator.isSum] using hop
  obtain ⟨left, bound, hchain, hbound, hleft⟩ := hl before _ hbefore hnext
  obtain ⟨right, rightBound, hread, _, hright⟩ := hr after rest hafter
  rw [chain_of_not_startsWith hrest] at hread
  obtain ⟨bound, rfl⟩ : ∃ smaller, bound = smaller + 1 :=
    Nat.exists_eq_succ_of_ne_zero (by simp at hbound; omega)
  refine ⟨binary op column left right, bound, ?_, by simp at hbound; omega, ?_⟩
  · rw [List.append_assoc, hchain, List.cons_append, chain_operator hop, hread]
    rfl
  · rw [Tree.shape, hleft, hright]

theorem sum_eq_ok_of_reads (h : Reads item .sum ts s) {ps rest : List Placed} (hps : tokensOf ps = ts)
    (hproduct : startsWith Operator.isProduct rest = false)
    (hsum : startsWith Operator.isSum rest = false) :
    ∃ t, sum item (ps ++ rest) = .ok (t, rest) ∧ t.shape = s := by
  obtain ⟨t, bound, hchain, _, hshape⟩ := h ps rest hps hproduct
  exact ⟨t, by rw [hchain, chain_of_not_startsWith hsum], hshape⟩

end Completeness

/-- What the grammar spells is read if there is room for its nesting. The induction is on the
derivation; a sign and a pair of parentheses use up one level of the room. -/
theorem reads_of_spells {phrase : Phrase} {n : Nat} {ts : List Token} {s : Shape}
    (h : Spells phrase n ts s) (last : Column) (room : Nat) (hroom : n ≤ room) :
    Reads (operand last room) phrase ts s := by
  induction h generalizing room with
  | @literal text value hread =>
    intro ps rest hps
    obtain ⟨column, after, rfl, hafter⟩ := tokensOf_eq_cons hps
    obtain rfl : after = [] := List.map_eq_nil_iff.mp hafter
    refine ⟨number column value, ?_, rfl⟩
    cases room <;> simp [operand, operandWithin, hread]
  | @plus n ts s _ ih =>
    obtain ⟨room, rfl⟩ := Nat.exists_eq_succ_of_ne_zero (by omega : room ≠ 0)
    intro ps rest hps
    obtain ⟨column, after, rfl, hafter⟩ := tokensOf_eq_cons hps
    obtain ⟨t, hread, hshape⟩ := ih room (by omega) after rest hafter
    exact ⟨t, by simpa [operand, operandWithin] using hread, hshape⟩
  | @minus n ts s _ ih =>
    obtain ⟨room, rfl⟩ := Nat.exists_eq_succ_of_ne_zero (by omega : room ≠ 0)
    intro ps rest hps
    obtain ⟨column, after, rfl, hafter⟩ := tokensOf_eq_cons hps
    obtain ⟨t, hread, hshape⟩ := ih room (by omega) after rest hafter
    refine ⟨negation column t, ?_, by rw [Tree.shape, hshape]⟩
    simp [operand, operandWithin, hread]
  | @group n ts s _ ih =>
    obtain ⟨room, rfl⟩ := Nat.exists_eq_succ_of_ne_zero (by omega : room ≠ 0)
    intro ps rest hps
    obtain ⟨column, after, rfl, hafter⟩ := tokensOf_eq_cons hps
    obtain ⟨inside, column', tail, rfl, hinside, htail⟩ := tokensOf_eq_append hafter
    obtain rfl : tail = [] := List.map_eq_nil_iff.mp htail
    -- The parenthesis ends the sum inside, since it is no operator.
    have hend (level : Operator → Bool) : startsWith level (⟨.closing, column'⟩ :: rest) = false := rfl
    obtain ⟨t, hread, hshape⟩ := sum_eq_ok_of_reads (ih room (by omega)) hinside (hend _) (hend _)
    refine ⟨t, ?_, hshape⟩
    simp [operand, operandWithin, hread, close]
  | operand _ ih => exact reads_product_of_operand (ih room hroom)
  | times _ hop _ ihl ihr =>
    exact reads_times (ihl room (by omega)) ((Operator.isProduct_iff _).mpr hop) (ihr room (by omega))
  | product _ ih => exact reads_sum_of_product (ih room hroom)
  | plusMinus _ hop _ ihl ihr =>
    exact reads_plusMinus (ihl room (by omega)) ((Operator.isSum_iff _).mpr hop) (ihr room (by omega))

theorem sum_eq_ok_of_spells {n : Nat} {ts : List Token} {s : Shape} (h : Spells .sum n ts s)
    (last : Column) {room : Nat} (hroom : n ≤ room) :
    ∃ t, sum (operand last room) (Token.place 0 ts) = .ok (t, []) ∧ t.shape = s := by
  have hend (level : Operator → Bool) : startsWith level [] = false := rfl
  simpa only [List.append_nil] using sum_eq_ok_of_reads (reads_of_spells h last room hroom)
    (tokensOf_place 0 ts) (hend _) (hend _)

theorem shape_unique {m n : Nat} {ts : List Token} {s s' : Shape} (h : Spells .sum m ts s)
    (h' : Spells .sum n ts s') : s = s' := by
  obtain ⟨t, ht, rfl⟩ := sum_eq_ok_of_spells h Column.nowhere (Nat.le_max_left m n)
  obtain ⟨t', ht', rfl⟩ := sum_eq_ok_of_spells h' Column.nowhere (Nat.le_max_right m n)
  rw [ht] at ht'
  rw [(Prod.mk.inj (Except.ok.inj ht')).1]

/-! ### Refusals -/

/-- What a list of tokens that is no sum is refused with. -/
def refusals : List Fault :=
  [Fault.emptyExpression, Fault.expectedExpression, Fault.malformedNumber, Fault.tooComplex,
    Fault.unbalancedParenthesis, Fault.unexpectedToken]

def Refuses (reader : Reader) : Prop := ∀ ps, FailsAs refusals (reader ps)

theorem chain_refuses {level : Operator → Bool} {item : Reader} (hitem : Refuses item)
    (bound : Nat) (left : Tree) : Refuses (chain level item bound left) := by
  intro ps
  induction bound generalizing left ps with
  | zero =>
    simp only [chain]
    exact .ok _
  | succ bound ih =>
    cases hs : startsWith level ps with
    | false =>
      rw [chain_of_not_startsWith hs]
      exact .ok _
    | true =>
      obtain ⟨op, column, tail, rfl, hop⟩ := eq_of_startsWith hs
      rw [chain_operator hop]
      exact (hitem tail).bind fun next _ => ih _ next.2

theorem chainOf_refuses {level : Operator → Bool} {item : Reader} (hitem : Refuses item) :
    Refuses (chainOf level item) :=
  fun ps => (hitem ps).bind fun next _ => chain_refuses hitem _ _ next.2

theorem sum_refuses {item : Reader} (hitem : Refuses item) : Refuses (sum item) :=
  chainOf_refuses (chainOf_refuses hitem)

theorem close_refuses (last : Column) (result : Tree × List Placed) :
    FailsAs refusals (close last result) := by
  unfold close
  split
  · exact .ok _
  · exact .located (by decide) _
  · exact .located (by decide) _

theorem operandWithin_refuses {last : Column} {inner : Option Reader}
    (hinner : ∀ reader ∈ inner, Refuses reader) : Refuses (operandWithin last inner) := by
  intro ps
  unfold operandWithin
  split
  · exact .located (by decide) _
  · split
    · exact .ok _
    · exact .located (by decide) _
  · cases inner with
    | none => exact .located (by decide) _
    | some reader => exact hinner reader rfl _
  · cases inner with
    | none => exact .located (by decide) _
    | some reader => exact (hinner reader rfl _).map _
  · cases inner with
    | none => exact .located (by decide) _
    | some reader => exact (sum_refuses (hinner reader rfl) _).bind fun result _ => close_refuses last result
  · exact .located (by decide) _

theorem operand_refuses (last : Column) (room : Nat) : Refuses (operand last room) := by
  induction room with
  | zero => exact operandWithin_refuses (by simp)
  | succ room ih =>
    refine operandWithin_refuses fun reader hreader => ?_
    obtain rfl := Option.some.inj hreader
    exact ih

theorem ofTokens_fails (ts : List Token) : FailsAs refusals (ofTokens ts) := by
  simp only [ofTokens]
  split
  · exact .error (by decide)
  · refine (sum_refuses (operand_refuses _ _) _).bind fun result _ => ?_
    split
    · exact .ok _
    · exact .located (by decide) _
    · exact .located (by decide) _

theorem ofTokens_refuses {ts : List Token} {fault : Fault} (h : ofTokens ts = .error fault) :
    fault.kind = .invalidExpression :=
  (ofTokens_fails ts fault h).elim (P := fun kind _ => kind = .invalidExpression) (by decide)

/-! ### Whole texts -/

theorem ofTokens_eq_ok_iff {ts : List Token} {tree : Tree} :
    ofTokens ts = .ok tree ↔ ∃ last, (Token.place 0 ts).getLast? = some last ∧
      sum (operand last.column maxNesting) (Token.place 0 ts) = .ok (tree, []) := by
  simp only [ofTokens]
  constructor
  · intro h
    split at h
    · simp at h
    · rename_i last hlast
      obtain ⟨⟨t, rest⟩, hread, hrest⟩ := Outcome.bind_eq_ok.mp h
      split at hrest <;> simp_all
  · rintro ⟨last, hlast, hread⟩
    simp [hlast, hread]

theorem ofTokens_of_spells {n : Nat} {ts : List Token} {s : Shape} (h : Spells .sum n ts s)
    (hn : n ≤ 128) : ∃ tree, ofTokens ts = .ok tree ∧ tree.shape = s := by
  have hplaces : Token.place 0 ts ≠ [] := by
    intro hnil
    exact h.ne_nil (by rw [← tokensOf_place 0 ts, hnil]; rfl)
  have hlast := List.getLast?_eq_some_getLast hplaces
  obtain ⟨tree, hread, hshape⟩ := sum_eq_ok_of_spells h _ hn
  exact ⟨tree, ofTokens_eq_ok_iff.mpr ⟨_, hlast, hread⟩, hshape⟩

end Tree

/-- A list of tokens is read exactly if it is a sum of the grammar in which no token lies under more
than 128 levels, and then its tree is the one that the grammar has for it. Every other list is refused as
an invalid expression. -/
theorem ofTokens_accepts_exactly_the_sums (tokens : List Token) :
    ((∃ tree, Tree.ofTokens tokens = .ok tree) ↔
      ∃ nesting ≤ 128, ∃ shape, Spells .sum nesting tokens shape) ∧
    (∀ tree, Tree.ofTokens tokens = .ok tree →
      ∀ nesting shape, Spells .sum nesting tokens shape → tree.shape = shape) ∧
    ((¬ ∃ nesting ≤ 128, ∃ shape, Spells .sum nesting tokens shape) →
      ∃ fault, Tree.ofTokens tokens = .error fault ∧ fault.kind = .invalidExpression) := by
  have hsound (tree : Tree) (h : Tree.ofTokens tokens = .ok tree) :
      Fits 128 .sum tokens tree.shape := by
    obtain ⟨last, _, hread⟩ := Tree.ofTokens_eq_ok_iff.mp h
    obtain ⟨used, hused, hfits⟩ := Tree.sum_sound (Tree.operand_sound _ _) _ _ _ hread
    rw [List.append_nil] at hused
    rwa [← hused, Tree.tokensOf_place] at hfits
  have haccepts : (∃ tree, Tree.ofTokens tokens = .ok tree) ↔
      ∃ nesting ≤ 128, ∃ shape, Spells .sum nesting tokens shape := by
    constructor
    · rintro ⟨tree, h⟩
      obtain ⟨n, hn, hspells⟩ := hsound tree h
      exact ⟨n, hn, tree.shape, hspells⟩
    · rintro ⟨n, hn, shape, hspells⟩
      obtain ⟨tree, htree, _⟩ := Tree.ofTokens_of_spells hspells hn
      exact ⟨tree, htree⟩
  refine ⟨haccepts, ?_, ?_⟩
  · intro tree h n shape hspells
    obtain ⟨m, _, htree⟩ := hsound tree h
    exact Tree.shape_unique htree hspells
  · intro hnone
    cases h : Tree.ofTokens tokens with
    | ok tree => exact absurd (haccepts.mp ⟨tree, h⟩) hnone
    | error fault => exact ⟨fault, rfl, Tree.ofTokens_refuses h⟩

end DeskCalculator
