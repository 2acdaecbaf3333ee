import DeskCalculator.Proofs.Session.Typing
import DeskCalculator.Proofs.Session.Waiting

/-! Chains of bitwise operators in programmer mode. Each operator joins what was entered before it, so that a chain is
folded from the left; only the last operator waits for Equals, and the record is about that one alone. -/
namespace DeskCalculator
open Session

namespace Bitwise

/-- An operator of two operands, and the operand after it. -/
structure Link where
  op : Bitwise
  operand : Int64
  isBinary : op.isBinary = true
  nonneg : 0 ≤ operand

/-- The operators of a chain applied one after another, each to what has come out so far and its operand. -/
def joinAll (first : Int64) (links : List Link) : Except Fault Int64 :=
  links.foldlM (fun x link => link.op.binary x link.operand) first

theorem joinAll_concat (first : Int64) (links : List Link) (link : Link) :
    joinAll first (links ++ [link]) = (do link.op.binary (← joinAll first links) link.operand) := by
  rw [joinAll, List.foldlM_append]
  simp only [List.foldlM_cons, List.foldlM_nil, bind_pure]
  rfl

end Bitwise

open Bitwise

/-- The digits of an integer as they are entered. -/
def Base.digitInputs (base : Base) (n : Int64) : List Input := (base.write n).toList.map .digit

def Bitwise.Link.inputs (base : Base) (link : Link) : List Input := .bitwise link.op :: base.digitInputs link.operand

theorem length_extended_le (text : String) (c : Char) : (extended text c).length ≤ text.length + 1 := by
  unfold extended
  split
  · simp
  · rw [String.length_push]

/-- After a character other than a lone zero, all the following ones are put at the end. -/
theorem foldl_extended {text : String} (hne : text.toList ≠ []) (hzero : text ≠ "0") (cs : List Char) :
    (cs.foldl extended text).toList = text.toList ++ cs := by
  induction cs generalizing text with
  | nil => simp
  | cons c cs ih =>
    have htext : (extended text c).toList = text.toList ++ [c] := extended_of_ne hzero c
    have hlonger : extended text c ≠ "0" := by
      intro h
      rw [h] at htext
      exact hne (List.append_eq_singleton_iff.mp htext.symm |>.resolve_right (by simp) |>.1)
    rw [List.foldl_cons, ih (by simp [htext]) hlonger, htext, List.append_assoc]
    rfl

theorem foldl_extended_digits (base : Base) (n : ℕ) :
    ((base.digits n).foldl extended "0").toList = base.digits n := by
  by_cases hn : n = 0
  · subst hn
    cases base <;> rfl
  · obtain ⟨d, ds, hdigits, hd⟩ := base.digits_head hn
    have hfirst : (extended "0" d).toList = [d] := extended_zero d
    have hother : extended "0" d ≠ "0" := by
      intro h
      rw [h] at hfirst
      exact hd (List.singleton_inj.mp hfirst).symm
    rw [hdigits, List.foldl_cons, foldl_extended (by simp [hfirst]) hother, hfirst]
    rfl

namespace Session

/-- Inputs, entered at any times, lead from one session to another. -/
def Enters (s : Session) (inputs : List Input) (t : Session) : Prop :=
  ∀ keys : List (Clock × Input), keys.map Prod.snd = inputs → s.entered keys = t

section
variable {s t u : Session} {input : Input} {inputs inputs' : List Input}

theorem Enters.nil (s : Session) : Enters s [] s := by
  intro keys hkeys
  obtain rfl := List.map_eq_nil_iff.mp hkeys
  rfl

theorem Enters.append (h : Enters s inputs t) (h' : Enters t inputs' u) : Enters s (inputs ++ inputs') u := by
  intro keys hkeys
  obtain ⟨before, after, rfl, hbefore, hafter⟩ := List.map_eq_append_iff.mp hkeys
  rw [entered_append, h before hbefore]
  exact h' after hafter

theorem Enters.of_changed (h : ∀ clock, s.acknowledged.apply clock input = .ok (.changed t)) : Enters s [input] t := by
  intro keys hkeys
  obtain ⟨⟨clock, input⟩, rest, rfl, rfl, hrest⟩ := List.map_eq_cons_iff.mp hkeys
  obtain rfl := List.map_eq_nil_iff.mp hrest
  rw [entered, enter_of_changed (h clock)]
  rfl

theorem enters_digit {k : ℕ} (hmode : s.mode = .programmer) (hdue : s.resetDue = none) (hk : k < s.base.radix)
    (hroom : s.entry.length < maxEntryLength) :
    Enters s [.digit (Base.digit k)] { s with entry := extended s.entry (Base.digit k) } := by
  have hradix := s.base.radix_bounds
  have hupper := Base.toUpper_digit (by omega : k < 16)
  have hdigit : s.isDigit (Base.digit k) = true := by
    rw [isDigit, hmode]
    exact s.base.isDigit_digit hk
  apply Enters.of_changed
  intro clock
  apply congrArg Except.ok
  rw [acknowledged_of_none hdue, enterDigit, hupper, if_pos hdigit, append, if_neg (not_le.mpr hroom)]
  rfl

theorem enters_digits (hmode : s.mode = .programmer) (hdue : s.resetDue = none) {cs : List Char}
    (hcs : ∀ c ∈ cs, ∃ k < s.base.radix, c = Base.digit k) (hroom : s.entry.length + cs.length ≤ maxEntryLength) :
    Enters s (cs.map .digit) { s with entry := cs.foldl extended s.entry } := by
  induction cs generalizing s with
  | nil => exact Enters.nil s
  | cons c cs ih =>
    obtain ⟨⟨k, hk, rfl⟩, hrest⟩ := List.forall_mem_cons.mp hcs
    have hlength := length_extended_le s.entry (Base.digit k)
    rw [List.length_cons] at hroom
    have hfirst := enters_digit hmode hdue hk (by omega)
    have hnext := ih (s := { s with entry := extended s.entry (Base.digit k) }) hmode hdue hrest
      (by dsimp only; omega)
    exact hfirst.append hnext

/-- The digits of an integer, entered on a zero, become its text. -/
theorem enters_integer (hmode : s.mode = .programmer) (hdue : s.resetDue = none) (hentry : s.entry = "0") {n : Int64}
    (hn : 0 ≤ n) : Enters s (s.base.digitInputs n) { s with entry := s.base.write n } := by
  have hdigits := s.base.toList_write_of_nonneg hn
  have htext : (s.base.digits n.toInt.natAbs).foldl extended s.entry = s.base.write n := by
    rw [hentry, ← String.toList_inj, foldl_extended_digits, hdigits]
  have hroom : s.entry.length + (s.base.digits n.toInt.natAbs).length ≤ maxEntryLength := by
    have hlength := s.base.length_digits_le (Base.natAbs_le_of_ne_minValue (Base.ne_minValue_of_nonneg hn))
    rw [hentry]
    exact Nat.add_le_add_left hlength 1
  have hentered := enters_digits hmode hdue (fun c hc => s.base.exists_of_mem_digits hc) hroom
  rwa [htext, ← hdigits] at hentered

theorem enters_operator {op : Bitwise} {x : Int64} (hmode : s.mode = .programmer) (hdue : s.resetDue = none)
    (hop : op.isBinary = true) (hjoined : s.joinedInteger = .ok x) : Enters s [.bitwise op] (s.awaiting op x) := by
  apply Enters.of_changed
  intro clock
  rw [acknowledged_of_none hdue]
  exact apply_operator hmode hop hjoined clock

theorem entryInteger_write {y : Int64} (hy : 0 ≤ y) (hentry : s.entry = s.base.write y) : s.entryInteger = .ok y := by
  rw [entryInteger, hentry, s.base.read_write (Base.ne_minValue_of_nonneg hy)]
  rfl

/-- What comes of a link: the operator waits, and its second operand has been entered. -/
def linked (s : Session) (x : Int64) (link : Link) : Session :=
  { s.awaiting link.op x with entry := s.base.write link.operand }

theorem enters_link {x : Int64} (hmode : s.mode = .programmer) (hdue : s.resetDue = none)
    (hjoined : s.joinedInteger = .ok x) (link : Link) : Enters s (link.inputs s.base) (s.linked x link) := by
  have hoperator := enters_operator hmode hdue link.isBinary hjoined
  have hoperand := enters_integer (s := s.awaiting link.op x) hmode hdue rfl link.nonneg
  exact hoperator.append hoperand

theorem joinedInteger_linked (s : Session) (x : Int64) (link : Link) :
    (s.linked x link).joinedInteger = link.op.binary x link.operand := by
  have hentry : (s.linked x link).entryInteger = .ok link.operand := entryInteger_write link.nonneg rfl
  rw [joinedInteger, hentry]
  rfl

/-- The session with other texts, and with another operator that waits or none. -/
def IsRetyped (s t : Session) : Prop := ∃ entry expression pending, t = { s with entry, expression, pending }

/-- The invariant of a chain: all of it that has been entered is joined when an operator comes. -/
theorem enters_chain (hmode : s.mode = .programmer) (hdue : s.resetDue = none) (hentry : s.entry = "0")
    (hpending : s.pending = none) {first : Int64} (hfirst : 0 ≤ first) (links : List Link) :
    ∃ t x, Enters s (s.base.digitInputs first ++ links.flatMap (Link.inputs s.base)) t ∧ IsRetyped s t ∧
      t.joinedInteger = .ok x ∧ joinAll first links = .ok x := by
  induction links using List.reverseRecOn with
  | nil =>
    have hinteger := enters_integer hmode hdue hentry hfirst
    have hjoined : ({ s with entry := s.base.write first } : Session).joinedInteger = .ok first := by
      rw [joinedInteger, entryInteger_write hfirst rfl, Outcome.ok_bind, joinPending, hpending]
    refine ⟨_, first, ?_, ⟨_, s.expression, s.pending, rfl⟩, hjoined, rfl⟩
    rwa [List.flatMap_nil, List.append_nil]
  | append_singleton links link ih =>
    obtain ⟨t, x, henters, ⟨entry, expression, pending, rfl⟩, hjoined, hall⟩ := ih
    obtain ⟨n, hn⟩ := exists_binary link.isBinary x link.operand
    have hlink := enters_link (s := { s with entry, expression, pending }) hmode hdue hjoined link
    refine ⟨_, n, ?_, ⟨_, _, _, rfl⟩, (joinedInteger_linked _ x link).trans hn, ?_⟩
    · rw [List.flatMap_append, List.flatMap_singleton, ← List.append_assoc]
      exact henters.append hlink
    · rw [joinAll_concat, hall]
      exact hn

end

end Session

/-- A chain of bitwise operators is entered in programmer mode from a zero on, its operands by their digits in the base,
all at any times. Equals then shows the operators applied from the left, and nothing waits any more. One entry comes to
the history: the last operator, with what was joined before it and its operand, and the result in base ten. -/
theorem enter_bitwise_chain_then_equals {s : Session} {first : Int64} (hmode : s.mode = .programmer)
    (hdisplay : s.display = "0") (hpending : s.pending = none) (hfirst : 0 ≤ first) (links : List Link) (last : Link) :
    ∃ x n, joinAll first links = .ok x ∧ joinAll first (links ++ [last]) = .ok n ∧
      ∀ keys : List (Clock × Input),
        keys.map Prod.snd = s.base.digitInputs first ++ (links ++ [last]).flatMap (Link.inputs s.base) →
        ∀ clock : Clock,
          let typed := s.entered keys
          let update := typed.enter clock .equals
          let entry : History.Entry := ⟨s.base.write x ++ " " ++ last.op.render ++ " " ++ s.base.write last.operand,
            Base.dec.write n, Int64.ofNat clock.wall⟩
          typed.history = s.history ∧ update.event = .evaluated entry ∧
            update.session = { s with
              entry := s.base.write n, expression := "", history := s.history.push entry, pending := none } ∧
            update.session.display = s.base.write n := by
  obtain ⟨hdue, hshown⟩ := shown_of_display_ne (s := s) (by rw [hdisplay]; decide)
  have hentry : s.entry = "0" := hshown.symm.trans hdisplay
  obtain ⟨t, x, henters, ⟨entry, expression, pending, rfl⟩, hjoined, hall⟩ :=
    enters_chain hmode hdue hentry hpending hfirst links
  obtain ⟨n, hn⟩ := exists_binary last.isBinary x last.operand
  have hlast := henters.append (enters_link (s := { s with entry, expression, pending }) hmode hdue hjoined last)
  refine ⟨x, n, hall, ?_, ?_⟩
  · rw [joinAll_concat, hall]
    exact hn
  · intro keys hkeys clock typed update record
    have htyped : typed = s.linked x last := by
      apply hlast keys
      rw [hkeys, List.flatMap_append, List.flatMap_singleton, List.append_assoc]
    have hupdate : update = { typed with pending := none }.concluded clock (Base.dec.write n) (typed.base.write n) := by
      have hjoinedLast : typed.joinedInteger = .ok n := by
        rw [htyped, joinedInteger_linked, hn]
      have hequals := enter_equals_programmer (s := typed) (by rw [htyped]; exact hmode) clock
      rwa [hjoinedLast] at hequals
    rw [hupdate, htyped]
    refine ⟨rfl, rfl, ?_, rfl⟩
    rw [hdue]
    rfl

/-- In base sixteen, with a first operand of more than 32 bits. -/
theorem enter_bitwise_chain_of_three :
    let s : Session := { mode := .programmer, base := .hex }
    let inputs := "1000000F5".toList.map Input.digit ++
      [.bitwise .and, .digit 'F', .digit '0', .bitwise .xor, .digit 'A']
    let typed := s.entered (inputs.map fun input => (⟨0, 0, .epoch⟩, input))
    s.display = "0" ∧ s.pending = none ∧ (typed.enter ⟨0, 5, .epoch⟩ .equals).event = .evaluated ⟨"F0 XOR A", "250", 0⟩ ∧
      (typed.enter ⟨0, 5, .epoch⟩ .equals).session.display = "FA" := by
  intro s inputs typed
  let link : Link := ⟨.and, 0xF0, rfl, by decide⟩
  let last : Link := ⟨.xor, 0xA, rfl, by decide⟩
  have hfirst : (0 : Int64) ≤ 0x1000000F5 := by decide
  obtain ⟨x, n, hx, hn, htyped⟩ := enter_bitwise_chain_then_equals (s := s) rfl rfl rfl hfirst [link] last
  obtain rfl : x = 0xF0 := Except.ok.inj (hx.symm.trans (by decide +kernel))
  obtain rfl : n = 0xFA := Except.ok.inj (hn.symm.trans (by decide +kernel))
  have hkeys : (inputs.map fun input => ((⟨0, 0, .epoch⟩ : Clock), input)).map Prod.snd =
      s.base.digitInputs 0x1000000F5 ++ ([link] ++ [last]).flatMap (Link.inputs s.base) := by decide +kernel
  obtain ⟨-, hevent, -, hshown⟩ := htyped _ hkeys ⟨0, 5, .epoch⟩
  exact ⟨rfl, rfl, hevent.trans (by decide +kernel), hshown.trans (by decide +kernel)⟩

end DeskCalculator
