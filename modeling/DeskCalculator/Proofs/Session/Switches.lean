import DeskCalculator.Proofs.Programmer.Conversion
import DeskCalculator.Proofs.Session.Confinement

/-! Base switches in the course of a calculation with integers. What is calculated is told by two things that know of
no base, the integer on the display and the operator that waits with its operand. A session in any base follows this
calculation, and a base switch is no step of it. -/
namespace DeskCalculator
open Session

/-- The integer of a calculation, and the operator that waits for it with its first operand. -/
structure Register where
  value : Int64
  pending : Option (Bitwise × Int64)
deriving DecidableEq

namespace Register

def joined (r : Register) : Except Fault Int64 :=
  match r.pending with
  | some (op, x) => op.binary x r.value
  | none => .ok r.value

/-- What an input of the calculation makes of the register, and the result if it gives one. -/
def enter (r : Register) : Input → Except Fault (Register × Option Int64)
  | .equals => do
    let n ← r.joined
    return (⟨n, none⟩, some n)
  | .clear => .ok (⟨0, none⟩, none)
  | .bitwise op =>
    if op.isBinary then do
      let n ← r.joined
      return (⟨0, some (op, n)⟩, none)
    else do
      let n ← op.unary r.value
      return (⟨n, r.pending⟩, none)
  | _ => .ok (r, none)

end Register

/-- What belongs to a calculation with the integer on the display: operators, Equals, Clear and base switches. -/
def Action.isCalculation : Action → Bool
  | .enter _ (.setBase _) | .enter _ (.bitwise _) | .enter _ .equals | .enter _ .clear => true
  | _ => false

/-- Two events that tell the same result, or both tell of a change only. -/
inductive Event.Alike : Event → Event → Prop
  | changed : Alike .changed .changed
  | evaluated {entry entry' : History.Entry} (h : entry.result = entry'.result) :
      Alike (.evaluated entry) (.evaluated entry')

/-- An event that tells a result in base ten, or just a change if there is none. -/
def Event.Answers (event : Event) : Option Int64 → Prop
  | some n => ∃ entry, event = .evaluated entry ∧ entry.result = Base.dec.write n
  | none => event = .changed

theorem Event.Answers.alike {event event' : Event} {result : Option Int64} (h : event.Answers result)
    (h' : event'.Answers result) : Alike event event' := by
  cases result with
  | none =>
    obtain rfl : event = .changed := h
    obtain rfl : event' = .changed := h'
    exact .changed
  | some n =>
    obtain ⟨entry, rfl, hresult⟩ := h
    obtain ⟨entry', rfl, hresult'⟩ := h'
    exact .evaluated (hresult.trans hresult'.symm)

namespace Session

/-- A session in programmer mode that shows the integer of a register, and has its operator waiting. -/
structure Follows (s : Session) (r : Register) : Prop where
  mode : s.mode = .programmer
  shown : s.resetDue = none
  read : s.base.read s.entry = .ok r.value
  pending : s.pending = r.pending
  isBinary : ∀ op x, r.pending = some (op, x) → op.isBinary = true

variable {s t : Session} {r : Register} {clock : Clock} {input : Input}

theorem Follows.read_display (h : s.Follows r) : s.base.read s.display = .ok r.value := by
  have hdisplay : s.display = s.entry := by simp [display, isFailed, h.shown]
  rw [hdisplay]
  exact h.read

theorem Follows.joinedInteger_eq (h : s.Follows r) : s.joinedInteger = r.joined := by
  have hentry : s.entryInteger = .ok r.value := entryInteger_eq_ok.mpr h.read
  rw [joinedInteger, hentry, Outcome.ok_bind, joinPending, h.pending]
  rfl

theorem Follows.exists_joined (h : s.Follows r) : ∃ n, r.joined = .ok n := by
  unfold Register.joined
  split
  · next op x hpending => exact Bitwise.exists_binary (h.isBinary op x hpending) x r.value
  · exact ⟨_, rfl⟩

theorem Follows.setBase (h : s.Follows r) (base : Base) :
    (s.enter clock (.setBase base)).event = .changed ∧ (s.enter clock (.setBase base)).session.Follows r := by
  have happly : s.acknowledged.apply clock (.setBase base) =
      .ok (.changed { s.acknowledged with entry := convert s.entry s.base base, base }) :=
    congrArg Except.ok (if_pos h.mode)
  have hread : base.read (convert s.entry s.base base) = .ok r.value := by
    rw [Base.convert_eq_write, Base.valueOf_of_read h.read]
    exact base.read_write_of_natAbs_le (Base.natAbs_le_of_read h.read)
  rw [enter_of_changed happly]
  exact ⟨rfl, h.mode, rfl, hread, h.pending, h.isBinary⟩

theorem Follows.clear (h : s.Follows r) :
    (s.enter clock .clear).event = .changed ∧ (s.enter clock .clear).session.Follows ⟨0, none⟩ := by
  have happly : s.acknowledged.apply clock .clear = .ok (.changed s.acknowledged.cleared) := rfl
  rw [enter_of_changed happly]
  exact ⟨rfl, h.mode, rfl, s.base.read_zero, rfl, by simp⟩

theorem Follows.equals (h : s.Follows r) {n : Int64} (hn : r.joined = .ok n) :
    (∃ entry, (s.enter clock .equals).event = .evaluated entry ∧ entry.result = Base.dec.write n) ∧
      (s.enter clock .equals).session.Follows ⟨n, none⟩ := by
  have hfits := natAbs_le_of_joinedInteger (h.joinedInteger_eq.trans hn)
  rw [enter_equals_programmer h.mode, h.joinedInteger_eq, hn]
  exact ⟨⟨_, rfl, rfl⟩, h.mode, rfl, s.base.read_write_of_natAbs_le hfits, rfl, by simp⟩

theorem Follows.operator (h : s.Follows r) {op : Bitwise} (hop : op.isBinary = true) {n : Int64}
    (hn : r.joined = .ok n) : (s.enter clock (.bitwise op)).event = .changed ∧
      (s.enter clock (.bitwise op)).session.Follows ⟨0, some (op, n)⟩ := by
  have happly : s.acknowledged.apply clock (.bitwise op) = .ok (.changed (s.awaiting op n)) := by
    rw [acknowledged_of_none h.shown]
    exact apply_operator h.mode hop (h.joinedInteger_eq.trans hn) clock
  rw [enter_of_changed happly]
  refine ⟨rfl, h.mode, h.shown, s.base.read_zero, rfl, ?_⟩
  rintro op' x' hpending
  obtain ⟨rfl, -⟩ := Prod.mk.inj (Option.some.inj hpending)
  exact hop

theorem Follows.transform (h : s.Follows r) {op : Bitwise} (hop : op.isBinary = false) {n : Int64}
    (hn : op.unary r.value = .ok n) : (s.enter clock (.bitwise op)).event = .changed ∧
      (s.enter clock (.bitwise op)).session.Follows ⟨n, r.pending⟩ := by
  have happly : s.acknowledged.apply clock (.bitwise op) = .ok (.changed { s with entry := s.base.write n }) := by
    have hentry : s.entryInteger = .ok r.value := entryInteger_eq_ok.mpr h.read
    have hunary : ¬ op.isBinary = true := Bool.eq_false_iff.mp hop
    rw [acknowledged_of_none h.shown, apply, enterBitwise, if_pos h.mode, hentry, Outcome.ok_bind, if_neg hunary, hn]
    rfl
  have hread := s.base.read_write_of_natAbs_le (Bitwise.natAbs_le_of_unary hn)
  rw [enter_of_changed happly]
  exact ⟨rfl, h.mode, h.shown, hread, h.pending, h.isBinary⟩

/-- A step of a session is a step of the register, whatever the base. -/
theorem Follows.enter (h : s.Follows r) (clock : Clock)
    (hinput : (Action.enter clock input).isCalculation = true) :
    ∃ next result, r.enter input = .ok (next, result) ∧ (s.enter clock input).event.Answers result ∧
      (s.enter clock input).session.Follows next := by
  obtain ⟨n, hn⟩ := h.exists_joined
  cases input with
  | setBase base => exact ⟨r, none, rfl, h.setBase base⟩
  | clear => exact ⟨⟨0, none⟩, none, rfl, h.clear⟩
  | equals => exact ⟨⟨n, none⟩, some n, by rw [Register.enter, hn]; rfl, h.equals hn⟩
  | bitwise op =>
    cases hop : op.isBinary with
    | true => exact ⟨⟨0, some (op, n)⟩, none, by rw [Register.enter, if_pos hop, hn]; rfl, h.operator hop hn⟩
    | false =>
      obtain ⟨m, hm⟩ := Bitwise.exists_unary hop r.value
      have hunary : ¬ op.isBinary = true := Bool.eq_false_iff.mp hop
      exact ⟨⟨m, r.pending⟩, none, by rw [Register.enter, if_neg hunary, hm]; rfl, h.transform hop hm⟩
  | _ => exact Bool.noConfusion hinput

/-- Two sessions that follow one register answer an action alike, and follow one register after it. -/
theorem Follows.act (hs : s.Follows r) (ht : t.Follows r) {action : Action} (haction : action.isCalculation = true) :
    (s.act action).event.Alike (t.act action).event ∧
      ∃ next, (s.act action).session.Follows next ∧ (t.act action).session.Follows next := by
  cases action with
  | tick steady => exact Bool.noConfusion haction
  | enter clock input =>
    obtain ⟨next, result, hnext, hanswer, hfollows⟩ := hs.enter clock haction
    obtain ⟨next', result', hnext', hanswer', hfollows'⟩ := ht.enter clock haction
    -- the register goes one way only
    obtain ⟨rfl, rfl⟩ : next = next' ∧ result = result' := by
      simpa using Except.ok.inj (hnext.symm.trans hnext')
    exact ⟨hanswer.alike hanswer', next, hfollows, hfollows'⟩

theorem Follows.act_switch (h : s.Follows r) {action : Action} (haction : action.switchesBase = true) :
    (s.act action).event = .changed ∧ (s.act action).session.Follows r := by
  cases action with
  | tick steady => exact Bool.noConfusion haction
  | enter clock input =>
    cases input with
    | setBase base => exact h.setBase base
    | _ => exact Bool.noConfusion haction

end Session

namespace Desk

variable {σ : Type} [Store σ]

/-- After a run, and after the same run without its base switches, one register is followed. -/
theorem follows_run {full spared : Desk σ} {r : Register} (hfull : full.session.Follows r)
    (hspared : spared.session.Follows r) {actions : List Action}
    (hactions : ∀ action ∈ actions, action.isCalculation = true) :
    ∃ last, (full.run actions).session.Follows last ∧
      (spared.run (actions.filter (!·.switchesBase))).session.Follows last := by
  induction actions generalizing full spared r with
  | nil => exact ⟨r, hfull, hspared⟩
  | cons action rest ih =>
    obtain ⟨haction, hrest⟩ := List.forall_mem_cons.mp hactions
    cases hswitch : action.switchesBase with
    | true =>
      -- only the full run takes this step, which is none of the register
      obtain ⟨-, hnext⟩ := hfull.act_switch hswitch
      rw [← act_session] at hnext
      rw [List.filter_cons_of_neg (by simp [hswitch])]
      exact ih hnext hspared hrest
    | false =>
      obtain ⟨-, next, hnext, hnext'⟩ := hfull.act hspared haction
      rw [← act_session] at hnext hnext'
      rw [List.filter_cons_of_pos (by simp [hswitch])]
      exact ih hnext hnext' hrest

end Desk

/-- Base switches are no matter for a calculation that goes on with an integer on the display of programmer mode. After
any operators, Equals, Clear and base switches, the display shows the same integer as without the switches, and the
same operator waits with the same operand. Whatever of these comes next does not fail, and gives the same result. -/
theorem base_switches_are_neutral {σ : Type} [Store σ] (store : σ) (before : List Action) {actions : List Action} :
    let desk := (Desk.start store).run before
    desk.session.mode = .programmer → desk.session.display ≠ errorText →
    (∃ n, desk.session.base.read desk.session.display = .ok n) →
    (∀ action ∈ actions, action.isCalculation = true) →
      let full := desk.run actions
      let spared := desk.run (actions.filter (!·.switchesBase))
      (∃ n, full.session.base.read full.session.display = .ok n ∧
        spared.session.base.read spared.session.display = .ok n) ∧
      full.session.pending = spared.session.pending ∧
      ∀ action : Action, action.isCalculation = true →
        if action.switchesBase then (full.act action).2 = .changed
        else (full.act action).2.Alike (spared.act action).2 := by
  intro desk hmode hdisplay hinteger hactions full spared
  obtain ⟨n, hn⟩ := hinteger
  obtain ⟨hdue, hshown⟩ := shown_of_display_ne hdisplay
  rw [hshown] at hn
  have hbinary (op : Bitwise) (x : Int64) (hpending : desk.session.pending = some (op, x)) : op.isBinary = true :=
    ((Desk.inOrder_run store before).pending hpending).2
  have hstart : desk.session.Follows ⟨n, desk.session.pending⟩ := ⟨hmode, hdue, hn, rfl, hbinary⟩
  obtain ⟨r, hfull, hspared⟩ := Desk.follows_run hstart hstart hactions
  refine ⟨⟨r.value, hfull.read_display, hspared.read_display⟩, hfull.pending.trans hspared.pending.symm, ?_⟩
  intro action haction
  rw [Desk.act_event, Desk.act_event]
  split
  · next hswitch => exact (hfull.act_switch hswitch).1
  · exact (hfull.act hspared haction).1

/-- A complement, doubled and joined with another one, in three bases and in one. -/
theorem base_switches_of_complements :
    let before := [.setMode .programmer, .digit '5', .bitwise .not].map (Action.enter ⟨0, 0, .epoch⟩)
    let actions := [.setBase .hex, .bitwise .shiftLeft, .bitwise .xor, .setBase .bin, .bitwise .not,
      .bitwise .shiftLeft].map (Action.enter ⟨0, 0, .epoch⟩)
    let desk := (Desk.start ({} : MemoryStore)).run before
    let full := desk.run actions
    let spared := desk.run (actions.filter (!·.switchesBase))
    desk.session.display = "-6" ∧ full.session.display = "-10" ∧ spared.session.display = "-2" ∧
      full.session.pending = some (.xor, -12) ∧ full.session.pending = spared.session.pending ∧
      (full.act (.enter ⟨0, 0, .epoch⟩ .equals)).2 = .evaluated ⟨"-C XOR -10", "10", 0⟩ ∧
      (full.act (.enter ⟨0, 0, .epoch⟩ .equals)).2.Alike (spared.act (.enter ⟨0, 0, .epoch⟩ .equals)).2 := by
  intro before actions desk full spared
  have hdisplay : desk.session.display = "-6" := by decide +kernel
  have hinteger : desk.session.base.read desk.session.display = .ok (-6) := by decide +kernel
  have hactions : ∀ action ∈ actions, action.isCalculation = true := by decide
  obtain ⟨-, hpending, hnext⟩ := base_switches_are_neutral ({} : MemoryStore) before (by decide +kernel)
    (by rw [hdisplay]; decide) ⟨-6, hinteger⟩ hactions
  have hequals : ¬ (Action.enter ⟨0, 0, .epoch⟩ .equals).switchesBase = true := by decide
  have halike := hnext (.enter ⟨0, 0, .epoch⟩ .equals) rfl
  rw [if_neg hequals] at halike
  exact ⟨hdisplay, by decide +kernel, by decide +kernel, by decide +kernel, by rw [hpending], by decide +kernel,
    halike⟩

end DeskCalculator
