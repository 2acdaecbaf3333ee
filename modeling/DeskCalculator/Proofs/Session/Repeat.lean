import DeskCalculator.Proofs.Expression.Exponent
import DeskCalculator.Proofs.Programmer.Integers
import DeskCalculator.Proofs.Session.Equals
import DeskCalculator.Proofs.Session.Run

/-! Equals pressed again after Equals. The result on the display is evaluated anew, and it is the same
number unless it is shown with an exponent, which expressions do not have. -/
namespace DeskCalculator
open Number

namespace Session

def EqualsRepeats (s : Session) (clock : Clock) (result : String) : Prop :=
  ∃ entry, (s.enter clock .equals).event = .evaluated entry ∧ entry.result = result ∧
    (s.enter clock .equals).session.display = s.display

theorem equalsRepeats_decimal {s : Session} {v : Float} (hmode : s.mode.isDecimal = true)
    (hv : Binary64.code v < Binary64.infinityCode) (hentry : s.entry = render v)
    (hexpression : s.expression = "") (hdue : s.resetDue = none) (clock : Clock) :
    EqualsRepeats s clock (render v) ↔ 'e' ∉ (render v).toList := by
  have htext : s.expression ++ s.entry = render v := by rw [hexpression, hentry, String.empty_append]
  have hequals := enter_equals_decimal hmode clock
  rw [htext] at hequals
  have hdisplay : s.display = render v := by
    simp [display, isFailed, hdue, hentry]
  -- The display is evaluated as it stands, and equal texts are texts of numbers that are alike.
  rw [← exists_evaluate_render_iff hv]
  unfold EqualsRepeats
  rw [hequals, hdisplay]
  cases heval : evaluate (render v) with
  | error fault =>
    constructor
    · rintro ⟨entry, hevent, -⟩
      exact Event.noConfusion hevent
    · rintro ⟨w, hw, -⟩
      exact absurd hw (by simp)
  | ok w =>
    have hw := code_lt_of_evaluate heval
    constructor
    · rintro ⟨entry, hevent, hresult, -⟩
      obtain rfl := Event.evaluated.inj hevent
      exact ⟨w, rfl, (render_eq_render_iff hw hv).mp hresult⟩
    · rintro ⟨w', hw', halike⟩
      obtain rfl := Except.ok.inj hw'
      have hrender := (render_eq_render_iff hw hv).mpr halike
      exact ⟨_, rfl, hrender, hrender⟩

theorem natAbs_le_of_joinedInteger {s : Session} {n : Int64} (h : s.joinedInteger = .ok n) :
    n.toInt.natAbs ≤ Base.maxMagnitude := by
  obtain ⟨y, hy, hjoin⟩ := Outcome.bind_eq_ok.mp h
  unfold joinPending at hjoin
  cases hpending : s.pending with
  | none =>
    rw [hpending] at hjoin
    obtain rfl := Except.ok.inj hjoin
    exact Base.natAbs_le_of_read (Outcome.reworded_eq_ok.mp hy)
  | some operand =>
    rw [hpending] at hjoin
    exact Bitwise.natAbs_le_of_binary hjoin

theorem equalsRepeats_programmer {s : Session} {n : Int64} (hmode : s.mode = .programmer)
    (hread : s.base.read s.entry = .ok n) (hentry : s.entry = s.base.write n)
    (hpending : s.pending = none) (hdue : s.resetDue = none) (clock : Clock) :
    EqualsRepeats s clock (Base.dec.write n) := by
  have hjoined : s.joinedInteger = .ok n := by
    simp [joinedInteger, entryInteger, hread, joinPending, hpending]
  have hequals := enter_equals_programmer hmode clock
  rw [hjoined] at hequals
  have hdisplay : s.display = s.base.write n := by
    simp [display, isFailed, hdue, hentry]
  unfold EqualsRepeats
  rw [hequals, hdisplay]
  exact ⟨_, rfl, rfl, rfl⟩

theorem evaluated_decimal {s : Session} {clock : Clock} {entry : History.Entry}
    (hmode : s.mode.isDecimal = true) (h : (s.enter clock .equals).event = .evaluated entry) :
    ∃ v, evaluate (s.expression ++ s.entry) = .ok v ∧ Binary64.code v < Binary64.infinityCode ∧
      s.enter clock .equals = s.concluded clock (render v) (render v) ∧ entry.result = render v := by
  have hequals := enter_equals_decimal hmode clock
  cases heval : evaluate (s.expression ++ s.entry) with
  | error fault =>
    rw [hequals, heval] at h
    exact Event.noConfusion h
  | ok v =>
    rw [heval] at hequals
    rw [hequals] at h
    obtain rfl := Event.evaluated.inj h
    exact ⟨v, rfl, code_lt_of_evaluate heval, hequals, rfl⟩

theorem evaluated_programmer {s : Session} {clock : Clock} {entry : History.Entry}
    (hmode : s.mode = .programmer) (h : (s.enter clock .equals).event = .evaluated entry) :
    ∃ n, s.joinedInteger = .ok n ∧ s.base.read (s.base.write n) = .ok n ∧
      s.enter clock .equals
        = { s with pending := none }.concluded clock (Base.dec.write n) (s.base.write n) ∧
      entry.result = Base.dec.write n := by
  have hequals := enter_equals_programmer hmode clock
  cases hjoined : s.joinedInteger with
  | error fault =>
    rw [hequals, hjoined] at h
    exact Event.noConfusion h
  | ok n =>
    rw [hjoined] at hequals
    rw [hequals] at h
    obtain rfl := Event.evaluated.inj h
    -- The one integer whose text is not read back is never a result.
    have hread := s.base.read_write_of_natAbs_le (natAbs_le_of_joinedInteger hjoined)
    exact ⟨n, rfl, hread, hequals, rfl⟩

end Session

open Session

/-- Equals pressed again at once, with any time on the clock. Where the first Equals gives a result, the
second one gives it once more and leaves the display as it is exactly if the session is in programmer mode
or the result is shown without an exponent. The same condition decides whether the number on the display
is the number that the next calculation continues with. -/
theorem equals_repeats_iff {s : Session} {clock : Clock} {entry : History.Entry}
    (h : (s.enter clock .equals).event = .evaluated entry) (again : Clock) :
    let shown := (s.enter clock .equals).session
    (EqualsRepeats shown again entry.result ↔ s.mode = .programmer ∨ 'e' ∉ entry.result.toList) ∧
    (s.mode.isDecimal = true → ∃ v, evaluate (s.expression ++ s.entry) = .ok v ∧
      shown.display = render v ∧ entry.result = render v ∧
      ((∃ w, evaluate shown.display = .ok w ∧ (w == v) = true) ↔ 'e' ∉ entry.result.toList)) ∧
    (s.mode = .programmer → ∃ n, s.joinedInteger = .ok n ∧
      shown.display = s.base.write n ∧ entry.result = Base.dec.write n ∧
      s.base.read shown.display = .ok n) := by
  intro shown
  refine ⟨?_, ?_, ?_⟩
  · cases hmode : s.mode with
    | date => exact absurd h (enter_equals_date hmode clock entry)
    | programmer =>
      obtain ⟨n, -, hread, hequals, hresult⟩ := evaluated_programmer hmode h
      set first := ({ s with pending := none }.concluded clock (Base.dec.write n)
        (s.base.write n)).session
      have hrepeats : EqualsRepeats first again (Base.dec.write n) :=
        equalsRepeats_programmer (s := first) hmode hread rfl rfl rfl again
      simp only [shown, hequals, hresult]
      exact iff_of_true hrepeats (Or.inl trivial)
    | standard | scientific =>
      have hisDecimal : s.mode.isDecimal = true := by
        rw [hmode]
        rfl
      obtain ⟨v, -, hv, hequals, hresult⟩ := evaluated_decimal hisDecimal h
      set first := (s.concluded clock (render v) (render v)).session
      have hrepeats : EqualsRepeats first again (render v) ↔ 'e' ∉ (render v).toList :=
        equalsRepeats_decimal (s := first) hisDecimal hv rfl rfl rfl again
      simp only [shown, hequals, hresult]
      refine hrepeats.trans (or_iff_right ?_).symm
      exact Mode.noConfusion
  · intro hmode
    obtain ⟨v, heval, hv, hequals, hresult⟩ := evaluated_decimal hmode h
    have hdisplay : shown.display = render v := by
      simp only [shown, hequals]
      rfl
    refine ⟨v, heval, hdisplay, hresult, ?_⟩
    rw [hdisplay, hresult, ← exists_evaluate_render_iff hv]
    refine exists_congr fun w => and_congr_right fun hw => ?_
    exact beq_iff_alike (code_lt_of_evaluate hw) hv
  · intro hmode
    obtain ⟨n, hjoined, hread, hequals, hresult⟩ := evaluated_programmer hmode h
    have hdisplay : shown.display = s.base.write n := by
      simp only [shown, hequals]
      rfl
    exact ⟨n, hjoined, hdisplay, hresult, by rw [hdisplay, hread]⟩

theorem equals_repeats_two :
    let shown := (({ entry := "2" } : Session).enter ⟨0, 0, .epoch⟩ .equals).session
    (({ entry := "2" } : Session).enter ⟨0, 0, .epoch⟩ .equals).event = .evaluated ⟨"2", "2", 0⟩ ∧
      EqualsRepeats shown ⟨5, 7, .epoch⟩ "2" := by
  have h : (({ entry := "2" } : Session).enter ⟨0, 0, .epoch⟩ .equals).event = .evaluated ⟨"2", "2", 0⟩ := by
    decide +kernel
  exact ⟨h, (equals_repeats_iff h ⟨5, 7, .epoch⟩).1.mpr (Or.inr (by decide))⟩

/-- Ten to the power of 21 is shown with an exponent, and Equals goes on with 1 + 21. -/
theorem equals_drops_exponent :
    let clock : Clock := ⟨0, 0, .epoch⟩
    let digits := Input.digit '1' :: List.replicate 21 (.digit '0')
    let s := ({} : Session).entered (digits.map fun digit => (clock, digit))
    let shown := (s.enter clock .equals).session
    (s.enter clock .equals).event = .evaluated ⟨"1000000000000000000000", "1e+21", 0⟩ ∧
      (shown.enter clock .equals).event = .evaluated ⟨"1e+21", "22", 0⟩ ∧
      ¬ EqualsRepeats shown clock "1e+21" := by
  intro clock digits s shown
  have hsecond : (shown.enter clock .equals).event = .evaluated ⟨"1e+21", "22", 0⟩ := by
    decide +kernel
  refine ⟨by decide +kernel, hsecond, ?_⟩
  rintro ⟨entry, hevent, hresult, -⟩
  rw [hsecond] at hevent
  obtain rfl := Event.evaluated.inj hevent
  exact absurd hresult (by decide)

end DeskCalculator
