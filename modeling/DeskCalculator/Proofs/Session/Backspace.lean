import DeskCalculator.Proofs.Session.Log
import DeskCalculator.Proofs.Session.Refusal
import DeskCalculator.Proofs.Session.Width

/-! Backspace as the way back. It takes away the character that a key has put into the entry, and leads from every
display back to a zero. Where nothing or a lone sign would be left it puts a zero, and no entry is either of these
before, so that it never takes back more than was typed. -/
namespace DeskCalculator

theorem ne_minus_of_mem {text : String} {c : Char} (hc : c ∈ text.toList) (hne : c ≠ '-') : text ≠ "-" := by
  rintro rfl
  exact hne (List.mem_singleton.mp hc)

theorem shortened_push {text : String} (hempty : text ≠ "") (hminus : text ≠ "-") (c : Char) :
    shortened (text.push c) = text := by
  simp [shortened, hempty, hminus]

/-- What a key put into the entry is taken away again, and a zero that it had replaced is put back. -/
theorem shortened_extended {text : String} (hempty : text ≠ "") (hminus : text ≠ "-") (c : Char) :
    shortened (extended text c) = text := by
  by_cases hzero : text = "0"
  · subst hzero
    have hfront : (extended "0" c).toList = [] ++ [c] := extended_zero c
    rw [shortened_of_eq hfront]
    rfl
  · rw [extended, if_neg hzero]
    exact shortened_push hempty hminus c

/-- Neither nothing nor a lone sign is left. -/
theorem shortened_kept (text : String) : shortened text ≠ "" ∧ shortened text ≠ "-" := by
  simp only [shortened]
  split
  · decide
  · next hkept =>
    simp only [Bool.or_eq_true, decide_eq_true_eq, not_or] at hkept
    exact hkept

theorem extended_ne_minus (text : String) {c : Char} (hc : c ≠ '-') : extended text c ≠ "-" := by
  have hmem : c ∈ (extended text c).toList := by
    by_cases hzero : text = "0"
    · simp [extended, hzero]
    · simp [extended, hzero]
  exact ne_minus_of_mem hmem hc

/-- Either a zero is left or a text that is shorter by one. -/
theorem length_shortened {text : String} (hempty : text ≠ "") :
    shortened text = "0" ∨ (shortened text).length + 1 = text.length := by
  have hpositive : 0 < text.toList.length := List.length_pos_iff.mpr (by simpa using hempty)
  simp only [shortened]
  split
  · exact Or.inl rfl
  · right
    rw [String.length_ofList, List.length_dropLast, ← String.length_toList]
    omega

/-- As many times as a text is long, and every time more, Backspace leads to a zero. -/
theorem iterate_shortened {text : String} {count : ℕ} (hempty : text ≠ "") (hcount : text.length ≤ count) :
    shortened^[count] text = "0" := by
  have hzero (count : ℕ) : shortened^[count] "0" = "0" := Function.iterate_fixed rfl count
  induction count generalizing text with
  | zero => exact absurd (String.length_eq_zero_iff.mp (Nat.le_zero.mp hcount)) hempty
  | succ count ih =>
    rw [Function.iterate_succ_apply]
    rcases length_shortened hempty with hshort | hlength
    · rw [hshort]
      exact hzero count
    · exact ih (shortened_kept text).1 (by omega)

/-- The keys that put a character into the entry. -/
def Input.isTyped : Input → Bool
  | .digit _ | .point | .opening | .closing => true
  | _ => false

namespace Session

section
variable {s t : Session} {clock : Clock} {input : Input}

theorem isDigit_minus (s : Session) : s.isDigit '-' = false := by
  unfold isDigit
  cases s.mode with
  | programmer => cases s.base <;> rfl
  | standard | scientific | date => rfl

/-- No change leaves a lone sign: what is typed is no sign, and results have a digit. -/
theorem Changes.entry_ne_minus (hs : s.entry ≠ "-") (h : Changes s clock input t) : t.entry ≠ "-" := by
  have hnumber {v : Float} (hv : Binary64.code v < Binary64.infinityCode) : Number.render v ≠ "-" := by
    obtain ⟨sign, whole, fraction, exponent, hlayout⟩ := Number.isLaidOut_render hv
    obtain ⟨d, ds, hwhole⟩ := List.exists_cons_of_ne_nil hlayout.whole_ne_nil
    have hd : d ∈ whole := by simp [hwhole]
    apply ne_minus_of_mem (c := d)
    · simp [hlayout.toList_eq, hd]
    · exact Number.ne_of_isDigit (hlayout.whole_digits d hd) (by decide)
  have hinteger {base : Base} {text : String} (htext : base.IsCanonical text) : text ≠ "-" := by
    rcases htext with rfl | ⟨sign, d, ds, hparts, -, -, hds⟩
    · decide
    · apply ne_minus_of_mem (c := d) (by simp [hparts])
      rintro rfl
      exact absurd (hds '-' (by simp)).1 (by cases base <;> decide)
  have hline {text : String} (htext : Calendar.IsResultLine text) : text ≠ "-" := by
    obtain ⟨front, digit, unit, hends, -, hdigit, -⟩ := htext.exists_last
    apply ne_minus_of_mem (c := digit) (by simp [hends])
    exact Number.ne_of_isDigit hdigit (by decide)
  cases h with
  | digit hdigit =>
    apply extended_ne_minus
    intro hc
    rw [hc, isDigit_minus] at hdigit
    exact Bool.noConfusion hdigit
  | opening | closing => exact extended_ne_minus _ (by decide)
  | point =>
    change s.entry.push '.' ≠ "-"
    exact ne_minus_of_mem (c := '.') (by simp) (by decide)
  | backspace => exact (shortened_kept _).2
  | operator | clear | setMode | waiting => exact (by decide : "0" ≠ "-")
  | calculated _ hvalue => exact hnumber (code_lt_of_evaluate hvalue)
  | function _ _ hfinite => exact hnumber ((Binary64.isFinite_iff _).mp hfinite)
  | joined | transformed => exact hinteger (s.base.isCanonical_write _)
  | setBase => exact hinteger (Base.isCanonical_convert _ _ _)
  | difference => exact hline (Or.inl ⟨_, _, rfl⟩)
  | age => exact hline (Or.inr ⟨_, _, rfl⟩)
  | toggleAngle | setStart | setEnd | setBirth => exact hs

theorem Reachable.entry_ne_minus (h : s.Reachable) : s.entry ≠ "-" := by
  apply h.entry_invariant (P := fun _ _ entry => entry ≠ "-")
  · intro mode base
    decide
  · intro s t clock input hs hchange
    exact hchange.entry_ne_minus hs

/-- A key that is typed and not ignored changes the session and saves nothing. -/
theorem enter_typed (hdue : s.resetDue = none) (htyped : input.isTyped = true)
    (hevent : (s.enter clock input).event ≠ .ignored) :
    ∃ t, s.enter clock input = ⟨t, .changed, none⟩ ∧ Changes s clock input t := by
  have htoggle : input.isToggle = false := by
    cases input with
    | toggleTheme | toggleHistory => exact Bool.noConfusion htyped
    | _ => rfl
  have hfailed : s.isFailed = false := by simp [isFailed, hdue]
  rw [enter_eq_calculate htoggle] at hevent ⊢
  cases happly : s.acknowledged.apply clock input with
  | error fault =>
    cases input with
    | digit | point | opening | closing => cases happly
    | _ => exact Bool.noConfusion htyped
  | ok effect =>
    cases effect with
    | refused => exact absurd (calculate_event_eq_ignored_iff.mpr ⟨hfailed, happly⟩) hevent
    | evaluated next entry =>
      rw [input_of_evaluated happly] at htyped
      exact Bool.noConfusion htyped
    | changed next =>
      have haccounted := accounted_apply happly
      rw [acknowledged_of_none hdue] at haccounted
      refine ⟨next, calculate_of_changed happly, haccounted.resolve_left ?_⟩
      exact Effect.noConfusion

/-- Of a typed key only the entry tells, and Backspace has it as it was. -/
theorem Changes.entry_shortened (hempty : s.entry ≠ "") (hminus : s.entry ≠ "-") (htyped : input.isTyped = true)
    (h : Changes s clock input t) : { t with entry := shortened t.entry } = s := by
  cases h with
  | digit | opening | closing => simp only [shortened_extended hempty hminus]
  | point => simp only [shortened_push hempty hminus]
  | _ => exact Bool.noConfusion htyped

theorem enter_backspace (s : Session) (clock : Clock) : s.enter clock .backspace =
    ⟨{ s.acknowledged with entry := shortened s.entry }, .changed, none⟩ := rfl

/-- The entry is no longer than what is on display: behind a failure it is a zero. -/
theorem Reachable.entry_bounds (h : s.Reachable) : s.entry ≠ "" ∧ s.entry.length ≤ s.display.length := by
  by_cases hfailed : s.isFailed = true
  · rw [h.entry_of_isFailed hfailed, display, if_pos hfailed]
    decide
  · have hdisplay : s.display = s.entry := if_neg hfailed
    rw [hdisplay]
    exact ⟨hdisplay ▸ h.fitsDisplay.ne_empty, le_rfl⟩

end

end Session

open Session

namespace Desk

variable {σ : Type} [Store σ]

theorem session_act_backspace (desk : Desk σ) (clock : Clock) :
    (desk.act (.enter clock .backspace)).1.session =
      { desk.session.acknowledged with entry := shortened desk.session.entry } := rfl

/-- Backspaces, at whatever times, take the entry apart and end the showing of a failure. -/
theorem run_backspaces (desk : Desk σ) (clock : Clock) (clocks : List Clock) :
    (desk.run ((clock :: clocks).map (.enter · .backspace))).session =
      { desk.session.acknowledged with entry := shortened^[clocks.length + 1] desk.session.entry } := by
  induction clocks generalizing desk clock with
  | nil => exact desk.session_act_backspace clock
  | cons next clocks ih =>
    have hagain (s : Session) (entry : String) :
        { s.acknowledged with entry }.acknowledged = { s.acknowledged with entry } := rfl
    set after := (desk.act (.enter clock .backspace)).1 with hafter
    have hsession := desk.session_act_backspace clock
    calc (desk.run ((clock :: next :: clocks).map (.enter · .backspace))).session
        = (after.run ((next :: clocks).map (.enter · .backspace))).session := by rw [List.map_cons, run]
      _ = { after.session.acknowledged with entry := shortened^[clocks.length + 1] after.session.entry } :=
          ih after next
      _ = { desk.session.acknowledged with entry := shortened^[clocks.length + 2] desk.session.entry } := by
          rw [hafter, hsession, hagain, Function.iterate_succ_apply _ _ desk.session.entry]

end Desk

/-- Backspace undoes entry, after any run from any store. Where a digit, a point or a parenthesis is not ignored, the
Backspace after it leaves all of the session and the store as it was; and as many Backspaces as the display is long,
or more, bring a zero to it, be it a failure or anything else that is shown. -/
theorem backspace_undoes_entry {σ : Type} [Store σ] (store : σ) (actions : List Action) :
    let desk := (Desk.start store).run actions
    (∀ (input : Input) (clock later : Clock), input.isTyped = true → desk.session.display ≠ errorText →
      (desk.enter clock input).2 ≠ .ignored → (desk.enter clock input).1.enter later .backspace = (desk, .changed)) ∧
    ∀ clocks : List Clock, desk.session.display.length ≤ clocks.length →
      (desk.run (clocks.map (.enter · .backspace))).session.display = "0" := by
  intro desk
  have hreachable : desk.session.Reachable := Desk.reachable_run store actions
  obtain ⟨hempty, hlength⟩ := hreachable.entry_bounds
  constructor
  · intro input clock later htyped hdisplay hevent
    obtain ⟨hdue, -⟩ := shown_of_display_ne hdisplay
    have hchanged : (desk.session.enter clock input).event ≠ .ignored := hevent
    obtain ⟨t, henter, hchange⟩ := enter_typed hdue htyped hchanged
    have hnext : (desk.enter clock input).1 = ⟨t, desk.store⟩ := by
      rw [Desk.enter, henter]
      rfl
    have hacknowledged : t.acknowledged = t := acknowledged_of_none (hchange.resetDue_eq.trans hdue)
    have hback := hchange.entry_shortened hempty hreachable.entry_ne_minus htyped
    rw [hnext, Desk.enter, enter_backspace, hacknowledged, hback]
    rfl
  · intro clocks hclocks
    cases clocks with
    | nil => exact absurd (String.length_eq_zero_iff.mp (Nat.le_zero.mp (hlength.trans hclocks))) hempty
    | cons clock clocks =>
      rw [Desk.run_backspaces]
      exact iterate_shortened hempty (hlength.trans hclocks)

/-- The complement of four is -5. A seven after it is taken back, and two Backspaces more leave a zero and no sign. -/
theorem backspace_undoes_seven_after_minus_five :
    let desk := (Desk.start ({} : MemoryStore)).run
      ([Input.setMode .programmer, .digit '4', .bitwise .not].map (.enter ⟨0, 0, .epoch⟩))
    (desk.enter ⟨0, 0, .epoch⟩ (.digit '7')).1.session.display = "-57" ∧
      (desk.enter ⟨0, 0, .epoch⟩ (.digit '7')).1.enter ⟨0, 0, .epoch⟩ .backspace = (desk, .changed) ∧ desk.session.display = "-5" ∧
      (desk.run [.enter ⟨0, 0, .epoch⟩ .backspace, .enter ⟨0, 0, .epoch⟩ .backspace]).session.display = "0" := by
  intro desk
  have hdisplay : desk.session.display = "-5" := by decide +kernel
  obtain ⟨hundo, hzero⟩ := backspace_undoes_entry ({} : MemoryStore)
    ([Input.setMode .programmer, .digit '4', .bitwise .not].map (.enter ⟨0, 0, .epoch⟩))
  refine ⟨by decide +kernel, ?_, hdisplay, ?_⟩
  · exact hundo (.digit '7') ⟨0, 0, .epoch⟩ ⟨0, 0, .epoch⟩ rfl (by decide +kernel) (by decide +kernel)
  · exact hzero [⟨0, 0, .epoch⟩, ⟨0, 0, .epoch⟩] (by decide +kernel)

end DeskCalculator
