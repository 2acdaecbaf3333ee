import DeskCalculator.Proofs.Session.Changes
import DeskCalculator.Proofs.Session.Formula
import DeskCalculator.Proofs.Terminal.Lines

/-! The keys of a formula, pressed one after another. -/
namespace DeskCalculator
open Formula

namespace Session

/-- The session in which a text has been entered: its last run is the entry, and what comes before that is
the expression. -/
def showing (s : Session) (cs : List Char) : Session :=
  { s with
    entry := if lastRun cs = [] then "0" else String.ofList (lastRun cs)
    expression := String.ofList (upToOperator cs)
    resetDue := none }

/-- The keys of a text, pressed at any times, lead from one session to another. -/
def Types (s : Session) (cs : List Char) (t : Session) : Prop :=
  ∀ keys : List (Clock × Input), cs.map Key.ofChar = keys.map (fun key => .ok key.2) →
    s.entered keys = t

theorem Types.nil (s : Session) : Types s [] s := by
  intro keys hkeys
  obtain rfl : keys = [] := by simpa using hkeys.symm
  rfl

theorem Types.append {s t u : Session} {cs ds : List Char} (hcs : Types s cs t) (hds : Types t ds u) :
    Types s (cs ++ ds) u := by
  intro keys hkeys
  rw [List.map_append] at hkeys
  obtain ⟨before, after, rfl, hbefore, hafter⟩ := List.map_eq_append_iff.mp hkeys.symm
  rw [entered_append, hcs before hbefore.symm]
  exact hds after hafter.symm

theorem Types.entered_zip {s t : Session} {cs : List Char} (h : Types s cs t) {inputs : List Input}
    (hkeys : cs.map Key.ofChar = inputs.map .ok) {clocks : List Clock} (hclocks : clocks.length = inputs.length) :
    s.entered (clocks.zip inputs) = t := by
  have hinputs : (clocks.zip inputs).map Prod.snd = inputs := List.map_snd_zip (le_of_eq hclocks.symm)
  apply h
  rw [hkeys, ← hinputs, List.map_map, hinputs]
  rfl

theorem Types.key {s t : Session} {c : Char} {input : Input} (hkey : Key.ofChar c = .ok input)
    (h : ∀ clock, s.acknowledged.apply clock input = .ok (.changed t)) : Types s [c] t := by
  intro keys hkeys
  obtain ⟨⟨clock, pressed⟩, rest, rfl, hfirst, hrest⟩ := List.map_eq_cons_iff.mp hkeys.symm
  obtain rfl : rest = [] := by simpa using hrest
  rw [hkey] at hfirst
  obtain rfl : pressed = input := Except.ok.inj hfirst
  rw [entered, enter_of_changed (h clock)]
  rfl

theorem acknowledged_showing (s : Session) (cs : List Char) :
    (s.showing cs).acknowledged = s.showing cs := rfl

section
variable {s : Session} {cs : List Char} {c : Char}

theorem entry_showing (hrun : lastRun cs ≠ []) : (s.showing cs).entry = String.ofList (lastRun cs) := by
  rw [showing, if_neg hrun]

theorem length_entry_showing :
    (s.showing cs).entry.length < maxEntryLength ↔ (lastRun cs).length < maxEntryLength := by
  by_cases hrun : lastRun cs = []
  · have hentry : (s.showing cs).entry = "0" := if_pos hrun
    rw [hentry, hrun]
    decide
  · rw [entry_showing hrun, String.length_ofList]

theorem entry_showing_eq_zero_iff :
    (s.showing cs).entry = "0" ↔ lastRun cs = [] ∨ lastRun cs = ['0'] := by
  have hzero : "0" = String.ofList ['0'] := rfl
  by_cases hrun : lastRun cs = []
  · simp [showing, hrun]
  · rw [entry_showing hrun, hzero, String.ofList_inj]
    simp [hrun]

theorem showing_concat (hc : isOperator c = false) :
    s.showing (cs ++ [c])
      = { s.showing cs with entry := String.ofList (lastRun cs ++ [c]) } := by
  simp [showing, lastRun_concat cs hc, upToOperator_concat cs hc]

theorem push_ofList (ds : List Char) (c : Char) :
    (String.ofList ds).push c = String.ofList (ds ++ [c]) := by
  rw [← String.toList_inj, String.toList_push, String.toList_ofList, String.toList_ofList]

theorem append_showing (hc : isOperator c = false) (hroom : (lastRun cs).length < maxEntryLength)
    (hrun : lastRun cs ≠ ['0']) : (s.showing cs).append c = .changed (s.showing (cs ++ [c])) := by
  have hlength : ¬ maxEntryLength ≤ (s.showing cs).entry.length := by
    rw [Nat.not_le, length_entry_showing]
    exact hroom
  rw [append, if_neg hlength, showing_concat hc]
  by_cases hempty : lastRun cs = []
  · rw [if_pos (entry_showing_eq_zero_iff.mpr (Or.inl hempty)), hempty]
    rfl
  · have hzero : (s.showing cs).entry ≠ "0" := by
      rw [ne_eq, entry_showing_eq_zero_iff]
      simp [hempty, hrun]
    rw [if_neg hzero, entry_showing hempty, push_ofList]

theorem append_showing_zero (hc : isOperator c = false) (hrun : lastRun cs = []) :
    (s.showing (cs ++ ['0'])).append c = .changed (s.showing (cs ++ [c])) := by
  have hzero : isOperator '0' = false := by decide
  have hentry : (s.showing (cs ++ ['0'])).entry = "0" := by
    rw [entry_showing_eq_zero_iff, lastRun_concat cs hzero, hrun]
    exact Or.inr rfl
  rw [append, hentry, if_neg (by decide), if_pos rfl, showing_concat hc, showing_concat hzero, hrun]
  rfl

theorem expression_append_entry_showing (hrun : lastRun cs ≠ []) :
    (s.showing cs).expression ++ (s.showing cs).entry = String.ofList cs := by
  rw [entry_showing hrun, ← String.toList_inj, String.toList_append]
  simp only [showing, String.toList_ofList]
  exact upToOperator_append_lastRun cs

theorem isDigit_of_isDecimal {t : Session} (hmode : t.mode.isDecimal = true) : t.isDigit c = c.isDigit := by
  unfold isDigit
  cases hcase : t.mode with
  | standard | scientific => rfl
  | programmer | date =>
    rw [hcase] at hmode
    exact Bool.noConfusion hmode

theorem types_digit (hmode : s.mode.isDecimal = true) (hc : c.isDigit = true)
    (hroom : (lastRun cs).length < maxEntryLength) (hrun : lastRun cs ≠ ['0']) :
    Types (s.showing cs) [c] (s.showing (cs ++ [c])) := by
  have hupper : c.toUpper = c := Text.forall_digit (P := fun c => c.toUpper = c) (by decide) hc
  have hdigit : (s.showing cs).isDigit c = true := (isDigit_of_isDecimal hmode).trans hc
  apply Types.key (Key.ofChar_digit hc)
  intro clock
  apply congrArg Except.ok
  rw [enterDigit, hupper]
  exact (if_pos hdigit).trans (append_showing (not_isOperator_of_isDigit hc) hroom hrun)

theorem types_point (hmode : s.mode.isDecimal = true) (hroom : (lastRun cs).length < maxEntryLength)
    (hrun : lastRun cs ≠ []) (hpoint : '.' ∉ lastNumeral (String.ofList (lastRun cs))) :
    Types (s.showing cs) ['.'] (s.showing (cs ++ ['.'])) := by
  have hdecimal : (s.showing cs).mode.isDecimal = true := hmode
  have hlength : (s.showing cs).entry.length < maxEntryLength := length_entry_showing.mpr hroom
  have hcondition : ((s.showing cs).mode.isDecimal && !(lastNumeral (s.showing cs).entry).contains '.'
      && decide ((s.showing cs).entry.length < maxEntryLength)) = true := by
    rw [hdecimal, decide_eq_true hlength, entry_showing hrun]
    simpa using hpoint
  have hkey : Key.ofChar '.' = .ok .point := rfl
  apply Types.key hkey
  intro clock
  apply congrArg Except.ok
  rw [acknowledged_showing, enterPoint, if_pos hcondition, showing_concat (by decide), entry_showing hrun,
    push_ofList]

theorem types_operator (hmode : s.mode.isDecimal = true) (hrun : lastRun cs ≠ []) (op : Operator) :
    Types (s.showing cs) [op.symbol] (s.showing (cs ++ [op.symbol])) := by
  have hdecimal : (s.showing cs).mode.isDecimal = true := hmode
  have hshowing : s.showing (cs ++ [op.symbol])
      = { s.showing cs with entry := "0", expression := String.ofList (cs ++ [op.symbol]) } := by
    simp [showing, lastRun_operator, upToOperator_operator]
  apply Types.key (Key.ofChar_symbol op)
  intro clock
  apply congrArg Except.ok
  rw [acknowledged_showing, enterOperator, if_pos hdecimal, expression_append_entry_showing hrun,
    push_ofList, hshowing]

theorem types_parenthesis (hmode : s.mode = .scientific) {t : Session} (hc : c = '(' ∨ c = ')')
    (happend : (s.showing cs).append c = .changed t) : Types (s.showing cs) [c] t := by
  have hentered : (s.showing cs).enterParenthesis c = .changed t := (if_pos hmode).trans happend
  rcases hc with rfl | rfl
  · have hkey : Key.ofChar '(' = .ok .opening := rfl
    exact Types.key hkey fun clock => congrArg Except.ok hentered
  · have hkey : Key.ofChar ')' = .ok .closing := rfl
    exact Types.key hkey fun clock => congrArg Except.ok hentered

theorem types_digits (hmode : s.mode.isDecimal = true) {ds : List Char}
    (hds : ∀ c ∈ ds, c.isDigit = true) (hroom : (lastRun cs).length + ds.length ≤ maxEntryLength)
    (hempty : lastRun cs ≠ []) (hzero : lastRun cs ≠ ['0']) :
    Types (s.showing cs) ds (s.showing (cs ++ ds)) := by
  induction ds generalizing cs with
  | nil =>
    rw [List.append_nil]
    exact Types.nil _
  | cons d ds ih =>
    obtain ⟨hd, hrest⟩ := List.forall_mem_cons.mp hds
    have hrun := lastRun_concat cs (not_isOperator_of_isDigit hd)
    rw [List.length_cons] at hroom
    have hnext : Types (s.showing (cs ++ [d])) ds (s.showing (cs ++ [d] ++ ds)) := by
      apply ih hrest
      · rw [hrun, List.length_append, List.length_singleton]
        omega
      · simp [hrun]
      · simp [hrun, List.append_eq_singleton_iff, hempty]
    rw [List.append_assoc] at hnext
    exact (types_digit hmode hd (by omega) hzero).append hnext

theorem types_whole (hmode : s.mode.isDecimal = true) (hready : Ready cs) {ds : List Char}
    (hds : IsWhole ds) (hroom : (lastRun cs).length + ds.length ≤ maxEntryLength) :
    Types (s.showing cs) ds (s.showing (cs ++ ds)) := by
  cases hds with
  | zero => exact types_digit hmode (by decide) hroom hready.lastRun_ne_zero
  | @digits d ds hd hne hds =>
    have hrun := lastRun_concat cs (not_isOperator_of_isDigit hd)
    rw [List.length_cons] at hroom
    -- the first digit takes the place of a zero; after that the entry is no lone zero
    have hrest : Types (s.showing (cs ++ [d])) ds (s.showing (cs ++ [d] ++ ds)) := by
      apply types_digits hmode hds
      · rw [hrun, List.length_append, List.length_singleton]
        omega
      · simp [hrun]
      · simp [hrun, List.append_eq_singleton_iff, hne]
    rw [List.append_assoc] at hrest
    exact (types_digit hmode hd (by omega) hready.lastRun_ne_zero).append hrest

theorem lastNumeral_of_ready (hready : Ready cs) {ds : List Char}
    (hds : ∀ c ∈ ds, Token.isLiteralChar c = true) :
    lastNumeral (String.ofList (lastRun cs ++ ds)) = ds := by
  apply lastNumeral_of_eq String.toList_ofList ?_ hds
  intro d hd
  rcases hready.lastRun with hrun | ⟨es, hrun⟩
  · simp [hrun] at hd
  · rw [hrun, List.getLast?_concat] at hd
    obtain rfl := Option.mem_some_iff.mp hd
    decide

theorem types_numeral (hmode : s.mode.isDecimal = true) (hready : Ready cs) {ds : List Char}
    (hds : IsNumeral ds) (hroom : (lastRun cs).length + ds.length ≤ maxEntryLength) :
    Types (s.showing cs) ds (s.showing (cs ++ ds)) := by
  cases hds with
  | whole hds => exact types_whole hmode hready hds hroom
  | @point ds fs hds hfs =>
    have hplain : ∀ c ∈ ds, isOperator c = false := fun c hc => not_isOperator_of_isDigit (hds.isDigit c hc)
    have hrun : lastRun (cs ++ ds) = lastRun cs ++ ds := lastRun_append cs hplain
    have hpointRun : lastRun (cs ++ ds ++ ['.']) = lastRun cs ++ ds ++ ['.'] := by
      rw [lastRun_concat _ (by decide), hrun]
    have hempty : lastRun (cs ++ ds) ≠ [] := by simp [hrun, hds.ne_nil]
    rw [List.length_append, List.length_cons] at hroom
    have hnumeral : '.' ∉ lastNumeral (String.ofList (lastRun (cs ++ ds))) := by
      rw [hrun, lastNumeral_of_ready hready (IsNumeral.whole hds).isLiteralChar]
      intro hpoint
      exact absurd (hds.isDigit _ hpoint) (by decide)
    have hwhole : Types (s.showing cs) ds (s.showing (cs ++ ds)) :=
      types_whole hmode hready hds (by omega)
    have hpoint : Types (s.showing (cs ++ ds)) ['.'] (s.showing (cs ++ ds ++ ['.'])) := by
      apply types_point hmode _ hempty hnumeral
      rw [hrun, List.length_append]
      omega
    have hfraction : Types (s.showing (cs ++ ds ++ ['.'])) fs (s.showing (cs ++ ds ++ ['.'] ++ fs)) := by
      apply types_digits hmode hfs
      · rw [hpointRun, List.length_append, List.length_append, List.length_singleton]
        omega
      · rw [hpointRun]
        exact List.append_ne_nil_of_right_ne_nil _ (List.cons_ne_nil _ _)
      · rw [hpointRun, ne_eq, List.append_eq_singleton_iff]
        simp [hds.ne_nil]
    -- The whole digits, the point and the fraction, one after another.
    have htyped := (hwhole.append hpoint).append hfraction
    simpa using htyped

theorem types_closing (hmode : s.mode = .scientific) {ds : List Char} (hds : ds ≠ ['0'])
    (hroom : (lastRun (kept ds)).length < maxEntryLength) :
    Types (s.showing (kept ds)) [')'] (s.showing (kept (ds ++ [')']))) := by
  have hclosing : isOperator ')' = false := by decide
  apply types_parenthesis hmode (Or.inr rfl)
  by_cases hzero : EndsInLoneZero ds
  · -- The entry is a bare zero, and the parenthesis takes its place.
    obtain ⟨es, op, rfl⟩ := hzero
    have hoperator : lastRun (kept (es ++ [op.symbol])) = [] := by rw [kept_operator, lastRun_operator]
    have hkept : kept (es ++ [op.symbol, '0']) = kept (es ++ [op.symbol]) ++ ['0'] := by
      rw [List.append_cons]
      exact kept_concat (fun h => absurd h (by decide))
    rw [List.append_assoc, List.cons_append, List.cons_append, List.nil_append, kept_loneZero, hkept]
    exact append_showing_zero hclosing hoperator
  · rw [kept_concat fun _ => hzero]
    exact append_showing hclosing hroom fun hrun => hzero (endsInLoneZero_of_lastRun hrun hds)

/-- The invariant of typing: whenever a formula or an operand of one comes next, the session shows what is kept
of the text so far, and so it does afterwards. -/
theorem types_formula (hmode : s.mode = .scientific) {part : Part} {ds : List Char}
    (h : Formula part ds) : ∀ {cs : List Char}, Ready cs → RunsWithin maxEntryLength (cs ++ ds) →
      Types (s.showing (kept cs)) ds (s.showing (kept (cs ++ ds))) := by
  have hdecimal : s.mode.isDecimal = true := by
    rw [hmode]
    rfl
  -- Every part of the formula is typed after a text for which it is the part that comes next.
  induction h with
  | @numeral ds h =>
    intro cs hready hfits
    have hplain : ∀ c ∈ ds, isOperator c = false :=
      fun c hc => not_isOperator_of_isLiteralChar (h.isLiteralChar c hc)
    have hclosing : ')' ∉ ds := fun hc => absurd (h.isLiteralChar _ hc) (by decide)
    rw [kept_append hclosing]
    exact types_numeral hdecimal hready.kept h (hfits.length_le hplain)
  | @group ds h ih =>
    intro cs hready hfits
    have hsplit : cs ++ '(' :: (ds ++ [')']) = cs ++ ['('] ++ ds ++ [')'] := by simp
    have hopen : kept (cs ++ ['(']) = kept cs ++ ['('] := kept_concat fun h => absurd h (by decide)
    rw [hsplit] at hfits ⊢
    have hopening : Types (s.showing (kept cs)) ['('] (s.showing (kept (cs ++ ['(']))) := by
      have hroom := hfits.left.left.length_le (List.forall_mem_singleton.mpr rfl)
      rw [hopen]
      apply types_parenthesis hmode (Or.inl rfl)
      exact append_showing (by decide) hroom hready.kept.lastRun_ne_zero
    have hinner : Types (s.showing (kept (cs ++ ['(']))) ds (s.showing (kept (cs ++ ['('] ++ ds))) :=
      ih (Or.inr (Or.inr ⟨cs, rfl⟩)) hfits.left
    have hclosing : Types (s.showing (kept (cs ++ ['('] ++ ds))) [')']
        (s.showing (kept (cs ++ ['('] ++ ds ++ [')']))) := by
      apply types_closing hmode _ (hfits.length_le (List.forall_mem_singleton.mpr rfl))
      intro hzero
      have hmem : '(' ∈ ['0'] := hzero ▸ (by simp : '(' ∈ cs ++ ['('] ++ ds)
      exact absurd hmem (by decide)
    exact (hopening.append hinner).append hclosing
  | operand h ih => exact ih
  | @join ds es hl op hr ihl ihr =>
    intro cs hready hfits
    have hsplit : cs ++ (ds ++ op.symbol :: es) = cs ++ ds ++ [op.symbol] ++ es := by simp
    rw [hsplit] at hfits ⊢
    have hleft := ihl hready hfits.left.left
    have hoperator : Types (s.showing (kept (cs ++ ds))) [op.symbol]
        (s.showing (kept (cs ++ ds ++ [op.symbol]))) := by
      obtain ⟨fs, c, rfl, hc⟩ := hl.exists_last
      rw [kept_operator]
      apply types_operator hdecimal
      rw [← List.append_assoc]
      exact lastRun_kept_ne_nil _ hc
    have hright := ihr (Or.inr (Or.inl ⟨cs ++ ds, op, rfl⟩)) hfits
    rw [List.append_cons ds]
    exact (hleft.append hoperator).append hright

theorem showing_nil (hdisplay : s.display = "0") (hexpression : s.expression = "") :
    s.showing [] = s := by
  obtain ⟨hdue, hshown⟩ := shown_of_display_ne (s := s) (by rw [hdisplay]; decide)
  have hentry : s.entry = "0" := hshown.symm.trans hdisplay
  rcases s with ⟨entry, expression, mode, angle, base, theme, showHistory, history, pending, dates, due⟩
  obtain rfl : entry = "0" := hentry
  obtain rfl : expression = "" := hexpression
  obtain rfl : due = none := hdue
  rfl

end

theorem entered_formula {s : Session} {text : List Char} (hmode : s.mode = .scientific)
    (hdisplay : s.display = "0") (hexpression : s.expression = "") (hformula : Formula .whole text)
    (hfits : RunsWithin maxEntryLength text) {inputs : List Input}
    (hkeys : text.map Key.ofChar = inputs.map .ok) {clocks : List Clock}
    (hclocks : clocks.length = inputs.length) :
    s.entered (clocks.zip inputs) = s.showing (kept text) := by
  have htypes : Types (s.showing []) text (s.showing (kept text)) :=
    types_formula hmode hformula (Or.inl rfl) hfits
  rw [showing_nil hdisplay hexpression] at htypes
  exact htypes.entered_zip hkeys hclocks

end Session

open Session

/-- A formula is typed in scientific mode from a zero on, its keys at any times. Expression and display show
its text, except that a closing parenthesis takes the place of a zero that stands alone after an operator; and
Equals gives what the text that is shown evaluates to. -/
theorem enter_formula_then_equals {s : Session} {text : List Char} (hmode : s.mode = .scientific)
    (hdisplay : s.display = "0") (hexpression : s.expression = "") (hformula : Formula .whole text)
    (hfits : RunsWithin maxEntryLength text) :
    ∃ inputs : List Input, Key.ofLine (String.ofList text) = .ok (inputs.map .input) ∧
      ∀ clocks : List Clock, clocks.length = inputs.length →
        let typed := s.entered (clocks.zip inputs)
        typed.expression ++ typed.display = String.ofList (kept text) ∧
        (kept text = text ↔ ∀ op : Operator, ¬ [op.symbol, '0', ')'] <:+: text) ∧
        (∀ v clock, evaluate (String.ofList (kept text)) = .ok v →
          let entry := ⟨String.ofList (kept text), Number.render v, Int64.ofNat clock.wall⟩
          let shown := (typed.enter clock .equals).session
          (typed.enter clock .equals).event = .evaluated entry ∧ shown.history = s.history.push entry ∧
            shown.display = Number.render v ∧ shown.expression = "") ∧
        (∀ fault clock, evaluate (String.ofList (kept text)) = .error fault →
          (typed.enter clock .equals).event = .failed fault ∧
            (typed.enter clock .equals).session.display = errorText) := by
  obtain ⟨before, last, hlast, hplain⟩ := hformula.exists_last
  have hne : text ≠ [] := by simp [hlast]
  obtain ⟨inputs, hkeys, hline⟩ := Key.ofLine_expression hne hformula.isExpressionChar
  refine ⟨inputs, hline, ?_⟩
  intro clocks hclocks typed
  have htyped : typed = s.showing (kept text) :=
    entered_formula hmode hdisplay hexpression hformula hfits hkeys hclocks
  have hdecimal : typed.mode.isDecimal = true := by
    rw [htyped]
    simp only [showing, hmode]
    rfl
  -- A formula does not end in an operator, so the entry is a part of its text and no mere "0".
  have htext : typed.expression ++ typed.entry = String.ofList (kept text) := by
    rw [htyped]
    apply expression_append_entry_showing
    rw [hlast]
    exact lastRun_kept_ne_nil before hplain
  have hhistory : typed.history = s.history := by
    rw [htyped]
    rfl
  have hshown : typed.display = typed.entry := by
    rw [htyped]
    rfl
  refine ⟨hshown ▸ htext, kept_eq_self_iff, ?_, ?_⟩
  · intro v clock hv entry shown
    have hequals : typed.enter clock .equals
        = typed.concluded clock (Number.render v) (Number.render v) := by
      rw [enter_equals_decimal hdecimal, htext, hv]
    have hrecorded : typed.recorded clock (Number.render v) = entry := by rw [recorded, htext]
    have hsession : shown = (typed.concluded clock (Number.render v) (Number.render v)).session :=
      congrArg Update.session hequals
    refine ⟨?_, ?_, ?_, ?_⟩
    · rw [hequals, ← hrecorded]
      rfl
    · rw [hsession, ← hhistory, ← hrecorded]
      rfl
    · rw [hsession]
      rfl
    · rw [hsession]
      rfl
  · intro fault clock hfault
    have hequals : typed.enter clock .equals = typed.failed clock fault := by
      rw [enter_equals_decimal hdecimal, htext, hfault]
    rw [hequals]
    exact ⟨rfl, rfl⟩

theorem enter_two_times_group :
    let s : Session := { mode := .scientific }
    ∃ inputs : List Input, Key.ofLine "2*(0+3)" = .ok (inputs.map .input) ∧
      ∀ clocks : List Clock, clocks.length = inputs.length →
        let typed := s.entered (clocks.zip inputs)
        typed.expression ++ typed.display = "2*(0+3)" ∧
          ∀ clock, (typed.enter clock .equals).event
            = .evaluated ⟨"2*(0+3)", "6", Int64.ofNat clock.wall⟩ := by
  have hdigit (d : Char) (hd : d.isDigit = true) (hne : d ≠ '0') : Formula .operand [d] :=
    .numeral (.whole (.digits hd hne (by simp)))
  have hgroup : Formula .operand "(0+3)".toList :=
    .group (.join (.operand (.numeral (.whole .zero))) .plus (hdigit '3' (by decide) (by decide)))
  have hformula : Formula .whole "2*(0+3)".toList :=
    .join (.operand (hdigit '2' (by decide) (by decide))) .times hgroup
  have hfits : RunsWithin maxEntryLength "2*(0+3)".toList :=
    fun run hrun _ => hrun.length_le.trans (by decide)
  obtain ⟨inputs, hkeys, htyped⟩ := enter_formula_then_equals (s := { mode := .scientific }) rfl rfl rfl
    hformula hfits
  obtain ⟨v, hv, hrender⟩ : ∃ v, evaluate "2*(0+3)" = .ok v ∧ Number.render v = "6" := by
    apply Outcome.map_eq_ok.mp
    decide +kernel
  refine ⟨inputs, hkeys, fun clocks hclocks => ?_⟩
  obtain ⟨htext, -, hevaluated, -⟩ := htyped clocks hclocks
  refine ⟨htext, fun clock => ?_⟩
  rw [(hevaluated v clock hv).1, hrender]
  rfl

/-- The zero of `(1+0)` is lost when the parenthesis is closed, and the text that is left cannot be
evaluated. -/
theorem enter_closing_drops_zero :
    let clock : Clock := ⟨0, 0, .epoch⟩
    let inputs : List Input := [.opening, .digit '1', .operator .plus, .digit '0', .closing]
    let typed := ({ mode := .scientific } : Session).entered (inputs.map fun input => (clock, input))
    Formula .whole "(1+0)".toList ∧ RunsWithin maxEntryLength "(1+0)".toList ∧
      Key.ofLine "(1+0)" = .ok (inputs.map .input) ∧ typed.expression ++ typed.display = "(1+)" ∧
      (evaluate "(1+0)").map Number.render = .ok "1" ∧
      (typed.enter clock .equals).event = .failed (Fault.expectedExpression.locate ⟨3, 4⟩) := by
  intro clock inputs typed
  have hone : Formula .whole ['1'] :=
    .operand (.numeral (.whole (.digits (by decide) (by decide) (by simp))))
  have hsum : Formula .whole "1+0".toList := .join hone .plus (.numeral (.whole .zero))
  have hfits : RunsWithin maxEntryLength "(1+0)".toList :=
    fun run hrun _ => hrun.length_le.trans (by decide)
  refine ⟨.operand (.group hsum), hfits, ?_, ?_, ?_, ?_⟩ <;> decide +kernel

end DeskCalculator
