import DeskCalculator.Proofs.Session.Equals
import DeskCalculator.Proofs.Session.Run
import DeskCalculator.Proofs.Text.Digits

/-! What an action can make of a session, said once. An input is refused, fails, or changes the session in
one of the ways that are listed here; an invariant of the entry is one that every change keeps. -/
namespace DeskCalculator

/-- The entry after a character was put at its end, or in place of a lone zero. -/
def extended (text : String) (c : Char) : String := if text = "0" then c.toString else text.push c

/-- The entry without its last character; neither nothing nor a lone sign is left. -/
def shortened (text : String) : String :=
  let rest := String.ofList text.toList.dropLast
  if rest = "" || rest = "-" then "0" else rest

theorem extended_zero (c : Char) : (extended "0" c).toList = [c] := by
  simp [extended]

theorem extended_of_ne {text : String} (h : text ≠ "0") (c : Char) :
    (extended text c).toList = text.toList ++ [c] := by
  rw [extended, if_neg h, String.toList_push]

/-- The last numeral of a text goes back to the last character that is no part of a numeral. -/
theorem Session.lastNumeral_of_eq {text : String} {front ds : List Char} (htext : text.toList = front ++ ds)
    (hfront : ∀ d ∈ front.getLast?, Token.isLiteralChar d = false)
    (hds : ∀ d ∈ ds, Token.isLiteralChar d = true) : lastNumeral text = ds := by
  have hrun : (ds.reverse ++ front.reverse).takeWhile Token.isLiteralChar = ds.reverse :=
    (Text.takeRun (by simpa using hds) (by simpa using hfront)).1
  rw [lastNumeral, htext, List.reverse_append, hrun, List.reverse_reverse]

theorem shortened_of_eq {text : String} {front : List Char} {c : Char} (h : text.toList = front ++ [c]) :
    shortened text = if front = [] ∨ front = ['-'] then "0" else String.ofList front := by
  have hnil : String.ofList front = "" ↔ front = [] := by
    rw [← String.toList_inj, String.toList_ofList]
    rfl
  have hminus : String.ofList front = "-" ↔ front = ['-'] := by
    rw [← String.toList_inj, String.toList_ofList]
    rfl
  simp only [shortened, h, List.dropLast_concat, Bool.or_eq_true, decide_eq_true_eq, hnil, hminus]

/-- All but the last character stays if there is anything but a sign in it. -/
theorem toList_shortened {text : String} {front : List Char} {c d : Char} (h : text.toList = front ++ [c])
    (hd : d ∈ front) (hsign : d ≠ '-') : (shortened text).toList = front := by
  have hkept : ¬ (front = [] ∨ front = ['-']) := by
    rintro (rfl | rfl)
    · simp at hd
    · exact hsign (List.mem_singleton.mp hd)
  rw [shortened_of_eq h, if_neg hkept, String.toList_ofList]

theorem mem_extended {text : String} {c d : Char} (h : d ∈ (extended text c).toList) :
    d ∈ text.toList ∨ d = c := by
  by_cases hzero : text = "0"
  · subst hzero
    rw [extended_zero] at h
    exact Or.inr (List.mem_singleton.mp h)
  · rw [extended_of_ne hzero] at h
    simpa using h

theorem mem_shortened {text : String} {d : Char} (h : d ∈ (shortened text).toList) :
    d ∈ text.toList ∨ d = '0' := by
  simp only [shortened] at h
  split at h
  · exact Or.inr (List.mem_singleton.mp h)
  · rw [String.toList_ofList] at h
    exact Or.inl ((List.dropLast_subset _) h)

/-- The session after an input that had an effect, which is the session before it if it was refused. -/
def Effect.next (s : Session) : Effect → Session
  | .refused => s
  | .changed next | .evaluated next _ => next

/-- The two inputs that are about the screen and not about a calculation. -/
def Input.isToggle : Input → Bool
  | .toggleTheme | .toggleHistory => true
  | _ => false

theorem Input.eq_of_isToggle {input : Input} (h : input.isToggle = true) :
    input = .toggleTheme ∨ input = .toggleHistory := by
  cases input with
  | toggleTheme => exact Or.inl rfl
  | toggleHistory => exact Or.inr rfl
  | _ => exact Bool.noConfusion h

theorem Mode.ne_of_isDecimal {mode other : Mode} (h : mode.isDecimal = true) (hother : other.isDecimal = false) :
    mode ≠ other := by
  intro heq
  rw [← heq, h] at hother
  exact Bool.noConfusion hother

namespace Session

/-- What an input that is not refused makes of a session that shows no failure. -/
inductive Changes (s : Session) (clock : Clock) : Input → Session → Prop
  | digit {c : Char} (hdigit : s.isDigit c.toUpper = true) (hroom : s.entry.length < maxEntryLength) :
      Changes s clock (.digit c) { s with entry := extended s.entry c.toUpper }
  | opening (hmode : s.mode = .scientific) (hroom : s.entry.length < maxEntryLength) :
      Changes s clock .opening { s with entry := extended s.entry '(' }
  | closing (hmode : s.mode = .scientific) (hroom : s.entry.length < maxEntryLength) :
      Changes s clock .closing { s with entry := extended s.entry ')' }
  | point (hmode : s.mode.isDecimal = true) (hpoint : '.' ∉ lastNumeral s.entry)
      (hroom : s.entry.length < maxEntryLength) :
      Changes s clock .point { s with entry := s.entry.push '.' }
  | operator {op : Operator} (hmode : s.mode.isDecimal = true) :
      Changes s clock (.operator op)
        { s with expression := (s.expression ++ s.entry).push op.symbol, entry := "0" }
  | calculated {v : Float} (hmode : s.mode.isDecimal = true)
      (hvalue : evaluate (s.expression ++ s.entry) = .ok v) :
      Changes s clock .equals
        { s with
          entry := Number.render v
          expression := ""
          history := s.history.push (s.recorded clock (Number.render v)) }
  | joined {n : Int64} (hmode : s.mode = .programmer) (hvalue : s.joinedInteger = .ok n) :
      Changes s clock .equals
        { s with
          entry := s.base.write n
          expression := ""
          pending := none
          history := s.history.push (s.recorded clock (Base.dec.write n)) }
  | clear : Changes s clock .clear s.cleared
  | backspace : Changes s clock .backspace { s with entry := shortened s.entry }
  | setMode {mode : Mode} : Changes s clock (.setMode mode) { s.cleared with mode }
  | toggleAngle (hmode : s.mode = .scientific) :
      Changes s clock .toggleAngle { s with angle := s.angle.toggle }
  | setBase {base : Base} (hmode : s.mode = .programmer) :
      Changes s clock (.setBase base) { s with entry := convert s.entry s.base base, base }
  | function {f : ScientificFunction} {v : Float} (hmode : s.mode = .scientific)
      (hvalue : f.apply (Numeral.leading s.entry) s.angle = .ok v) (hfinite : v.isFinite = true) :
      Changes s clock (.function f) { s with entry := Number.render v }
  | waiting {op : Bitwise} {n : Int64} (hmode : s.mode = .programmer) (hop : op.isBinary = true)
      (hvalue : s.joinedInteger = .ok n) :
      Changes s clock (.bitwise op)
        { s with
          expression := s.base.write n ++ " " ++ op.render ++ " "
          pending := some (op, n)
          entry := "0" }
  | transformed {op : Bitwise} {x n : Int64} (hmode : s.mode = .programmer) (hop : op.isBinary = false)
      (hentry : s.entryInteger = .ok x) (hvalue : op.unary x = .ok n) :
      Changes s clock (.bitwise op) { s with entry := s.base.write n }
  | setStart {text : String} (hmode : s.mode = .date) :
      Changes s clock (.setStart text) { s with dates := { s.dates with start := text } }
  | setEnd {text : String} (hmode : s.mode = .date) :
      Changes s clock (.setEnd text) { s with dates := { s.dates with stop := text } }
  | setBirth {text : String} (hmode : s.mode = .date) :
      Changes s clock (.setBirth text) { s with dates := { s.dates with birth := text } }
  | difference {a b : Date} (hmode : s.mode = .date) (hstart : Date.read s.dates.start = .ok a)
      (hstop : Date.read s.dates.stop = .ok b) :
      Changes s clock .difference { s with entry := (DateDifference.between a b).render }
  | age {birth : Date} (hmode : s.mode = .date) (hbirth : Date.read s.dates.birth = .ok birth) :
      Changes s clock .age { s with entry := (Age.on birth clock.today).render }

section
variable {s : Session} {clock : Clock} {input : Input} {effect : Effect}

/-- An effect of an input, if it had one, is one of the changes. -/
def Accounted (s : Session) (clock : Clock) (input : Input) (effect : Effect) : Prop :=
  effect = .refused ∨ Changes s clock input (effect.next s)

theorem accounted_ite {condition : Prop} [Decidable condition] {next : Session}
    (h : condition → Changes s clock input next) :
    Accounted s clock input (if condition then .changed next else .refused) := by
  by_cases hcondition : condition
  · rw [if_pos hcondition]
    exact Or.inr (h hcondition)
  · rw [if_neg hcondition]
    exact Or.inl rfl

theorem accounted_append {c : Char}
    (h : s.entry.length < maxEntryLength → Changes s clock input { s with entry := extended s.entry c }) :
    Accounted s clock input (s.append c) := by
  unfold append
  by_cases hroom : maxEntryLength ≤ s.entry.length
  · rw [if_pos hroom]
    exact Or.inl rfl
  · rw [if_neg hroom]
    exact Or.inr (h (Nat.not_le.mp hroom))

theorem accounted_point : Accounted s clock .point s.enterPoint := by
  apply accounted_ite
  intro h
  simp only [Bool.and_eq_true, decide_eq_true_eq, Bool.not_eq_true', List.contains_eq_mem] at h
  exact .point h.1.1 (of_decide_eq_false h.1.2) h.2

theorem accounted_parenthesis {c : Char}
    (h : s.mode = .scientific → s.entry.length < maxEntryLength →
      Changes s clock input { s with entry := extended s.entry c }) :
    Accounted s clock input (s.enterParenthesis c) := by
  unfold enterParenthesis
  by_cases hmode : s.mode = .scientific
  · rw [if_pos hmode]
    exact accounted_append (h hmode)
  · rw [if_neg hmode]
    exact Or.inl rfl

theorem accounted_equals (h : s.enterEquals clock = .ok effect) : Accounted s clock .equals effect := by
  have hcalculated (hmode : s.mode.isDecimal = true) (h : (do
      let result := Number.render (← evaluate (s.expression ++ s.entry))
      return s.conclude clock result result) = .ok effect) : Accounted s clock .equals effect := by
    obtain ⟨v, hvalue, h⟩ := Outcome.bind_eq_ok.mp h
    obtain rfl := Except.ok.inj h
    exact Or.inr (.calculated hmode hvalue)
  unfold enterEquals at h
  split at h
  · next hmode => exact hcalculated (by rw [hmode]; rfl) h
  · next hmode => exact hcalculated (by rw [hmode]; rfl) h
  · next hmode =>
    obtain ⟨x, hentry, h⟩ := Outcome.bind_eq_ok.mp h
    obtain ⟨n, hvalue, h⟩ := Outcome.bind_eq_ok.mp h
    obtain rfl := Except.ok.inj h
    exact Or.inr (.joined hmode (Outcome.bind_eq_ok.mpr ⟨x, hentry, hvalue⟩))
  · exact Or.inl (Except.ok.inj h).symm

theorem accounted_function {f : ScientificFunction} (h : s.enterFunction f = .ok effect) :
    Accounted s clock (.function f) effect := by
  unfold enterFunction at h
  by_cases hmode : s.mode = .scientific
  · rw [if_pos hmode] at h
    obtain ⟨v, hvalue, h⟩ := Outcome.bind_eq_ok.mp h
    by_cases hfinite : v.isFinite = true
    · rw [if_pos hfinite] at h
      obtain rfl := Except.ok.inj h
      exact Or.inr (.function hmode hvalue hfinite)
    · rw [if_neg hfinite] at h
      simp at h
  · rw [if_neg hmode] at h
    exact Or.inl (Except.ok.inj h).symm

theorem accounted_bitwise {op : Bitwise} (h : s.enterBitwise op = .ok effect) :
    Accounted s clock (.bitwise op) effect := by
  unfold enterBitwise at h
  by_cases hmode : s.mode = .programmer
  · rw [if_pos hmode] at h
    obtain ⟨x, hentry, h⟩ := Outcome.bind_eq_ok.mp h
    by_cases hop : op.isBinary = true
    · rw [if_pos hop] at h
      obtain ⟨n, hvalue, h⟩ := Outcome.bind_eq_ok.mp h
      obtain rfl := Except.ok.inj h
      exact Or.inr (.waiting hmode hop (Outcome.bind_eq_ok.mpr ⟨x, hentry, hvalue⟩))
    · rw [if_neg hop] at h
      obtain ⟨n, hvalue, h⟩ := Outcome.bind_eq_ok.mp h
      obtain rfl := Except.ok.inj h
      exact Or.inr (.transformed hmode (Bool.eq_false_iff.mpr hop) hentry hvalue)
  · rw [if_neg hmode] at h
    exact Or.inl (Except.ok.inj h).symm

theorem accounted_difference (h : s.enterDifference = .ok effect) :
    Accounted s clock .difference effect := by
  unfold enterDifference at h
  split at h
  · next hcondition =>
    simp only [Bool.and_eq_true, decide_eq_true_eq] at hcondition
    obtain ⟨a, hstart, h⟩ := Outcome.bind_eq_ok.mp h
    obtain ⟨b, hstop, h⟩ := Outcome.bind_eq_ok.mp h
    obtain rfl := Except.ok.inj h
    exact Or.inr (.difference hcondition.1.1 hstart hstop)
  · exact Or.inl (Except.ok.inj h).symm

theorem accounted_age (h : s.enterAge clock = .ok effect) : Accounted s clock .age effect := by
  unfold enterAge at h
  split at h
  · next hcondition =>
    simp only [Bool.and_eq_true, decide_eq_true_eq] at hcondition
    obtain ⟨birth, hbirth, h⟩ := Outcome.bind_eq_ok.mp h
    obtain rfl := Except.ok.inj h
    exact Or.inr (.age hcondition.1 hbirth)
  · exact Or.inl (Except.ok.inj h).symm

theorem accounted_apply (h : s.apply clock input = .ok effect) : Accounted s clock input effect := by
  cases input with
  | digit c =>
    obtain rfl := Except.ok.inj h
    unfold enterDigit
    by_cases hdigit : s.isDigit c.toUpper = true
    · rw [if_pos hdigit]
      exact accounted_append (.digit hdigit)
    · rw [if_neg hdigit]
      exact Or.inl rfl
  | point =>
    obtain rfl := Except.ok.inj h
    exact accounted_point
  | operator op =>
    obtain rfl := Except.ok.inj h
    exact accounted_ite .operator
  | opening =>
    obtain rfl := Except.ok.inj h
    exact accounted_parenthesis .opening
  | closing =>
    obtain rfl := Except.ok.inj h
    exact accounted_parenthesis .closing
  | equals => exact accounted_equals h
  | clear =>
    obtain rfl := Except.ok.inj h
    exact Or.inr .clear
  | backspace =>
    obtain rfl := Except.ok.inj h
    exact Or.inr .backspace
  | setMode mode =>
    obtain rfl := Except.ok.inj h
    exact Or.inr .setMode
  | toggleAngle =>
    obtain rfl := Except.ok.inj h
    exact accounted_ite .toggleAngle
  | setBase base =>
    obtain rfl := Except.ok.inj h
    exact accounted_ite .setBase
  | function f => exact accounted_function h
  | bitwise op => exact accounted_bitwise h
  | setStart text =>
    obtain rfl := Except.ok.inj h
    exact accounted_ite .setStart
  | setEnd text =>
    obtain rfl := Except.ok.inj h
    exact accounted_ite .setEnd
  | setBirth text =>
    obtain rfl := Except.ok.inj h
    exact accounted_ite .setBirth
  | difference => exact accounted_difference h
  | age => exact accounted_age h
  | toggleTheme | toggleHistory => exact Or.inl (Except.ok.inj h).symm

theorem Changes.resetDue_eq {t : Session} (h : Changes s clock input t) : t.resetDue = s.resetDue := by
  cases h <;> rfl

theorem calculate_of_error {fault : Fault} (h : s.acknowledged.apply clock input = .error fault) :
    s.calculate clock input = s.failed clock fault := by
  simp only [calculate, h]
  rfl

theorem calculate_session_of_ok (h : s.acknowledged.apply clock input = .ok effect) :
    (s.calculate clock input).session = effect.next s.acknowledged := by
  simp only [calculate, h]
  cases effect <;> rfl

theorem enter_eq_calculate (h : input.isToggle = false) : s.enter clock input = s.calculate clock input := by
  cases input with
  | toggleTheme | toggleHistory => exact Bool.noConfusion h
  | _ => rfl

theorem calculate_event_eq_failed_iff {fault : Fault} :
    (s.calculate clock input).event = .failed fault ↔ s.acknowledged.apply clock input = .error fault := by
  constructor
  · intro hevent
    cases happly : s.acknowledged.apply clock input with
    | error fault' =>
      rw [calculate_of_error happly] at hevent
      rw [Event.failed.inj hevent]
    | ok effect =>
      simp only [calculate, happly] at hevent
      cases effect with
      | refused =>
        dsimp only at hevent
        split at hevent <;> cases hevent
      | changed next => cases hevent
      | evaluated next entry => cases hevent
  · intro happly
    rw [calculate_of_error happly]
    rfl

/-- An input fails exactly if it is no toggle and its calculation fails. -/
theorem enter_event_eq_failed_iff {fault : Fault} :
    (s.enter clock input).event = .failed fault ↔
      input.isToggle = false ∧ s.acknowledged.apply clock input = .error fault := by
  cases htoggle : input.isToggle with
  | true => rcases Input.eq_of_isToggle htoggle with rfl | rfl <;> simp [enter]
  | false =>
    rw [enter_eq_calculate htoggle, calculate_event_eq_failed_iff]
    simp

end

/-- What an action makes of a session, with the failure that it may show. -/
inductive Moves (s : Session) : Action → Session → Prop
  | theme {clock : Clock} : Moves s (.enter clock .toggleTheme) { s with theme := s.theme.toggle }
  | panel {clock : Clock} : Moves s (.enter clock .toggleHistory) { s with showHistory := !s.showHistory }
  | refused {clock : Clock} {input : Input} : Moves s (.enter clock input) s.acknowledged
  | changed {clock : Clock} {input : Input} {t : Session} (h : Changes s.acknowledged clock input t) :
      Moves s (.enter clock input) t
  | failed {clock : Clock} {input : Input} : Moves s (.enter clock input) (s.acknowledged.failing clock)
  | waited {steady : Nat} : Moves s (.tick steady) s
  | reset {steady : Nat} : Moves s (.tick steady) s.acknowledged

theorem moves_enter (s : Session) (clock : Clock) (input : Input) :
    Moves s (.enter clock input) (s.enter clock input).session := by
  cases htoggle : input.isToggle with
  | true =>
    rcases Input.eq_of_isToggle htoggle with rfl | rfl
    · exact .theme
    · exact .panel
  | false =>
    rw [enter_eq_calculate htoggle]
    cases happly : s.acknowledged.apply clock input with
    | error fault =>
      rw [calculate_of_error happly]
      exact .failed
    | ok effect =>
      rw [calculate_session_of_ok happly]
      rcases accounted_apply happly with rfl | h
      · exact .refused
      · exact .changed h

theorem moves_tick (s : Session) (steady : Nat) : Moves s (.tick steady) (s.tick steady).session := by
  unfold tick
  split
  · split
    · exact .reset
    · exact .waited
  · exact .waited

theorem moves_act (s : Session) (action : Action) : Moves s action (s.act action).session := by
  cases action with
  | enter clock input => exact s.moves_enter clock input
  | tick steady => exact s.moves_tick steady

theorem Moves.entry_of_isFailed {s t : Session} {action : Action} (h : Moves s action t)
    (hs : s.isFailed = true → s.entry = "0") (ht : t.isFailed = true) : t.entry = "0" := by
  cases h with
  | theme | panel | waited => exact hs ht
  | refused | reset => exact Bool.noConfusion ht
  | failed => rfl
  | changed h =>
    rw [isFailed, h.resetDue_eq] at ht
    exact Bool.noConfusion ht

/-- What holds at every start and is kept by every move holds in every session. -/
theorem Reachable.invariant {P : Session → Prop} (hstart : ∀ theme history, P (restore theme history))
    (hmove : ∀ {s t : Session} {action : Action}, P s → Moves s action t → P t) {s : Session}
    (h : s.Reachable) : P s := by
  induction h with
  | start theme history => exact hstart theme history
  | @act s _ action ih => exact hmove ih (s.moves_act action)

/-- While a failure is shown, the entry behind it is a zero. -/
theorem Reachable.entry_of_isFailed {s : Session} (h : s.Reachable) : s.isFailed = true → s.entry = "0" := by
  apply h.invariant
  · intro theme history _
    rfl
  · intro s t action hs hmove
    exact hmove.entry_of_isFailed hs

/-- What holds of a zero and is kept by every change of the entry holds of the entry in every session. -/
theorem Reachable.entry_invariant {P : Mode → Base → String → Prop} (hzero : ∀ mode base, P mode base "0")
    (hchange : ∀ {s t : Session} {clock : Clock} {input : Input}, P s.mode s.base s.entry →
      Changes s clock input t → P t.mode t.base t.entry) {s : Session} (h : s.Reachable) :
    P s.mode s.base s.entry := by
  apply h.invariant (P := fun s => P s.mode s.base s.entry)
  · intro theme history
    exact hzero _ _
  · intro s t action hs hmove
    cases hmove with
    | theme | panel | waited | refused | reset => exact hs
    | failed => exact hzero _ _
    | changed h => exact hchange (s := s.acknowledged) hs h

end Session

end DeskCalculator
