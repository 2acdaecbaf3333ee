import DeskCalculator.Proofs.Session.Typing

/-! Chains of numerals with operators between them, typed key by key in standard mode. After each operand the
expression and the display together are what was typed, and Equals gives what the chain evaluates to. -/
namespace DeskCalculator
open Formula Session

/-- A numeral without superfluous zeros in front that fits the entry. -/
structure Operand where
  text : List Char
  isNumeral : IsNumeral text
  fits : text.length ≤ maxEntryLength

structure Chain where
  first : Operand
  rest : List (Operator × Operand)

namespace Operand

theorem isOperator_eq_false (operand : Operand) : ∀ c ∈ operand.text, isOperator c = false :=
  fun c hc => not_isOperator_of_isLiteralChar (operand.isNumeral.isLiteralChar c hc)

theorem lastRun_append (operand : Operand) (cs : List Char) :
    lastRun (cs ++ operand.text) = lastRun cs ++ operand.text :=
  Formula.lastRun_append cs operand.isOperator_eq_false

theorem types {s : Session} (operand : Operand) (hmode : s.mode.isDecimal = true) {cs : List Char}
    (hready : Ready cs) (hrun : lastRun cs = []) :
    Types (s.showing cs) operand.text (s.showing (cs ++ operand.text)) := by
  apply types_numeral hmode hready operand.isNumeral
  rw [hrun, List.length_nil, Nat.zero_add]
  exact operand.fits

end Operand

namespace Chain

/-- An operator and the operand after it. -/
def linkText (link : Operator × Operand) : List Char := link.1.symbol :: link.2.text

def text (chain : Chain) : List Char := chain.first.text ++ chain.rest.flatMap linkText

def last (chain : Chain) : Operand := (chain.rest.getLast?.map Prod.snd).getD chain.first

/-- The chain that ends after some of the operators. -/
def upTo (chain : Chain) (count : ℕ) : Chain := { chain with rest := chain.rest.take count }

theorem text_concat (first : Operand) (rest : List (Operator × Operand)) (op : Operator) (operand : Operand) :
    text ⟨first, rest ++ [(op, operand)]⟩ = text ⟨first, rest⟩ ++ [op.symbol] ++ operand.text := by
  simp [text, linkText]

theorem last_concat (first : Operand) (rest : List (Operator × Operand)) (op : Operator) (operand : Operand) :
    last ⟨first, rest ++ [(op, operand)]⟩ = operand := by
  simp [last]

theorem lastRun_text (chain : Chain) : lastRun chain.text = chain.last.text := by
  rcases chain with ⟨first, rest⟩
  rcases List.eq_nil_or_concat' rest with rfl | ⟨before, ⟨op, operand⟩, rfl⟩
  · have hfirst : lastRun first.text = first.text := first.lastRun_append []
    simpa [text, last] using hfirst
  · rw [text_concat, last_concat, operand.lastRun_append, lastRun_operator, List.nil_append]

theorem lastRun_ne_nil (chain : Chain) : lastRun chain.text ≠ [] := by
  rw [lastRun_text]
  exact chain.last.isNumeral.ne_nil

theorem isExpressionChar (chain : Chain) : ∀ c ∈ chain.text, Token.isExpressionChar c = true := by
  have hoperand (operand : Operand) : ∀ c ∈ operand.text, Token.isExpressionChar c = true := by
    intro c hc
    simp [Token.isExpressionChar, operand.isNumeral.isLiteralChar c hc]
  intro c hc
  simp only [text, linkText, List.mem_append, List.mem_flatMap, List.mem_cons] at hc
  rcases hc with hc | ⟨link, -, rfl | hc⟩
  · exact hoperand chain.first c hc
  · cases link.1 <;> rfl
  · exact hoperand link.2 c hc

theorem take_text (chain : Chain) (count : ℕ) :
    chain.text.take (chain.upTo count).text.length = (chain.upTo count).text := by
  have hsplit : chain.text = (chain.upTo count).text ++ (chain.rest.drop count).flatMap linkText := by
    rw [text, text, upTo, List.append_assoc, ← List.flatMap_append, List.take_append_drop]
  rw [hsplit, List.take_left]

/-- Typing a chain is typing its operands one after another, each after an operator or at the start. -/
theorem types {s : Session} (hmode : s.mode.isDecimal = true) (chain : Chain) :
    Types (s.showing []) chain.text (s.showing chain.text) := by
  rcases chain with ⟨first, rest⟩
  induction rest using List.reverseRecOn with
  | nil => simpa [text] using first.types hmode (Or.inl rfl) rfl
  | append_singleton before link ih =>
    obtain ⟨op, operand⟩ := link
    rw [text_concat]
    have hoperator := types_operator hmode (lastRun_ne_nil ⟨first, before⟩) op
    have hoperand := operand.types hmode (Or.inr (Or.inl ⟨_, op, rfl⟩)) (lastRun_operator (text ⟨first, before⟩) op)
    exact (ih.append hoperator).append hoperand

end Chain

namespace Session

variable {s : Session} {cs : List Char}

theorem display_showing (hrun : lastRun cs ≠ []) : (s.showing cs).display = String.ofList (lastRun cs) :=
  entry_showing hrun

theorem equals_showing_of_value (hmode : s.mode.isDecimal = true) (hrun : lastRun cs ≠ []) (clock : Clock)
    {v : Float} (hv : evaluate (String.ofList cs) = .ok v) :
    (s.showing cs).enter clock .equals = (s.showing cs).concluded clock (Number.render v) (Number.render v) := by
  have hdecimal : (s.showing cs).mode.isDecimal = true := hmode
  rw [enter_equals_decimal hdecimal, expression_append_entry_showing hrun, hv]

theorem equals_showing_of_fault (hmode : s.mode.isDecimal = true) (hrun : lastRun cs ≠ []) (clock : Clock)
    {fault : Fault} (hfault : evaluate (String.ofList cs) = .error fault) :
    (s.showing cs).enter clock .equals = (s.showing cs).failed clock fault := by
  have hdecimal : (s.showing cs).mode.isDecimal = true := hmode
  rw [enter_equals_decimal hdecimal, expression_append_entry_showing hrun, hfault]

theorem recorded_showing (hrun : lastRun cs ≠ []) (clock : Clock) (result : String) :
    (s.showing cs).recorded clock result = ⟨String.ofList cs, result, Int64.ofNat clock.wall⟩ := by
  rw [recorded, expression_append_entry_showing hrun]

end Session

/-- A chain is typed in standard mode from a zero on, its keys at any times. Whenever an operand has been typed,
the display shows it, with all that was typed before it in the expression. Equals then gives the value of the
chain, or fails and leaves the expression, which is the chain without its last operand. -/
theorem enter_chain_then_equals {s : Session} (hmode : s.mode = .standard) (hdisplay : s.display = "0")
    (hexpression : s.expression = "") (chain : Chain) :
    ∃ inputs : List Input, Key.ofLine (String.ofList chain.text) = .ok (inputs.map .input) ∧
      ∀ clocks : List Clock, clocks.length = inputs.length →
        let keys := clocks.zip inputs
        let typed := s.entered keys
        (∀ count : ℕ,
          let part := chain.upTo count
          let shown := s.entered (keys.take part.text.length)
          shown.expression ++ shown.display = String.ofList part.text ∧
            shown.display = String.ofList part.last.text) ∧
        (∀ v clock, evaluate (String.ofList chain.text) = .ok v →
          let entry := ⟨String.ofList chain.text, Number.render v, Int64.ofNat clock.wall⟩
          let shown := (typed.enter clock .equals).session
          (typed.enter clock .equals).event = .evaluated entry ∧ shown.history = s.history.push entry ∧
            shown.display = Number.render v ∧ shown.expression = "") ∧
        (∀ fault clock, evaluate (String.ofList chain.text) = .error fault →
          let shown := (typed.enter clock .equals).session
          (typed.enter clock .equals).event = .failed fault ∧
            shown.expression ++ String.ofList chain.last.text = String.ofList chain.text) := by
  have hdecimal : s.mode.isDecimal = true := by
    rw [hmode]
    rfl
  have hne : chain.text ≠ [] := fun hnil => chain.lastRun_ne_nil (by rw [hnil]; rfl)
  obtain ⟨inputs, hkeys, hline⟩ := Key.ofLine_expression hne chain.isExpressionChar
  refine ⟨inputs, hline, ?_⟩
  intro clocks hclocks keys typed
  have htypes (part : Chain) : Types s part.text (s.showing part.text) := by
    have htypes := part.types hdecimal
    rwa [showing_nil hdisplay hexpression] at htypes
  have htyped : typed = s.showing chain.text := (htypes chain).entered_zip hkeys hclocks
  refine ⟨?_, ?_, ?_⟩
  · intro count part shown
    have hpart : part.text.map Key.ofChar = (inputs.take part.text.length).map .ok := by
      rw [List.map_take, ← hkeys, ← List.map_take, chain.take_text]
    have hlength : (clocks.take part.text.length).length = (inputs.take part.text.length).length := by
      rw [List.length_take, List.length_take, hclocks]
    have hshown : shown = s.showing part.text := by
      have hentered := (htypes part).entered_zip hpart hlength
      rwa [List.zip_eq_zipWith, ← List.take_zipWith] at hentered
    have hwhole := expression_append_entry_showing (s := s) part.lastRun_ne_nil
    rw [hshown, ← part.lastRun_text]
    exact ⟨hwhole, display_showing part.lastRun_ne_nil⟩
  · intro v clock hv entry shown
    have hrecorded : (s.showing chain.text).recorded clock (Number.render v) = entry :=
      recorded_showing chain.lastRun_ne_nil clock (Number.render v)
    have hupdate := equals_showing_of_value hdecimal chain.lastRun_ne_nil clock hv
    rw [← htyped] at hrecorded hupdate
    have hshown : shown = (typed.concluded clock (Number.render v) (Number.render v)).session :=
      congrArg Update.session hupdate
    have hhistory : typed.history = s.history := by
      rw [htyped]
      rfl
    rw [hshown, hupdate, ← hhistory, ← hrecorded]
    exact ⟨rfl, rfl, rfl, rfl⟩
  · intro fault clock hfault shown
    have hupdate := equals_showing_of_fault hdecimal chain.lastRun_ne_nil clock hfault
    rw [← htyped] at hupdate
    have hexpression : shown.expression = (s.showing chain.text).expression := by
      rw [← htyped]
      exact congrArg (fun update => update.session.expression) hupdate
    have hwhole := expression_append_entry_showing (s := s) chain.lastRun_ne_nil
    rw [entry_showing chain.lastRun_ne_nil, chain.lastRun_text] at hwhole
    refine ⟨congrArg Update.event hupdate, ?_⟩
    rw [hexpression]
    exact hwhole

theorem enter_chain_half_plus_product :
    let s : Session := {}
    ∃ inputs : List Input, Key.ofLine "0.5+20*3" = .ok (inputs.map .input) ∧
      ∀ clocks : List Clock, clocks.length = inputs.length →
        let keys := clocks.zip inputs
        let sum := s.entered (keys.take 6)
        sum.expression = "0.5+" ∧ sum.display = "20" ∧
          ∀ clock, ((s.entered keys).enter clock .equals).event
            = .evaluated ⟨"0.5+20*3", "60.5", Int64.ofNat clock.wall⟩ := by
  intro s
  have hhalf : IsNumeral ['0', '.', '5'] := .point .zero (List.forall_mem_singleton.mpr rfl)
  have htwenty : IsNumeral ['2', '0'] := .whole (.digits rfl (by decide) (List.forall_mem_singleton.mpr rfl))
  have hthree : IsNumeral ['3'] := .whole (.digits rfl (by decide) (List.forall_mem_nil _))
  let chain : Chain :=
    ⟨⟨_, hhalf, by decide⟩, [(.plus, ⟨_, htwenty, by decide⟩), (.times, ⟨_, hthree, by decide⟩)]⟩
  obtain ⟨inputs, hline, htyped⟩ := enter_chain_then_equals (s := s) rfl rfl rfl chain
  obtain ⟨v, hv, hrender⟩ : ∃ v, evaluate "0.5+20*3" = .ok v ∧ Number.render v = "60.5" := by
    apply Outcome.map_eq_ok.mp
    decide +kernel
  refine ⟨inputs, hline, fun clocks hclocks => ?_⟩
  obtain ⟨hparts, hevaluated, -⟩ := htyped clocks hclocks
  obtain ⟨hwhole, hshown⟩ := hparts 1
  refine ⟨?_, hshown, fun clock => ?_⟩
  · rw [hshown] at hwhole
    exact (String.append_left_inj "20").mp hwhole
  · rw [(hevaluated v clock hv).1, hrender]
    rfl

end DeskCalculator
