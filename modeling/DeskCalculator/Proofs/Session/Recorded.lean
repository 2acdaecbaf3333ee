import DeskCalculator.Proofs.Session.Waiting
import DeskCalculator.Proofs.Text.Words

/-! What the programmer's calculator records, calculated again from its own text. The text of a first operand is
that of the base in which the operator was entered; the second operand is written in the base of Equals. -/
namespace DeskCalculator

/-- The operators of two operands by their names. -/
def Bitwise.ofName? : String → Option Bitwise
  | "AND" => some .and
  | "OR" => some .or
  | "XOR" => some .xor
  | _ => none

theorem Bitwise.ofName?_render {op : Bitwise} (hop : op.isBinary = true) : ofName? op.render = some op := by
  cases op with
  | and | or | xor => rfl
  | not | shiftLeft | shiftRight => exact Bool.noConfusion hop

/-- The integer that a recorded text comes to: a numeral, or two with an operator between them. The first
operand is read in a base of its own. -/
def recompute (left right : Base) (text : String) : Except Fault Int64 :=
  match Text.words text.toList with
  | [x] => right.read (String.ofList x)
  | [x, name, y] =>
    match Bitwise.ofName? (String.ofList name) with
    | some op => do op.binary (← left.read (String.ofList x)) (← right.read (String.ofList y))
    | none => .error Fault.missingOperand
  | _ => .error Fault.noInteger

/-- The result of a calculation is the decimal form of what its text comes to. -/
def Recomputes (left right : Base) (entry : History.Entry) : Prop :=
  (recompute left right entry.expression).map Base.dec.write = .ok entry.result

namespace Text

structure IsWord (text : String) : Prop where
  ne_nil : text.toList ≠ []
  plain : ∀ c ∈ text.toList, isBlank c = false

theorem IsWord.words_eq {text : String} (h : IsWord text) : words text.toList = [text.toList] :=
  words_eq_singleton h.ne_nil h.plain

end Text

open Text

theorem Base.IsCanonical.isWord {base : Base} {text : String} (h : base.IsCanonical text) : IsWord text := by
  rcases h with rfl | ⟨sign, d, ds, htext, hsign, -, hds⟩
  · exact ⟨by decide, List.forall_mem_singleton.mpr rfl⟩
  · refine ⟨by simp [htext], fun c hc => ?_⟩
    rcases List.mem_append.mp (htext ▸ hc) with hc | hc
    · rcases hsign with rfl | rfl
      · simp at hc
      · rw [List.mem_singleton.mp hc]
        decide
    · exact (front_of_isDigit (hds c hc).1).1

theorem Bitwise.isWord_render (op : Bitwise) : IsWord op.render := by
  have hplain : op.render.toList.all (fun c => !isBlank c) = true := by cases op <;> decide
  refine ⟨by cases op <;> decide, fun c hc => ?_⟩
  simpa using List.all_eq_true.mp hplain c hc

section
variable {left right : Base} {x y : String} {op : Bitwise}

theorem recompute_numeral (hy : IsWord y) : recompute left right y = right.read y := by
  unfold recompute
  rw [hy.words_eq]
  simp only [String.ofList_toList]

theorem recompute_joined (hx : IsWord x) (hop : op.isBinary = true) (hy : IsWord y) :
    recompute left right (x ++ " " ++ op.render ++ " " ++ y)
      = (do op.binary (← left.read x) (← right.read y)) := by
  have hblank : isBlank ' ' = true := by decide
  have htext : (x ++ " " ++ op.render ++ " " ++ y).toList
      = x.toList ++ ' ' :: (op.render.toList ++ ' ' :: y.toList) := by simp
  unfold recompute
  rw [htext, words_append_blank _ _ hblank, words_append_blank _ _ hblank, hx.words_eq,
    op.isWord_render.words_eq, hy.words_eq]
  simp only [List.singleton_append, String.ofList_toList, Bitwise.ofName?_render hop]

end

theorem Base.write_inj {base : Base} {m n : Int64} (hm : m.toInt.natAbs ≤ maxMagnitude)
    (hn : n.toInt.natAbs ≤ maxMagnitude) (h : base.write m = base.write n) : m = n := by
  have hread := base.read_write_of_natAbs_le hm
  rw [h, base.read_write_of_natAbs_le hn] at hread
  exact (Except.ok.inj hread).symm

namespace Session

variable {s : Session} {clock : Clock} {entry : History.Entry}

theorem isWord_entry (h : s.Reachable) (hmode : s.mode = .programmer) : IsWord s.entry :=
  (h.entryIsCanonical hmode).isWord

/-- What is recorded while no operator waits is the entry, with its value. -/
theorem recorded_of_idle (hreachable : s.Reachable) (hmode : s.mode = .programmer) (hidle : Idle s)
    (h : (s.enter clock .equals).event = .evaluated entry) : Recomputes s.base s.base entry := by
  obtain ⟨n, hjoined, -, hequals, -⟩ := evaluated_programmer hmode h
  rw [hequals] at h
  obtain rfl := Event.evaluated.inj h
  obtain ⟨y, hy, hvalue⟩ := Outcome.bind_eq_ok.mp hjoined
  rw [joinPending, hidle.pending] at hvalue
  obtain rfl := Except.ok.inj hvalue
  have htext : s.expression ++ s.entry = s.entry := by rw [hidle.expression hmode, String.empty_append]
  unfold Recomputes recorded
  simp only [htext]
  rw [recompute_numeral (isWord_entry hreachable hmode), entryInteger_eq_ok.mp hy]
  rfl

/-- What is recorded while an operator waits is its operand, as it is written in a base, and the entry; and the
result is that of both of them. -/
theorem recorded_of_waits {base : Base} {op : Bitwise} {x : Int64} (hwaits : Waits s base op x)
    (h : (s.enter clock .equals).event = .evaluated entry) :
    ∃ y n, s.base.read s.entry = .ok y ∧ op.binary x y = .ok n ∧
      entry.expression = base.write x ++ " " ++ op.render ++ " " ++ s.entry ∧
      entry.result = Base.dec.write n := by
  obtain ⟨n, hjoined, -, hequals, -⟩ := evaluated_programmer hwaits.mode h
  rw [hequals] at h
  obtain rfl := Event.evaluated.inj h
  obtain ⟨y, hy, hvalue⟩ := Outcome.bind_eq_ok.mp hjoined
  rw [joinPending, hwaits.pending] at hvalue
  exact ⟨y, n, entryInteger_eq_ok.mp hy, hvalue, by rw [← hwaits.expression]; rfl, rfl⟩

/-- With both operands read in one base or in two, the result comes out exactly if the first operand has the
effect that it had. -/
theorem recomputes_iff_of_waits {base left : Base} {op : Bitwise} {x : Int64} (hreachable : s.Reachable)
    (hwaits : Waits s base op x) (h : (s.enter clock .equals).event = .evaluated entry) :
    Recomputes left s.base entry ↔
      ∃ m y, left.read (base.write x) = .ok m ∧ s.base.read s.entry = .ok y ∧ op.binary m y = op.binary x y := by
  obtain ⟨y, n, hy, hvalue, htext, hresult⟩ := recorded_of_waits hwaits h
  have hrecompute : recompute left s.base entry.expression
      = (do op.binary (← left.read (base.write x)) (← s.base.read s.entry)) := by
    rw [htext]
    exact recompute_joined (base.isCanonical_write x).isWord hwaits.isBinary (isWord_entry hreachable hwaits.mode)
  unfold Recomputes
  rw [hrecompute, hresult, hy, Outcome.map_eq_ok]
  constructor
  · rintro ⟨v, hv, hwritten⟩
    obtain ⟨m, hm, hv⟩ := Outcome.bind_eq_ok.mp hv
    have hv : op.binary m y = .ok v := hv
    obtain rfl := Base.write_inj (Bitwise.natAbs_le_of_binary hv) (Bitwise.natAbs_le_of_binary hvalue) hwritten
    exact ⟨m, y, hm, rfl, hv.trans hvalue.symm⟩
  · rintro ⟨m, y', hm, hy', hsame⟩
    obtain rfl := Except.ok.inj hy'
    refine ⟨n, ?_, rfl⟩
    rw [hm, Outcome.ok_bind, Outcome.ok_bind, hsame, hvalue]

end Session

open Session

/-- Equals in programmer mode, at any point of any run. With no operator waiting, the record is recomputed in the
base that is set. Otherwise its first operand is written in the base that was set when the operator was entered,
and the record is recomputed with the operands read in these two bases. In the base of Equals alone it is
recomputed exactly if the text of the first operand, read in that base, has the same effect on the second one,
and so it is whenever the base was not switched in between. -/
theorem programmer_record_recomputes_iff {σ : Type} [Store σ] (store : σ) {actions : List Action} {clock : Clock}
    {entry : History.Entry} :
    let s := ((Desk.start store).run actions).session
    s.mode = .programmer → (s.enter clock .equals).event = .evaluated entry →
      (s.pending = none ∧ Recomputes s.base s.base entry) ∨
      ∃ before past op x after, actions = before ++ .enter past (.bitwise op) :: after ∧ s.pending = some (op, x) ∧
        let base := ((Desk.start store).run before).session.base
        entry.expression = base.write x ++ " " ++ op.render ++ " " ++ s.entry ∧ Recomputes base s.base entry ∧
        (Recomputes s.base s.base entry ↔ ∃ m y, s.base.read (base.write x) = .ok m ∧
          s.base.read s.entry = .ok y ∧ op.binary m y = op.binary x y) ∧
        ((∀ action ∈ after, action.switchesBase = false) → Recomputes s.base s.base entry) := by
  intro s hmode hevent
  have hreachable : s.Reachable := Desk.reachable_run store actions
  rcases Desk.idle_or_waits_run store actions with hidle | ⟨before, past, op, x, after, hsplit, hwaits, hbase⟩
  · exact Or.inl ⟨hidle.pending, recorded_of_idle hreachable hmode hidle hevent⟩
  · refine Or.inr ⟨before, past, op, x, after, hsplit, hwaits.pending, ?_⟩
    intro base
    obtain ⟨y, n, hy, hvalue, htext, -⟩ := recorded_of_waits hwaits hevent
    have hread : base.read (base.write x) = .ok x := base.read_write (Base.ne_minValue_of_natAbs_le hwaits.fits)
    have hboth : Recomputes base s.base entry :=
      (recomputes_iff_of_waits hreachable hwaits hevent).mpr ⟨x, y, hread, hy, rfl⟩
    refine ⟨htext, hboth, recomputes_iff_of_waits hreachable hwaits hevent, fun hafter => ?_⟩
    have hsame : s.base = base := hbase hafter
    exact hsame ▸ hboth

/-- Twelve and ten, joined in base ten. -/
theorem record_of_twelve_and_ten :
    let inputs := [Input.setMode .programmer, .digit '1', .digit '2', .bitwise .and, .digit '1', .digit '0']
    let s := ((Desk.start ({} : MemoryStore)).run (inputs.map (.enter ⟨0, 0, .epoch⟩))).session
    let entry : History.Entry := ⟨"12 AND 10", "8", 0⟩
    s.mode = .programmer ∧ (s.enter ⟨0, 0, .epoch⟩ .equals).event = .evaluated entry ∧ Recomputes .dec .dec entry := by
  intro inputs s entry
  have hmode : s.mode = .programmer := by decide +kernel
  have hevent : (s.enter ⟨0, 0, .epoch⟩ .equals).event = .evaluated entry := by decide +kernel
  have hbase : s.base = .dec := by decide +kernel
  have hnever : ∀ action ∈ inputs.map (Action.enter ⟨0, 0, .epoch⟩), action.switchesBase = false := by
    rw [List.forall_mem_map]
    simp [inputs, Action.switchesBase]
  refine ⟨hmode, hevent, ?_⟩
  rw [← hbase]
  rcases programmer_record_recomputes_iff ({} : MemoryStore) hmode hevent with
    ⟨-, hrecomputes⟩ | ⟨before, past, op, x, after, hsplit, -, -, -, -, hkept⟩
  · exact hrecomputes
  · exact hkept fun action haction => hnever action (by rw [hsplit]; simp [haction])

/-- The base is switched to sixteen while the operator waits. The record has the first operand in base ten and the
second one in base sixteen; read in base sixteen alone it comes to another result. -/
theorem record_mixes_bases :
    let inputs := [Input.setMode .programmer, .digit '2', .digit '5', .digit '5', .bitwise .and, .setBase .hex,
      .digit 'F']
    let s := ((Desk.start ({} : MemoryStore)).run (inputs.map (.enter ⟨0, 0, .epoch⟩))).session
    let entry : History.Entry := ⟨"255 AND F", "15", 0⟩
    s.mode = .programmer ∧ s.base = .hex ∧ (s.enter ⟨0, 0, .epoch⟩ .equals).event = .evaluated entry ∧
      recompute .hex .hex entry.expression = .ok 5 ∧ ¬ Recomputes .hex .hex entry := by
  intro inputs s entry
  have hcomes : recompute .hex .hex entry.expression = .ok 5 := by decide +kernel
  refine ⟨by decide +kernel, by decide +kernel, by decide +kernel, hcomes, ?_⟩
  unfold Recomputes
  rw [hcomes]
  decide

end DeskCalculator
