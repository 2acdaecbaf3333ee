import DeskCalculator.History
import DeskCalculator.Proofs.Outcome
import DeskCalculator.Proofs.Text.Json

/-! A history is read back from its document, with any texts and any times in it. Of a document, and of whatever is
pushed one after the other, a history has the newest calculations. -/
namespace DeskCalculator.History
open Text Json

theorem integerOf?_integerText (t : Int64) : integerOf? (.number (integerText t.toInt)) = some t := by
  have hdigits : (Nat.toDigits 10 t.toInt.natAbs).all Char.isDigit = true :=
    List.all_eq_true.mpr fun d hd => Nat.isDigit_of_mem_toDigits (by decide) (by decide) hd
  have hvalue := digitsValue_toDigits t.toInt.natAbs
  have hlower := t.le_toInt
  have hupper := t.toInt_lt
  unfold integerText
  by_cases hnonneg : 0 ≤ t.toInt
  · have habs : (t.toInt.natAbs : Int) = t.toInt := by omega
    have hfits : t.toInt.natAbs < 0x8000000000000000 := by omega
    have hsign : ∀ ds, Nat.toDigits 10 t.toInt.natAbs = '-' :: ds → False := by
      intro ds hds
      rw [hds] at hdigits
      exact absurd (List.all_eq_true.mp hdigits '-' (by simp)) (by decide)
    rw [if_pos hnonneg, integerOf?.eq_2 _ hsign]
    simp only [hdigits, hvalue, hfits, habs, decide_true, Bool.and_self, if_true, Int64.ofInt_toInt]
  · have habs : -(t.toInt.natAbs : Int) = t.toInt := by omega
    have hfits : 0 < t.toInt.natAbs ∧ t.toInt.natAbs ≤ 0x8000000000000000 := by omega
    rw [if_neg hnonneg, integerOf?]
    simp only [hdigits, hvalue, hfits, habs, decide_true, Bool.and_self, if_true, Int64.ofInt_toInt]

/-- The values of the fields of a calculation. -/
def Entry.values (e : Entry) : List (String × Json) :=
  [("expression", .string (some e.expression)), ("result", .string (some e.result)),
    ("timestamp", .number (integerText e.timestamp.toInt))]

/-- The value that the document of a calculation holds. -/
def Entry.json (e : Entry) : Json := .object (e.values.map fun (name, value) => (some name, value))

/-- The fields as they are written. -/
def Entry.members (e : Entry) : List Member :=
  [.ofText [] "expression" [] (Quoted.encode e.expression).toList (.string (some e.expression)),
    .ofText [] "result" [] (Quoted.encode e.result).toList (.string (some e.result)),
    .ofText [] "timestamp" [] e.timestamp.toInt.repr.toList (.number (integerText e.timestamp.toInt))]

theorem Entry.toList_toJson (e : Entry) :
    e.toJson.toList = '{' :: ([','].intercalate (e.members.map Member.written) ++ [] ++ ['}']) := by
  -- `unfold` would prove an equation for the definition first, which takes seconds with the literals in it
  delta toJson
  simp [members, Member.ofText, Member.written, Piece.written, List.intercalate_cons_cons, toString]

theorem Entry.spells_toJson (e : Entry) : Json.Spells e.toJson.toList e.json := by
  have hnamed (name : String) (text : List Char) (value : Json) : (Member.ofText [] name [] text value).IsNamed :=
    Member.isNamed_ofText isGap_nil isGap_nil name text value
  rw [toList_toJson]
  apply Json.Spells.object isGap_nil
  · simp only [members, List.forall_mem_cons]
    exact ⟨hnamed _ _ _, hnamed _ _ _, hnamed _ _ _, List.forall_mem_nil _⟩
  · simp only [members, List.forall_mem_cons, Member.item_ofText]
    exact ⟨spells_text _, spells_text _, spells_integer _, List.forall_mem_nil _⟩

theorem toList_toJson (h : History) :
    h.toJson.toList = '[' :: ([','].intercalate (h.entries.map fun e => e.toJson.toList) ++ [']']) := by
  simp [toJson, String.toList_intercalate, Function.comp_def]

theorem holds_toJson (h : History) : Holds h.toJson (.array (h.entries.map Entry.json)) := by
  have hentries : ∀ e ∈ h.entries, Json.Spells e.toJson.toList e.json := fun e _ => e.spells_toJson
  apply Json.Spells.holds
  rw [toList_toJson]
  exact spells_array hentries

/-! Reading. -/

/-- A value tells of a calculation as an object that has each of the three fields once, among others whose names are
texts, or as a list of the three values. -/
inductive Tells : Json → Entry → Prop
  | object {fields : List (Option String × Json)} {e : Entry} (hnames : ∀ field ∈ fields, ∃ name, field.1 = some name)
      (hvalues : ∀ named ∈ e.values, fieldsNamed named.1 fields = [named.2]) : Tells (.object fields) e
  | list (e : Entry) : Tells (.array (e.values.map Prod.snd)) e

/-- The integer of a number that documents have is the one that is written so. -/
theorem integerOf?_eq_some_iff {value : Json} (hvalue : IsSpelled value) {t : Int64} :
    integerOf? value = some t ↔ value = .number (integerText t.toInt) := by
  refine ⟨fun h => ?_, fun h => h ▸ integerOf?_integerText t⟩
  -- other digits of the same value would start with a zero, and no number in a document does
  unfold integerOf? at h
  split at h
  · next digits =>
    dsimp only at h
    split at h
    · next hbounds =>
      simp only [Bool.and_eq_true, decide_eq_true_eq, List.all_eq_true] at hbounds
      obtain ⟨⟨hdigits, hpos⟩, hfits⟩ := hbounds
      cases h
      have hwhole := hvalue.number.behind_minus.isWhole hdigits
      rw [Int64.toInt_ofInt_of_le (by omega) (by omega), integerText, if_neg (by omega), Int.natAbs_neg,
        Int.natAbs_natCast, toDigits_digitsValue hwhole]
    · cases h
  · next digits hsign =>
    dsimp only at h
    split at h
    · next hbounds =>
      simp only [Bool.and_eq_true, decide_eq_true_eq, List.all_eq_true] at hbounds
      obtain ⟨hdigits, hfits⟩ := hbounds
      cases h
      have hwhole := (hvalue.number.of_no_minus hsign).isWhole hdigits
      rw [Int64.toInt_ofInt_of_le (by omega) (by omega), integerText, if_pos (by omega), Int.natAbs_natCast,
        toDigits_digitsValue hwhole]
    · cases h
  · cases h

theorem textOf?_eq_some_iff {value : Json} {text : String} :
    textOf? value = some text ↔ value = .string (some text) := by
  cases value <;> simp [textOf?]

theorem only?_eq_some_iff {values : List Json} {value : Json} : only? values = some value ↔ values = [value] := by
  rcases values with _ | ⟨first, _ | ⟨second, others⟩⟩ <;> simp [only?]

theorem Entry.ofValues?_eq_some_iff {expression result timestamp : Json} (htimestamp : IsSpelled timestamp)
    {e : Entry} : ofValues? expression result timestamp = some e ↔
      [expression, result, timestamp] = e.values.map Prod.snd := by
  simp only [ofValues?, Option.bind_eq_bind, Option.bind_eq_some_iff, textOf?_eq_some_iff,
    integerOf?_eq_some_iff htimestamp, Option.pure_def, Option.some.injEq]
  constructor
  · rintro ⟨_, rfl, _, rfl, _, rfl, rfl⟩
    rfl
  · intro h
    simp only [values, List.map_cons, List.map_nil, List.cons.injEq, and_true] at h
    obtain ⟨rfl, rfl, rfl⟩ := h
    exact ⟨_, rfl, _, rfl, _, rfl, rfl⟩

theorem Entry.ofValues?_values (e : Entry) : ofValues? (.string (some e.expression)) (.string (some e.result))
    (.number (integerText e.timestamp.toInt)) = some e :=
  (ofValues?_eq_some_iff ⟨_, spells_integer _⟩).mpr rfl

theorem Entry.ofJson?_eq_some_iff {value : Json} (hvalue : IsSpelled value) {e : Entry} :
    ofJson? value = some e ↔ Tells value e := by
  constructor
  · intro h
    unfold ofJson? at h
    split at h
    · next fields =>
      split at h
      · next hnames =>
        simp only [Option.bind_eq_bind, Option.bind_eq_some_iff, only?_eq_some_iff] at h
        obtain ⟨expression, hexpression, result, hresult, timestamp, htimestamp, h⟩ := h
        have hspelled := hvalue.fieldsNamed "timestamp" timestamp (by simp [htimestamp])
        have hvalues := (ofValues?_eq_some_iff hspelled).mp h
        simp only [values, List.map_cons, List.map_nil, List.cons.injEq, and_true] at hvalues
        obtain ⟨rfl, rfl, rfl⟩ := hvalues
        refine .object (fun field hfield => Option.isSome_iff_exists.mp (List.all_eq_true.mp hnames field hfield)) ?_
        simp only [values, List.forall_mem_cons]
        exact ⟨hexpression, hresult, htimestamp, List.forall_mem_nil _⟩
      · cases h
    · next expression result timestamp =>
      have hvalues := (ofValues?_eq_some_iff (hvalue.items _ (by simp))).mp h
      rw [hvalues]
      exact .list e
    · cases h
  · intro h
    cases h with
    | @object fields _ hnames hvalues =>
      have hall : fields.all (fun field => field.1.isSome) = true :=
        List.all_eq_true.mpr fun field hfield => Option.isSome_iff_exists.mpr (hnames field hfield)
      simp only [values, List.forall_mem_cons] at hvalues
      obtain ⟨hexpression, hresult, htimestamp, -⟩ := hvalues
      simp only [ofJson?, hall, if_true, hexpression, hresult, htimestamp, only?, Option.bind_eq_bind, Option.bind_some,
        e.ofValues?_values]
    | list => exact e.ofValues?_values

/-- A document is read as a history if it is a list of which every item tells of a calculation, and then the first ten
of them are read. -/
theorem ofJson_eq_ok_iff {document : String} {h : History} : ofJson document = .ok h ↔
    ∃ items entries, Holds document (.array items) ∧ List.Forall₂ Tells items entries
      ∧ h.entries = entries.take limit := by
  have htells {items : List Json} (hitems : Holds document (.array items)) (entries : List Entry) :
      items.mapM Entry.ofJson? = some entries ↔ List.Forall₂ Tells items entries := by
    have hspelled := hitems.isSpelled.items
    rw [Outcome.mapM_eq_some]
    constructor
    · intro h
      exact ((List.forall₂_and_left _ _).mpr ⟨hspelled, h⟩).imp fun _ _ h => (Entry.ofJson?_eq_some_iff h.1).mp h.2
    · intro h
      exact ((List.forall₂_and_left _ _).mpr ⟨hspelled, h⟩).imp fun _ _ h => (Entry.ofJson?_eq_some_iff h.1).mpr h.2
  unfold ofJson
  constructor
  · intro hread
    split at hread
    · next items hparse =>
      have hholds := parse?_eq_some_iff.mp hparse
      split at hread
      · next entries hentries =>
        cases hread
        exact ⟨items, entries, hholds, (htells hholds entries).mp hentries, rfl⟩
      · cases hread
    · cases hread
  · rintro ⟨items, entries, hholds, hentries, htake⟩
    have hofList : ofList entries = h := by
      cases h
      cases htake
      rfl
    simp only [parse?_eq_some_iff.mpr hholds, (htells hholds entries).mpr hentries, hofList]

theorem Entry.tells_json (e : Entry) : Tells e.json e := by
  apply Tells.object
  · simp [values]
  · simp [values, fieldsNamed]

theorem ofJson_toJson (h : History) : ofJson h.toJson = .ok h := by
  have htells : List.Forall₂ Tells (h.entries.map Entry.json) h.entries := by
    rw [List.forall₂_map_left_iff, List.forall₂_same]
    exact fun e _ => e.tells_json
  exact ofJson_eq_ok_iff.mpr ⟨_, _, h.holds_toJson, htells, (List.take_of_length_le h.bounded).symm⟩

/-- Every history is read back from its document. Any document of which a history is read is a list of items that each
tell of a calculation, whatever spaces, escapes and further fields are in it, and the history has the first ten. -/
theorem survives_document (h : History) : ofJson h.toJson = .ok h ∧ h.size ≤ 10
    ∧ ∀ document : String, ofJson document = .ok h ↔ ∃ items entries, Holds document (.array items)
      ∧ List.Forall₂ Tells items entries ∧ h.entries = entries.take 10 :=
  ⟨h.ofJson_toJson, h.bounded, fun _ => ofJson_eq_ok_iff⟩

/-- All the calculations that a document tells of, however many they are. -/
def toldBy (document : String) : List Entry :=
  match Json.parse? document with
  | some (.array items) => (items.mapM Entry.ofJson?).getD []
  | _ => []

theorem getD_ofJson (document : String) :
    (ofJson document).toOption.getD History.empty = ofList (toldBy document) := by
  unfold ofJson toldBy
  cases Json.parse? document with
  | none => rfl
  | some value =>
    cases value with
    | array items =>
      dsimp only
      cases items.mapM Entry.ofJson? with
      | none => rfl
      | some entries => rfl
    | _ => rfl

def pushAll (h : History) (entries : List Entry) : History := entries.foldl push h

theorem entries_pushAll (h : History) (entries : List Entry) :
    (h.pushAll entries).entries = (entries.reverse ++ h.entries).take limit := by
  induction entries generalizing h with
  | nil => exact (List.take_of_length_le h.bounded).symm
  | cons entry entries ih =>
    -- what stands at the back may be cut after each push, as it is cut again
    calc ((h.push entry).pushAll entries).entries
        = (entries.reverse ++ (entry :: h.entries).take limit).take limit := ih (h.push entry)
      _ = (entries.reverse ++ entry :: h.entries).take limit := by
          rw [List.take_append, List.take_append, List.take_take, Nat.min_eq_left (Nat.sub_le limit _)]
      _ = ((entry :: entries).reverse ++ h.entries).take limit := by
          rw [List.reverse_cons, List.append_assoc, List.singleton_append]

end DeskCalculator.History
