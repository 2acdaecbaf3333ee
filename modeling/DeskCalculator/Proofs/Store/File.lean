import DeskCalculator.Proofs.Outcome
import DeskCalculator.Proofs.Store.Disk
import DeskCalculator.Proofs.Text.Json
import DeskCalculator.Store.File

/-! Texts that were saved are loaded again, from the store that has them and from its file. -/
namespace DeskCalculator

/-- A store in which every key has the text that was saved last under it, whether or not the text could be written
to where it stays. -/
class LawfulStore (σ : Type) [Store σ] : Prop where
  load_save (store : σ) (key text : String) :
    Store.load (Store.save store key text).2 key = .ok (some text)
  load_save_of_ne (store : σ) {key other : String} (hne : other ≠ key) (text : String) :
    Store.load (Store.save store key text).2 other = Store.load store other

instance : LawfulStore MemoryStore where
  load_save _ _ _ := congrArg Except.ok Std.TreeMap.getElem?_insert_self
  load_save_of_ne store _ _ hne text := congrArg Except.ok (getElem?_insert_of_ne hne store.values text)

namespace TextMap
open Text Json

theorem getElem?_ofList_toList (values : TextMap) (key : String) :
    (Std.TreeMap.ofList values.toList compare)[key]? = values[key]? := by
  cases hvalue : values[key]? with
  | some text =>
    exact Std.TreeMap.getElem?_ofList_of_mem Std.ReflCmp.compare_self Std.TreeMap.distinct_keys_toList
      (Std.TreeMap.mem_toList_iff_getElem?_eq_some.mpr hvalue)
  | none =>
    apply Std.TreeMap.getElem?_ofList_of_contains_eq_false
    rw [Std.TreeMap.map_fst_toList_eq_keys, ← Bool.not_eq_true, List.contains_iff_mem, Std.TreeMap.mem_keys]
    simp [← Std.TreeMap.isSome_getElem?_iff_mem, hvalue]

/-- The value of a field of the document. -/
def jsonField (field : String × String) : Option String × Json := (some field.1, .string (some field.2))

theorem field?_eq_some_iff {field : Option String × Json} {text : String × String} :
    field? field = some text ↔ field = jsonField text := by
  unfold field?
  split <;> grind [jsonField]

theorem mapM_field?_eq_some_iff {fields : List (Option String × Json)} {texts : List (String × String)} :
    fields.mapM field? = some texts ↔ fields = texts.map jsonField := by
  simp only [Outcome.mapM_eq_some, field?_eq_some_iff]
  rw [← List.forall₂_map_right_iff, List.forall₂_eq_eq_eq]

/-- A document has texts if it is an object of these; of a repeated name the last text counts. -/
theorem ofDocument?_eq_some_iff {document : String} {values : TextMap} : ofDocument? document = some values ↔
    ∃ fields, Holds document (.object (fields.map jsonField)) ∧ Std.TreeMap.ofList fields compare = values := by
  simp only [← parse?_eq_some_iff]
  unfold ofDocument?
  constructor
  · intro h
    split at h
    · next fields hparse =>
      obtain ⟨texts, htexts, hvalues⟩ := Option.map_eq_some_iff.mp h
      obtain rfl := mapM_field?_eq_some_iff.mp htexts
      exact ⟨texts, hparse, hvalues⟩
    · cases h
  · rintro ⟨texts, hparse, hvalues⟩
    have htexts : (texts.map jsonField).mapM field? = some texts := mapM_field?_eq_some_iff.mpr rfl
    simp only [hparse, htexts, Option.map_some, hvalues]

/-- A field of the document, on a line of its own. -/
def member (field : String × String) : Member :=
  .ofText ['\n', ' ', ' '] field.1 [' '] (Quoted.encode field.2).toList (.string (some field.2))

theorem field_member (field : String × String) : (member field).field = jsonField field := rfl

theorem written_member (field : String × String) : (member field).written = '\n' :: (renderField field).toList := by
  simp [member, Member.ofText, Member.written, Piece.written, renderField]

/-- Things on lines of their own, each after the end of the line before it. -/
theorem intercalate_lines (first : List Char) (others : List (List Char)) :
    '\n' :: [',', '\n'].intercalate (first :: others) = [','].intercalate ((first :: others).map ('\n' :: ·)) := by
  induction others generalizing first with
  | nil => simp
  | cons second others ih =>
    simp only [List.intercalate_cons_cons, List.map_cons] at ih ⊢
    simp [← ih]

theorem toList_render (values : TextMap) : (render values).toList = '{' ::
    ([','].intercalate (values.toList.map fun field => '\n' :: (renderField field).toList)
      ++ (if values.isEmpty then [] else ['\n']) ++ ['}']) := by
  unfold render
  rw [← Std.TreeMap.isEmpty_toList]
  cases values.toList with
  | nil => rfl
  | cons first others =>
    have hlines := intercalate_lines (renderField first).toList (others.map fun field => (renderField field).toList)
    simp only [List.map_cons, List.map_map, Function.comp_def] at hlines
    simp [String.toList_intercalate, Function.comp_def, ← hlines]

theorem holds_render (values : TextMap) : Holds (render values) (.object (values.toList.map jsonField)) := by
  have hgap : IsGap (if values.isEmpty then [] else ['\n']) := by
    split <;> simp [IsGap, isSpace]
  have hnamed : ∀ m ∈ values.toList.map member, m.IsNamed := by
    refine List.forall_mem_map.mpr fun field _ => Member.isNamed_ofText ?_ ?_ _ _ _
    · simp [IsGap, isSpace]
    · simp [IsGap, isSpace]
  have htexts : ∀ m ∈ values.toList.map member, Json.Spells m.item.text m.item.value := by
    refine List.forall_mem_map.mpr fun field _ => ?_
    simp only [member, Member.item_ofText]
    exact spells_text field.2
  have hspelled := Json.Spells.object hgap hnamed htexts
  apply Json.Spells.holds
  rw [toList_render]
  simpa [Function.comp_def, written_member, field_member] using hspelled

/-- What is read back from a written document has the same texts under the same keys. -/
theorem ofDocument?_render (values : TextMap) :
    ∃ saved, ofDocument? (render values) = some saved ∧ ∀ key : String, saved[key]? = values[key]? :=
  ⟨_, ofDocument?_eq_some_iff.mpr ⟨_, holds_render values, rfl⟩, getElem?_ofList_toList values⟩

end TextMap

theorem fromUTF8?_toUTF8 (text : String) : String.fromUTF8? text.toUTF8 = some text :=
  dif_pos text.isValidUTF8

theorem toUTF8_of_fromUTF8? {bytes : ByteArray} {text : String} (h : String.fromUTF8? bytes = some text) :
    text.toUTF8 = bytes := by
  unfold String.fromUTF8? at h
  split at h
  · cases h
    rfl
  · cases h

namespace FileStore

/-- Either the texts are written, or what is left behind are the directories on the way to the file. -/
theorem flush_cases (store : FileStore) :
    let disk := store.disk.makeDirectories store.path.parent
    let document := (TextMap.render store.values).toUTF8
    (∃ written, disk.write? store.path document = some written ∧
      store.flush = (.ok (), { store with disk := written })) ∨
    (disk.write? store.path document = none ∧ store.flush = (.error Fault.storage, { store with disk })) := by
  intro disk document
  cases hwrite : disk.write? store.path document with
  | some written => exact Or.inl ⟨written, rfl, by simp only [flush, disk, document, hwrite]⟩
  | none => exact Or.inr ⟨rfl, by simp only [flush, disk, document, hwrite]⟩

theorem values_flush (store : FileStore) : store.flush.2.values = store.values := by
  obtain ⟨written, -, hflush⟩ | ⟨-, hflush⟩ := store.flush_cases <;> rw [hflush]

instance : LawfulStore FileStore where
  load_save store key text := by
    have hvalues := values_flush { store with values := store.values.insert key text }
    simp only [Store.load, Store.save, hvalues, Std.TreeMap.getElem?_insert_self]
  load_save_of_ne store key other hne text := by
    have hvalues := values_flush { store with values := store.values.insert key text }
    simp only [Store.load, Store.save, hvalues, getElem?_insert_of_ne hne]

/-- The file of a store holds what the store holds. -/
def Synced (store : FileStore) : Prop :=
  ∃ saved, readValues store.disk store.path = .ok saved ∧ ∀ key : String, saved[key]? = store.values[key]?

theorem synced_openAt {disk : Disk} {path : Path} {store : FileStore} (h : openAt disk path = .ok store) :
    store.Synced := by
  obtain ⟨values, hvalues, rfl⟩ := Outcome.map_eq_ok.mp h
  exact ⟨values, hvalues, fun _ => rfl⟩

theorem synced_flush {store : FileStore} (h : store.flush.1 = .ok ()) : store.flush.2.Synced := by
  obtain ⟨written, hwrite, hflush⟩ | ⟨-, hflush⟩ := store.flush_cases
  · obtain ⟨saved, hsaved, hkeys⟩ := TextMap.ofDocument?_render store.values
    have hread : readValues written store.path = .ok saved := by
      simp only [readValues, Disk.read_of_write? hwrite, fromUTF8?_toUTF8, hsaved, Option.getD_some]
    rw [hflush]
    exact ⟨saved, hread, hkeys⟩
  · rw [hflush] at h
    cases h

end FileStore

end DeskCalculator
