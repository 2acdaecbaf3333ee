import DeskCalculator.Proofs.Store.File

/-! What a store has after it was opened on a file, whatever the bytes of the file are. -/
namespace DeskCalculator

/-- Of a repeated key the last text counts. -/
theorem TextMap.getElem?_ofList (fields : List (String × String)) (key : String) :
    (Std.TreeMap.ofList fields compare)[key]? = fields.reverse.lookup key := by
  -- from the back: what was inserted last is what is looked up first
  induction fields using List.reverseRecOn with
  | nil => simp
  | append_singleton fields field ih =>
    have hlast : Std.TreeMap.ofList (fields ++ [field]) compare
        = (Std.TreeMap.ofList fields compare).insert field.1 field.2 := by
      rw [Std.TreeMap.ofList_eq_insertMany_empty, Std.TreeMap.insertMany_append,
        ← Std.TreeMap.ofList_eq_insertMany_empty, Std.TreeMap.insertMany_list_singleton]
    rw [hlast, List.reverse_append, List.reverse_singleton, List.singleton_append, List.lookup_cons]
    by_cases hkey : key = field.1
    · subst hkey
      simp
    · rw [getElem?_insert_of_ne hkey, ih, beq_false_of_ne hkey]

namespace FileStore
open Text Json

/-- The bytes of a document that is an object of texts. -/
def IsObjectOf (fields : List (String × String)) (bytes : ByteArray) : Prop :=
  ∃ document : String, document.toUTF8 = bytes ∧ Holds document (.object (fields.map TextMap.jsonField))

/-- A store has the texts of some bytes: of the object that the bytes are, the last text where a name is repeated, and
none if the bytes are no object of texts. -/
structure HasContent (store : FileStore) (bytes : ByteArray) : Prop where
  texts (fields : List (String × String)) (hfields : IsObjectOf fields bytes) (key : String) :
    Store.load store key = .ok (fields.reverse.lookup key)
  nothing (hnone : ∀ fields, ¬ IsObjectOf fields bytes) (key : String) : Store.load store key = .ok none

theorem load_eq (store : FileStore) (key : String) : Store.load store key = .ok store.values[key]? := rfl

/-- The texts of a document, if its bytes are in the file. -/
theorem hasContent_of_values {store : FileStore} {document : String}
    (hvalues : store.values = (TextMap.ofDocument? document).getD ∅) : store.HasContent document.toUTF8 := by
  constructor
  · rintro fields ⟨document', hbytes, hholds⟩ key
    have hsame : some document' = some document := by
      rw [← fromUTF8?_toUTF8 document', hbytes, fromUTF8?_toUTF8]
    cases hsame
    rw [load_eq, hvalues, TextMap.ofDocument?_eq_some_iff.mpr ⟨fields, hholds, rfl⟩, Option.getD_some,
      TextMap.getElem?_ofList]
  · intro hnone key
    have hread : TextMap.ofDocument? document = none := by
      rw [Option.eq_none_iff_forall_ne_some]
      intro values hread
      obtain ⟨fields, hholds, -⟩ := TextMap.ofDocument?_eq_some_iff.mp hread
      exact hnone fields ⟨document, rfl, hholds⟩
    rw [load_eq, hvalues, hread, Option.getD_none, Std.TreeMap.getElem?_emptyc]

/-- A store opens on a missing file, with nothing in it, and on any file whose bytes are those of a text, with what is
in the file. A file of other bytes is a fault, like one that cannot be read at all. -/
theorem openAt_outcomes (disk : Disk) (path : Path) :
    match disk.read path with
    | .missing => ∃ store, openAt disk path = .ok store ∧ ∀ key, Store.load store key = .ok none
    | .content bytes =>
      ((∃ store, openAt disk path = .ok store ∧ store.HasContent bytes) ↔ ∃ document : String, document.toUTF8 = bytes)
        ∧ (openAt disk path = .error Fault.storage ↔ ¬ ∃ document : String, document.toUTF8 = bytes)
    | .unreadable => openAt disk path = .error Fault.storage := by
  unfold openAt readValues
  cases disk.read path with
  | missing => exact ⟨_, rfl, fun key => by rw [load_eq, Std.TreeMap.getElem?_emptyc]⟩
  | unreadable => rfl
  | content bytes =>
    dsimp only
    cases hdocument : String.fromUTF8? bytes with
    | some document =>
      have hbytes : ∃ document : String, document.toUTF8 = bytes := ⟨document, toUTF8_of_fromUTF8? hdocument⟩
      constructor
      · refine ⟨fun _ => hbytes, fun _ => ⟨_, rfl, ?_⟩⟩
        rw [← toUTF8_of_fromUTF8? hdocument]
        exact hasContent_of_values rfl
      · refine ⟨fun h => ?_, fun h => absurd hbytes h⟩
        cases h
    | none =>
      -- there is no document to look at, and so not even one that is no object
      have hbytes : ¬ ∃ document : String, document.toUTF8 = bytes := by
        rintro ⟨document, rfl⟩
        rw [fromUTF8?_toUTF8] at hdocument
        cases hdocument
      constructor
      · refine ⟨fun h => ?_, fun h => absurd h hbytes⟩
        obtain ⟨_, hopen, -⟩ := h
        cases hopen
      · exact ⟨fun _ => hbytes, fun _ => rfl⟩

/-- A file of one byte that no text has. -/
theorem not_opened_on_lone_byte :
    let disk := Disk.empty.put ["store.json"] (.file ⟨#[0xff]⟩)
    let path : Path := ⟨false, ["store.json"], false⟩
    disk.read path = .content ⟨#[0xff]⟩ ∧ ¬ ∃ store, openAt disk path = .ok store :=
  ⟨by rfl, fun ⟨_, h⟩ => nomatch h⟩

end FileStore

end DeskCalculator
