import Std.Data.TreeMap
import DeskCalculator.Fault
/-!
Stores: texts kept under keys, for the theme and the history. A store may fail to read or to write; a
failed write may change the store all the same.
-/
namespace DeskCalculator

class Store (σ : Type) where
  load : σ → String → Except Fault (Option String)
  save : σ → String → String → Except Fault Unit × σ

abbrev TextMap := Std.TreeMap String String

structure MemoryStore where
  values : TextMap := ∅

instance : Store MemoryStore where
  load store key := .ok store.values[key]?
  save store key text := (.ok (), ⟨store.values.insert key text⟩)

/-- A store of which some keys cannot be read and some cannot be written. The texts that it did let
through to the store behind it are recorded, oldest first. -/
structure GuardedStore (σ : Type) where
  inner : σ
  unreadable : List String := []
  unwritable : List String := []
  written : List (String × String) := []

instance {σ : Type} [Store σ] : Store (GuardedStore σ) where
  load store key :=
    if key ∈ store.unreadable then .error Fault.storage else Store.load store.inner key
  save store key text :=
    if key ∈ store.unwritable then (.error Fault.storage, store)
    else
      let (saved, inner) := Store.save store.inner key text
      (saved, { store with inner, written := store.written ++ [(key, text)] })

end DeskCalculator
