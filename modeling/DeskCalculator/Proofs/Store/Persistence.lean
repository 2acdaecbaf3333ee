import DeskCalculator.Proofs.Store.File

/-! A store in a file, used for as long as one likes. In between the disk may change in any way, so that saves fail or
succeed as it happens; what is loaded does not depend on that. A save that succeeds brings the file up to date, with
the texts whose own saves had failed. -/
namespace DeskCalculator.FileStore

/-- What can happen to a store: it is used, opened anew, or something else changes the disk. An opening that fails
leaves the store that was open. -/
inductive Operation where
  | load (key : String)
  | save (key text : String)
  | reopen
  | meanwhile (disk : Disk)

def perform (store : FileStore) : Operation → FileStore
  | .load _ => store
  | .save key text => (Store.save store key text).2
  | .reopen => store.reopen.toOption.getD store
  | .meanwhile disk => { store with disk }

def run (store : FileStore) : List Operation → FileStore
  | [] => store
  | operation :: rest => (store.perform operation).run rest

/-- What can be expected of a store: the texts that were read when it was opened, and those that were given to it to
save since then, the last one first. -/
structure Account where
  read : TextMap
  given : List (String × String) := []

namespace Account

def text? (account : Account) (key : String) : Option String := (account.given.lookup key).or account.read[key]?

/-- The account after an operation on a store. -/
def record (account : Account) (store : FileStore) : Operation → Account
  | .load _ | .meanwhile _ => account
  | .save key text => { account with given := (key, text) :: account.given }
  | .reopen =>
    match readValues store.disk store.path with
    | .ok read => { read }
    | .error _ => account

def recordAll (account : Account) (store : FileStore) : List Operation → Account
  | [] => account
  | operation :: rest => (account.record store operation).recordAll (store.perform operation) rest

end Account

theorem path_flush (store : FileStore) : store.flush.2.path = store.path := by
  obtain ⟨written, -, hflush⟩ | ⟨-, hflush⟩ := store.flush_cases <;> rw [hflush]

theorem path_perform (store : FileStore) (operation : Operation) : (store.perform operation).path = store.path := by
  cases operation with
  | load | meanwhile => rfl
  | save key text => exact path_flush { store with values := store.values.insert key text }
  | reopen =>
    rw [perform]
    cases hopen : store.reopen with
    | error fault => rfl
    | ok opened =>
      obtain ⟨values, -, rfl⟩ := Outcome.map_eq_ok.mp hopen
      rfl

theorem path_run (store : FileStore) (operations : List Operation) : (store.run operations).path = store.path := by
  induction operations generalizing store with
  | nil => rfl
  | cons operation rest ih => exact (ih _).trans (store.path_perform operation)

/-- A store that has what its account expects. -/
def MeetsAccount (store : FileStore) (account : Account) : Prop :=
  ∀ key, Store.load store key = .ok (account.text? key)

theorem meetsAccount_opened (disk : Disk) (path : Path) (values : TextMap) :
    MeetsAccount ⟨disk, path, values⟩ { read := values } := fun _ => rfl

theorem MeetsAccount.perform {store : FileStore} {account : Account} (h : store.MeetsAccount account)
    (operation : Operation) : (store.perform operation).MeetsAccount (account.record store operation) := by
  cases operation with
  | load | meanwhile => exact h
  | save key text =>
    intro other
    by_cases hkey : other = key
    · subst hkey
      have hload := LawfulStore.load_save store other text
      simp [FileStore.perform, hload, Account.record, Account.text?]
    · have hload := LawfulStore.load_save_of_ne store hkey text
      have hgiven : List.lookup other ((key, text) :: account.given) = List.lookup other account.given := by
        rw [List.lookup_cons, beq_false_of_ne hkey]
      rw [FileStore.perform, hload, h other, Account.record, Account.text?, Account.text?, hgiven]
  | reopen =>
    cases hread : readValues store.disk store.path with
    | error fault =>
      have hopen : store.reopen = .error fault := by rw [reopen, openAt, hread, Except.map]
      rw [FileStore.perform, hopen, Account.record, hread]
      exact h
    | ok values =>
      have hopen : store.reopen = .ok ⟨store.disk, store.path, values⟩ := by rw [reopen, openAt, hread, Except.map]
      rw [FileStore.perform, hopen, Account.record, hread]
      exact meetsAccount_opened store.disk store.path values

theorem MeetsAccount.run {store : FileStore} {account : Account} (h : store.MeetsAccount account)
    (operations : List Operation) : (store.run operations).MeetsAccount (account.recordAll store operations) := by
  induction operations generalizing store account with
  | nil => exact h
  | cons operation rest ih => exact ih (h.perform operation)

/-- What a store in step with its file has is found by whoever opens the file later, for as long as it stays as it
is. -/
theorem Synced.openAt {store : FileStore} (h : store.Synced) {later : Disk}
    (hlater : later.read store.path = store.disk.read store.path) :
    ∃ reopened, openAt later store.path = .ok reopened ∧
      ∀ key, Store.load reopened key = Store.load store key := by
  obtain ⟨saved, hread, hkeys⟩ := h
  have hthere : readValues later store.path = .ok saved := by rw [← hread, readValues, readValues, hlater]
  refine ⟨⟨later, store.path, saved⟩, ?_, fun key => congrArg Except.ok (hkeys key)⟩
  rw [FileStore.openAt, hthere, Except.map]

/-- A store on a file is a map that stays. Whatever was done since it was opened, each key has the text that was given
last to save under it, or else the text that was read; a save under one key is all the same to the others; and after a
save that succeeds, who opens the file again finds everything the store had. -/
theorem file_store_is_lasting_map {disk : Disk} {path : Path} {store : FileStore} (hopen : openAt disk path = .ok store)
    (operations : List Operation) :
    let last := store.run operations
    (∃ read, readValues disk path = .ok read ∧
      ∀ key, Store.load last key = .ok ((({ read } : Account).recordAll store operations).text? key)) ∧
    ∀ key text,
      let saved := (Store.save last key text).2
      Store.load saved key = .ok (some text) ∧
      (∀ other, other ≠ key → Store.load saved other = Store.load last other) ∧
      ((Store.save last key text).1 = .ok () → ∀ later : Disk, later.read path = saved.disk.read path →
        ∃ reopened, openAt later path = .ok reopened ∧ ∀ other, Store.load reopened other = Store.load saved other) := by
  intro last
  obtain ⟨read, hread, rfl⟩ := Outcome.map_eq_ok.mp hopen
  refine ⟨⟨read, hread, (meetsAccount_opened disk path read).run operations⟩, fun key text => ?_⟩
  intro saved
  refine ⟨LawfulStore.load_save last key text, fun other hne => LawfulStore.load_save_of_ne last hne text, ?_⟩
  intro hsave later hlater
  -- nothing that is done to a store moves its file
  have hpath : saved.path = path := (last.path_perform (.save key text)).trans (path_run _ operations)
  have hsynced : saved.Synced := synced_flush hsave
  rw [← hpath] at hlater ⊢
  exact hsynced.openAt hlater

/-- A store in a directory that is still to be made. -/
def emptyStore : FileStore := ⟨.empty, { names := ["calculator", "store.json"] }, ∅⟩

/-- A disk on which a file has the name of that directory. -/
def wayBlocked : Disk := Disk.empty.put ["calculator"] (.file "".toUTF8)

/-- The theme could not be written, but it is in the file once the history has been. -/
theorem lasting_after_blocked_save :
    let operations := [.meanwhile wayBlocked, .save "theme" "light", .meanwhile .empty]
    (Store.save { emptyStore with disk := wayBlocked } "theme" "light").1 = .error Fault.storage ∧
    ∃ reopened,
      openAt (Store.save (emptyStore.run operations) "history" "[]").2.disk emptyStore.path = .ok reopened ∧
      Store.load reopened "theme" = .ok (some "light") := by
  intro operations
  have hopen : openAt .empty emptyStore.path = .ok emptyStore := by rfl
  obtain ⟨⟨read, -, hlast⟩, hsaves⟩ := file_store_is_lasting_map hopen operations
  obtain ⟨-, hother, hlater⟩ := hsaves "history" "[]"
  have hsave : (Store.save (emptyStore.run operations) "history" "[]").1 = .ok () := by decide +kernel
  obtain ⟨reopened, hreopen, hsame⟩ := hlater hsave _ rfl
  refine ⟨by decide +kernel, reopened, hreopen, ?_⟩
  rw [hsame, hother "theme" (by decide), hlast]
  rfl

end DeskCalculator.FileStore
