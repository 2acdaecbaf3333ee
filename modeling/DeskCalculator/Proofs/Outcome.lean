import DeskCalculator.Fault
import Mathlib.Data.List.Forall2
/-!
Outcomes: what is known of the parts when a sequence of steps that may fail gave a value, and what when
it failed, and which of some faults it was, wherever it came from.
-/
namespace DeskCalculator.Outcome

variable {ε ε' α β : Type}

@[simp] theorem ok_bind (a : α) (f : α → Except ε β) : (Except.ok a >>= f) = f a := rfl

@[simp] theorem error_bind (e : ε) (f : α → Except ε β) : (Except.error e >>= f) = .error e := rfl

@[simp] theorem map_ok (f : α → β) (a : α) : (Except.ok a : Except ε α).map f = .ok (f a) := rfl

@[simp] theorem map_error (f : α → β) (e : ε) : (Except.error e : Except ε α).map f = .error e := rfl

@[simp] theorem reworded_ok (f : ε → ε') (a : α) :
    Except.mapError f (Except.ok a) = .ok a := rfl

@[simp] theorem reworded_error (f : ε → ε') (e : ε) :
    Except.mapError f (Except.error e : Except ε α) = .error (f e) := rfl

theorem bind_eq_ok {x : Except ε α} {f : α → Except ε β} {b : β} :
    x >>= f = .ok b ↔ ∃ a, x = .ok a ∧ f a = .ok b := by
  cases x <;> simp

theorem bind_eq_error {x : Except ε α} {f : α → Except ε β} {e : ε} :
    x >>= f = .error e ↔ x = .error e ∨ ∃ a, x = .ok a ∧ f a = .error e := by
  cases x <;> simp

theorem map_eq_ok {x : Except ε α} {f : α → β} {b : β} :
    x.map f = .ok b ↔ ∃ a, x = .ok a ∧ f a = b := by
  cases x <;> simp

theorem map_eq_error {x : Except ε α} {f : α → β} {e : ε} :
    x.map f = .error e ↔ x = .error e := by
  cases x <;> simp

theorem map_bind {γ : Type} (x : Except ε α) (f : α → Except ε β) (g : β → γ) :
    (x >>= f).map g = x >>= fun a => (f a).map g := by
  cases x <;> rfl

theorem reworded_bind (x : Except ε α) (f : α → Except ε β) (g : ε → ε') :
    (x >>= f).mapError g = x.mapError g >>= fun a => (f a).mapError g := by
  cases x <;> rfl

theorem reworded_eq_ok {x : Except ε α} {f : ε → ε'} {a : α} :
    Except.mapError f x = .ok a ↔ x = .ok a := by
  cases x <;> simp

/-! ### Steps for the items of a list -/

/-- All items have a value: the values, in their order. -/
theorem mapM_eq_ok {f : α → Except ε β} {xs : List α} {ys : List β} :
    xs.mapM f = .ok ys ↔ List.Forall₂ (fun x y => f x = .ok y) xs ys := by
  induction xs generalizing ys with
  | nil => simp [pure, Except.pure, eq_comm]
  | cons x xs ih =>
    rw [List.mapM_cons, bind_eq_ok, List.forall₂_cons_left_iff]
    simp only [bind_eq_ok, ih, pure, Except.pure, Except.ok.injEq]
    constructor
    · rintro ⟨y, hy, ys, hys, rfl⟩
      exact ⟨y, ys, hy, hys, rfl⟩
    · rintro ⟨y, ys, hy, hys, rfl⟩
      exact ⟨y, hy, ys, hys, rfl⟩

theorem mapM_eq_some {f : α → Option β} {xs : List α} {ys : List β} :
    xs.mapM f = some ys ↔ List.Forall₂ (fun x y => f x = some y) xs ys := by
  induction xs generalizing ys with
  | nil => simp [eq_comm]
  | cons x xs ih =>
    rw [List.mapM_cons, List.forall₂_cons_left_iff]
    simp only [Option.bind_eq_bind, Option.bind_eq_some_iff, ih, Option.pure_def, Option.some.injEq]
    constructor
    · rintro ⟨y, hy, ys, hys, rfl⟩
      exact ⟨y, ys, hy, hys, rfl⟩
    · rintro ⟨y, ys, hy, hys, rfl⟩
      exact ⟨y, hy, ys, hys, rfl⟩

/-- The first item that has no value fails with an error. -/
def FirstFails (f : α → Except ε β) (xs : List α) (e : ε) : Prop :=
  ∃ before x after, xs = before ++ x :: after ∧ (∀ b ∈ before, ∃ y, f b = .ok y) ∧ f x = .error e

theorem mapM_eq_error {f : α → Except ε β} {xs : List α} {e : ε} : xs.mapM f = .error e ↔ FirstFails f xs e := by
  unfold FirstFails
  induction xs with
  | nil => simp [pure, Except.pure]
  | cons x xs ih =>
    rw [List.mapM_cons, bind_eq_error]
    simp only [bind_eq_error, ih]
    constructor
    · rintro (hx | ⟨y, hy, ⟨before, z, after, rfl, hbefore, hz⟩ | ⟨ys, -, h⟩⟩)
      · exact ⟨[], x, xs, rfl, by simp, hx⟩
      · exact ⟨x :: before, z, after, rfl, List.forall_mem_cons.mpr ⟨⟨y, hy⟩, hbefore⟩, hz⟩
      · cases h
    · rintro ⟨before, z, after, hsplit, hbefore, hz⟩
      cases before with
      | nil =>
        obtain ⟨rfl, rfl⟩ := List.cons.inj hsplit
        exact Or.inl hz
      | cons b before =>
        obtain ⟨rfl, rfl⟩ := List.cons.inj hsplit
        obtain ⟨⟨y, hy⟩, hbefore⟩ := List.forall_mem_cons.mp hbefore
        exact Or.inr ⟨y, hy, Or.inl ⟨before, z, after, rfl, hbefore, hz⟩⟩

theorem firstFails_map {γ : Type} {f : α → Except ε β} {g : β → γ} {xs : List α} {e : ε} :
    FirstFails (fun x => (f x).map g) xs e ↔ FirstFails f xs e := by
  have hvalue (x : α) : (∃ z, (f x).map g = .ok z) ↔ ∃ y, f x = .ok y := by
    cases f x <;> simp
  simp only [FirstFails, hvalue, map_eq_error]

end DeskCalculator.Outcome

namespace DeskCalculator

/-- One of some faults, at any place. -/
def Fault.IsOneOf (made : List Fault) (fault : Fault) : Prop := ∃ f ∈ made, ∃ column, fault = f.locate column

/-- The place of a fault is no matter for its kind and its detail. -/
theorem Fault.IsOneOf.elim {made : List Fault} {fault : Fault} (h : fault.IsOneOf made)
    {P : FaultKind → String → Prop} (hmade : ∀ f ∈ made, P f.kind f.detail) : P fault.kind fault.detail := by
  obtain ⟨f, hf, _, rfl⟩ := h
  exact hmade f hf

/-- A computation that gives a value or one of some faults. -/
def FailsAs {α : Type} (made : List Fault) (x : Except Fault α) : Prop :=
  ∀ fault, x = .error fault → fault.IsOneOf made

namespace FailsAs

variable {α β : Type} {made : List Fault}

theorem ok (a : α) : FailsAs made (.ok a) := by
  intro fault h
  cases h

theorem located {f : Fault} (hf : f ∈ made) (column : Column) :
    FailsAs made (.error (f.locate column) : Except Fault α) := by
  intro fault h
  exact ⟨f, hf, column, (Except.error.inj h).symm⟩

theorem error {f : Fault} (hf : f ∈ made) : FailsAs made (.error f : Except Fault α) := located hf f.column

theorem bind {x : Except Fault α} {f : α → Except Fault β} (hx : FailsAs made x)
    (hf : ∀ a, x = .ok a → FailsAs made (f a)) : FailsAs made (x >>= f) := by
  intro fault h
  rcases Outcome.bind_eq_error.mp h with h | ⟨a, ha, h⟩
  · exact hx fault h
  · exact hf a ha fault h

theorem map {x : Except Fault α} (hx : FailsAs made x) (f : α → β) : FailsAs made (x.map f) :=
  fun fault h => hx fault (Outcome.map_eq_error.mp h)

theorem mono {x : Except Fault α} (hx : FailsAs made x) {wider : List Fault} (hsub : made ⊆ wider) :
    FailsAs wider x := by
  intro fault h
  obtain ⟨f, hf, hplace⟩ := hx fault h
  exact ⟨f, hsub hf, hplace⟩

/-- A fault is the same one at another place. -/
theorem relocated {x : Except Fault α} (hx : FailsAs made x) (column : Column) :
    FailsAs made (x.mapError (·.locate column)) := by
  cases x with
  | ok a => exact ok a
  | error fault =>
    obtain ⟨f, hf, _, rfl⟩ := hx fault rfl
    exact located hf column

/-- Whatever the fault was, another one stands for it. -/
theorem reworded (x : Except Fault α) {f : Fault} (hf : f ∈ made) : FailsAs made (x.mapError fun _ => f) := by
  cases x with
  | ok a => exact ok a
  | error fault => exact error hf

end FailsAs

end DeskCalculator
