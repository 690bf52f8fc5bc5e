import Stackwork.Kind

/-!
# Computations that may fail

A sequence of checks goes well when each of its steps does, and a computation with a state
ends where its first failing step ends. The lemmas take such sequences apart and put them
together.
-/
namespace Stackwork

variable {α β ε : Type}

theorem Except.bind_eq_ok {x : Except ε α} {f : α → Except ε β} {b : β} :
    (x >>= f) = .ok b ↔ ∃ a, x = .ok a ∧ f a = .ok b := by
  cases x with
  | error e | ok a => simp [bind, Except.bind]

theorem Except.mapError_eq_ok {ε' : Type} {f : ε → ε'} {x : Except ε α} {a : α} :
    x.mapError f = .ok a ↔ x = .ok a := by
  cases x with
  | error e => exact ⟨fun h => (by cases h), fun h => (by cases h)⟩
  | ok b => exact ⟨fun h => (by cases h; rfl), fun h => (by cases h; rfl)⟩

namespace EStateM

variable {σ : Type} {x : EStateM ε σ α} {f : α → EStateM ε σ β} {s s' : σ}

theorem bind_of_ok {a : α} (h : x s = .ok a s') : (x >>= f) s = f a s' := by
  change EStateM.bind x f s = _
  simp [EStateM.bind, h]

theorem bind_of_error {e : ε} (h : x s = .error e s') : (x >>= f) s = .error e s' := by
  change EStateM.bind x f s = _
  simp [EStateM.bind, h]

end EStateM

/-- A loop over a list that only checks goes well when every check does. -/
theorem Except.forIn_eq_ok {check : α → Except ε Unit} {xs : List α} :
    (forIn xs PUnit.unit fun x _ => do
      check x
      pure (ForInStep.yield PUnit.unit)) = Except.ok PUnit.unit ↔ ∀ x ∈ xs, check x = .ok () := by
  induction xs with
  | nil => simp; rfl
  | cons x xs ih =>
    rw [List.forIn_cons, List.forall_mem_cons, ← ih]
    cases h : check x with
    | error e => simp [bind, Except.bind]
    | ok u => simp only [true_and]; rfl

end Stackwork
