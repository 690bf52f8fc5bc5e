import Stackwork.Machine.Run

/-!
# Operations on a machine

How the operations of the machine compose. `Op.bind_eq_ok` takes a sequence of operations
that went well apart. An operation keeps a view of the machine when a run of it that goes well
leaves the view as it was; most operations touch slots, tags and SP only and keep everything
else, which is collected in `Machine.control`.
-/
namespace Stackwork

namespace Op

variable {α β : Type} {m m' : Machine}

variable {x : Op α} {b : β}

theorem bind_eq_ok {f : α → Op β} :
    (x >>= f) m = .ok b m' ↔ ∃ a m₁, x m = .ok a m₁ ∧ f a m₁ = .ok b m' := by
  change EStateM.bind x f m = _ ↔ _
  unfold EStateM.bind
  cases x m with
  | ok a m₁ =>
    constructor
    · exact fun h => ⟨a, m₁, rfl, h⟩
    · rintro ⟨a', m₁', h, hf⟩
      cases h
      exact hf
  | error e m₁ => simp

@[simp] theorem pure_apply (a : α) : (pure a : Op α) m = .ok a m := rfl

@[simp] theorem get_apply : (get : Op Machine) m = .ok m m := rfl

@[simp] theorem set_apply (m₁ : Machine) : (set m₁ : Op PUnit) m = .ok ⟨⟩ m₁ := rfl

@[simp] theorem modify_apply (f : Machine → Machine) : (modify f : Op PUnit) m = .ok ⟨⟩ (f m) :=
  rfl

@[simp] theorem modifyGet_apply (f : Machine → α × Machine) :
    (modifyGet f : Op α) m = .ok (f m).1 (f m).2 := rfl

@[simp] theorem fault_apply (e : Fault) : (Machine.fault e : Op α) m = .error e m := rfl

theorem map_eq_ok {f : α → β} : (f <$> x) m = .ok b m' ↔ ∃ a, x m = .ok a m' ∧ f a = b := by
  rw [map_eq_pure_bind, bind_eq_ok]
  constructor
  · rintro ⟨a, m₁, hx, h⟩
    simp only [pure_apply] at h
    cases h
    exact ⟨a, hx, rfl⟩
  · rintro ⟨a, hx, rfl⟩
    exact ⟨a, m', hx, rfl⟩

theorem require_eq_ok {a? : Option α} {a : α} :
    Machine.require a? m = .ok a m' ↔ a? = some a ∧ m' = m := by
  cases a? with
  | none => simp [Machine.require]
  | some b => simp [Machine.require, eq_comm]

/-- An operation that goes well leaves a view of the machine as it was. -/
def Keeps (view : Machine → β) (x : Op α) : Prop :=
  ∀ ⦃m a m'⦄, x m = .ok a m' → view m' = view m

namespace Keeps

variable {γ : Type} {view : Machine → γ}

theorem pure (a : α) : Keeps view (pure a : Op α) := by
  intro m b m' h
  cases h
  rfl

variable {x : Op α}

theorem bind {f : α → Op β} (hx : Keeps view x) (hf : ∀ a, Keeps view (f a)) :
    Keeps view (x >>= f) := by
  intro m b m' h
  obtain ⟨a, m₁, h₁, h₂⟩ := bind_eq_ok.1 h
  exact (hf a h₂).trans (hx h₁)

theorem map {f : α → β} (hx : Keeps view x) : Keeps view (f <$> x) := by
  intro m b m' h
  obtain ⟨a, h₁, -⟩ := map_eq_ok.1 h
  exact hx h₁

theorem get : Keeps view (get : Op Machine) := by
  intro m a m' h
  cases h
  rfl

theorem modify {f : Machine → Machine} (h : ∀ m, view (f m) = view m) :
    Keeps view (modify f : Op PUnit) := by
  intro m a m' hm
  cases hm
  exact h m

theorem fault (e : Fault) : Keeps view (Machine.fault e : Op α) := by
  intro m a m' h
  cases h

theorem require (a? : Option α) : Keeps view (Machine.require a?) := by
  intro m a m' h
  rw [(require_eq_ok.1 h).2]

theorem ite {p : Prop} [Decidable p] {y : Op α} (hx : Keeps view x) (hy : Keeps view y) :
    Keeps view (if p then x else y) := by
  split
  · exact hx
  · exact hy

end Keeps

/-- Started where a view of the machine is `v`, an operation that goes well leaves the view
as it was and gives a result with the property `Q`. -/
def Gives {γ : Type} (view : Machine → γ) (v : γ) (Q : α → Prop) (x : Op α) : Prop :=
  ∀ ⦃m a m'⦄, view m = v → x m = .ok a m' → view m' = v ∧ Q a

namespace Gives

variable {γ : Type} {view : Machine → γ} {v : γ}

variable {Q : α → Prop}

theorem pure {a : α} (h : Q a) : Gives view v Q (pure a : Op α) := by
  intro m b m' hm hx
  cases hx
  exact ⟨hm, h⟩

theorem bind {Q : β → Prop} {x : Op α} {f : α → Op β} (hx : Keeps view x)
    (hf : ∀ a, Gives view v Q (f a)) : Gives view v Q (x >>= f) := by
  intro m b m' hm h
  obtain ⟨a, m₁, h₁, h₂⟩ := bind_eq_ok.1 h
  exact hf a ((hx h₁).trans hm) h₂

theorem get {f : Machine → Op α} (hf : ∀ m, view m = v → Gives view v Q (f m)) :
    Gives view v Q (get >>= f) := by
  intro m a m' hm h
  exact hf m hm hm h

theorem fault (e : Fault) : Gives view v Q (Machine.fault e : Op α) := by
  intro m a m' hm h
  cases h

end Gives
end Op

/-- What is left of a machine without its slots, their tags, SP and the journal. -/
structure Machine.Control where
  settings : Settings
  exe : Option Executable
  objects : Array HostObject
  base : Int
  frames : Array Frame
  halted : Bool
  heapSize : Nat
  stackSize : Nat
  /-- How many stack slots have a tag. -/
  tagsSize : Nat

namespace Machine

def control (m : Machine) : Control where
  settings := m.settings
  exe := m.exe
  objects := m.objects
  base := m.base
  frames := m.frames
  halted := m.halted
  heapSize := m.heap.size
  stackSize := m.stack.size
  tagsSize := m.stackTags.size

open Op (Keeps)

theorem keeps_writeStack (slot : Int) (v : Slot) (k : Kind) :
    Keeps control (writeStack slot v k) := by
  intro m a m' h
  unfold writeStack at h
  split at h
  · cases h
    simp [control, apply_ite Array.size]
  · cases h

theorem keeps_writeHeap (slot : Int) (v : Slot) (k : Kind) :
    Keeps control (writeHeap slot v k) := by
  intro m a m' h
  unfold writeHeap at h
  split at h
  · cases h
    simp [control]
  · cases h

theorem keeps_checkTag (region : Region) (slot : Int) (held wanted : Kind) :
    Keeps control (checkTag region slot held wanted) :=
  .ite (.fault _) (.pure _)

theorem keeps_readStack (slot : Int) (k : Kind) : Keeps control (readStack slot k) := by
  refine .bind .get fun m => .bind (.require _) fun v => .bind .get fun m => ?_
  split
  · exact .bind .get fun m => .bind (.require _) fun held => .bind (keeps_checkTag _ _ _ _)
      fun _ => .pure v
  · exact .pure v

theorem keeps_readHeap (slot : Int) (k : Kind) : Keeps control (readHeap slot k) := by
  refine .bind .get fun m => .bind (.require _) fun v => .bind .get fun m => ?_
  split
  · exact .bind .get fun m => .bind (.require _) fun held => .bind (keeps_checkTag _ _ _ _)
      fun _ => .pure v
  · exact .pure v

theorem keeps_push (v : Slot) (k : Kind) : Keeps control (push v k) :=
  .bind .get fun _ => .bind (keeps_writeStack _ _ _) fun _ => .modify fun _ => rfl

theorem keeps_pop (k : Kind) : Keeps control (pop k) :=
  .bind (.modify fun _ => rfl) fun _ => .bind .get fun _ => keeps_readStack _ _

end Machine
end Stackwork
