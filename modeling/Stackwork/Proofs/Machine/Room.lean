import Stackwork.Proofs.Lang.Elaboration
import Stackwork.Proofs.Machine.Control
import Stackwork.Proofs.Machine.Runs

/-!
# Operations and the room they take

A machine stops when its stack is full, so an operation is described by two things: the height
its stack has to reach, and what it does when the stack is that large. `Op.Takes` states both,
and with them that a smaller stack leads to a fault; the height of a sequence is the larger
one of its parts.
-/
namespace Stackwork

namespace Op

variable {α β : Type}

/-- On a stack of at least `level` slots an operation goes well and leads from `pre` to `post`;
on a smaller one it ends out of range. -/
def Takes (size level : Nat) (pre : Machine → Prop) (x : Op α) (post : α → Machine → Prop) : Prop :=
  ∀ ⦃m⦄, pre m → (level ≤ size → ∃ a m', x m = .ok a m' ∧ post a m') ∧
    (size < level → ∃ m', x m = .error .outOfRange m')

namespace Takes

variable {size level : Nat} {pre : Machine → Prop}

variable {x : Op α} {post mid : α → Machine → Prop} {a : α} {f : α → Op β}

/-- An operation that goes well on every stack. -/
theorem of_ok (h : ∀ m, pre m → ∃ a m', x m = .ok a m' ∧ post a m') : Takes size 0 pre x post :=
  fun m hm => ⟨fun _ => h m hm, fun hlt => absurd hlt (Nat.not_lt_zero _)⟩

theorem pure (h : ∀ m, pre m → post a m) : Takes size 0 pre (pure a : Op α) post :=
  of_ok fun m hm => ⟨a, m, rfl, h m hm⟩

theorem modify {f : Machine → Machine} {post : Machine → Prop} (h : ∀ m, pre m → post (f m)) :
    Takes size 0 pre (modify f : Op PUnit) fun _ => post :=
  of_ok fun m hm => ⟨⟨⟩, f m, rfl, h m hm⟩

theorem require {a? : Option α} (h : a? = some a) :
    Takes size 0 pre (Machine.require a?) fun b m => b = a ∧ pre m :=
  of_ok fun m hm => ⟨a, m, by rw [h]; rfl, rfl, hm⟩

/-- A sequence takes as much as the larger one of its parts. -/
theorem bind {level' : Nat} {post : β → Machine → Prop} (hx : Takes size level pre x mid)
    (hf : ∀ a, Takes size level' (mid a) (f a) post) :
    Takes size (max level level') pre (x >>= f) post := by
  intro m hm
  by_cases hroom : level ≤ size
  · obtain ⟨a, m₁, hok, hmid⟩ := (hx hm).1 hroom
    rw [EStateM.bind_of_ok hok]
    refine ⟨fun h => (hf a hmid).1 (by omega), fun h => (hf a hmid).2 (by omega)⟩
  · obtain ⟨m₁, herr⟩ := (hx hm).2 (by omega)
    exact ⟨fun h => by omega, fun _ => ⟨m₁, EStateM.bind_of_error herr⟩⟩

/-- A first part that needs no room. -/
theorem after {post : β → Machine → Prop} (hx : Takes size 0 pre x mid)
    (hf : ∀ a, Takes size level (mid a) (f a) post) : Takes size level pre (x >>= f) post := by
  have := hx.bind hf
  rwa [Nat.zero_max] at this

/-- A last part that needs no room. -/
theorem andThen {post : β → Machine → Prop} (hx : Takes size level pre x mid)
    (hf : ∀ a, Takes size 0 (mid a) (f a) post) : Takes size level pre (x >>= f) post := by
  have := hx.bind hf
  rwa [Nat.max_zero] at this

/-- A first part that gives a known value. -/
theorem read {mid : Machine → Prop} {post : β → Machine → Prop}
    (hx : Takes size 0 pre x fun b m => b = a ∧ mid m) (hf : Takes size level mid (f a) post) :
    Takes size level pre (x >>= f) post := by
  refine hx.after fun b m hm => ?_
  obtain ⟨rfl, hmid⟩ := hm
  exact hf hmid

/-- A first part that gives a known value, before a last part that needs no room. -/
theorem readThen {mid : Machine → Prop} {post : β → Machine → Prop}
    (hx : Takes size level pre x fun b m => b = a ∧ mid m) (hf : Takes size 0 mid (f a) post) :
    Takes size level pre (x >>= f) post := by
  refine hx.andThen fun b m hm => ?_
  obtain ⟨rfl, hmid⟩ := hm
  exact hf hmid

/-- Two levels that come to the same on stacks that occur. -/
theorem relevel {level' : Nat} (h : Takes size level pre x post)
    (same : ∀ m, pre m → (level ≤ size ↔ level' ≤ size)) : Takes size level' pre x post := by
  intro m hm
  have := same m hm
  exact ⟨fun hroom => (h hm).1 (this.2 hroom), fun hfull => (h hm).2 (by omega)⟩

/-- No room is needed beyond what is there anyway. -/
theorem free (h : Takes size level pre x post) (enough : ∀ m, pre m → level ≤ size) :
    Takes size 0 pre x post :=
  h.relevel fun m hm => iff_of_true (enough m hm) (Nat.zero_le _)

/-- Looking at the machine. -/
theorem get {f : Machine → Op α} (h : ∀ m, pre m → Takes size level pre (f m) post) :
    Takes size level pre (get >>= f) post :=
  fun m hm => h m hm hm

theorem mono {pre' : Machine → Prop} {post' : α → Machine → Prop} (h : Takes size level pre x post)
    (hpre : ∀ m, pre' m → pre m) (hpost : ∀ a m, post a m → post' a m) :
    Takes size level pre' x post' := by
  intro m hm
  refine ⟨fun hroom => ?_, (h (hpre m hm)).2⟩
  obtain ⟨a, m', hok, hp⟩ := (h (hpre m hm)).1 hroom
  exact ⟨a, m', hok, hpost a m' hp⟩

end Takes
end Op

namespace Machine

open Op (Takes)

/-- A list that begins in a given way, after one of its elements has been replaced. -/
theorem prefix_set {α : Type} {xs ys : List α} (h : xs <+: ys) {i : Nat} (hi : i ≤ xs.length)
    (hlt : i < ys.length) (v : α) : xs.take i ++ v :: xs.drop (i + 1) <+: ys.set i v := by
  obtain ⟨rest, rfl⟩ := h
  rw [List.set_eq_take_append_cons_drop, if_pos hlt, List.take_append_of_le_length hi]
  refine List.prefix_append_right_inj _ |>.2 (List.cons_prefix_cons.2 ⟨rfl, ?_⟩)
  rw [List.drop_append]
  exact List.prefix_append _ _

/-- Cleared slots follow what was known of the stack. -/
theorem prefix_clearFrom {xs : List Slot} {stack : Array Slot} (h : xs <+: stack.toList) {n : Nat}
    (room : xs.length + n ≤ stack.size) :
    xs ++ List.replicate n .zero <+: (clearFrom stack xs.length n).toList := by
  induction n with
  | zero => simpa [clearFrom] using h
  | succ n ih =>
    have hsize := size_clearFrom stack xs.length n
    have hset := prefix_set (ih (by omega)) (by simp : xs.length + n ≤ _)
      (by simp only [Array.length_toList]; omega) .zero
    rw [List.take_of_length_le (by simp), List.drop_eq_nil_of_le (by simp)] at hset
    rw [List.replicate_succ', ← List.append_assoc]
    simpa [clearFrom, Nat.fold_succ] using hset

end Machine

namespace Op.Takes

variable {size level : Nat} {pre : Machine → Prop}

open Machine (execute)

theorem trace (journal : ∀ m line, pre m → pre (m.write line)) (code : Code) (pc : Int) (i : Instr) :
    Takes size 0 pre (Machine.trace code pc i) fun _ => pre := by
  refine .get fun m h => ?_
  split
  · exact .modify fun m' h' => journal m' _ h'
  · exact .pure fun m' h' => h'

/-- Executing the instruction that is fetched, where the journal does not matter. -/
theorem dispatch (journal : ∀ m line, pre m → pre (m.write line)) {code : Code} {pc depth : Nat}
    {op : Opcode} {k : Kind} {post : Next → Machine → Prop}
    (fetch : code.instr? pc = some (Instr.make op k))
    (hx : Takes size level pre (execute code (pc + 1) depth op k) post) :
    Takes size level pre (Machine.dispatch code pc depth) post := by
  have hlt : (pc : Int) < code.size := by exact_mod_cast Code.lt_size fetch
  obtain ⟨w, hw, hi⟩ := Option.map_eq_some_iff.1 fetch
  rw [Machine.dispatch_of_lt depth hlt]
  refine (require hw).read ((trace journal _ _ _).after fun _ => ?_)
  rw [hi, Machine.work, Instr.op?_make, Instr.kind_make]
  exact hx

end Op.Takes
end Stackwork
