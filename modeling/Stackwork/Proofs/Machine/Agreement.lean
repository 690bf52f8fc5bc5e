import Stackwork.Proofs.Machine.Roots

/-!
# Machines that agree below a height

Loading a program clears the heap and the registers, but not the stack, and of the tags only those
of the program's globals. So two machines with the same program agree on everything except the
slots above SP and some tags, and they go on to agree as long as no slot is read that was not
written since. `Machine.Agree` speaks of a height below which the stacks are the same. The height
never sinks, and everything that is pushed, and every frame that is laid out, is below it
afterwards.

An instruction may name locals by number, and a call from the host takes its result from a slot;
whether these slots are below the height depends on the code (`Machine.Covers`). Everything else
that instructions and host functions can see is the same on both machines.
-/
namespace Stackwork

open Stackwork.EStateM Array

/-- Two arrays of one size that are the same below a height. -/
structure SameBelow {α : Type} (K : Int) (xs ys : Array α) : Prop where
  size : xs.size = ys.size
  below (i : Nat) (h : (i : Int) < K) : xs[i]? = ys[i]?

namespace SameBelow

variable {α : Type} {K K' : Int} {xs ys : Array α}

theorem refl (K : Int) (xs : Array α) : SameBelow K xs xs := ⟨rfl, fun _ _ => rfl⟩

section

variable (h : SameBelow K xs ys)
include h

theorem mono (hK : K' ≤ K) : SameBelow K' xs ys :=
  ⟨h.size, fun i hi => h.below i (by omega)⟩

/-- Below the height, and outside of the arrays, there is the same to read. -/
theorem at?_eq {i : Int} (hi : i < K ∨ xs.size ≤ i) : Machine.at? xs i = Machine.at? ys i := by
  have hsize := h.size
  unfold Machine.at?
  split
  · rcases hi with hi | hi
    · exact h.below i.toNat (by omega)
    · rw [getElem?_eq_none (by omega), getElem?_eq_none (by omega)]
  · rfl

theorem take_eq {k : Nat} (hk : k ≤ K) : xs.toList.take k = ys.toList.take k := by
  refine List.ext_getElem? fun i => ?_
  simp only [List.getElem?_take, getElem?_toList]
  split
  · exact h.below i (by omega)
  · rfl

end

variable {i : Nat}

/-- What is written next to the common part belongs to it. -/
theorem set (h : SameBelow K xs ys) (hi : i ≤ K) (v : α) :
    SameBelow (max K (i + 1)) (xs.setIfInBounds i v) (ys.setIfInBounds i v) where
  size := by simp [h.size]
  below j hj := by
    rw [getElem?_setIfInBounds, getElem?_setIfInBounds, h.size]
    split
    · rfl
    · exact h.below j (by omega)

theorem clearFrom {xs ys : Array Slot} (h : SameBelow K xs ys) (hi : i ≤ K) (n : Nat) :
    SameBelow (max K (i + n)) (Machine.clearFrom xs i n) (Machine.clearFrom ys i n) := by
  induction n with
  | zero => exact h.mono (by push_cast; omega)
  | succ n ih =>
    exact (ih.set (by push_cast; omega) _).mono (by push_cast; omega)

/-- A row of values that is written next to the common part. -/
theorem setRow (h : SameBelow K xs ys) {b j : Nat} (hb : ((b + j : Nat) : Int) ≤ K) (vs : List α) :
    SameBelow (max K (b + j + vs.length))
      ((vs.zipIdx j).foldl (fun ts (v, i) => ts.setIfInBounds (b + i) v) xs)
      ((vs.zipIdx j).foldl (fun ts (v, i) => ts.setIfInBounds (b + i) v) ys) := by
  induction vs generalizing j K xs ys with
  | nil => exact h.mono (by simp; omega)
  | cons v vs ih =>
    refine (ih (h.set hb v) (by push_cast; omega)).mono ?_
    push_cast [List.length_cons]
    omega

end SameBelow

namespace Machine

/-- Whether slots have tags, and the sizes of the memories and of their tags. -/
structure Shape where
  tagged : Bool
  heap : Nat
  stack : Nat
  heapTags : Nat
  stackTags : Nat

def shape (m : Machine) : Shape where
  tagged := m.settings.tagged
  heap := m.heap.size
  stack := m.stack.size
  heapTags := m.heapTags.size
  stackTags := m.stackTags.size

/-- What two machines have in common for good: shape and program, the heap slots whose tags count,
and how high they agree at least. -/
structure Footing where
  shape : Shape
  exe : Option Executable
  tags : Nat
  floor : Int

/-- Two machines that are the same apart from the stack and its tags above a height, other heap
tags than those that count, and what is written to the journal. SP is not above the height. -/
structure Agree (f : Footing) (K : Int) (m n : Machine) : Prop where
  shape : m.shape = f.shape
  tagged : m.settings.tagged = n.settings.tagged
  program : m.exe = f.exe
  exe : m.exe = n.exe
  heap : m.heap = n.heap
  objects : m.objects = n.objects
  frames : m.frames = n.frames
  sp : m.sp = n.sp
  base : m.base = n.base
  halted : m.halted = n.halted
  stack : SameBelow K m.stack n.stack
  stackTags (h : m.settings.tagged = true) : SameBelow K m.stackTags n.stackTags
  heapTags (h : m.settings.tagged = true) : SameBelow f.tags m.heapTags n.heapTags
  floor : f.floor ≤ K
  top : m.sp ≤ K

/-- Two machines that agree at least up to a height. -/
def Near (f : Footing) (K : Int) (m n : Machine) : Prop := ∃ K', K ≤ K' ∧ Agree f K' m n

/-- Two machines that agree at least up to a height, with a given BASE. -/
def Based (f : Footing) (K b : Int) (m n : Machine) : Prop := m.base = b ∧ Near f K m n

open Op (Pairs Steady)

variable {f : Footing} {K K' b : Int} {m n : Machine}

namespace Agree

section

variable (h : Agree f K m n)
include h

theorem stackSize : m.stack.size = f.shape.stack := congrArg Shape.stack h.shape

theorem heapSize : m.heap.size = f.shape.heap := congrArg Shape.heap h.shape

theorem routines : m.routines = n.routines := by
  simp only [Machine.routines, h.exe]

theorem setSp {sp : Int} (hsp : sp ≤ K) : Agree f K { m with sp } { n with sp } :=
  { h with sp := rfl, top := hsp }

theorem setBase (base : Int) : Agree f K { m with base } { n with base } :=
  { h with base := rfl }

theorem setFrames (frames : Array Frame) : Agree f K { m with frames } { n with frames } :=
  { h with frames := rfl }

theorem setHalted (halted : Bool) : Agree f K { m with halted } { n with halted } :=
  { h with halted := rfl }

theorem setHeap {heap : Array Slot} (hsize : heap.size = m.heap.size) :
    Agree f K { m with heap } { n with heap } :=
  { h with
    heap := rfl
    shape := by
      rw [← h.shape]
      simp [Machine.shape, hsize] }

theorem setObjects (objects : Array HostObject) : Agree f K { m with objects } { n with objects } :=
  { h with objects := rfl }

theorem setJournal (j j' : Array String) :
    Agree f K { m with journal := j } { n with journal := j' } :=
  { h with }

theorem near : Near f K m n := ⟨K, Int.le_refl K, h⟩

end

end Agree

theorem Near.mono (h : Near f K m n) (hK : K' ≤ K) : Near f K' m n := by
  obtain ⟨K₁, hK₁, h⟩ := h
  exact ⟨K₁, Int.le_trans hK hK₁, h⟩

/-! ### Slots -/

/-- A machine with a stack slot written. -/
def stored (m : Machine) (i : Int) (v : Slot) (k : Kind) : Machine :=
  { m with
    stack := m.stack.setIfInBounds i.toNat v
    stackTags := if m.settings.tagged then m.stackTags.setIfInBounds i.toNat k else m.stackTags }

variable {i bottom : Int} {r : Routine}

theorem writeStack_of_room (h : 0 ≤ i ∧ i < m.stack.size) (v : Slot) (k : Kind) :
    writeStack i v k m = .ok () (m.stored i v k) := by
  unfold writeStack
  rw [if_pos h]
  rfl

theorem writeStack_of_full (h : ¬ (0 ≤ i ∧ i < m.stack.size)) (v : Slot) (k : Kind) :
    writeStack i v k m = .error .outOfRange m := by
  unfold writeStack
  rw [if_neg h]

theorem Agree.stored (h : Agree f K m n) (h₀ : 0 ≤ i) (hi : i ≤ K) (v : Slot) (k : Kind) :
    Agree f (max K (i + 1)) (m.stored i v k) (n.stored i v k) :=
  { h with
    shape := by
      rw [← h.shape]
      simp [Machine.shape, Machine.stored, apply_ite size]
    stack := (h.stack.set (i := i.toNat) (by omega) v).mono (by omega)
    stackTags := fun htagged => by
      have htagged' : n.settings.tagged = true := h.tagged ▸ htagged
      have htags : SameBelow (max K (i + 1)) (m.stackTags.setIfInBounds i.toNat k)
          (n.stackTags.setIfInBounds i.toNat k) :=
        ((h.stackTags htagged).set (by omega) k).mono (by omega)
      have htagged : m.settings.tagged = true := htagged
      simpa [Machine.stored, htagged, htagged'] using htags
    floor := Int.le_trans h.floor (Int.le_max_left ..)
    top := Int.le_trans h.top (Int.le_max_left ..) }

/-- A slot at most as high as the machines agree can be written; then they agree above it. -/
theorem Agree.writeStack {E S : Machine → Machine → Prop} (h : Agree f K m n) (hi : i ≤ K ∨ f.shape.stack ≤ i)
    (v : Slot) (k : Kind) (hE : E m n)
    (hS : Agree f (max K (i + 1)) (m.stored i v k) (n.stored i v k) → S (m.stored i v k) (n.stored i v k)) :
    Op.Alike False E S Eq (writeStack i v k m) (writeStack i v k n) := by
  have hsize := h.stackSize
  by_cases hroom : 0 ≤ i ∧ i < m.stack.size
  · rw [writeStack_of_room hroom, writeStack_of_room (h.stack.size ▸ hroom)]
    exact .ok rfl (hS (h.stored hroom.1 (by omega) v k))
  · rw [writeStack_of_full hroom, writeStack_of_full (h.stack.size ▸ hroom)]
    exact .error hE

theorem Near.writeStack (hi : i ≤ K ∨ f.shape.stack ≤ i) (v : Slot) (k : Kind) :
    Pairs False (Near f K) (Near f K) (Near f (max K (i + 1))) Eq (writeStack i v k)
      (writeStack i v k) := by
  rintro m n ⟨K₁, hK₁, h⟩
  exact h.writeStack (by omega) v k ⟨K₁, hK₁, h⟩ fun h' => ⟨_, by omega, h'⟩

/-- The tag of a slot matters only if the slot is there. -/
theorem lookUp_eq (hsettings : m.settings.tagged = n.settings.tagged) {tags tags' : Array Kind}
    (htags : m.settings.tagged = true → SameBelow K tags tags') {xs : Array Slot} (hi : i < K ∨ xs.size ≤ i)
    (region : Region) (k : Kind) :
    lookUp region i k (at? xs i) (m.tagAt tags i) = lookUp region i k (at? xs i) (n.tagAt tags' i) := by
  rcases hi with hi | hi
  · unfold tagAt
    rw [← hsettings]
    split
    · next htagged => rw [(htags htagged).at?_eq (.inl hi)]
    · rfl
  · have hnone : at? xs i = none := by
      unfold at?
      rw [if_pos (by omega), getElem?_eq_none (by omega)]
    rw [hnone]
    rfl

theorem Agree.lookUp_stack (h : Agree f K m n) (hi : i < K ∨ f.shape.stack ≤ i) (k : Kind) :
    lookUp .stack i k (at? m.stack i) (m.tagAt m.stackTags i) =
      lookUp .stack i k (at? n.stack i) (n.tagAt n.stackTags i) := by
  rw [← h.stackSize] at hi
  rw [← h.stack.at?_eq hi]
  exact lookUp_eq h.tagged h.stackTags hi .stack k

theorem Agree.lookUp_heap (h : Agree f K m n) (hi : i < f.tags ∨ f.shape.heap ≤ i) (k : Kind) :
    lookUp .heap i k (at? m.heap i) (m.tagAt m.heapTags i) =
      lookUp .heap i k (at? n.heap i) (n.tagAt n.heapTags i) := by
  rw [← h.heapSize] at hi
  rw [← h.heap]
  exact lookUp_eq h.tagged h.heapTags hi .heap k

/-- A machine with a heap slot written. -/
def storedGlobal (m : Machine) (i : Int) (v : Slot) (k : Kind) : Machine :=
  { m with
    heap := m.heap.setIfInBounds i.toNat v
    heapTags := if m.settings.tagged then m.heapTags.setIfInBounds i.toNat k else m.heapTags }

theorem Agree.storedGlobal (h : Agree f K m n) (i : Int) (v : Slot) (k : Kind) :
    Agree f K (m.storedGlobal i v k) (n.storedGlobal i v k) :=
  { h with
    shape := by
      rw [← h.shape]
      simp [Machine.shape, Machine.storedGlobal, apply_ite size]
    heap := by simp only [Machine.storedGlobal, h.heap]
    heapTags := fun htagged => by
      have htagged : m.settings.tagged = true := htagged
      have htags := h.heapTags htagged
      simp only [Machine.storedGlobal, ← h.tagged, htagged, if_true]
      refine ⟨by simp [htags.size], fun j hj => ?_⟩
      rw [getElem?_setIfInBounds, getElem?_setIfInBounds, htags.size]
      split
      · rfl
      · exact htags.below j hj }

theorem push_apply (v : Slot) (k : Kind) (m : Machine) :
    push v k m = if 0 ≤ m.sp ∧ m.sp < m.stack.size then
        .ok () { m.stored m.sp v k with sp := m.sp + 1 }
      else .error .outOfRange m := by
  split
  · next hroom => exact (bind_of_ok (writeStack_of_room hroom v k)).trans rfl
  · next hroom =>
    exact (bind_of_ok rfl).trans (bind_of_error (writeStack_of_full hroom v k))

theorem putResult_apply (k : Kind) (v : Slot) (m : Machine) :
    putResult k v m = if 0 ≤ m.base ∧ m.base < m.stack.size then
        .ok () { m.stored m.base v k with sp := m.base + 1 }
      else .error .outOfRange m := by
  split
  · next hroom => exact (bind_of_ok (writeStack_of_room hroom v k)).trans rfl
  · next hroom =>
    exact (bind_of_ok rfl).trans (bind_of_error (writeStack_of_full hroom v k))

theorem Based.push (v : Slot) (k : Kind) : Steady False (Based f K b) (push v k) := by
  rintro m n ⟨hb, K₁, hK₁, h⟩
  rw [push_apply, push_apply, ← h.sp, ← h.stack.size]
  split
  · next hroom =>
    exact .ok rfl ⟨hb, _, by omega, (h.stored hroom.1 h.top v k).setSp (Int.le_max_right ..)⟩
  · exact .error ⟨hb, K₁, hK₁, h⟩

theorem Based.pop (k : Kind) : Steady False (Based f K b) (pop k) := by
  rintro m n ⟨hb, K₁, hK₁, h⟩
  have h' : Agree f K₁ { m with sp := m.sp - 1 } { n with sp := m.sp - 1 } :=
    h.setSp (by have := h.top; omega)
  change Op.Alike _ _ _ _ (Machine.readStack (m.sp - 1) k { m with sp := m.sp - 1 })
    (Machine.readStack (n.sp - 1) k { n with sp := n.sp - 1 })
  rw [← h.sp, readStack_apply, readStack_apply]
  have hbelow : m.sp - 1 < K₁ := by have := h.top; omega
  exact alike_outcome (R := Based f K b) (m := { m with sp := m.sp - 1 })
    (n := { n with sp := m.sp - 1 }) ⟨hb, K₁, hK₁, h'⟩ (.inl (h'.lookUp_stack (.inl hbelow) k))

/-- Machines that agree bear all instructions that name heap slots with tags that count, and stack
slots up to which they agree; slots that are not there do no harm. -/
theorem likeness_based (f : Footing) (K b : Int) :
    Likeness False (Based f K b) (fun i => i < f.tags ∨ f.shape.heap ≤ i)
      fun i => i < K ∨ f.shape.stack ≤ i where
  base h := by
    obtain ⟨-, _, -, h⟩ := h
    exact h.base
  drop h := by
    obtain ⟨hb, K₁, hK₁, h⟩ := h
    refine ⟨hb, K₁, hK₁, ?_⟩
    rw [← h.sp]
    exact h.setSp (by have := h.top; omega)
  push := Based.push
  pop := Based.pop
  readHeap {i} hi k := by
    rintro m n ⟨hb, K₁, hK₁, h⟩
    rw [readHeap_apply, readHeap_apply]
    exact alike_outcome (R := Based f K b) ⟨hb, K₁, hK₁, h⟩ (.inl (h.lookUp_heap hi k))
  writeHeap {i} hi v k := by
    rintro m n ⟨hb, K₁, hK₁, h⟩
    unfold Machine.writeHeap
    by_cases hroom : 0 ≤ i ∧ i < m.heap.size
    · rw [if_pos hroom, if_pos (show 0 ≤ i ∧ i < n.heap.size from h.heap ▸ hroom)]
      exact .ok rfl ⟨hb, K₁, hK₁, h.storedGlobal i v k⟩
    · rw [if_neg hroom, if_neg (show ¬ (0 ≤ i ∧ i < n.heap.size) from h.heap ▸ hroom)]
      exact .error ⟨hb, K₁, hK₁, h⟩
  readStack {i} hi k := by
    rintro m n ⟨hb, K₁, hK₁, h⟩
    rw [readStack_apply, readStack_apply]
    have hi : i < K₁ ∨ f.shape.stack ≤ i := hi.imp_left fun hi => Int.lt_of_lt_of_le hi hK₁
    exact alike_outcome (R := Based f K b) ⟨hb, K₁, hK₁, h⟩ (.inl (h.lookUp_stack hi k))
  writeStack {i} hi v k := by
    rintro m n ⟨hb, K₁, hK₁, h⟩
    exact h.writeStack (by omega) v k ⟨hb, K₁, hK₁, h⟩ fun h' => ⟨hb, _, by omega, h'⟩

/-! ### Calls and returns -/

/-- A machine with the frame of a routine laid out. -/
def entered (m : Machine) (r : Routine) : Machine :=
  let base := m.sp - r.arity
  let top := base + r.locals.length
  { m with
    stack := clearFrom m.stack m.sp.toNat (top - m.sp).toNat
    stackTags :=
      if m.settings.tagged then
        (r.locals.zipIdx).foldl (fun ts (k, i) => ts.setIfInBounds (base.toNat + i) k) m.stackTags
      else m.stackTags
    sp := top }

/-- There is room for the frame of a routine. -/
def Fits (m : Machine) (r : Routine) : Prop :=
  0 ≤ m.sp ∧ m.sp ≤ m.sp - r.arity + r.locals.length ∧
    m.sp - r.arity + r.locals.length ≤ m.stack.size ∧ (m.settings.tagged → 0 ≤ m.sp - r.arity)

theorem enter_of_fits (h : m.Fits r) : enter r m = .ok (m.sp - r.arity) (m.entered r) :=
  if_pos h

theorem enter_of_not_fits (h : ¬ m.Fits r) : enter r m = .error .outOfRange m :=
  if_neg h

theorem Agree.fits_iff (h : Agree f K m n) (r : Routine) : m.Fits r ↔ n.Fits r := by
  unfold Fits
  rw [h.sp, h.tagged, h.stack.size]

theorem Agree.entered (h : Agree f K m n) (hfits : m.Fits r) :
    Agree f (max K (m.sp - r.arity + r.locals.length)) (m.entered r) (n.entered r) := by
  obtain ⟨h₀, hle, -, hbase⟩ := hfits
  have htop := h.top
  refine { h with shape := ?_, sp := ?_, stack := ?_, stackTags := fun htagged => ?_, floor := ?_, top := ?_ }
  · rw [← h.shape]
    simp [Machine.shape, Machine.entered, apply_ite size, size_clearFrom, size_foldl_setIfInBounds]
  · simp only [Machine.entered, h.sp]
  · simp only [Machine.entered, ← h.sp]
    exact (h.stack.clearFrom (by omega) _).mono (by omega)
  · have htagged : m.settings.tagged = true := htagged
    simp only [Machine.entered, ← h.tagged, htagged, if_true, ← h.sp]
    exact ((h.stackTags htagged).setRow (by omega) r.locals).mono (by omega)
  · exact Int.le_trans h.floor (Int.le_max_left ..)
  · exact Int.le_max_right ..

theorem Near.enter (r : Routine) : Steady False (Near f K) (enter r) := by
  rintro m n ⟨K₁, hK₁, h⟩
  by_cases hfits : m.Fits r
  · rw [enter_of_fits hfits, enter_of_fits ((h.fits_iff r).1 hfits)]
    exact .ok (by rw [h.sp]) ⟨_, by omega, h.entered hfits⟩
  · rw [enter_of_not_fits hfits, enter_of_not_fits (mt (h.fits_iff r).2 hfits)]
    exact .error ⟨K₁, hK₁, h⟩

theorem Near.setBase (base : Int) :
    Pairs False (Near f K) (Near f K) (Near f K) Eq (modify fun m => { m with base } : Op PUnit)
      (modify fun m => { m with base }) :=
  .modify fun _ _ ⟨K₁, hK₁, h⟩ => ⟨K₁, hK₁, h.setBase base⟩

theorem Near.callRoutine (code : Code) (pc index : Int) :
    Steady False (Near f K) (callRoutine code pc index) := by
  refine .get fun m n h => ?_
  obtain ⟨_, -, hagree⟩ := h
  rw [hagree.routines]
  refine .bindEq (.require rfl fun _ _ h => h) fun r => ?_
  cases r.body with
  | host builtin => exact .pure rfl
  | compiled target ks =>
    refine .bindEq (.modify fun m n h => ?_) fun _ => .bindEq (Near.enter r) fun base =>
      .bindEq (Near.setBase base) fun _ => ?_
    · obtain ⟨K₁, hK₁, h⟩ := h
      exact ⟨K₁, hK₁, { h with frames := by rw [h.frames, h.base] }⟩
    · cases target with
      | none => exact .fault _ fun _ _ h => h
      | some target => exact .pure rfl

theorem Based.putResult (hb : b ≤ K ∨ f.shape.stack ≤ b) (k : Kind) (v : Slot) :
    Pairs False (Near f K) (Based f K b) (Near f K) Eq (putResult k v) (putResult k v) := by
  rintro m n ⟨rfl, K₁, hK₁, h⟩
  have hsize := h.stackSize
  rw [putResult_apply, putResult_apply, ← h.base, ← h.stack.size]
  split
  · next hroom =>
    have hle : m.base ≤ K₁ := by omega
    exact .ok rfl ⟨_, by omega, (h.stored hroom.1 hle v k).setSp (Int.le_max_right ..)⟩
  · exact .error ⟨K₁, hK₁, h⟩

theorem Near.findCaller (d : Nat) : Steady False (Near f K) (findCaller d) := by
  rintro m n ⟨K₁, hK₁, h⟩
  by_cases hd : m.frames.size = d
  · rw [findCaller_of_outermost hd, findCaller_of_outermost (h.frames ▸ hd)]
    exact .ok rfl ⟨K₁, hK₁, h⟩
  · cases hback : m.frames.back? with
    | none =>
      rw [findCaller_of_none hback, findCaller_of_none (h.frames ▸ hback)]
      exact .ok rfl ⟨K₁, hK₁, h⟩
    | some caller =>
      rw [findCaller_of_inner hd hback, findCaller_of_inner (h.frames ▸ hd) (h.frames ▸ hback)]
      exact .ok rfl ⟨K₁, hK₁, { h with frames := by rw [h.frames], base := rfl }⟩

theorem Based.returnFrom (hb : b ≤ K ∨ f.shape.stack ≤ b) (k : Kind) (d : Nat) :
    Pairs False (Near f K) (Based f K b) (Near f K) Eq (returnFrom k d) (returnFrom k d) := by
  have hpop : Pairs False (Near f K) (Based f K b) (Based f K b) Eq (popResult k) (popResult k) := by
    refine .ite Iff.rfl (fun _ => .pure rfl) fun _ => ?_
    exact (Based.pop k).mono (fun _ _ h => h.2) (fun _ _ h => h) fun _ _ h => h
  rw [returnFrom_eq]
  refine .bindEq hpop fun v => ?_
  rw [handBack]
  exact .bindEq (Based.putResult hb k v) fun _ => Near.findCaller d

/-- A code at a position names only slots that are the same on machines that agree, when BASE is
as given: its own frame is below the height, and the globals have tags that count. -/
structure Covers (f : Footing) (K : Int) (code : Code) (pc b : Int) : Prop where
  base : b ≤ K ∨ f.shape.stack ≤ b
  global {i : Instr} (fetch : code.instr? pc = some i)
    (hop : i.op? = some .loadGlobal ∨ i.op? = some .storeGlobal) {v : Int32}
    (hv : code.int? (pc + 1) = some v) : v.toInt < f.tags ∨ f.shape.heap ≤ v.toInt
  named {i : Instr} (fetch : code.instr? pc = some i)
    (hop : i.op? = some .loadLocal ∨ i.op? = some .storeLocal) {v : Int32}
    (hv : code.int? (pc + 1) = some v) : b + v.toInt < K ∨ f.shape.stack ≤ b + v.toInt

variable {code : Code} {pc : Int} {call : HostCall}

theorem Based.work (hcovers : Covers f K code pc b) (d : Nat) {i : Instr} (fetch : code.instr? pc = some i) :
    Pairs False (Near f K) (Based f K b) (Near f K) Eq (work code pc d i) (work code pc d i) := by
  have weaken {α : Type} {x y : Op α} (h : Pairs False (Based f K b) (Based f K b) (Based f K b) Eq x y) :
      Pairs False (Near f K) (Based f K b) (Near f K) Eq x y :=
    h.mono (fun _ _ h => h.2) (fun _ _ h => h.2) fun _ _ h => h
  unfold Machine.work
  cases hop : i.op? with
  | none => exact weaken (.pure rfl)
  | some op =>
    by_cases hcall : op = .call
    · subst hcall
      refine .bindEq (weaken ?_) fun index => Near.callRoutine _ _ index
      exact .bindEq (.require rfl fun _ _ h => h) fun _ => .pure rfl
    by_cases hcallR : op = .callR
    · subst hcallR
      exact .bindEq (weaken (likeness_based f K b).popInt) fun index => Near.callRoutine _ _ _
    by_cases hret : op = .ret
    · subst hret
      exact Based.returnFrom hcovers.base _ d
    by_cases hhalt : op = .halt
    · subst hhalt
      refine .bindEq (.modify fun m n h => ?_) fun _ => .pure rfl
      obtain ⟨-, K₁, hK₁, h⟩ := h
      exact ⟨K₁, hK₁, { h with frames := by rw [h.frames], halted := rfl }⟩
    refine weaken ((likeness_based f K b).execute d d _ hcall hcallR hret hhalt ?_ ?_)
    · rintro hglobal v hv
      exact hcovers.global fetch (by simpa [hop] using hglobal) hv
    · rintro hlocal v hv m n h
      rw [h.1]
      exact hcovers.named fetch (by simpa [hop] using hlocal) hv

theorem Based.dispatch (hcovers : Covers f K code pc b) (d : Nat) :
    Pairs False (Near f K) (Based f K b) (Near f K) Eq (dispatch code pc d) (dispatch code pc d) := by
  by_cases hpc : pc < code.size
  case neg =>
    unfold Machine.dispatch
    rw [if_neg hpc]
    exact Based.returnFrom hcovers.base _ d
  rw [dispatch_of_lt d hpc]
  refine .found (fun _ _ h => h.2) fun w hw => .bindEq (R := Based f K b) ?_ fun _ =>
    Based.work hcovers d (by simp [Code.instr?, hw])
  rintro m n ⟨hb, K₁, hK₁, h⟩
  rw [trace_eq, trace_eq]
  exact .ok rfl ⟨hb, K₁, hK₁, h.setJournal _ _⟩

/-! ### Host functions -/

theorem Near.beginHost (r : Routine) (builtin : Builtin) :
    Steady False (Near f K) (beginHost r builtin) := by
  rintro m n ⟨K₁, hK₁, h⟩
  have htop := h.top
  have hroom : (0 ≤ m.sp - r.arity ∧ m.sp ≤ m.stack.size) ↔
      0 ≤ n.sp - r.arity ∧ n.sp ≤ n.stack.size := by rw [h.sp, h.stack.size]
  have hargs : (m.stack.extract (m.sp - r.arity).toNat m.sp.toNat).toList =
      (n.stack.extract (n.sp - r.arity).toNat n.sp.toNat).toList := by
    rw [← h.sp]
    refine List.ext_getElem? fun i => ?_
    simp only [toList_extract, List.extract_eq_take_drop, List.getElem?_take, List.getElem?_drop,
      getElem?_toList]
    split
    · exact h.stack.below _ (by omega)
    · rfl
  unfold Machine.beginHost
  by_cases hm : 0 ≤ m.sp - r.arity ∧ m.sp ≤ m.stack.size
  · simp only [if_pos hm, if_pos (hroom.1 hm)]
    refine .ok ?_ ⟨K₁, hK₁, { h with base := by rw [h.sp] }⟩
    rw [hargs, h.sp, h.base]
  · simp only [if_neg hm, if_neg (mt hroom.2 hm)]
    exact .error ⟨K₁, hK₁, h⟩

theorem Near.push (v : Slot) (k : Kind) : Steady False (Near f K) (push v k) := by
  intro m n h
  have hpush := (Based.push (f := f) (K := K) (b := m.base) v k).mono (fun _ _ h => h.2)
    (fun _ _ h => h.2) fun _ _ h => h
  exact hpush ⟨rfl, h⟩

theorem Near.pushArgs (args : List Slot) (inputs : List Ty) :
    Steady False (Near f K) (pushArgs args inputs) := by
  induction args generalizing inputs with
  | nil => exact .pure rfl
  | cons v vs ih =>
    cases inputs with
    | nil => exact .pure rfl
    | cons t ts => exact (Near.push _ _).bindEq fun _ => ih ts

theorem Near.endHost (hbottom : call.bottom ≤ K) (v : Slot) :
    Steady False (Near f K) (endHost call v) := by
  rw [endHost_eq]
  refine .bindEq (Near.setBase call.base) fun _ => .bindEq (Near.writeStack (.inl hbottom) v _) fun _ =>
    .bindEq (R := Near f (max K (call.bottom + 1))) ?_ fun _ => .modify fun m n h => ?_
  · refine .get fun m n h => ?_
    obtain ⟨_, -, hagree⟩ := h
    refine .ite (by rw [hagree.tagged]) (fun _ => ?_) fun _ => .pure rfl
    unfold writeResult
    cases call.routine.returnKind? with
    | none => exact .fault _ fun _ _ h => h.mono (Int.le_max_left ..)
    | some k =>
      exact (Near.writeStack (.inl (by omega)) v k).mono (fun _ _ h => h.mono (Int.le_max_left ..))
        (fun _ _ h => h.mono (Int.le_max_left ..)) fun _ _ h => h
  · obtain ⟨K₁, hK₁, h⟩ := h
    exact ⟨K₁, by omega, h.setSp (by omega)⟩

theorem Near.beginBlock (code : Code) : Steady False (Near f K) (beginBlock code) := by
  rintro m n ⟨K₁, hK₁, h⟩
  refine .ok ?_ ⟨K₁, hK₁, { h with base := h.sp, halted := rfl }⟩
  rw [h.frames, h.sp, h.base]

theorem Near.beginCall (r : Routine) (args : List Slot) :
    Steady False (Near f K) (beginCall r args) := by
  refine .bindEq (R := Near f K) (.modify fun m n ⟨K₁, hK₁, h⟩ => ⟨K₁, hK₁, h.setHalted false⟩)
    fun _ => .get fun m n ⟨_, _, h⟩ => .get fun m' n' ⟨_, _, h'⟩ => .bindEq (Near.pushArgs _ _) fun _ => ?_
  rw [← h.sp, ← h'.base]
  cases r.body with
  | host builtin => exact .bindEq (Near.beginHost r builtin) fun _ => .pure rfl
  | compiled code ks =>
    refine .get fun m n ⟨_, _, h⟩ => ?_
    rw [← h.frames]
    refine .bindEq (Near.enter r) fun base => .bindEq (Near.setBase base) fun _ => ?_
    cases code with
    | none => exact .fault _ fun _ _ h => h
    | some code => exact .pure rfl

theorem Near.writeGlobal (index : Int) (v : Slot) {α : Type} {x : Op α}
    (hx : Steady False (Near f K) x) :
    Pairs False (Near f K) (Near f K) (Near f K) Eq
      (do set (← require ((← get).setGlobal? index v)); x)
      (do set (← require ((← get).setGlobal? index v)); x) := by
  rintro m n ⟨K₁, hK₁, h⟩
  change Op.Alike False _ _ _ ((require (m.setGlobal? index v) >>= _) m)
    ((require (n.setGlobal? index v) >>= _) n)
  unfold setGlobal?
  rw [← h.heap]
  by_cases hi : 0 ≤ index ∧ index < m.heap.size
  · rw [if_pos hi, if_pos hi]
    exact hx ⟨K₁, hK₁, h.setHeap (by simp)⟩
  · rw [if_neg hi, if_neg hi]
    exact .error ⟨K₁, hK₁, h⟩

theorem Near.scriptStep (hbottom : call.bottom ≤ K) (script : HostScript) :
    Steady False (Near f K) (scriptStep call script) := by
  cases script with
  | done v => exact (Near.endHost hbottom v).bindEq fun _ => .pure rfl
  | log line next =>
    exact .bindEq (R := Near f K) (.modify fun m n ⟨K₁, hK₁, h⟩ => ⟨K₁, hK₁, h.setJournal _ _⟩) fun _ =>
      .pure rfl
  | registers next =>
    refine .get fun m n ⟨_, _, h⟩ => ?_
    simp only [registers, h.sp, h.base, h.halted]
    exact .pure rfl
  | object handle next =>
    refine .get fun m n ⟨_, _, h⟩ => ?_
    simp only [object, h.objects]
    exact .pure rfl
  | stack next =>
    refine .get fun m n ⟨K₁, _, h⟩ => ?_
    have htop := h.top
    have hlive : m.liveStack? = n.liveStack? := by
      unfold liveStack?
      rw [← h.sp, ← h.stack.size]
      split
      · rw [h.stack.take_eq (by omega)]
      · rfl
    rw [hlive]
    exact .bindEq (.require rfl fun _ _ h => h) fun _ => .pure rfl
  | readGlobal index next =>
    refine .get fun m n ⟨_, _, h⟩ => ?_
    simp only [global?, h.heap]
    exact .bindEq (.require rfl fun _ _ h => h) fun _ => .pure rfl
  | writeGlobal index value next => exact Near.writeGlobal index value (.pure rfl)
  | newObject value next =>
    refine .bindEq (x := modifyGet fun m => m.newObject value) (R := Near f K) ?_ fun _ => .pure rfl
    rintro m n ⟨K₁, hK₁, h⟩
    exact .ok (by rw [h.objects]) ⟨K₁, hK₁, { h with objects := by rw [h.objects] }⟩
  | call index args next =>
    refine .get fun m n ⟨_, _, h⟩ => ?_
    simp only [callee, h.routines]
    split
    · exact .pure rfl
    · exact .bindEq (Near.beginCall _ _) fun _ => .pure rfl
  | execute code next => exact .bindEq (Near.beginBlock code) fun _ => .pure rfl

theorem endCall_of_some {v : Slot} (base : Int)
    (h : (if m.halted then some .zero else at? m.stack bottom) = some v) :
    endCall bottom base m = .ok v { m with sp := bottom, base } := by
  refine (bind_of_ok rfl).trans ?_
  by_cases hhalted : m.halted
  · rw [if_pos hhalted] at h ⊢
    cases h
    rfl
  · rw [if_neg hhalted] at h ⊢
    exact Op.bind_eq_ok.2 ⟨m, m, rfl, Op.bind_eq_ok.2 ⟨v, m, Op.require_eq_ok.2 ⟨h, rfl⟩, rfl⟩⟩

theorem endCall_of_none (base : Int) (h : (if m.halted then some .zero else at? m.stack bottom) = none) :
    endCall bottom base m = .error .outOfRange m := by
  by_cases hhalted : m.halted
  · rw [if_pos hhalted] at h
    cases h
  · rw [if_neg hhalted] at h
    refine (bind_of_ok rfl).trans ?_
    rw [if_neg hhalted]
    refine (bind_of_ok rfl).trans (bind_of_error ?_)
    rw [h]
    rfl

/-- A call from the host ends alike, if its result is from a slot that is the same. -/
theorem Agree.endCall (h : Agree f K m n) (hbottom : bottom ≤ K)
    (hresult : m.halted = true ∨ bottom < K ∨ f.shape.stack ≤ bottom) (base : Int) :
    Op.Alike False (Near f K) (Near f K) Eq (endCall bottom base m) (endCall bottom base n) := by
  have hread : (if m.halted then some .zero else at? m.stack bottom) =
      if n.halted then some .zero else at? n.stack bottom := by
    rw [← h.halted]
    split
    · rfl
    · next hhalted => exact h.stack.at?_eq (h.stackSize.symm ▸ hresult.resolve_left hhalted)
  cases hm : if m.halted then some .zero else at? m.stack bottom with
  | none =>
    rw [endCall_of_none base hm, endCall_of_none base (hread ▸ hm)]
    exact .error h.near
  | some v =>
    rw [endCall_of_some base hm, endCall_of_some base (hread ▸ hm)]
    exact .ok rfl ((h.setSp hbottom).setBase base).near

end Machine
end Stackwork
