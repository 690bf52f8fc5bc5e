import Stackwork.Proofs.Machine.Cells

/-!
# Variables, calls and results in cells

What the operations that reach into frames and across them do to the cells of a stack, on
machines that keep kinds and on machines that do not: variables, the frame of a routine, the
result that takes the place of a frame, and the arguments of host functions. As with pushes and
pops, nothing but room is needed as long as every cell is read as the kind it was written as.
-/
namespace Stackwork

open List

namespace Machine

open Op (Takes)

variable {α : Type}

theorem at?_natCast (xs : Array α) (i : Nat) : at? xs i = xs[i]? := by
  simp [at?]

theorem exists_of_at? {xs : Array α} {i : Int} {a : α} (h : at? xs i = some a) :
    ∃ n : Nat, i = n ∧ xs[n]? = some a := by
  unfold at? at h
  split at h
  · next nonneg => exact ⟨i.toNat, (Int.toNat_of_nonneg nonneg).symm, h⟩
  · cases h

/-- Write a global with its kind. -/
def Aside.setGlobal (o : Aside) (slot : Nat) (v : Slot) (k : Kind) : Aside :=
  { o with
    heap := o.heap.setIfInBounds slot v
    heapTags := if o.settings.tagged then o.heapTags.setIfInBounds slot k else o.heapTags }

namespace Shows

variable {size : Nat} {cells : List Tagged} {sp : Int} {o : Aside} {m : Machine}

section

variable (h : m.Shows size cells sp o)
include h

theorem heap_eq : m.heap = o.heap := congrArg Aside.heap h.aside

theorem heapTags_eq : m.heapTags = o.heapTags :=
  congrArg Aside.heapTags h.aside

theorem frames_eq : m.frames = o.frames := congrArg Aside.frames h.aside

theorem exe_eq : m.exe = o.exe := congrArg Aside.exe h.aside

theorem setBase (base : Int) : { m with base }.Shows size cells sp { o with base } :=
  ⟨h.tagsSize, h.size, h.slots, h.tags, h.sp, by rw [← h.aside]; rfl⟩

theorem setFrames (frames : Array Frame) :
    { m with frames }.Shows size cells sp { o with frames } :=
  ⟨h.tagsSize, h.size, h.slots, h.tags, h.sp, by rw [← h.aside]; rfl⟩

theorem setHalted (halted : Bool) : { m with halted }.Shows size cells sp { o with halted } :=
  ⟨h.tagsSize, h.size, h.slots, h.tags, h.sp, by rw [← h.aside]; rfl⟩

/-- Where kinds are not kept they can be anything. -/
theorem rekind {cells' : List Tagged} (untagged : o.settings.tagged = false)
    (same : cells'.map (·.slot) = cells.map (·.slot)) : m.Shows size cells' sp o where
  tagsSize := h.tagsSize
  size := h.size
  slots := same ▸ h.slots
  tags tagged := by
    rw [h.settings_eq, untagged] at tagged
    cases tagged
  sp := h.sp
  aside := h.aside

end

variable {i : Nat} {c : Tagged}

/-- A known cell is in the stack. -/
theorem stack_eq (h : m.Shows size cells sp o) (hc : cells[i]? = some c) : m.stack[i]? = some c.slot := by
  rw [← at?_natCast]
  exact at?_of_initial h.slots (by simp [hc])

theorem stackTags_eq (h : m.Shows size cells sp o) (tagged : m.settings.tagged) (hc : cells[i]? = some c) :
    m.stackTags[i]? = some c.kind := by
  rw [← at?_natCast]
  exact at?_of_initial (h.tags tagged) (by simp [hc])

end Shows

/-- Values written one behind the other follow what was known of an array. -/
theorem prefix_foldl_set {α : Type} {xs : List α} {ts : Array α} (h : xs <+: ts.toList) (ks : List α)
    {b n : Nat} (len : xs.length = b + n) (room : xs.length + ks.length ≤ ts.size) :
    xs ++ ks <+: ((ks.zipIdx n).foldl (fun ts x => ts.setIfInBounds (b + x.2) x.1) ts).toList := by
  induction ks generalizing xs n ts with
  | nil => simpa using h
  | cons k ks ih =>
    rw [length_cons] at room
    have hset := prefix_set h (Nat.le_refl _) (by simp; omega) k
    rw [take_length, drop_eq_nil_of_le (Nat.le_succ _), len] at hset
    rw [zipIdx_cons, foldl_cons, ← singleton_append, ← append_assoc]
    refine ih (by simpa using hset) (by simp; omega) ?_
    simp
    omega

namespace Cells

variable {size : Nat} {cells : List Tagged} {sp : Int} {o : Aside}

variable {slot : Nat} {r : Routine} {args above : List Tagged}

variable {k : Kind} {depth : Nat} {exe : Executable} {index : Int} {inputs : List Ty}

/-- Reading a global. -/
theorem readHeap {v : Slot} (hv : o.heap[slot]? = some v)
    (hk : o.settings.tagged → o.heapTags[slot]? = some k) :
    Takes size 0 (Shows size cells sp o) (readHeap slot k)
      fun a m => a = v ∧ m.Shows size cells sp o := by
  refine .get fun m h => ?_
  rw [h.heap_eq]
  refine (Takes.require ((at?_natCast _ _).trans hv)).read (.get fun m h => ?_)
  rw [h.settings_eq]
  cases htagged : o.settings.tagged with
  | false => exact .pure fun m h => ⟨rfl, h⟩
  | true =>
    refine .get fun m h => ?_
    rw [h.heapTags_eq]
    refine (Takes.require ((at?_natCast _ _).trans (hk htagged))).read ?_
    rw [checkTag_self]
    exact .pure fun m h => ⟨rfl, h⟩

/-- Writing a global. -/
theorem writeHeap (hslot : slot < o.heap.size) (v : Slot) (k : Kind) :
    Takes size 0 (Shows size cells sp o) (writeHeap slot v k)
      fun _ => Shows size cells sp (o.setGlobal slot v k) := by
  refine .of_ok fun m h => ?_
  refine ⟨(), _, if_pos (by rw [h.heap_eq]; omega), h.tagsSize, h.size, h.slots, h.tags, h.sp, ?_⟩
  rw [← h.aside]
  rfl

/-- Writing a cell that is known. -/
theorem overwrite (hslot : slot < cells.length) (v : Slot) (k : Kind) :
    Takes size 0 (Shows size cells sp o) (Machine.writeStack slot v k)
      fun _ => Shows size (cells.set slot ⟨v, k⟩) sp o := by
  rw [set_eq_take_append_cons_drop, if_pos hslot]
  exact (writeStack (Nat.le_of_lt hslot) v k).free fun m h => Nat.le_trans hslot h.length_le

/-- Forgetting the top cell. -/
theorem drop (t : Tagged) :
    Takes size 0 (Tops size (cells ++ [t]) o) (modify fun m => { m with sp := m.sp - 1 })
      fun _ => Tops size cells o := by
  refine .modify fun m h => ?_
  have hsp : m.sp - 1 = cells.length := by
    rw [h.sp, length_append, length_singleton]
    omega
  exact hsp ▸ h.lower.setSp _

/-- The cells of a frame: the arguments, and cleared cells behind them. -/
def frameOf (r : Routine) (args : List Tagged) : List Tagged :=
  args ++ (r.locals.drop args.length).map fun k => ⟨.zero, k⟩

theorem length_frameOf (h : args.length ≤ r.locals.length) :
    (frameOf r args).length = r.locals.length := by
  simp [frameOf]
  omega

theorem slots_frameOf (r : Routine) (args : List Tagged) : (frameOf r args).map (·.slot) =
    args.map (·.slot) ++ replicate (r.locals.length - args.length) .zero := by
  rw [frameOf, map_append, map_map, ← length_drop]
  exact congrArg _ (map_const' ..)

/-- The frame of a routine is laid out over its arguments. -/
theorem enter (arity : args.length = r.arity) (fits : r.arity ≤ r.locals.length)
    (kinds : args.map (·.kind) = r.locals.take args.length) :
    Takes size (cells.length + r.locals.length) (Tops size (cells ++ args) o) (enter r)
      fun b m => b = cells.length ∧ m.Tops size (cells ++ frameOf r args) o := by
  intro m h
  have hsize := h.size
  have hsp := h.sp
  rw [length_append, arity] at hsp
  have hbase : m.sp - r.arity = cells.length := by omega
  refine ⟨fun hroom => ?_, fun hfull => ⟨m, if_neg (by rw [hbase]; omega)⟩⟩
  refine ⟨_, _, if_pos (by rw [hbase]; omega), hbase, ?_⟩
  have hlen := length_frameOf (arity ▸ fits : args.length ≤ r.locals.length)
  have hsp' : m.sp.toNat = ((cells ++ args).map (·.slot)).length := by
    rw [h.sp, Int.toNat_natCast, length_map]
  have hn : (m.sp - r.arity + r.locals.length - m.sp).toNat = r.locals.length - args.length := by
    omega
  refine ⟨fun tagged => ?tagsSize, by simp [size_clearFrom, hsize], ?slots, fun tagged => ?tags, ?sp,
    h.aside⟩
  case tagsSize =>
    have tagged : m.settings.tagged := tagged
    simp only [tagged, if_true]
    rw [size_foldl_setIfInBounds]
    exact h.tagsSize tagged
  case slots =>
    have hclear := prefix_clearFrom h.slots (n := r.locals.length - args.length) (by simp; omega)
    rw [map_append, slots_frameOf, ← append_assoc, ← map_append]
    simpa only [hsp', hn] using hclear
  case tags =>
    have tagged : m.settings.tagged := tagged
    have htags := h.tags tagged
    rw [map_append] at htags
    have hbelow := (prefix_append _ _).trans htags
    have hset := prefix_foldl_set hbelow r.locals (b := cells.length) (n := 0) (by simp)
      (by simp only [length_map, h.tagsSize tagged]; omega)
    have hkinds : (cells ++ frameOf r args).map (·.kind) = cells.map (·.kind) ++ r.locals := by
      rw [frameOf, map_append, map_append, kinds, map_map]
      congr 1
      exact (congrArg _ (map_id _)).trans (take_append_drop _ _)
    rw [hkinds]
    simp only [tagged, if_true, hbase, Int.toNat_natCast]
    exact hset
  case sp =>
    simp only [length_append, hlen]
    omega

/-- The result of a routine takes the place of its frame. -/
theorem putResult (base : o.base = cells.length) (v : Slot) (k : Kind) :
    Takes size (cells.length + 1) (Shows size (cells ++ above) sp o) (putResult k v)
      fun _ => Tops size (cells ++ [⟨v, k⟩]) o := by
  refine .get fun m h => ?_
  simp only [h.base_eq, base]
  refine (writeStack (by simp) v k).andThen fun _ => .modify fun m h => ?_
  rw [take_left, ← singleton_append, ← append_assoc] at h
  have hsp : (cells.length : Int) + 1 = (cells ++ [(⟨v, k⟩ : Tagged)]).length := by simp
  rw [hsp]
  exact h.lower.setSp _

/-- A return to the code that called. -/
theorem handBack_move {f : Frame} {frames : Array Frame} (base : o.base = cells.length)
    (top : o.frames = frames.push f) (inner : depth ≤ frames.size) (k : Kind) (v : Slot) :
    Takes size (cells.length + 1) (Shows size (cells ++ above) sp o) (handBack k depth v)
      fun next m => next = .move f.code f.pc ∧
        m.Tops size (cells ++ [⟨v, k⟩]) { o with frames, base := f.base } := by
  rw [handBack]
  refine (putResult base v k).andThen fun _ => .get fun m h => ?_
  rw [h.frames_eq, top, if_neg (by rw [Array.size_push]; omega)]
  refine .get fun m h => ?_
  rw [h.frames_eq, top, Array.back?_push]
  have hpop : Takes size 0 (Tops size (cells ++ [⟨v, k⟩]) o)
      (modify fun m => { m with frames := m.frames.pop, base := f.base })
      fun _ => Tops size (cells ++ [⟨v, k⟩]) { o with frames, base := f.base } := by
    refine .modify fun m h => ?_
    have hpop : m.frames.pop = frames := by rw [h.frames_eq, top, Array.pop_push]
    rw [hpop]
    exact (h.setFrames frames).setBase f.base
  exact hpop.after fun _ => .pure fun m h => ⟨rfl, h⟩

/-- A return to the host. -/
theorem handBack_leave (base : o.base = cells.length) (outermost : o.frames.size = depth) (k : Kind)
    (v : Slot) : Takes size (cells.length + 1) (Shows size (cells ++ above) sp o) (handBack k depth v)
      fun next m => next = .leave ∧ m.Tops size (cells ++ [⟨v, k⟩]) o := by
  rw [handBack]
  refine (putResult base v k).andThen fun _ => .get fun m h => ?_
  rw [h.frames_eq, if_pos outermost]
  exact .pure fun m h => ⟨rfl, h⟩

/-- A call of compiled code. -/
theorem callRoutine_code (loaded : o.exe = some exe) (found : at? exe.routines index = some r)
    {target : Code} (body : r.code? = some target) (arity : args.length = r.arity)
    (fits : r.arity ≤ r.locals.length) (kinds : args.map (·.kind) = r.locals.take args.length)
    (code : Code) (pc : Int) : Takes size (cells.length + r.locals.length) (Tops size (cells ++ args) o)
      (callRoutine code pc index) fun next m => next = .move target 0 ∧
        m.Tops size (cells ++ frameOf r args)
          { o with frames := o.frames.push ⟨code, pc, o.base⟩, base := cells.length } := by
  refine .get fun m h => ?_
  have hroutines : m.routines = exe.routines := by rw [routines, h.exe_eq, loaded]
  rw [hroutines]
  refine (Takes.require found).read ?_
  unfold Routine.code? at body
  cases hbody : r.body with
  | host builtin =>
    rw [hbody] at body
    cases body
  | compiled code? ks =>
    rw [hbody] at body
    subst body
    have hpush : Takes size 0 (Tops size (cells ++ args) o)
        (modify fun m => { m with frames := m.frames.push ⟨code, pc, m.base⟩ })
        fun _ => Tops size (cells ++ args) { o with frames := o.frames.push ⟨code, pc, o.base⟩ } := by
      refine .modify fun m h => ?_
      have hframes : m.frames.push ⟨code, pc, m.base⟩ = o.frames.push ⟨code, pc, o.base⟩ := by
        rw [h.frames_eq, h.base_eq]
      rw [hframes]
      exact h.setFrames _
    refine hpush.after fun _ => (enter arity fits kinds).readThen ?_
    exact Takes.after (.modify fun m h => h.setBase _) fun _ => .pure fun m h => ⟨rfl, h⟩

/-- A call of a host function. -/
theorem callRoutine_host (loaded : o.exe = some exe) (found : at? exe.routines index = some r)
    {builtin : Builtin} (body : r.body = .host builtin) (code : Code) (pc : Int) :
    Takes size 0 (Tops size cells o) (callRoutine code pc index)
      fun next m => next = .host r builtin pc ∧ m.Tops size cells o := by
  refine .get fun m h => ?_
  have hroutines : m.routines = exe.routines := by rw [routines, h.exe_eq, loaded]
  rw [hroutines]
  refine (Takes.require found).read ?_
  rw [body]
  exact .pure fun m h => ⟨rfl, h⟩

/-- The arguments of a host function are what is on top. -/
theorem beginHost (arity : args.length = r.arity) (builtin : Builtin) :
    Takes size 0 (Tops size (cells ++ args) o) (beginHost r builtin)
      fun t m => t = .script ⟨r, cells.length, o.base⟩ (builtin (args.map (·.slot))) ∧
        m.Tops size (cells ++ args) { o with base := cells.length } := by
  refine .of_ok fun m h => ?_
  have hsize := h.size
  have hlen := h.length_le
  have hsp := h.sp
  have hbottom : m.sp - r.arity = cells.length := by
    rw [hsp, length_append]
    omega
  refine ⟨_, _, if_pos (by omega), ?_, ?_⟩
  · have hargs : (m.stack.extract (m.sp - r.arity).toNat m.sp.toNat).toList = args.map (·.slot) := by
      obtain ⟨rest, hrest⟩ := h.slots
      rw [hbottom, hsp, Int.toNat_natCast, Int.toNat_natCast, Array.toList_extract, ← hrest]
      simp
    rw [hargs, hbottom, h.base_eq]
  · rw [hbottom]
    exact h.setBase _

/-- The result of a host function takes the place of its arguments. -/
theorem endHost (returns : r.returnKind? = some k) (base : Int) (v : Slot) :
    Takes size (cells.length + 1) (Shows size (cells ++ above) sp o)
      (endHost ⟨r, cells.length, base⟩ v) fun _ => Tops size (cells ++ [⟨v, k⟩]) { o with base } := by
  have hput (k : Kind) {above : List Tagged} : Takes size (cells.length + 1)
      (Shows size (cells ++ above) sp { o with base }) (Machine.writeStack cells.length v k)
      fun _ => Shows size (cells ++ [⟨v, k⟩]) sp { o with base } := by
    refine (writeStack (by simp) v k).mono (fun _ h => h) fun _ m h => ?_
    rw [take_left, ← singleton_append, ← append_assoc] at h
    exact h.lower
  have hsp (k : Kind) : (cells.length : Int) + 1 = (cells ++ [(⟨v, k⟩ : Tagged)]).length := by simp
  refine Takes.after (.modify fun m h => h.setBase base) fun _ => ?_
  refine (hput .none).andThen fun _ => .get fun m h => ?_
  rw [h.settings_eq]
  cases htagged : o.settings.tagged with
  | false =>
    refine .modify fun m h => ?_
    rw [hsp k]
    exact (h.rekind htagged (by simp)).setSp _
  | true =>
    simp only [returns, if_true]
    refine Takes.after ((hput k).free fun m h => ?_) fun _ => .modify fun m h => ?_
    · simpa using h.length_le
    · rw [hsp k]
      exact h.setSp _

/-- Arguments with the kinds of the parameters. -/
def passed (args : List Slot) (inputs : List Ty) : List Tagged :=
  List.zipWith (fun v t => ⟨v, Kind.ofTy t⟩) args inputs

theorem length_passed {args : List Slot} (h : args.length = inputs.length) :
    (passed args inputs).length = args.length := by
  simp [passed, h]

theorem pushArgs {args : List Slot} (len : args.length = inputs.length) :
    Takes size (cells.length + args.length) (Tops size cells o) (pushArgs args inputs)
      fun _ => Tops size (cells ++ passed args inputs) o := by
  induction args generalizing inputs cells with
  | nil =>
    refine Takes.relevel (.pure fun m h => ?_) fun m h =>
      iff_of_true (Nat.zero_le _) (by simpa using h.length_le)
    simpa [passed] using h
  | cons v args ih =>
    cases inputs with
    | nil => cases len
    | cons t inputs =>
      have hpush : Takes size (cells.length + 1) (Tops size cells o) (Machine.push v (Kind.ofTy t))
          fun _ => Tops size (cells ++ [⟨v, Kind.ofTy t⟩]) o := push v (Kind.ofTy t)
      have h := hpush.bind fun _ => ih (Nat.succ.inj len)
      rw [length_append, length_singleton, Nat.max_eq_right (by omega)] at h
      have hcells : cells ++ [⟨v, Kind.ofTy t⟩] ++ passed args inputs =
          cells ++ passed (v :: args) (t :: inputs) := by simp [passed]
      rw [hcells] at h
      rw [length_cons, Nat.add_comm args.length, ← Nat.add_assoc]
      exact h

end Cells
end Machine
end Stackwork
