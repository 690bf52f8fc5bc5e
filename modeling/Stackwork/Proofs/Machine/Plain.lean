import Stackwork.Proofs.Machine.Handover

/-!
# Machines that keep no kinds

The state of an untagged machine is described by `Machine.Holds`: the live part of the stack as
a list, the registers, and the world the program acts on. What lies above the live part, and
the journal, do not matter. Such a machine shows its slots as cells of any kinds, so what an
operation does to slots follows from what it does to cells.
-/
namespace Stackwork

open List

namespace Machine

open Op (Takes)

/-- What is known of an untagged machine at work: the program, how the stack begins, the
registers, and the world. -/
structure Holds (exe : Executable) (size : Nat) (cells : List Slot) (sp base : Int)
    (frames : Array Frame) (world : World) (m : Machine) : Prop where
  exe : m.exe = some exe
  tagged : m.settings.tagged = false
  size : m.stack.size = size
  stack : cells <+: m.stack.toList
  sp : m.sp = sp
  base : m.base = base
  frames : m.frames = frames
  world : m.world = world

/-- The known part of the stack is its live part. -/
abbrev Live (exe : Executable) (size : Nat) (cells : List Slot) (base : Int) (frames : Array Frame)
    (world : World) (m : Machine) : Prop :=
  m.Holds exe size cells cells.length base frames world

/-- What an untagged machine at work has besides its stack. -/
structure Aside.Plain (exe : Executable) (base : Int) (frames : Array Frame) (world : World)
    (o : Aside) : Prop where
  exe : o.exe = some exe
  tagged : o.settings.tagged = false
  base : o.base = base
  frames : o.frames = frames
  world : ⟨o.heap, o.objects, o.halted⟩ = world

/-- Slots as cells of one kind. -/
def alike (k : Kind) (vs : List Slot) : List Tagged := vs.map (⟨·, k⟩)

@[simp] theorem length_alike (k : Kind) (vs : List Slot) : (alike k vs).length = vs.length :=
  length_map _

@[simp] theorem slots_alike (k : Kind) (vs : List Slot) : (alike k vs).map (·.slot) = vs :=
  (map_map ..).trans (map_id _)

/-- Slots with the kinds of a list. -/
theorem exists_cells {vs : List Slot} {ks : List Kind} (len : vs.length = ks.length) :
    ∃ cs : List Tagged, cs.map (·.slot) = vs ∧ cs.map (·.kind) = ks := by
  refine ⟨(vs.zip ks).map fun p => ⟨p.1, p.2⟩, ?_, ?_⟩ <;> rw [map_map]
  · exact map_fst_zip (Nat.le_of_eq len)
  · exact map_snd_zip (Nat.le_of_eq len.symm)

variable {exe : Executable} {size : Nat} {cells : List Slot} {sp base : Int} {frames : Array Frame}
  {world : World} {m : Machine} {cs : List Tagged}

theorem Shows.holds {o : Aside} {sp' : Int} (h : m.Shows size cs sp' o) (ho : o.Plain exe base frames world)
    (hcs : sp' = sp ∧ cs.map (·.slot) = cells) :
    m.Holds exe size cells sp base frames world where
  exe := h.exe_eq.trans ho.exe
  tagged := (congrArg _ h.settings_eq).trans ho.tagged
  size := h.size
  stack := hcs.2 ▸ h.slots
  sp := h.sp.trans hcs.1
  base := h.base_eq.trans ho.base
  frames := h.frames_eq.trans ho.frames
  world := by
    rw [← ho.world, ← h.aside]
    rfl

namespace Holds

section

variable (h : m.Holds exe size cells sp base frames world)
include h

theorem plain : m.aside.Plain exe base frames world :=
  ⟨h.exe, h.tagged, h.base, h.frames, h.world⟩

/-- The kinds of the cells do not matter. -/
theorem shows (hcs : cs.map (·.slot) = cells) : m.Shows size cs sp m.aside where
  tagsSize tagged := absurd tagged (by simp [h.tagged])
  size := h.size
  slots := hcs ▸ h.stack
  tags tagged := absurd tagged (by simp [h.tagged])
  sp := h.sp
  aside := rfl

theorem length_le : cells.length ≤ size := by
  rw [← h.size, ← Array.length_toList]
  exact h.stack.length_le

theorem heap_eq : m.heap = world.globals :=
  congrArg World.globals h.world

theorem halted_eq : m.halted = world.halted :=
  congrArg World.halted h.world

theorem routines_eq : m.routines = exe.routines := by
  rw [routines, h.exe]

/-- The journal does not matter. -/
theorem write (line : String) : (m.write line).Holds exe size cells sp base frames world :=
  ⟨h.exe, h.tagged, h.size, h.stack, h.sp, h.base, h.frames, h.world⟩

end

/-- The upper part of the stack may be left out. -/
theorem lower {above : List Slot} (h : m.Holds exe size (cells ++ above) sp base frames world) :
    m.Holds exe size cells sp base frames world :=
  { h with stack := (prefix_append cells above).trans h.stack }

section

variable (h : m.Holds exe size cells sp base frames world)
include h

theorem setSp (sp' : Int) : { m with sp := sp' }.Holds exe size cells sp' base frames world :=
  { h with sp := rfl }

theorem setBase (base' : Int) :
    { m with base := base' }.Holds exe size cells sp base' frames world :=
  { h with base := rfl }

theorem setFrames (frames' : Array Frame) :
    { m with frames := frames' }.Holds exe size cells sp base frames' world :=
  { h with frames := rfl }

end

end Holds

variable {level : Nat} {t : Tagged} {r : Routine} {args : List Slot} {index : Int}

/-- What an operation does to cells it does to slots. -/
theorem takes_of_cells {α : Type} {level' : Nat} {sp' : Int} {x : Op α} {q : Aside → α → Machine → Prop}
    {post : α → Machine → Prop} (cs : List Tagged) (hcs : sp' = sp ∧ cs.map (·.slot) = cells ∧ level' = level)
    (h : ∀ o : Aside, o.Plain exe base frames world → Takes size level' (Shows size cs sp' o) x (q o))
    (hq : ∀ o a m, o.Plain exe base frames world → q o a m → post a m) :
    Takes size level (Holds exe size cells sp base frames world) x post := by
  obtain ⟨rfl, hcs, rfl⟩ := hcs
  intro m hm
  exact ((h _ hm.plain).mono (fun _ h => h) fun a m' => hq _ a m' hm.plain) (hm.shows hcs)

variable {slot depth : Nat} {v : Slot} {k : Kind} {above : List Slot}

/-- Overwriting a known slot. -/
theorem takes_overwrite (hslot : slot < cells.length) (v : Slot) (k : Kind) :
    Takes size 0 (Holds exe size cells sp base frames world) (writeStack slot v k)
      fun _ => Holds exe size (cells.set slot v) sp base frames world :=
  takes_of_cells (alike .none cells) ⟨rfl, by simp⟩ (fun o _ => Cells.overwrite (by simpa) v k)
    fun o _ m ho h => h.holds ho (by simp [map_set])

theorem takes_readStack (hv : cells[slot]? = some v) (k : Kind) :
    Takes size 0 (Holds exe size cells sp base frames world) (readStack slot k)
      fun a m => a = v ∧ m.Holds exe size cells sp base frames world :=
  takes_of_cells (alike k cells) ⟨rfl, by simp⟩ (fun o _ => Cells.readStack (by simp [alike, hv]))
    fun o a m ho h => ⟨h.1, h.2.holds ho (by simp)⟩

theorem takes_push (v : Slot) (k : Kind) :
    Takes size (cells.length + 1) (Live exe size cells base frames world) (push v k)
      fun _ => Live exe size (cells ++ [v]) base frames world :=
  takes_of_cells (alike .none cells) (by simp) (fun o _ => Cells.push v k) fun o _ m ho h => h.holds ho (by simp)

theorem takes_pop (v : Slot) (k : Kind) :
    Takes size 0 (Live exe size (cells ++ [v]) base frames world) (pop k)
      fun a m => a = v ∧ m.Live exe size cells base frames world :=
  takes_of_cells (alike .none cells ++ [⟨v, k⟩]) (by simp) (fun o _ => Cells.pop v k)
    fun o a m ho h => ⟨h.1, h.2.holds ho (by simp)⟩

theorem takes_popInt (v : Slot) :
    Takes size 0 (Live exe size (cells ++ [v]) base frames world) popInt
      fun a m => a = v.toInt ∧ m.Live exe size cells base frames world :=
  takes_of_cells (alike .none cells ++ [⟨v, .int⟩]) (by simp) (fun o _ => Cells.popInt v)
    fun o a m ho h => ⟨h.1, h.2.holds ho (by simp)⟩

theorem takes_readHeap {slot : Int} (hv : at? world.globals slot = some v) (k : Kind) :
    Takes size 0 (Holds exe size cells sp base frames world) (readHeap slot k)
      fun a m => a = v ∧ m.Holds exe size cells sp base frames world := by
  obtain ⟨i, rfl, hi⟩ := exists_of_at? hv
  refine takes_of_cells (alike .none cells) ⟨rfl, by simp⟩ (fun o ho => Cells.readHeap ?_ fun tagged => ?_)
    fun o a m ho h => ⟨h.1, h.2.holds ho (by simp)⟩
  · rw [← hi, ← ho.world]
  · simp [ho.tagged] at tagged

theorem takes_writeHeap {slot : Int} {world' : World} (hset : world.setGlobal? slot v = some world')
    (k : Kind) : Takes size 0 (Holds exe size cells sp base frames world) (writeHeap slot v k)
      fun _ => Holds exe size cells sp base frames world' := by
  unfold World.setGlobal? at hset
  split at hset
  · next hrange =>
    cases hset
    lift slot to Nat using hrange.1
    refine takes_of_cells (alike .none cells) ⟨rfl, by simp⟩ (fun o ho => Cells.writeHeap ?_ v k)
      fun o _ m ho h => h.holds ⟨ho.exe, ho.tagged, ho.base, ho.frames, ?_⟩ (by simp)
    · have := hrange.2
      rw [← ho.world] at this
      simpa using this
    · rw [← ho.world]
      rfl
  · cases hset

theorem takes_unary {op : UnaryCode} {x : Slot} (h : op.on? k x = some t) :
    Takes size 0 (Live exe size (cells ++ [x]) base frames world) (unary op k)
      fun _ => Live exe size (cells ++ [t.slot]) base frames world :=
  takes_of_cells (alike .none cells ++ [⟨x, _⟩]) (by simp) (fun o _ => Cells.unary rfl h)
    fun o _ m ho h => h.holds ho (by simp)

theorem takes_binary {op : BinaryCode} {l r : Slot} (h : op.on? k l r = some t) :
    Takes size 0 (Live exe size (cells ++ [l] ++ [r]) base frames world) (binary op k)
      fun _ => Live exe size (cells ++ [t.slot]) base frames world :=
  takes_of_cells (alike .none cells ++ [⟨l, _⟩] ++ [⟨r, _⟩]) (by simp) (fun o _ => Cells.binary rfl h)
    fun o _ m ho h => h.holds ho (by simp)

theorem takes_select (k : Kind) (c a b : Slot) :
    Takes size 0 (Live exe size (cells ++ [c] ++ [a] ++ [b]) base frames world) (select k)
      fun _ => Live exe size (cells ++ [if c.toBool then a else b]) base frames world :=
  takes_of_cells (alike .none cells ++ [⟨c, .int⟩] ++ [⟨a, k⟩] ++ [⟨b, k⟩]) (by simp)
    (fun o _ => Cells.select k c a b) fun o _ m ho h => h.holds ho (by simp)

/-- Executing the instruction that is fetched. -/
theorem takes_dispatch {code : Code} {pc : Nat} {op : Opcode} {post : Next → Machine → Prop}
    (fetch : code.instr? pc = some (Instr.make op k))
    (hx : Takes size level (Holds exe size cells sp base frames world) (execute code (pc + 1) depth op k) post) :
    Takes size level (Holds exe size cells sp base frames world) (dispatch code pc depth) post :=
  .dispatch (fun _ line h => h.write line) fetch hx

/-- A return to the code that called. -/
theorem takes_handBack_move {f : Frame} (inner : depth ≤ frames.size) (k : Kind) (v : Slot) :
    Takes size (cells.length + 1)
      (Holds exe size (cells ++ above) sp cells.length (frames.push f) world) (handBack k depth v)
      fun next m => next = .move f.code f.pc ∧ m.Live exe size (cells ++ [v]) f.base frames world :=
  takes_of_cells (alike .none cells ++ alike .none above) ⟨rfl, by simp⟩
    (fun o ho => Cells.handBack_move (by simp [ho.base]) ho.frames inner k v)
    fun o a m ho h => ⟨h.1, h.2.holds ⟨ho.exe, ho.tagged, rfl, rfl, ho.world⟩ (by simp)⟩

/-- A return to the host. -/
theorem takes_handBack_leave (bottom : frames.size = depth) (k : Kind) (v : Slot) :
    Takes size (cells.length + 1)
      (Holds exe size (cells ++ above) sp cells.length frames world) (handBack k depth v)
      fun next m => next = .leave ∧ m.Live exe size (cells ++ [v]) cells.length frames world :=
  takes_of_cells (alike .none cells ++ alike .none above) ⟨rfl, by simp⟩
    (fun o ho => Cells.handBack_leave (by simp [ho.base]) (by rw [ho.frames, bottom]) k v)
    fun o a m ho h => ⟨h.1, h.2.holds ho (by simp)⟩

/-- The arguments of a host function are what is on top. -/
theorem takes_beginHost (arity : args.length = r.arity) (builtin : Builtin) :
    Takes size 0 (Live exe size (cells ++ args) base frames world) (beginHost r builtin)
      fun t m => t = .script ⟨r, cells.length, base⟩ (builtin args) ∧
        m.Live exe size (cells ++ args) cells.length frames world :=
  takes_of_cells (alike .none cells ++ alike .none args) (by simp) (fun o _ => Cells.beginHost (by simpa) builtin)
    fun o a m ho h => ⟨by simpa [ho.base] using h.1,
      h.2.holds ⟨ho.exe, ho.tagged, by simp, ho.frames, ho.world⟩ (by simp)⟩

/-- The result of a host function takes the place of its arguments. -/
theorem takes_endHost {base' : Int} (r : Routine) (v : Slot) :
    Takes size (cells.length + 1) (Holds exe size (cells ++ above) sp base' frames world)
      (endHost ⟨r, cells.length, base⟩ v)
      fun _ => Live exe size (cells ++ [v]) base frames world := by
  refine Takes.after (Takes.modify fun m h => h.setBase base) fun _ => ?_
  have hput : Takes size (cells.length + 1) (Holds exe size (cells ++ above) sp base frames world)
      (writeStack cells.length v .none) fun _ => Holds exe size (cells ++ [v] ++ above.drop 1) sp base frames world :=
    takes_of_cells (alike .none cells ++ alike .none above) ⟨rfl, by simp⟩
      (fun o _ => Cells.writeStack (by simp) v .none)
      fun o _ m ho h => h.holds ho (by simp [map_drop, drop_append])
  refine hput.andThen fun _ => .get fun m h => ?_
  rw [h.tagged]
  refine .modify fun m h => ?_
  have hsp : (cells.length : Int) + 1 = (cells ++ [v]).length := by simp
  rw [hsp]
  exact h.lower.setSp _

theorem takes_pushArgs {vs : List Slot} {ts : List Ty} (len : vs.length = ts.length) :
    Takes size (cells.length + vs.length) (Live exe size cells base frames world) (pushArgs vs ts)
      fun _ => Live exe size (cells ++ vs) base frames world := by
  have hslots : (Cells.passed vs ts).map (·.slot) = vs := by
    rw [Cells.passed, map_zipWith, ← map_uncurry_zip_eq_zipWith]
    exact map_fst_zip (Nat.le_of_eq len)
  exact takes_of_cells (alike .none cells) (by simp) (fun o _ => Cells.pushArgs len)
    fun o _ m ho h => h.holds ho (by simp [hslots, Cells.length_passed len])

theorem takes_endCall (running : world.halted = false) (base' : Int) :
    Takes size 0 (Holds exe size (cells ++ [v]) sp base frames world) (endCall cells.length base')
      fun a m => a = v ∧ m.Live exe size cells base' frames world := by
  refine .get fun m h => ?_
  rw [h.halted_eq, running]
  refine .get fun m h => ?_
  have hv : at? m.stack cells.length = some v := Shows.at?_of_initial h.stack (by simp)
  refine (Takes.require hv).read ?_
  exact (Takes.modify fun m h => ((h.lower.setSp _).setBase _)).after fun _ => .pure fun m h => ⟨rfl, h⟩

theorem takes_endCall_halted (halted : world.halted) (base' : Int) :
    Takes size 0 (Holds exe size (cells ++ above) sp base frames world) (endCall cells.length base')
      fun a m => a = .zero ∧ m.Live exe size cells base' frames world := by
  refine .get fun m h => ?_
  rw [h.halted_eq, halted]
  refine (Takes.pure fun m h => ⟨rfl, h⟩).read ?_
  exact (Takes.modify fun m h => ((h.lower.setSp _).setBase _)).after fun _ => .pure fun m h => ⟨rfl, h⟩

theorem takes_enter (arity : args.length = r.arity) (frame : r.arity ≤ r.locals.length) :
    Takes size (cells.length + r.locals.length) (Live exe size (cells ++ args) base frames world)
      (enter r) fun b m => b = cells.length ∧ m.Live exe size
        (cells ++ (args ++ replicate (r.locals.length - args.length) .zero)) base frames world := by
  obtain ⟨cs, rfl, hkinds⟩ := exists_cells (by simp; omega : args.length = (r.locals.take args.length).length)
  rw [length_map] at arity hkinds
  refine takes_of_cells (alike .none cells ++ cs) (by simp) (fun o _ => Cells.enter arity frame hkinds)
    fun o b m ho h => ⟨by simpa using h.1, h.2.holds ho ⟨?_, by simp [Cells.slots_frameOf]⟩⟩
  simp [Cells.frameOf]

/-- A call of compiled code. -/
theorem takes_callRoutine_code {target : Code} {ks : List Kind} (found : at? exe.routines index = some r)
    (body : r.body = .compiled (some target) ks) (arity : args.length = r.arity) (fits : r.arity ≤ ks.length)
    (code : Code) (pc : Int) :
    Takes size (cells.length + ks.length) (Live exe size (cells ++ args) base frames world)
      (callRoutine code pc index)
      fun next m => next = .move target 0 ∧ m.Live exe size
        (cells ++ (args ++ replicate (ks.length - args.length) .zero)) cells.length
        (frames.push ⟨code, pc, base⟩) world := by
  have hlocals : r.locals = ks := by rw [Routine.locals, body]
  subst hlocals
  obtain ⟨cs, rfl, hkinds⟩ := exists_cells (by simp; omega : args.length = (r.locals.take args.length).length)
  rw [length_map] at arity hkinds
  refine takes_of_cells (alike .none cells ++ cs) (by simp) (fun o ho => Cells.callRoutine_code ho.exe found
    (by rw [Routine.code?, body]) arity fits hkinds code pc) fun o b m ho h =>
      ⟨h.1, h.2.holds ⟨ho.exe, ho.tagged, by simp, by simp [ho.frames, ho.base], ho.world⟩
        ⟨?_, by simp [Cells.slots_frameOf]⟩⟩
  simp [Cells.frameOf]

theorem takes_callRoutine_host {builtin : Builtin} (found : at? exe.routines index = some r)
    (body : r.body = .host builtin) (code : Code) (pc : Int) :
    Takes size 0 (Live exe size cells base frames world) (callRoutine code pc index)
      fun next m => next = .host r builtin pc ∧ m.Live exe size cells base frames world :=
  takes_of_cells (alike .none cells) (by simp) (fun o ho => Cells.callRoutine_host ho.exe found body code pc)
    fun o a m ho h => ⟨h.1, h.2.holds ho (by simp)⟩

end Machine
end Stackwork
