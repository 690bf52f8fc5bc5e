import Stackwork.Proofs.Machine.Room

/-!
# Cells with their kinds

A stack cell is a slot with the kind it was written as. On an untagged machine the kinds are
only known to the reader; on a tagged one they are recorded next to the slots, and reading a
cell as another kind is a fault. `Machine.Shows` describes both sorts of machine by the cells
that the stack begins with and by everything that is not on the stack. As long as each cell is
read as the kind it was written as, an operation needs nothing but room.
-/
namespace Stackwork

namespace Machine

/-- What a machine has besides its stack and its journal. -/
structure Aside where
  settings : Settings
  heap : Array Slot
  heapTags : Array Kind
  base : Int
  frames : Array Frame
  exe : Option Executable
  objects : Array HostObject
  halted : Bool

def aside (m : Machine) : Aside where
  settings := m.settings
  heap := m.heap
  heapTags := m.heapTags
  base := m.base
  frames := m.frames
  exe := m.exe
  objects := m.objects
  halted := m.halted

/-- The stack of a machine begins with the given cells, and the rest of the machine is `o`. -/
structure Shows (size : Nat) (cells : List Tagged) (sp : Int) (o : Aside) (m : Machine) :
    Prop where
  tagsSize : m.settings.tagged → m.stackTags.size = size
  size : m.stack.size = size
  slots : cells.map (·.slot) <+: m.stack.toList
  tags : m.settings.tagged → cells.map (·.kind) <+: m.stackTags.toList
  sp : m.sp = sp
  aside : m.aside = o

/-- The given cells are the live part of the stack. -/
abbrev Tops (size : Nat) (cells : List Tagged) (o : Aside) (m : Machine) : Prop :=
  m.Shows size cells cells.length o

namespace Shows

variable {size : Nat} {cells : List Tagged} {sp : Int} {o : Aside} {m : Machine}

section

variable (h : m.Shows size cells sp o)
include h

theorem length_le : cells.length ≤ size := by
  have := h.slots.length_le
  simpa [h.size] using this

theorem settings_eq : m.settings = o.settings :=
  congrArg Aside.settings h.aside

theorem base_eq : m.base = o.base := congrArg Aside.base h.aside

theorem halted_eq : m.halted = o.halted := congrArg Aside.halted h.aside

end

/-- The upper cells may be left out. -/
theorem lower {above : List Tagged} (h : m.Shows size (cells ++ above) sp o) :
    m.Shows size cells sp o where
  size := h.size
  tagsSize := h.tagsSize
  slots := by
    have := h.slots
    rw [List.map_append] at this
    exact (List.prefix_append _ _).trans this
  tags tagged := by
    have := h.tags tagged
    rw [List.map_append] at this
    exact (List.prefix_append _ _).trans this
  sp := h.sp
  aside := h.aside

theorem setSp (h : m.Shows size cells sp o) (sp' : Int) :
    { m with sp := sp' }.Shows size cells sp' o :=
  ⟨h.tagsSize, h.size, h.slots, h.tags, rfl, h.aside⟩

/-- The journal does not matter. -/
theorem write (h : m.Shows size cells sp o) (line : String) : (m.write line).Shows size cells sp o :=
  ⟨h.tagsSize, h.size, h.slots, h.tags, h.sp, h.aside⟩

theorem at?_of_initial {α : Type} {xs : List α} {ys : Array α} (h : xs <+: ys.toList) {i : Nat} {x : α}
    (hx : xs[i]? = some x) : at? ys i = some x := by
  obtain ⟨rest, hrest⟩ := h
  obtain ⟨hi, -⟩ := List.getElem?_eq_some_iff.1 hx
  rw [at?, if_pos (by omega), Int.toNat_natCast, ← Array.getElem?_toList, ← hrest,
    List.getElem?_append_left hi, hx]

end Shows

/-- The kinds of the live part of the stack, if they are recorded. -/
def liveKinds (m : Machine) : List Kind :=
  if m.settings.tagged then m.stackTags.toList.take m.sp.toNat else .replicate m.sp.toNat .none

/-- The live part of the stack. -/
def cells (m : Machine) : List Tagged :=
  ((m.stack.toList.take m.sp.toNat).zip m.liveKinds).map fun (v, k) => ⟨v, k⟩

/-- The stack pointer points into the stack, and there is a kind for each slot on a tagged
machine. -/
structure Upright (m : Machine) : Prop where
  nonneg : 0 ≤ m.sp
  le_size : m.sp ≤ m.stack.size
  tags : m.settings.tagged → m.stackTags.size = m.stack.size

namespace Upright

variable {m : Machine}

theorem length_slots (h : m.Upright) : (m.stack.toList.take m.sp.toNat).length = m.sp.toNat := by
  have := h.le_size
  simp
  omega

theorem length_liveKinds (h : m.Upright) : m.liveKinds.length = m.sp.toNat := by
  unfold liveKinds
  split
  · next tagged =>
    have := h.le_size
    have := h.tags tagged
    simp
    omega
  · simp

theorem length_cells (h : m.Upright) : (m.cells.length : Int) = m.sp := by
  rw [cells, List.length_map, List.length_zip, h.length_slots, h.length_liveKinds, Nat.min_self]
  exact Int.toNat_of_nonneg h.nonneg

/-- Every such machine shows its live cells. -/
theorem tops_cells (h : m.Upright) : m.Tops m.stack.size m.cells m.aside := by
  refine ⟨h.tags, rfl, ?_, fun tagged => ?_, h.length_cells.symm, rfl⟩
  · have hslots : m.cells.map (·.slot) = m.stack.toList.take m.sp.toNat := by
      rw [cells, List.map_map]
      exact List.map_fst_zip (by simp [h.length_slots, h.length_liveKinds])
    rw [hslots]
    exact List.take_prefix _ _
  · have hkinds : m.cells.map (·.kind) = m.stackTags.toList.take m.sp.toNat := by
      rw [cells, List.map_map]
      refine (List.map_snd_zip (by simp [h.length_slots, h.length_liveKinds])).trans ?_
      rw [liveKinds, if_pos tagged]
    rw [hkinds]
    exact List.take_prefix _ _

end Upright

namespace Cells

open Op (Takes)

variable {size : Nat} {cells : List Tagged} {sp : Int} {o : Aside}

variable {slot : Nat} {k : Kind} {t : Tagged}

/-- Writing one of the cells or the one behind them. -/
theorem writeStack (hslot : slot ≤ cells.length) (v : Slot) (k : Kind) :
    Takes size (slot + 1) (Shows size cells sp o) (writeStack slot v k)
      fun _ => Shows size (cells.take slot ++ ⟨v, k⟩ :: cells.drop (slot + 1)) sp o := by
  intro m h
  have hsize := h.size
  refine ⟨fun hroom => ⟨(), _, if_pos (by omega), ?_⟩, fun hfull => ⟨m, if_neg (by omega)⟩⟩
  have hslots := prefix_set h.slots (i := slot) (by simpa using hslot) (by simp; omega) v
  refine ⟨fun (tagged : m.settings.tagged) => ?_, by simpa using hsize, ?_,
    fun (tagged : m.settings.tagged) => ?_, h.sp, h.aside⟩
  · simpa [tagged] using h.tagsSize tagged
  · simpa using hslots
  · have htags := prefix_set (h.tags tagged) (i := slot) (by simpa using hslot)
      (by simp only [Array.length_toList, h.tagsSize tagged]; omega) k
    simpa [tagged] using htags

/-- A slot may be read as the kind it was written as. -/
theorem checkTag_self (region : Region) (slot : Int) (k : Kind) :
    checkTag region slot k k = Pure.pure () := if_neg (by simp)

/-- Reading one of the cells. -/
theorem readStack {v : Slot} (hcell : cells[slot]? = some ⟨v, k⟩) :
    Takes size 0 (Shows size cells sp o) (readStack slot k)
      fun a m => a = v ∧ m.Shows size cells sp o := by
  refine .get fun m h => ?_
  have hslot : at? m.stack slot = some v := Shows.at?_of_initial h.slots (by simp [hcell])
  refine (Takes.require hslot).read (.get fun m h => ?_)
  cases htagged : m.settings.tagged with
  | false => exact .pure fun m h => ⟨rfl, h⟩
  | true =>
    refine .get fun m' h' => ?_
    have htag : at? m'.stackTags slot = some k := by
      refine Shows.at?_of_initial (h'.tags ?_) (by simp [hcell])
      rw [h'.settings_eq, ← h.settings_eq, htagged]
    refine (Takes.require htag).read ?_
    rw [checkTag_self]
    exact .pure fun m h => ⟨rfl, h⟩

theorem push (v : Slot) (k : Kind) : Takes size (cells.length + 1) (Tops size cells o) (push v k)
      fun _ => Tops size (cells ++ [⟨v, k⟩]) o := by
  refine .get fun m h => ?_
  rw [h.sp]
  refine (writeStack (Nat.le_refl _) v k).andThen fun _ => .modify fun m' h' => ?_
  rw [List.take_length, List.drop_eq_nil_of_le (Nat.le_succ _)] at h'
  have hsp : m'.sp + 1 = (cells ++ [(⟨v, k⟩ : Tagged)]).length := by
    rw [h'.sp, List.length_append]
    rfl
  exact hsp ▸ h'.setSp _

theorem pop (v : Slot) (k : Kind) :
    Takes size 0 (Tops size (cells ++ [⟨v, k⟩]) o) (pop k) fun a m => a = v ∧ m.Tops size cells o := by
  have hmove : Takes size 0 (Tops size (cells ++ [⟨v, k⟩]) o)
      (modify fun m => { m with sp := m.sp - 1 })
      fun _ => Shows size (cells ++ [⟨v, k⟩]) cells.length o := by
    refine .modify fun m h => ?_
    have hsp : m.sp - 1 = cells.length := by
      rw [h.sp, List.length_append, List.length_singleton]
      omega
    exact hsp ▸ h.setSp _
  refine hmove.after fun _ => .get fun m h => ?_
  rw [h.sp]
  exact (readStack (by simp)).mono (fun _ h => h) fun a m' h' => ⟨h'.1, h'.2.lower⟩

theorem popInt (v : Slot) : Takes size 0 (Tops size (cells ++ [⟨v, .int⟩]) o) popInt
      fun a m => a = v.toInt ∧ m.Tops size cells o := by
  rw [Machine.popInt, map_eq_pure_bind]
  exact (pop v .int).read (.pure fun m h => ⟨rfl, h⟩)

theorem popFloat (v : Slot) : Takes size 0 (Tops size (cells ++ [⟨v, .float⟩]) o) popFloat
      fun a m => a = v.toFloat ∧ m.Tops size cells o := by
  rw [Machine.popFloat, map_eq_pure_bind]
  exact (pop v .float).read (.pure fun m h => ⟨rfl, h⟩)

/-- An operation on one cell, which is read as a float if not as an int. -/
theorem unary {op : UnaryCode} {read : Kind} (hread : read = if k = .int then .int else .float) {x : Slot}
    (h : op.on? k x = some t) : Takes size 0 (Tops size (cells ++ [⟨x, read⟩]) o) (unary op k)
      fun _ => Tops size (cells ++ [t]) o := by
  have hpush : Takes size (cells.length + 1) (Tops size cells o)
      (pushResult (some t)) fun _ => Tops size (cells ++ [t]) o := push t.slot t.kind
  rw [← h] at hpush
  refine Takes.free (?_ : Takes size (cells.length + 1) _ _ _) fun m hm => by
    simpa using hm.length_le
  unfold Machine.unary
  unfold UnaryCode.on? at hpush
  by_cases hk : k = .int
  · simp only [hread, if_pos hk] at hpush ⊢
    exact (popInt x).read hpush
  · simp only [hread, if_neg hk] at hpush ⊢
    exact (popFloat x).read hpush

/-- An operation on two cells, which are read as objects if not as numbers. -/
theorem binary {op : BinaryCode} {read : Kind}
    (hread : read = if k = .int then .int else if k = .float then .float else .obj) {l r : Slot}
    (h : op.on? k l r = some t) :
    Takes size 0 (Tops size (cells ++ [⟨l, read⟩] ++ [⟨r, read⟩]) o) (binary op k)
      fun _ => Tops size (cells ++ [t]) o := by
  have hpush : Takes size (cells.length + 1) (Tops size cells o)
      (pushTagged t) fun _ => Tops size (cells ++ [t]) o := push t.slot t.kind
  refine Takes.free (?_ : Takes size (cells.length + 1) _ _ _) fun m hm => by
    simpa using hm.lower.length_le
  unfold Machine.binary
  unfold BinaryCode.on? at h
  by_cases hk : k = .int
  · simp only [hread, if_pos hk] at h ⊢
    refine (popInt r).read ((popInt l).read ?_)
    rw [h]
    exact hpush
  · by_cases hfloat : k = .float
    · simp only [hread, if_neg hk, if_pos hfloat] at h ⊢
      refine (popFloat r).read ((popFloat l).read ?_)
      rw [h]
      exact hpush
    · simp only [hread, if_neg hk, if_neg hfloat] at h ⊢
      cases h
      exact (pop r .obj).read ((pop l .obj).read hpush)

theorem select (k : Kind) (c a b : Slot) :
    Takes size 0 (Tops size (cells ++ [⟨c, .int⟩] ++ [⟨a, k⟩] ++ [⟨b, k⟩]) o) (select k)
      fun _ => Tops size (cells ++ [⟨if c.toBool then a else b, k⟩]) o := by
  refine Takes.free (?_ : Takes size (cells.length + 1) _ _ _) fun m hm => by
    simpa using hm.lower.lower.length_le
  refine (pop b k).read ((pop a k).read ((popInt c).read ?_))
  by_cases h : c.toInt = 0
  · have hc : c.toBool = false := by simp [Slot.toBool, h]
    simp only [h, hc, ne_eq, not_true_eq_false, if_false, Bool.false_eq_true]
    exact push b k
  · have hc : c.toBool = true := by simp [Slot.toBool, h]
    simp only [h, hc, ne_eq, not_false_eq_true, if_true]
    exact push a k

/-- Executing the instruction that is fetched. -/
theorem dispatch {code : Code} {pc : Nat} {depth : Nat} {op : Opcode} {level : Nat}
    {post : Next → Machine → Prop} (fetch : code.instr? pc = some (Instr.make op k))
    (hx : Takes size level (Shows size cells sp o) (execute code (pc + 1) depth op k) post) :
    Takes size level (Shows size cells sp o) (dispatch code pc depth) post :=
  .dispatch (fun _ line h => h.write line) fetch hx

end Cells
end Machine
end Stackwork
