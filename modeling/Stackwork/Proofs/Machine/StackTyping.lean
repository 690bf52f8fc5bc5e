import Stackwork.Proofs.Lang.Effects

/-!
# Types of a stack

A stack map assigns to positions of a code the types of the values that are pending there, above
the frame of the routine that runs. A position admits its pending values when the instruction
there takes its operands from them and leaves to every position that can follow what the map
assigns to it. Values are told apart by the kinds they travel as and, where this is not enough,
by what a stage says of them: functions travel as integers, and an integer is no function by
itself.
-/
namespace Stackwork

open Op (Takes)
open Machine (Tops Shows at? execute)

/-- A value of type `s` is one of type `t` as it is. Function types have to be the same. -/
structure Ty.Passes (s t : Ty) : Prop where
  kind : Kind.ofTy s = Kind.ofTy t
  function : t.kind = .function → s = t

namespace Ty.Passes

variable {s t u : Ty}

theorem refl (t : Ty) : t.Passes t := ⟨rfl, fun _ => rfl⟩

theorem trans (h : s.Passes t) (h' : t.Passes u) : s.Passes u where
  kind := h.kind.trans h'.kind
  function hu := by
    obtain rfl := h'.function hu
    exact h.function hu

/-- Types of one sort other than functions pass for each other. -/
theorem of_kind (h : s.kind = t.kind) (ht : t.kind ≠ .function) : s.Passes t :=
  ⟨by rw [Kind.ofTy, h, Kind.ofTy], fun hf => absurd hf ht⟩

end Ty.Passes

theorem forall₂_trans {α β γ : Type} {P : α → β → Prop} {Q : β → γ → Prop} {R : α → γ → Prop}
    {as : List α} {bs : List β} {cs : List γ} (hP : List.Forall₂ P as bs) (hQ : List.Forall₂ Q bs cs)
    (h : ∀ a b c, P a b → Q b c → R a c) : List.Forall₂ R as cs := by
  induction hP generalizing cs with
  | nil =>
    cases hQ
    exact .nil
  | cons hab _ ih =>
    cases hQ with
    | cons hbc hQ => exact .cons (h _ _ _ hab hbc) (ih hQ)

/-- The code of a routine or of a top level: the types of its frame, what it returns, and the
types of what is pending above the frame at the positions that a run comes to. -/
structure StackMap where
  code : Code
  frame : List Ty
  /-- Nothing at top level. -/
  output : Option Ty
  At : Nat → List Ty → Prop

/-- What is pending will do at a position. -/
def StackMap.Ready (u : StackMap) (p : Nat) (ts : List Ty) : Prop :=
  ∃ us, u.At p us ∧ List.Forall₂ Ty.Passes ts us

namespace StackMap

variable {u : StackMap} {p : Nat}

variable {ts : List Ty}

theorem ready_of_at (h : u.At p ts) : u.Ready p ts :=
  ⟨ts, h, List.forall₂_same.2 fun t _ => .refl t⟩

theorem Ready.mono {us : List Ty} (h : u.Ready p us) (hpass : List.Forall₂ Ty.Passes ts us) :
    u.Ready p ts := by
  obtain ⟨vs, hat, hvs⟩ := h
  exact ⟨vs, hat, forall₂_trans hpass hvs fun _ _ _ h h' => h.trans h'⟩

/-- The topmost value may be of another type that passes. -/
theorem Ready.last {s t : Ty} (h : u.Ready p (ts ++ [t])) (hpass : s.Passes t) : u.Ready p (ts ++ [s]) :=
  h.mono (List.rel_append (List.forall₂_same.2 fun t _ => .refl t) (.cons hpass .nil))

end StackMap

/-- A piece of code at work: a routine, or the top level with a number. -/
inductive Activation where
  | routine (r : Routine)
  | block (index : Nat) (code : Code)

namespace Activation

/-- How many slots above BASE belong to the variables. -/
def frameSize : Activation → Nat
  | routine r => r.frameSize
  | block .. => 0

def code? : Activation → Option Code
  | routine r => r.code?
  | block _ code => some code

end Activation

/-- A program with the types of its globals, the stack maps of its pieces, and which slots are
values of a type. Only functions may be restricted; a cleared slot is a value of every type, and
the number of a function is a value of its type. -/
structure Stage where
  exe : Executable
  globals : List Ty
  kinds : exe.globals = globals.map Kind.ofTy
  Lays : Activation → StackMap → Prop
  Holds : Ty → Slot → Prop
  plain : ∀ {t} (v : Slot), t.kind ≠ .function → Holds t v
  zero : ∀ t, Holds t .zero
  function : ∀ {i : Int} {r : Routine}, at? exe.routines i = some r → i < operandLimit →
    Holds r.type (.ofInt (Int32.ofInt i))

namespace Stage

variable (S : Stage)

/-- A cell with a value of a type, written as its kind. -/
structure Cell (c : Tagged) (t : Ty) : Prop where
  kind : c.kind = Kind.ofTy t
  holds : S.Holds t c.slot

/-- Cells with values of the listed types. -/
abbrev Cells : List Tagged → List Ty → Prop := List.Forall₂ S.Cell

variable {S}

variable {c : Tagged} {t : Ty} {cs : List Tagged} {ts : List Ty} {i : Nat} {o : Machine.Aside}

theorem Cell.pass {s : Ty} (h : S.Cell c s) (hpass : s.Passes t) : S.Cell c t where
  kind := h.kind.trans hpass.kind
  holds := by
    by_cases ht : t.kind = .function
    · exact hpass.function ht ▸ h.holds
    · exact S.plain _ ht

/-- A number, a truth value or an object is nothing but its kind. -/
theorem Cell.of_kind (hk : c.kind = Kind.ofTy t) (ht : t.kind ≠ .function) : S.Cell c t :=
  ⟨hk, S.plain _ ht⟩

theorem Cells.pass {us : List Ty} (h : S.Cells cs ts) (hpass : List.Forall₂ Ty.Passes ts us) : S.Cells cs us :=
  forall₂_trans h hpass fun _ _ _ h h' => h.pass h'

theorem Cells.kinds_eq (h : S.Cells cs ts) : cs.map (·.kind) = ts.map Kind.ofTy := by
  induction h with
  | nil => rfl
  | cons hc _ ih => rw [List.map_cons, List.map_cons, hc.kind, ih]

theorem Cells.exists_of_getElem? (h : S.Cells cs ts) (ht : ts[i]? = some t) :
    ∃ c, cs[i]? = some c ∧ S.Cell c t := by
  induction h generalizing i with
  | nil => cases ht
  | cons hc _ ih =>
    cases i with
    | zero =>
      cases ht
      exact ⟨_, rfl, hc⟩
    | succ i => exact ih ht

theorem Cells.set (h : S.Cells cs ts) (ht : ts[i]? = some t) (hc : S.Cell c t) : S.Cells (cs.set i c) ts := by
  induction h generalizing i with
  | nil => cases ht
  | cons hd htl ih =>
    cases i with
    | zero =>
      cases ht
      exact .cons hc htl
    | succ i => exact .cons hd (ih ht)

/-- The upper values of a longer list. -/
theorem Cells.split {us : List Ty} (h : S.Cells cs (ts ++ us)) :
    ∃ as bs, cs = as ++ bs ∧ S.Cells as ts ∧ S.Cells bs us :=
  ⟨_, _, (List.take_append_drop ts.length cs).symm, List.forall₂_take_append _ _ _ h,
    List.forall₂_drop_append _ _ _ h⟩

/-- The topmost value. -/
theorem Cells.split_last (h : S.Cells cs (ts ++ [t])) :
    ∃ as c, cs = as ++ [c] ∧ S.Cells as ts ∧ S.Cell c t := by
  obtain ⟨as, bs, rfl, has, hbs⟩ := h.split
  cases hbs with
  | cons hc hnil =>
    cases hnil
    exact ⟨as, _, rfl, has, hc⟩

theorem Cells.snoc (h : S.Cells cs ts) (hc : S.Cell c t) : S.Cells (cs ++ [c]) (ts ++ [t]) :=
  List.rel_append h (.cons hc .nil)

variable (S)

/-- What is not on the stack: the program is loaded, and globals hold values of their types. -/
structure Keeps (o : Machine.Aside) : Prop where
  exe : o.exe = some S.exe
  globals : ∀ {i : Nat} {t : Ty}, S.globals[i]? = some t → ∃ v, o.heap[i]? = some v ∧ S.Holds t v
  tags : o.settings.tagged → ∀ {i : Nat} {t : Ty}, S.globals[i]? = some t → o.heapTags[i]? = some (Kind.ofTy t)

variable {S}

theorem Keeps.setGlobal (h : S.Keeps o) (ht : S.globals[i]? = some t) {v : Slot} (hv : S.Holds t v) :
    S.Keeps (o.setGlobal i v (Kind.ofTy t)) where
  exe := h.exe
  globals {j s} hs := by
    obtain ⟨v', hv', hold⟩ := h.globals hs
    obtain ⟨hj, -⟩ := Array.getElem?_eq_some_iff.1 hv'
    simp only [Machine.Aside.setGlobal, Array.getElem?_setIfInBounds]
    split
    · next hij =>
      subst hij
      cases ht.symm.trans hs
      exact ⟨v, by simp [hj], hv⟩
    · exact ⟨v', hv', hold⟩
  tags tagged {j s} hs := by
    have tagged : o.settings.tagged := tagged
    have hold := h.tags tagged hs
    obtain ⟨hj, -⟩ := Array.getElem?_eq_some_iff.1 hold
    simp only [Machine.Aside.setGlobal, tagged, if_true, Array.getElem?_setIfInBounds]
    split
    · next hij =>
      subst hij
      cases ht.symm.trans hs
      simp [hj]
    · exact hold

theorem Keeps.lt_size (h : S.Keeps o) (ht : S.globals[i]? = some t) : i < o.heap.size := by
  obtain ⟨v, hv, -⟩ := h.globals ht
  exact (Array.getElem?_eq_some_iff.1 hv).1

/-- Registers and frames do not matter. -/
theorem Keeps.of_eq {o' : Machine.Aside} (h : S.Keeps o) (exe : o'.exe = o.exe) (heap : o'.heap = o.heap)
    (heapTags : o'.heapTags = o.heapTags) (settings : o'.settings = o.settings) : S.Keeps o' where
  exe := exe.trans h.exe
  globals ht := heap ▸ h.globals ht
  tags tagged := by
    rw [settings] at tagged
    rw [heapTags]
    exact h.tags tagged

end Stage

/-- An instruction that pushes a constant. -/
def Opcode.isPush : Opcode → Bool
  | pushImm | pushZero | pushOne | pushNull => true
  | _ => false

/-- The instruction at a position pushes a cell and goes on at `next`. -/
def Code.Pushes (code : Code) (p : Nat) (op : Opcode) (k : Kind) (c : Tagged) (next : Nat) : Prop :=
  ∀ (depth size : Nat) (cells : List Tagged) (o : Machine.Aside),
    Takes size (cells.length + 1) (Tops size cells o) (execute code (p + 1) depth op k)
      fun n m => n = .goto next ∧ m.Tops size (cells ++ [c]) o

/-- The instruction at a position takes its operands from what is pending, and leaves what the
map assigns to every position that can follow. -/
inductive Stage.Admits (S : Stage) (u : StackMap) (p : Nat) : List Ty → Prop where
  | push {ts : List Ty} {t : Ty} {op : Opcode} {k : Kind} {c : Tagged} {next : Nat}
      (fetch : u.code.instr? p = some (Instr.make op k)) (constant : op.isPush)
      (pushes : u.code.Pushes p op k c next) (cell : S.Cell c t) (goes : u.Ready next (ts ++ [t])) :
      Admits S u p ts
  | loadGlobal {ts : List Ty} {t : Ty} {i : Int32} {n : Nat}
      (fetch : u.code.instr? p = some (Instr.make .loadGlobal (Kind.ofTy t)))
      (operand : u.code.int? ((p : Int) + 1) = some i) (index : i.toInt = n)
      (found : S.globals[n]? = some t) (goes : u.Ready (p + 2) (ts ++ [t])) : Admits S u p ts
  | storeGlobal {ts : List Ty} {t : Ty} {i : Int32} {n : Nat}
      (fetch : u.code.instr? p = some (Instr.make .storeGlobal (Kind.ofTy t)))
      (operand : u.code.int? ((p : Int) + 1) = some i) (index : i.toInt = n)
      (found : S.globals[n]? = some t) (goes : u.Ready (p + 2) ts) : Admits S u p (ts ++ [t])
  | loadLocal {ts : List Ty} {t : Ty} {i : Int32} {n : Nat}
      (fetch : u.code.instr? p = some (Instr.make .loadLocal (Kind.ofTy t)))
      (operand : u.code.int? ((p : Int) + 1) = some i) (index : i.toInt = n)
      (found : u.frame[n]? = some t) (goes : u.Ready (p + 2) (ts ++ [t])) : Admits S u p ts
  | storeLocal {ts : List Ty} {t : Ty} {i : Int32} {n : Nat}
      (fetch : u.code.instr? p = some (Instr.make .storeLocal (Kind.ofTy t)))
      (operand : u.code.int? ((p : Int) + 1) = some i) (index : i.toInt = n)
      (found : u.frame[n]? = some t) (goes : u.Ready (p + 2) ts) : Admits S u p (ts ++ [t])
  | pop {ts : List Ty} {t : Ty} (fetch : u.code.instr? p = some (Instr.make .pop .none))
      (goes : u.Ready (p + 1) ts) : Admits S u p (ts ++ [t])
  | unary {ts : List Ty} {s t : Ty} {op : UnaryCode}
      (fetch : u.code.instr? p = some (Instr.make (.unary op) (Kind.ofTy s)))
      (exists_ : op.kinds.contains (Kind.ofTy s)) (kind : Kind.ofTy t = op.resultKind (Kind.ofTy s))
      (plain : t.kind ≠ .function) (goes : u.Ready (p + 1) (ts ++ [t])) : Admits S u p (ts ++ [s])
  | binary {ts : List Ty} {s t : Ty} {op : BinaryCode}
      (fetch : u.code.instr? p = some (Instr.make (.binary op) (Kind.ofTy s)))
      (exists_ : op.kinds.contains (Kind.ofTy s)) (kind : Kind.ofTy t = op.resultKind (Kind.ofTy s))
      (plain : t.kind ≠ .function) (goes : u.Ready (p + 1) (ts ++ [t])) :
      Admits S u p (ts ++ [s] ++ [s])
  | select {ts : List Ty} {c t : Ty}
      (fetch : u.code.instr? p = some (Instr.make .select (Kind.ofTy t))) (cond : Kind.ofTy c = .int)
      (goes : u.Ready (p + 1) (ts ++ [t])) : Admits S u p (ts ++ [c] ++ [t] ++ [t])
  | jump {ts : List Ty} {i : Int32} {target : Nat}
      (fetch : u.code.instr? p = some (Instr.make .jump .none))
      (operand : u.code.int? ((p : Int) + 1) = some i) (address : i.toInt = target)
      (goes : u.Ready target ts) : Admits S u p ts
  | branch {ts : List Ty} {c : Ty} {op : Opcode} {i : Int32} {target : Nat}
      (which : op = .branchTrue ∨ op = .branchFalse)
      (fetch : u.code.instr? p = some (Instr.make op .none))
      (operand : u.code.int? ((p : Int) + 1) = some i) (address : i.toInt = target)
      (cond : Kind.ofTy c = .int) (goes : u.Ready target ts) (stays : u.Ready (p + 2) ts) :
      Admits S u p (ts ++ [c])
  | call {ts ins : List Ty} {out : Ty} {id : Nat} {i : Int32} {r : Routine}
      (fetch : u.code.instr? p = some (Instr.make .call .none))
      (operand : u.code.int? ((p : Int) + 1) = some i) (found : at? S.exe.routines i.toInt = some r)
      (type : r.type = .function id out ins) (goes : u.Ready (p + 2) (ts ++ [out])) :
      Admits S u p (ts ++ ins)
  | callR {ts ins : List Ty} {out : Ty} {id : Nat}
      (fetch : u.code.instr? p = some (Instr.make .callR .none)) (goes : u.Ready (p + 1) (ts ++ [out])) :
      Admits S u p (ts ++ ins ++ [.function id out ins])
  | ret {out : Ty} (fetch : u.code.instr? p = some (Instr.make .ret (Kind.ofTy out)))
      (output : u.output = some out) (value : Kind.ofTy out ≠ .none) : Admits S u p [out]
  | retNothing {out : Ty} (fetch : u.code.instr? p = some (Instr.make .ret .none))
      (output : u.output = some out) (void : Kind.ofTy out = .none) : Admits S u p []
  | halt {ts : List Ty} (fetch : u.code.instr? p = some (Instr.make .halt .none)) : Admits S u p ts
  /-- Behind the last instruction of a top level. -/
  | last (size : p = u.code.size) (output : u.output = none) : Admits S u p []

/-- A program whose routines and top levels have stack maps in which every position admits what is
pending there. -/
structure Stage.Certified (S : Stage) : Prop where
  start : ∀ {a u}, S.Lays a u → u.At 0 []
  admits : ∀ {a u}, S.Lays a u → ∀ {p ts}, u.At p ts → S.Admits u p ts
  code : ∀ {a u}, S.Lays a u → a.code? = some u.code
  frame : ∀ {a u}, S.Lays a u → a.frameSize = u.frame.length
  signature : ∀ {i r}, at? S.exe.routines i = some r → ∃ id out ins, r.type = .function id out ins
  routine : ∀ {i r}, at? S.exe.routines i = some r → r.isBuiltin = false →
    ∃ u, S.Lays (.routine r) u ∧ r.locals = u.frame.map Kind.ofTy ∧ r.type.inputs <+: u.frame ∧
      u.output = r.type.output?
  block : ∀ {i code}, S.exe.inits[i]? = some code →
    ∃ u, S.Lays (.block i code) u ∧ u.frame = [] ∧ u.output = none

end Stackwork
