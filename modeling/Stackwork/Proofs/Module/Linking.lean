import Stackwork.Module.Link
import Stackwork.Proofs.Failing

/-!
# Linked tables

When modules fit together and what linking makes of them. Modules are laid out when each
starts where the ones before it end and numbers its routines and globals without gaps from
there; linking accepts exactly such rows of modules and joins their tables. A routine or
global of a linked module then sits in the slot that carries its number.
-/
namespace Stackwork

open List
open Stackwork.Except (bind_eq_ok)

/-- Things that carry numbers without gaps, from `start` on. -/
def Numbered {α : Type} (index : α → Int) (start : Int) (xs : List α) : Prop :=
  ∀ (i : Nat) (a : α), xs[i]? = some a → index a = start + i

namespace Numbered

variable {α : Type} {index : α → Int} {start : Int} {xs ys : List α} {a : α}

@[simp] theorem nil : Numbered index start [] := by
  intro i a h
  simp at h

theorem cons_iff : Numbered index start (a :: xs) ↔
    index a = start ∧ Numbered index (start + 1) xs := by
  constructor
  · intro h
    refine ⟨by simpa using h 0 a rfl, fun i b hb => ?_⟩
    have := h (i + 1) b (by simpa using hb)
    omega
  · rintro ⟨ha, hxs⟩ i b hb
    cases i with
    | zero =>
      obtain rfl : a = b := by simpa using hb
      simpa using ha
    | succ i =>
      have := hxs i b (by simpa using hb)
      omega

theorem append_iff : Numbered index start (xs ++ ys) ↔
    Numbered index start xs ∧ Numbered index (start + xs.length) ys := by
  induction xs generalizing start with
  | nil => simp
  | cons a xs ih =>
    rw [cons_append, cons_iff, cons_iff, ih, and_assoc]
    simp [Int.add_assoc, Int.add_comm 1]

/-- What carries a number stands at the place the number says. -/
theorem getElem?_of_mem (h : Numbered index 0 xs) (ha : a ∈ xs) :
    0 ≤ index a ∧ xs[(index a).toNat]? = some a := by
  obtain ⟨i, hi⟩ := mem_iff_getElem?.1 ha
  have := h i a hi
  simp only [Int.zero_add] at this
  exact ⟨by omega, by rwa [this, Int.toNat_natCast]⟩

end Numbered

/-- A module starts at a layout and numbers its routines and globals from there. -/
structure Module.InPlace (l : Layout) (m : Module) : Prop where
  bases : m.bases = l
  routines : Numbered Routine.index l.functions m.routines
  global : ∀ v ∈ m.globals, v.isGlobal
  globals : Numbered Variable.index l.globals m.globals

/-- Modules that start one behind the other, the first one at a layout. -/
def LaidOut : Layout → List Module → Prop
  | _, [] => True
  | l, m :: ms => m.InPlace l ∧ LaidOut (l.add m.extent) ms

namespace Executable

/-- The tables with those of one more module behind them. -/
def join (e : Executable) (m : Module) : Executable :=
  { e with
    modules := e.modules ++ [m]
    routines := e.routines ++ m.routines.toArray
    globals := e.globals ++ m.globals.map (·.kind)
    strings := e.strings ++ m.strings
    inits := e.inits ++ m.init.toList }

@[simp] theorem layout_join (e : Executable) (m : Module) :
    (e.join m).layout = e.layout.add m.extent := by
  simp [layout, join, Layout.add, Module.extent]

variable {m : Module} {e e' : Executable}

theorem foldlM_addRoutine {rs : List Routine} : rs.foldlM (addRoutine m) e = .ok e' ↔
      Numbered Routine.index e.routines.size rs ∧
        e' = { e with routines := e.routines ++ rs.toArray } := by
  induction rs generalizing e with
  | nil => simp [pure, Except.pure, eq_comm]
  | cons r rs ih =>
    rw [foldlM_cons, bind_eq_ok, Numbered.cons_iff]
    constructor
    · rintro ⟨e₁, h₁, h⟩
      simp only [addRoutine] at h₁
      split at h₁
      · next hr =>
        cases h₁
        obtain ⟨hrs, rfl⟩ := ih.1 h
        exact ⟨⟨hr, by simpa using hrs⟩, by simp⟩
      · cases h₁
    · rintro ⟨⟨hr, hrs⟩, rfl⟩
      refine ⟨{ e with routines := e.routines.push r }, by simp [addRoutine, hr], ?_⟩
      exact ih.2 ⟨by simpa using hrs, by simp⟩

theorem foldlM_addGlobal {vs : List Variable} : vs.foldlM (addGlobal m) e = .ok e' ↔
      ((∀ v ∈ vs, v.isGlobal) ∧ Numbered Variable.index e.globals.length vs) ∧
        e' = { e with globals := e.globals ++ vs.map (·.kind) } := by
  induction vs generalizing e with
  | nil =>
    rw [map_nil, append_nil]
    constructor
    · intro h
      cases h
      exact ⟨⟨by simp, .nil⟩, rfl⟩
    · rintro ⟨-, rfl⟩
      rfl
  | cons v vs ih =>
    rw [foldlM_cons, bind_eq_ok, Numbered.cons_iff, forall_mem_cons]
    constructor
    · rintro ⟨e₁, h₁, h⟩
      simp only [addGlobal] at h₁
      split at h₁
      · next hv =>
        cases h₁
        obtain ⟨⟨hglobal, hvs⟩, rfl⟩ := ih.1 h
        exact ⟨⟨⟨hv.1, hglobal⟩, hv.2, by simpa using hvs⟩, by simp⟩
      · cases h₁
    · rintro ⟨⟨⟨hv, hglobal⟩, hindex, hvs⟩, rfl⟩
      refine ⟨{ e with globals := e.globals ++ [v.kind] }, by simp [addGlobal, hv, hindex], ?_⟩
      exact ih.2 ⟨⟨hglobal, by simpa using hvs⟩, by simp⟩

theorem addModule_eq_ok : e.addModule m = .ok e' ↔ m.InPlace e.layout ∧ e' = e.join m := by
  unfold addModule
  split
  · next h =>
    refine iff_of_false (fun h' => by cases h') fun h' => h h'.1.bases
  · next h =>
    simp only [bind_eq_ok, foldlM_addRoutine, foldlM_addGlobal]
    constructor
    · rintro ⟨e₁, ⟨hroutines, rfl⟩, e₂, ⟨⟨hglobal, hglobals⟩, rfl⟩, h₃⟩
      cases h₃
      exact ⟨⟨Decidable.not_not.1 h, hroutines, hglobal, hglobals⟩, rfl⟩
    · rintro ⟨hin, rfl⟩
      exact ⟨_, ⟨hin.routines, rfl⟩, _, ⟨⟨hin.global, hin.globals⟩, rfl⟩, rfl⟩

/-- Linking accepts the modules that are laid out, and joins them. -/
theorem foldlM_addModule {ms : List Module} :
    ms.foldlM addModule e = .ok e' ↔ LaidOut e.layout ms ∧ e' = ms.foldl join e := by
  induction ms generalizing e with
  | nil => simp [LaidOut, pure, Except.pure, eq_comm]
  | cons m ms ih =>
    rw [foldlM_cons, bind_eq_ok]
    simp only [addModule_eq_ok]
    constructor
    · rintro ⟨e₁, ⟨hin, rfl⟩, h⟩
      obtain ⟨hms, rfl⟩ := ih.1 h
      exact ⟨⟨hin, by simpa using hms⟩, rfl⟩
    · rintro ⟨⟨hin, hms⟩, rfl⟩
      exact ⟨e.join m, ⟨hin, rfl⟩, ih.2 ⟨by simpa using hms, rfl⟩⟩

/-- The tables of joined modules, one behind the other. -/
theorem foldl_join (e : Executable) (ms : List Module) : ms.foldl join e = { e with
      modules := e.modules ++ ms
      routines := e.routines ++ (ms.flatMap (·.routines)).toArray
      globals := e.globals ++ ms.flatMap fun m => m.globals.map (·.kind)
      strings := e.strings ++ ms.flatMap (·.strings)
      inits := e.inits ++ ms.flatMap (·.init.toList) } := by
  induction ms generalizing e with
  | nil =>
    simp only [foldl_nil, flatMap_nil, append_nil]
    rfl
  | cons m ms ih =>
    rw [foldl_cons, ih]
    simp [join]

end Executable

/-- The layout behind some modules. -/
def Layout.addAll (l : Layout) (ms : List Module) : Layout := ms.foldl (fun acc m => acc.add m.extent) l

theorem Layout.addAll_eq (l : Layout) (ms : List Module) : l.addAll ms =
    { functions := l.functions + (ms.flatMap (·.routines)).length
      globals := l.globals + (ms.flatMap (·.globals)).length
      strings := l.strings + (ms.flatMap (·.strings)).length } := by
  induction ms generalizing l with
  | nil => simp [addAll]
  | cons m ms ih =>
    rw [addAll, foldl_cons, ← addAll, ih]
    simp only [add, Module.extent, flatMap_cons, length_append, mk.injEq]
    omega

theorem Graph.layoutOf_eq (g : Graph) (order : List ModuleId) :
    g.layoutOf order = Layout.addAll {} (order.map g.get) := by
  rw [layoutOf, Layout.addAll, foldl_map]

namespace LaidOut

variable {l : Layout} {ms ms' : List Module}

theorem append_iff : LaidOut l (ms ++ ms') ↔ LaidOut l ms ∧ LaidOut (l.addAll ms) ms' := by
  induction ms generalizing l with
  | nil => simp [LaidOut, Layout.addAll]
  | cons m ms ih => simp [LaidOut, ih, and_assoc, Layout.addAll]

theorem routines (h : LaidOut l ms) : Numbered Routine.index l.functions (ms.flatMap (·.routines)) := by
  induction ms generalizing l with
  | nil => simp
  | cons m ms ih => exact Numbered.append_iff.2 ⟨h.1.routines, ih h.2⟩

theorem globals (h : LaidOut l ms) : Numbered Variable.index l.globals (ms.flatMap (·.globals)) := by
  induction ms generalizing l with
  | nil => simp
  | cons m ms ih => exact Numbered.append_iff.2 ⟨h.1.globals, ih h.2⟩

/-- Every module starts behind the ones before it. -/
theorem inPlace {m : Module} (h : LaidOut l (ms ++ m :: ms')) : m.InPlace (l.addAll ms) :=
  (append_iff.1 h).2.1

end LaidOut
end Stackwork
