import Stackwork.Proofs.Image.Rebuilding
import Stackwork.Proofs.Module.Linking

/-!
# Linking copies of modules

Linking looks at the numbers, the bases and the sizes of modules, not at the identity of their types.
So copies of modules fit together exactly when the modules do, and the tables that come out have the
same code, kinds, strings and top-level codes, but for top-level code without a word.
-/
namespace Stackwork

open List Variable

/-- A routine with the same code under the same name and number. -/
structure Routine.Alike (r' r : Routine) : Prop where
  name : r'.name = r.name
  index : r'.index = r.index
  builtin : r'.isBuiltin = r.isBuiltin
  code : r'.code? = r.code?
  locals : r'.locals = r.locals

/-- A global of the same kind under the same name and number. -/
structure Variable.Alike (v' v : Variable) : Prop where
  name : v'.name = v.name
  binding : v'.binding = v.binding
  index : v'.index = v.index
  kind : v'.kind = v.kind

/-- A module that is the same to the linker. -/
structure Module.Alike (m' m : Module) : Prop where
  name : m'.name = m.name
  bases : m'.bases = m.bases
  strings : m'.strings = m.strings
  globals : List.Forall₂ Variable.Alike m'.globals m.globals
  routines : List.Forall₂ Routine.Alike m'.routines m.routines
  init : m'.init = m.init.filter fun c => 0 < c.size

theorem Kind.ofTy_eq_of_kind {t u : Ty} (h : t.kind = u.kind) : Kind.ofTy t = Kind.ofTy u := by
  rw [Kind.ofTy, Kind.ofTy, h]

theorem Module.CopyOf.alike {f : Ty → Ty} {builtins : Image.Builtins} {m' m : Module} (h : m'.CopyOf f builtins m)
    (copies : ∀ t, m.Mentions t → (f t).Copies f t) : m'.Alike m where
  name := h.name
  bases := h.bases
  strings := h.strings
  globals := by
    refine forall₂_iff_get.2 ⟨h.globals.length_eq, fun i h₁ h₂ => ?_⟩
    have hv := (forall₂_iff_get.1 h.globals).2 i h₁ h₂
    refine ⟨hv.name, hv.binding, hv.index, Kind.ofTy_eq_of_kind ?_⟩
    rw [hv.type]
    exact (copies _ (.inl ⟨_, get_mem _ _, .self⟩)).kind_eq
  routines := h.routines.imp fun _ _ hr => ⟨hr.name, hr.index, hr.builtin, hr.code, hr.locals⟩
  init := h.init

variable {α : Type} {xs ys : List α}

theorem map_eq_of_forall₂ {β : Type} {f : α → β} (h : List.Forall₂ (fun x y => f x = f y) xs ys) :
    xs.map f = ys.map f := by
  induction h with
  | nil => rfl
  | cons hxy _ ih => rw [map_cons, map_cons, hxy, ih]

theorem Numbered.congr {index : α → Int} {start : Int} (h : List.Forall₂ (fun x y => index x = index y) xs ys) :
    Numbered index start xs ↔ Numbered index start ys := by
  induction h generalizing start with
  | nil => rfl
  | cons hxy _ ih => rw [cons_iff, cons_iff, hxy, ih]

namespace Module.Alike

variable {m' m : Module}

theorem extent_eq (h : m'.Alike m) : m'.extent = m.extent := by
  rw [extent, extent, h.routines.length_eq, h.globals.length_eq, h.strings]

theorem inPlace_iff (h : m'.Alike m) {l : Layout} : m'.InPlace l ↔ m.InPlace l := by
  have hroutines : Numbered Routine.index l.functions m'.routines ↔ Numbered Routine.index l.functions m.routines :=
    Numbered.congr (h.routines.imp fun _ _ h => h.index)
  have hglobals : Numbered index l.globals m'.globals ↔ Numbered index l.globals m.globals :=
    Numbered.congr (h.globals.imp fun _ _ h => h.index)
  have hglobal : (∀ v ∈ m'.globals, v.isGlobal) ↔ ∀ v ∈ m.globals, v.isGlobal := by
    have hsame : m'.globals.map isGlobal = m.globals.map isGlobal :=
      map_eq_of_forall₂ (h.globals.imp fun _ _ hv => by rw [isGlobal, isGlobal, hv.binding])
    rw [← forall_mem_map (P := (· = true)), hsame, forall_mem_map]
  constructor
  · exact fun p => ⟨h.bases ▸ p.bases, hroutines.1 p.routines, hglobal.1 p.global, hglobals.1 p.globals⟩
  · exact fun p => ⟨h.bases.symm ▸ p.bases, hroutines.2 p.routines, hglobal.2 p.global, hglobals.2 p.globals⟩

end Module.Alike

variable {ms' ms : List Module}

theorem laidOut_iff_of_alike (h : List.Forall₂ Module.Alike ms' ms) {l : Layout} :
    LaidOut l ms' ↔ LaidOut l ms := by
  induction h generalizing l with
  | nil => rfl
  | cons hm _ ih => rw [LaidOut, LaidOut, hm.inPlace_iff, hm.extent_eq, ih]

/-- An executable that runs the same code. -/
structure Executable.Alike (e' e : Executable) : Prop where
  name : e'.name = e.name
  routines : List.Forall₂ Routine.Alike e'.routines.toList e.routines.toList
  globals : e'.globals = e.globals
  strings : e'.strings = e.strings
  inits : e'.inits = e.inits.filter fun c => 0 < c.size

theorem Executable.alike_foldl_join (h : List.Forall₂ Module.Alike ms' ms) {name' name : String}
    (hname : name' = name) : (ms'.foldl join { name := name' }).Alike (ms.foldl join { name }) := by
  rw [foldl_join, foldl_join]
  refine ⟨hname, ?_, ?_, ?_, ?_⟩ <;> simp only [nil_append, Array.empty_append]
  · induction h with
    | nil => exact .nil
    | cons hm _ ih => exact rel_append hm.routines ih
  · induction h with
    | nil => rfl
    | cons hm _ ih =>
      rw [flatMap_cons, flatMap_cons, ih, map_eq_of_forall₂ (hm.globals.imp fun _ _ hv => hv.kind)]
  · induction h with
    | nil => rfl
    | cons hm _ ih => rw [flatMap_cons, flatMap_cons, ih, hm.strings]
  · induction h with
    | nil => rfl
    | cons hm _ ih =>
      rw [flatMap_cons, flatMap_cons, ih, filter_append, hm.init]
      rw [Option.toList_filter]

/-- Copies of modules are linked when the modules are, to the same code. -/
theorem Graph.link_of_alike {g' g : Graph} {m' m : ModuleId} (hname : (g'.get m').name = (g.get m).name)
    (h : List.Forall₂ Module.Alike ((g'.flatten [m']).map g'.get) ((g.flatten [m]).map g.get)) :
    ((∃ e', g'.link m' = .ok e') ↔ ∃ e, g.link m = .ok e) ∧
      ∀ e' e, g'.link m' = .ok e' → g.link m = .ok e → e'.Alike e := by
  have hiff {g : Graph} {m : ModuleId} {e : Executable} : g.link m = .ok e ↔
      LaidOut {} ((g.flatten [m]).map g.get) ∧
        e = ((g.flatten [m]).map g.get).foldl Executable.join { name := (g.get m).name } :=
    Executable.foldlM_addModule
  constructor
  · constructor
    · rintro ⟨e', he'⟩
      exact ⟨_, hiff.2 ⟨(laidOut_iff_of_alike h).1 (hiff.1 he').1, rfl⟩⟩
    · rintro ⟨e, he⟩
      exact ⟨_, hiff.2 ⟨(laidOut_iff_of_alike h).2 (hiff.1 he).1, rfl⟩⟩
  · intro e' e he' he
    rw [(hiff.1 he').2, (hiff.1 he).2]
    exact Executable.alike_foldl_join h hname

end Stackwork
