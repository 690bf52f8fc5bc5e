import Stackwork.Machine.Basic
import Stackwork.Proofs.Module.Linking

/-!
# What loading checks

An executable is taken when its globals fit into the heap, its routines carry the numbers of
their slots, and every code in it is verified against the tables of the whole program. So a
row of modules that fit together and are verified links, and the result loads wherever there
is room for its globals.
-/
namespace Stackwork

/-- The codes of a program, with the limits they are verified against. -/
inductive Executable.Has (exe : Executable) : Code → Limits → Prop where
  | routine {r : Routine} {code : Code} {locals : List Kind} (mem : r ∈ exe.routines)
      (body : r.body = .compiled (some code) locals) : exe.Has code (exe.limits locals.length)
  | init {code : Code} (mem : code ∈ exe.inits) : exe.Has code (exe.limits 0)

namespace Executable

variable {exe : Executable} {heap : Nat}

theorem check_eq_ok : exe.check heap = .ok () ↔ exe.globals.length ≤ heap ∧
      (∀ x ∈ exe.routines.toList.zipIdx, exe.checkRoutine x.2 x.1 = .ok ()) ∧
      ∀ code ∈ exe.inits, code.verify (exe.limits 0) = .ok () := by
  unfold check
  split
  · next h =>
    refine iff_of_false ?_ fun h' => absurd h'.1 (Nat.not_le.2 h)
    intro h'
    cases h'
  · next h =>
    simp only [Nat.not_lt.1 h, true_and, Except.bind_eq_ok]
    refine ⟨?_, fun h' => ⟨(), Except.forIn_eq_ok.2 h'.1, (), ?_, rfl⟩⟩
    · rintro ⟨_, hroutines, _, hinits, _⟩
      exact ⟨Except.forIn_eq_ok.1 hroutines,
        fun code hcode => Except.mapError_eq_ok.1 (Except.forIn_eq_ok.1 hinits code hcode)⟩
    · exact Except.forIn_eq_ok.2 fun code hcode => Except.mapError_eq_ok.2 (h'.2 code hcode)

/-- Every code of a checked program passes verification. -/
theorem verify_of_has (h : exe.check heap = .ok ()) {code : Code} {lim : Limits}
    (has : exe.Has code lim) : code.verify lim = .ok () := by
  obtain ⟨-, hroutines, hinits⟩ := check_eq_ok.1 h
  cases has with
  | init mem => exact hinits code mem
  | @routine r _ locals mem body =>
    obtain ⟨slot, hslot⟩ := List.mem_iff_getElem?.1 (Array.mem_toList_iff.2 mem)
    have hmem : (r, slot) ∈ exe.routines.toList.zipIdx := List.mk_mem_zipIdx_iff_getElem?.2 hslot
    have hr := hroutines _ hmem
    simp only [checkRoutine, body] at hr
    split at hr
    · cases hr
    · exact Except.mapError_eq_ok.1 hr

end Executable

variable {m : Machine} {exe : Executable} {ms : List Module}

/-- An executable is taken exactly if it is found in order. -/
theorem Machine.load_eq_ok {m' : Machine} :
    m.load exe = .ok m' ↔ exe.check m.heap.size = .ok () ∧ m' = m.install exe := by
  unfold load
  cases exe.check m.heap.size with
  | error e => exact iff_of_false nofun fun h => nomatch h.1
  | ok u => exact ⟨fun h => ⟨rfl, (Except.ok.inj h).symm⟩, fun h => congrArg Except.ok h.2.symm⟩

theorem Machine.load_eq_error {e : LoadError} :
    m.load exe = .error e ↔ exe.check m.heap.size = .error e := by
  unfold load
  cases exe.check m.heap.size with
  | error err => simp [Except.map]
  | ok u => exact iff_of_false nofun nofun

/-- How far the indices may go in code of the listed modules. -/
def Module.limits (ms : List Module) (locals : Nat) : Limits where
  functions := (ms.flatMap (·.routines)).length
  globals := (ms.flatMap (·.globals)).length
  locals := locals

/-- A host function, or code that passes verification. -/
def Routine.Verified (lim : Nat → Limits) (r : Routine) : Prop :=
  match r.body with
  | .host _ => True
  | .compiled none _ => False
  | .compiled (some code) locals => code.verify (lim locals.length) = .ok ()

/-- A module whose code passes verification. -/
structure Module.Verified (lim : Nat → Limits) (m : Module) : Prop where
  routines : ∀ r ∈ m.routines, r.Verified lim
  init : ∀ code ∈ m.init, code.verify (lim 0) = .ok ()

/-- Modules that start one behind the other, with code that is verified against their common
tables. -/
structure Module.Consistent (ms : List Module) : Prop where
  laidOut : LaidOut {} ms
  verified : ∀ m ∈ ms, m.Verified (limits ms)

/-- The executable that modules are joined to. -/
def Executable.ofModules (name : String) (ms : List Module) : Executable where
  name := name
  modules := ms
  routines := (ms.flatMap (·.routines)).toArray
  globals := ms.flatMap fun m => m.globals.map (·.kind)
  strings := ms.flatMap (·.strings)
  inits := ms.flatMap (·.init.toList)

theorem Executable.foldlM_addModule_new {name : String} {e : Executable} :
    ms.foldlM addModule { name } = .ok e ↔ LaidOut {} ms ∧ e = ofModules name ms := by
  rw [foldlM_addModule, foldl_join]
  simp only [List.nil_append, Array.empty_append]
  rfl

theorem Executable.limits_ofModules (name : String) (ms : List Module) (locals : Nat) :
    (ofModules name ms).limits locals = Module.limits ms locals := by
  simp [limits, ofModules, Module.limits, List.length_flatMap]

/-- Consistent modules load wherever there is room for their globals. -/
theorem Module.Consistent.check (h : Module.Consistent ms) (name : String) {heap : Nat}
    (room : (Executable.ofModules name ms).globals.length ≤ heap) :
    (Executable.ofModules name ms).check heap = .ok () := by
  refine Executable.check_eq_ok.2 ⟨room, ?_, ?_⟩
  · rintro ⟨r, slot⟩ hmem
    have hslot : (ms.flatMap (·.routines))[slot]? = some r := by
      have := List.mk_mem_zipIdx_iff_getElem?.1 hmem
      simpa [Executable.ofModules] using this
    have hindex : r.index = slot := by simpa using h.laidOut.routines slot r hslot
    obtain ⟨m, hm, hr⟩ := List.mem_flatMap.1 (List.mem_of_getElem? hslot)
    have hverified := (h.verified m hm).routines r hr
    simp only [Executable.checkRoutine, hindex, ne_eq, not_true_eq_false, if_false]
    cases body : r.body with
    | host builtin => rfl
    | compiled code locals =>
      simp only [Routine.Verified, body] at hverified
      cases code with
      | none => exact hverified.elim
      | some code =>
        refine Except.mapError_eq_ok.2 ?_
        rw [Executable.limits_ofModules]
        exact hverified
  · intro code hcode
    obtain ⟨m, hm, hinit⟩ := List.mem_flatMap.1 hcode
    rw [Executable.limits_ofModules]
    exact (h.verified m hm).init code (by simpa using hinit)

end Stackwork
