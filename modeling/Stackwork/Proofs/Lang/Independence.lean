import Stackwork.Proofs.Lang.Safety
import Stackwork.Proofs.Machine.Inquiries

/-!
# Loading makes a machine forget

The code that programs are compiled to is tidy: every jump leads to a label, and a label stands in
front of an instruction. So a program that was compiled and linked never sees what is left on the
machine from before it was loaded, and a host cannot find out either.
-/
namespace Stackwork

/-- The code of a unit is tidy. -/
theorem UnitCode.tidy {pool : Pool} {ctx : Context} {stmts : List Stmt} {code : Code}
    (unit : UnitCode pool ctx stmts code) (proper : ctx.table.Proper) (size : code.size < operandLimit) :
    code.Tidy := by
  obtain ⟨commands, -, gen, -, rfl⟩ := unit
  have landing : Line.Each (Line.Landing (labelAddress pool.handle commands) _) 0
      (unitLines pool.handle ctx.output commands) :=
    each_unitLines Line.lawful_landing (gen.all_defined proper) gen.tangible gen.placed
  rw [ofList_assemble] at size ⊢
  rw [Line.size_code] at size
  exact ⟨Line.straight_code landing, Line.aligned_code size landing⟩

namespace Program.Becomes

variable {prog : Program} {p : ProgramId} {tt : TyTable} {m : Module}

theorem tidy_routine (h : prog.Becomes p tt m) (proper : tt.Proper) (compact : m.Compact) {r : Routine}
    (mem : r ∈ m.routines) {code : Code} (body : r.code? = some code) : code.Tidy := by
  obtain ⟨i, hi⟩ := List.mem_iff_getElem?.1 mem
  obtain ⟨d, -, becomes⟩ := h.exists_decl hi
  have size := compact.code _ mem code body
  cases becomes with
  | host => cases body
  | source _ unit =>
    cases body
    exact unit.tidy proper size

theorem tidy_init (h : prog.Becomes p tt m) (proper : tt.Proper) (compact : m.Compact) {code : Code}
    (mem : code ∈ m.init) : code.Tidy := by
  rcases h.init with ⟨-, hnone⟩ | ⟨-, code', hsome, unit⟩
  · rw [hnone] at mem
    cases mem
  · obtain rfl : code' = code := Option.some_inj.1 (hsome.symm.trans mem)
    exact unit.tidy proper (compact.init code' mem)

end Program.Becomes

namespace Workspace

variable {w : Workspace} {sources : List (Option Source)} {root : ModuleId} {exe : Executable}

/-- A program that was compiled with all that it imports has only tidy code. -/
theorem Wf.tidy_of_has {T : Ty → Prop} (wf : w.Wf T sources)
    (sourced : ∀ i ∈ w.modules.flatten [root], ∃ s, sources[i.index]? = some (some s))
    (compact : ∀ i ∈ w.modules.flatten [root], (w.modules.get i).Compact)
    (link : w.modules.link root = .ok exe) {code : Code} {lim : Limits} (has : exe.Has code lim) :
    code.Tidy := by
  obtain ⟨-, rfl⟩ := Executable.foldlM_addModule_new.1 link
  cases has with
  | routine mem body =>
    obtain ⟨m, hm, hr⟩ := List.mem_flatMap.1 (List.mem_toArray.1 mem)
    obtain ⟨i, hi, rfl⟩ := List.mem_map.1 hm
    obtain ⟨s, hs⟩ := sourced i hi
    have swf := wf.sources i.index s hs
    exact swf.becomes_get.tidy_routine swf.table (compact i hi) hr (by simp [Routine.code?, body])
  | init mem =>
    obtain ⟨m, hm, hinit⟩ := List.mem_flatMap.1 mem
    obtain ⟨i, hi, rfl⟩ := List.mem_map.1 hm
    obtain ⟨s, hs⟩ := sourced i hi
    have swf := wf.sources i.index s hs
    exact swf.becomes_get.tidy_init swf.table (compact i hi) (by simpa using hinit)

namespace Counting

/-- A block that leaves something on the stack. -/
def littering : Code := .ofList [258, 7, 258, 7]

theorem hosts_program : ∀ r ∈ program.routines, ∀ builtin, r.body = .host builtin → ∀ args,
    (builtin args).Executes (Code.Neat (program.limits 0)) := by
  intro r mem builtin body
  have hmem : r ∈ counter.routines := Array.mem_toList_iff.2 mem
  rw [List.mem_singleton.1 hmem] at body
  cases body

end Counting

end Workspace
end Stackwork
