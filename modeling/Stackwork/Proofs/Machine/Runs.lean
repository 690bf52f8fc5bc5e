import Mathlib.Logic.Relation
import Stackwork.Machine.Run

/-!
# Runs as sequences of steps

A run of any length leads from one configuration to the next. `Config.Reaches` is that
relation, and running with enough steps finishes exactly when the relation leads to a
configuration with no task left. `Machine.Visits` collects every configuration that comes
up while the loaded program runs or one of its routines is called.
-/
namespace Stackwork

namespace Config

/-- One step of a run that goes on. -/
def Follows (c c' : Config) : Prop := c.step = .running c'

/-- A run leads from one configuration to another. -/
def Reaches : Config → Config → Prop := Relation.ReflTransGen Follows

variable {m : Machine} {result : Slot} {c : Config}

theorem follows_cons {t : Task} {rest : List Task} {c' : Config}
    (h : Follows ⟨m, t :: rest, result⟩ c') :
    ∃ tasks result' m', Machine.taskStep result t m = .ok (tasks, result') m' ∧
      c' = ⟨m', tasks ++ rest, result'⟩ := by
  simp only [Follows, step] at h
  split at h
  · next tasks result' m' hstep =>
    cases h
    exact ⟨tasks, result', m', hstep, rfl⟩
  · cases h

theorem step_eq_finished : c.step = .finished result m ↔ c = ⟨m, [], result⟩ := by
  obtain ⟨m', tasks, result'⟩ := c
  cases tasks with
  | nil => simp [step, and_comm]
  | cons t rest =>
    simp only [step, mk.injEq, reduceCtorEq, false_and, and_false, iff_false]
    split <;> simp

/-- A finished run went through its steps to a configuration with no task left. -/
theorem reaches_of_run {fuel : Nat} (h : c.run fuel = .finished result m) :
    c.Reaches ⟨m, [], result⟩ := by
  induction fuel generalizing c with
  | zero => cases h
  | succ fuel ih =>
    simp only [run] at h
    split at h
    · next c' hstep => exact .head hstep (ih h)
    · next hstep =>
      cases h
      rw [step_eq_finished.1 hstep]
      exact .refl
    · cases h

end Config

namespace Machine

/-- What a dispatch loop does when an instruction is over. -/
def resume (code : Code) (depth : Nat) (result : Slot) : Next → Op (List Task × Slot)
  | .goto pc => return ([.loop code pc depth], result)
  | .move code pc => return ([.loop code pc depth], result)
  | .host r builtin pc => return ([← beginHost r builtin, .loop code pc depth], result)
  | .leave => return ([], result)

/-- The configurations that come up when codes are run in order, each as a block of its
own, up to one that halts. -/
inductive VisitsBlocks : Machine → List Code → Config → Prop where
  | here {m m' : Machine} {code : Code} {rest : List Code} {tasks : List Task} {c : Config}
      (begun : beginBlock code m = .ok tasks m') (run : Config.Reaches ⟨m', tasks, .zero⟩ c) :
      VisitsBlocks m (code :: rest) c
  | later {m m' : Machine} {code : Code} {rest : List Code} {fuel : Nat} {c : Config}
      (done : m.runBlock fuel code = .finished () m') (on : m'.halted = false)
      (visit : VisitsBlocks m' rest c) : VisitsBlocks m (code :: rest) c

/-- The configurations that come up when the loaded program is run, or when one of its
routines is called with as many arguments as it takes. -/
inductive Visits (m : Machine) : Config → Prop where
  | run {exe : Executable} {c : Config} (loaded : m.exe = some exe)
      (visit : m.VisitsBlocks exe.inits c) : Visits m c
  | call {index : Int} {args : List Slot} {r : Routine} {tasks : List Task} {m' : Machine}
      {c : Config} (found : m.callee index args = .ok r)
      (begun : beginCall r args m = .ok tasks m') (run : Config.Reaches ⟨m', tasks, .zero⟩ c) :
      Visits m c

end Machine
end Stackwork
