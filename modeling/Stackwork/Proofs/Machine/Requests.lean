import Stackwork.Proofs.Machine.Pairs

/-!
# Requests of the host

What a host can have executed, and what it is told. Two machines that run the same program
answer a request alike when the blocks and calls that it leads to come out alike.
-/
namespace Stackwork

/-- What a host can have executed. -/
inductive HostRequest where
  /-- A code, as a block of its own. -/
  | execute (code : Code)
  /-- The loaded program. -/
  | run
  /-- A routine, by number or by name. -/
  | call (index : Int) (args : List Slot)
  | callNamed (name : String) (args : List Slot)

/-- The outcome of a run that has no result. -/
def Outcome.void : Outcome Unit → Outcome Slot
  | .finished _ m => .finished .zero m
  | .faulted f m => .faulted f m
  | .unfinished => .unfinished

/-- What a request comes to within so many steps. -/
def HostRequest.reply (fuel : Nat) (m : Machine) : HostRequest → Except CallError (Outcome Slot)
  | execute code => .ok (m.runBlock fuel code).void
  | run => (m.run fuel).map Outcome.void
  | call index args => m.call fuel index args
  | callNamed name args => m.callNamed fuel name args

/-- Two requests are answered alike: both are refused for one reason, or both come out alike. -/
inductive Reply.Alike (spare : Prop) (R : Machine → Machine → Prop) :
    Except CallError (Outcome Slot) → Except CallError (Outcome Slot) → Prop where
  | refused (e : CallError) : Alike spare R (.error e) (.error e)
  | answered {x y : Outcome Slot} (h : Outcome.Alike spare R x y) : Alike spare R (.ok x) (.ok y)

variable {spare : Prop} {R : Machine → Machine → Prop} {y : Except CallError (Outcome Slot)}

theorem Outcome.Alike.void {x y : Outcome Unit} (h : Outcome.Alike spare R x y) :
    Outcome.Alike spare R x.void y.void := by
  cases h with
  | finished h => exact .finished h
  | faulted h => exact .faulted h
  | unfinished => exact .unfinished
  | spared h => exact .spared h

theorem Reply.Alike.mono {R' : Machine → Machine → Prop} {x : Except CallError (Outcome Slot)}
    (h : Reply.Alike spare R x y) (hR : ∀ m n, R m n → R' m n) : Reply.Alike spare R' x y := by
  cases h with
  | refused e => exact .refused e
  | answered h => exact .answered (h.mono hR)

/-- A result is answered by the same result. -/
theorem Reply.Alike.of_finished {v : Slot} {m : Machine}
    (h : Reply.Alike spare R (.ok (.finished v m)) y) : ∃ n, y = .ok (.finished v n) ∧ R m n := by
  cases h with
  | answered h =>
    cases h with
    | finished h => exact ⟨_, rfl, h⟩

/-- A request is answered alike by machines with one program, if what it executes comes out
alike. -/
theorem Machine.reply_alike {m n : Machine} {fuel : Nat} {q : HostRequest} (hexe : m.exe = n.exe)
    (hblock : ∀ code, q = .execute code → Outcome.Alike spare R (m.runBlock fuel code) (n.runBlock fuel code))
    (hinits : ∀ exe, m.exe = some exe → Outcome.Alike spare R (runInits fuel exe.inits m) (runInits fuel exe.inits n))
    (hcall : ∀ index args r, m.callee index args = .ok r →
      Outcome.Alike spare R (m.perform fuel (beginCall r args)) (n.perform fuel (beginCall r args))) :
    Reply.Alike spare R (q.reply fuel m) (q.reply fuel n) := by
  have calls (index : Int) (args : List Slot) :
      Reply.Alike spare R (m.call fuel index args) (n.call fuel index args) := by
    have hcallee : n.callee index args = m.callee index args := by
      simp only [callee, routines, hexe]
    unfold call
    rw [hcallee]
    cases hm : m.callee index args with
    | error e => exact .refused e
    | ok r => exact .answered (hcall index args r hm)
  cases q with
  | execute code => exact .answered (hblock code rfl).void
  | run =>
    simp only [HostRequest.reply, run, ← hexe]
    cases hm : m.exe with
    | none => exact .refused _
    | some exe => exact .answered (hinits exe hm).void
  | call index args => exact calls index args
  | callNamed name args =>
    have hnamed : n.named name = m.named name := by simp only [named, hexe]
    simp only [HostRequest.reply, callNamed, hnamed]
    cases m.named name with
    | error e => exact .refused e
    | ok r => exact calls r.index args

end Stackwork
