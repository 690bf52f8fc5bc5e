import Mathlib
import Stackwork.Proofs.Machine.Frames
import Stackwork.Proofs.Machine.Loading

/-!
# Fetching from verified code

Loading verifies every code of a program, and dispatch then takes instructions and operands
from wherever its position points. For a code without indirect jumps and calls this is safe
when the code is aligned: every position a run ever works at is a start, and at a start
verification has looked at the instruction, its operand and the range of the operand.

Verification does not look for alignment. A code whose jump leads into an operand passes,
and then the machine executes a word that nobody has looked at.
-/
namespace Stackwork

/-- From a start of a verified code that is straight and aligned, execution goes on at a start. -/
theorem Code.start_of_goes {code : Code} {lim : Limits} {p : Nat} {pc' : Int} {i : Instr}
    (hverify : code.verify lim = .ok ()) (hstraight : code.Straight) (haligned : code.Aligned)
    (hp : code.Start p) (fetch : code.instr? p = some i) (goes : i.valid → Goes code p i pc') :
    ∃ p' : Nat, code.Start p' ∧ pc' = p' := by
  obtain ⟨i', haccepts⟩ := Code.accepts_of_start hverify hp (Code.lt_size fetch)
  obtain rfl : i = i' := Option.some_inj.1 (fetch.symm.trans haccepts.fetch)
  cases goes haccepts.valid with
  | next => exact ⟨p + 1 + i.operandWords, hp.next fetch, by push_cast; rfl⟩
  | jump hop hj target =>
    exact haligned p hp _ (by simp [Code.target?, Code.op?, fetch, hop, hj, target])
  | @indirect op _ hop hi =>
    have := hstraight p hp op (by simp [Code.op?, fetch, hop])
    rw [hi] at this
    cases this

/-- A position of a code that is direct, aligned and verified is one of its starts. -/
def OnStart (code : Code) (pc : Int) : Prop :=
  ∀ lim, code.verify lim = .ok () → code.Direct → code.Aligned → ∃ p : Nat, code.Start p ∧ pc = p

theorem handedOn_onStart : HandedOn OnStart where
  first code _ _ _ _ := ⟨0, .first, rfl⟩
  next := by
    intro code pc pc' i here fetch goes lim hverify hdirect haligned
    obtain ⟨p, hp, rfl⟩ := here lim hverify hdirect haligned
    exact Code.start_of_goes hverify hdirect.straight haligned hp fetch goes

namespace Machine

/-- The instruction `i` at a position is acceptable, and the routine or the heap slot it
names is there. -/
structure Serves (m : Machine) (lim : Limits) (code : Code) (p : Nat) (i : Instr) : Prop
    extends lim.Accepts code p i where
  routine : i.op? = some .call →
    ∃ v r, code.int? (p + 1) = some v ∧ at? m.routines v.toInt = some r
  global : i.op? = some .loadGlobal ∨ i.op? = some .storeGlobal →
    ∃ v s, code.int? (p + 1) = some v ∧ m.global? v.toInt = some s

theorem exists_at? {α : Type} {xs : Array α} {i : Int} (h₀ : 0 ≤ i) (h : i < xs.size) :
    ∃ a, at? xs i = some a := by
  have : i.toNat < xs.size := by omega
  exact ⟨xs[i.toNat], by simp [at?, h₀, this]⟩

/-- A machine with enough globals and the routines of the program serves what verification
accepts. -/
theorem serves_of_accepts {m : Machine} {exe : Executable} {locals p : Nat} {code : Code} {i : Instr}
    (hexe : m.exe = some exe) (hglobals : exe.globals.length ≤ m.heap.size)
    (h : (exe.limits locals).Accepts code p i) : m.Serves (exe.limits locals) code p i where
  toAccepts := h
  routine hop := by
    obtain ⟨v, hv, h₀, hlt⟩ := h.inRange _ _ hop rfl
    obtain ⟨r, hr⟩ : ∃ r, at? m.routines v.toInt = some r :=
      exists_at? h₀ (by simp only [routines, hexe]; exact hlt)
    exact ⟨v, r, hv, hr⟩
  global hop := by
    have hbound : ∃ op, i.op? = some op ∧
        (exe.limits locals).bound? code.size op = some exe.globals.length := by
      rcases hop with hop | hop
      · exact ⟨_, hop, rfl⟩
      · exact ⟨_, hop, rfl⟩
    obtain ⟨op, hop, hb⟩ := hbound
    obtain ⟨v, hv, h₀, hlt⟩ := h.inRange _ _ hop hb
    obtain ⟨s, hs⟩ : ∃ s, at? m.heap v.toInt = some s := exists_at? h₀ (by omega)
    exact ⟨v, s, hv, hs⟩

/-- In a loaded program, whatever instruction of an aligned code without indirect jumps and
calls a run comes to, the instruction is valid, its operands are inside the code, and the
position, routine or slot it names exists. -/
theorem serves_of_visits {m : Machine} {exe : Executable} (loaded : m.exe = some exe)
    (checked : exe.check m.heap.size = .ok ()) {c : Config} (visit : m.Visits c)
    {code : Code} {pc : Int} {depth : Nat} {rest : List Task}
    (top : c.tasks = .loop code pc depth :: rest) {lim : Limits} (has : exe.Has code lim)
    (direct : code.Direct) (aligned : code.Aligned) :
    ∃ p : Nat, pc = p ∧ code.Start p ∧ p ≤ code.size ∧
      (p < code.size → ∃ i, c.machine.Serves lim code p i) := by
  obtain ⟨⟨bottom, hnested⟩, hfix⟩ := nested_of_visits handedOn_onStart visit
  have hverify := Executable.verify_of_has checked has
  rw [Config.Nested, top] at hnested
  obtain ⟨p, hp, rfl⟩ := hnested.1 lim hverify direct aligned
  refine ⟨p, rfl, hp, (Code.verifyFrom_of_start hverify hp).1, fun hlt => ?_⟩
  obtain ⟨i, haccepts⟩ := Code.accepts_of_start hverify hp hlt
  have hexe : c.machine.exe = some exe := (congrArg Fixture.exe hfix).trans loaded
  have hheap : c.machine.heap.size = m.heap.size := congrArg Fixture.heapSize hfix
  have hglobals := (Executable.check_eq_ok.1 checked).1
  refine ⟨i, ?_⟩
  cases has with
  | routine | init => exact serves_of_accepts hexe (hheap ▸ hglobals) haccepts

/-- The code of a routine that returns the first global. -/
def getter : Code := ⟨#[0x110, 0, 0x162]⟩

/-- A program whose top level calls the routine and stores its result, for ever. -/
def looping : Executable where
  name := "looping"
  routines := #[⟨"get", .function 5 (.prim 2 .int) [], 0, .compiled (some getter) []⟩]
  globals := [.int]
  inits := [⟨#[0x60, 0, 0x111, 0, 0x50, 0]⟩]

/-- The routine comes up again in the second round of the loop. -/
theorem serves_of_visits_looping : ∃ (m : Machine) (c : Config) (rest : List Task),
    m.exe = some looping ∧ looping.check m.heap.size = .ok () ∧ m.Visits c ∧
      c.tasks = .loop getter 0 0 :: rest ∧ looping.Has getter (looping.limits 0) ∧
      getter.Direct ∧ getter.Aligned ∧
      ∃ p : Nat, (0 : Int) = p ∧ getter.Start p ∧ p ≤ getter.size ∧
        (p < getter.size → ∃ i, c.machine.Serves (looping.limits 0) getter p i) := by
  have checked : looping.check 8 = .ok () := by cbv
  have visit : ∃ c, ((new 8 64 {}).install looping).Visits c ∧
      c.tasks = [.loop getter 0 0, .closeBlock 0 0] :=
    ⟨_, .run rfl (.here rfl (.head rfl (.head rfl (.head rfl (.head rfl (.head rfl
      (.head rfl .refl))))))), rfl⟩
  obtain ⟨c, hvisit, htasks⟩ := visit
  have has : looping.Has getter (looping.limits ([] : List Kind).length) :=
    .routine (List.mem_toArray.2 List.mem_cons_self) rfl
  exact ⟨(new 8 64 {}).install looping, c, _, rfl, checked, hvisit, htasks, has, by decide, by decide,
    serves_of_visits rfl checked hvisit htasks has (by decide) (by decide)⟩

/-- A jump into the operand of the instruction behind it. -/
def misaligned : Executable where
  name := "misaligned"
  inits := [⟨#[0x50, 3, 0x102, 0x110, 0x63]⟩]

/-- Verification accepts a code without indirect jumps that makes the machine read a heap
slot that is not there: the word jumped to is the operand of a push, and it stands for
another instruction. -/
theorem faults_of_misaligned :
    misaligned.check 8 = .ok () ∧ (∀ code ∈ misaligned.inits, code.Direct) ∧
      ∃ m, ((new 8 64 {}).install misaligned).run 2 = .ok (.faulted .outOfRange m) := by
  exact ⟨by cbv, by decide, _, rfl⟩

end Machine
end Stackwork
