import Stackwork.Proofs.Machine.Abreast
import Stackwork.Proofs.Machine.Fetch

/-!
# What a host can find out

Everything that a host asks of a machine, and what it is told. Loading leaves the stack as it is, and
the tags of all slots that are not globals of the program, so two machines keep different remains of
what was asked of them before. A program with neat code never gets to see the remains: its jumps lead
to instructions that verification has looked at, so that its locals are in its frame and its globals
among those of the program. Then the answers are the same on both machines.
-/
namespace Stackwork

/-- A code all of whose jumps lead to instructions. -/
structure Code.Tidy (code : Code) : Prop where
  straight : code.Straight
  aligned : code.Aligned

/-- A verified code that only ever executes the instructions that verification has looked at. -/
structure Code.Neat (lim : Limits) (code : Code) : Prop extends code.Tidy where
  verified : code.verify lim = .ok ()

/-- A program with neat code, whose host functions execute neat code only. -/
structure Executable.Neat (exe : Executable) : Prop where
  code {code : Code} {lim : Limits} (has : exe.Has code lim) : code.Neat lim
  host {r : Routine} {builtin : Builtin} (mem : r ∈ exe.routines) (body : r.body = .host builtin)
    (args : List Slot) : (builtin args).Executes (Code.Neat (exe.limits 0))

/-- What machines have in common on which the program was loaded. -/
def Executable.footing (exe : Executable) (shape : Machine.Shape) : Machine.Footing :=
  ⟨shape, some exe, exe.globals.length, 0⟩

theorem Machine.mem_of_at? {α : Type} {xs : Array α} {i : Int} {a : α} (h : at? xs i = some a) :
    a ∈ xs := by
  unfold at? at h
  split at h
  · exact Array.mem_of_getElem? h
  · cases h

/-- The operands of neat code name slots of its own frame and globals of the program. -/
theorem Code.Neat.covers {code : Code} {exe : Executable} {locals p : Nat} {K b : Int}
    (h : code.Neat (exe.limits locals)) (hp : code.Start p) (hK : b + locals ≤ K)
    (shape : Machine.Shape) : Machine.Covers (exe.footing shape) K code p b := by
  have bounded {i : Instr} {op : Opcode} {bound : Nat} {v : Int32} (fetch : code.instr? p = some i)
      (hop : i.op? = some op) (hbound : (exe.limits locals).bound? code.size op = some bound)
      (hv : code.int? (p + 1) = some v) : v.toInt < bound := by
    obtain ⟨i', haccepts⟩ := Code.accepts_of_start h.verified hp (Code.lt_size fetch)
    obtain rfl : i = i' := Option.some_inj.1 (fetch.symm.trans haccepts.fetch)
    obtain ⟨v', hv', -, hlt⟩ := haccepts.inRange op bound hop hbound
    obtain rfl : v = v' := Option.some_inj.1 (hv.symm.trans hv')
    exact hlt
  refine ⟨.inl (by omega), fun fetch hop v hv => .inl ?_, fun fetch hop v hv => .inl ?_⟩
  · rcases hop with hop | hop
    · exact bounded fetch hop rfl hv
    · exact bounded fetch hop rfl hv
  · have hlt : v.toInt < locals := by
      rcases hop with hop | hop
      · exact bounded fetch hop rfl hv
      · exact bounded fetch hop rfl hv
    omega

/-- Neat code at one of its instructions, with its frame below the height. -/
def Regime.neat {exe : Executable} (neat : exe.Neat) (shape : Machine.Shape) :
    Regime (exe.footing shape) where
  runs K code pc b := ∃ p locals : Nat, pc = p ∧ code.Start p ∧ code.Neat (exe.limits locals) ∧
    b + locals ≤ K
  blocks := Code.Neat (exe.limits 0)
  covers := by
    rintro K pc b code - ⟨p, locals, rfl, hp, hcode, hK⟩
    exact hcode.covers hp hK shape
  mono := by
    rintro K K' pc b code hle ⟨p, locals, hpc, hp, hcode, hK⟩
    exact ⟨p, locals, hpc, hp, hcode, Int.le_trans hK hle⟩
  next := by
    rintro K pc pc' b code i ⟨p, locals, rfl, hp, hcode, hK⟩ fetch goes
    obtain ⟨p', hp', rfl⟩ :=
      Code.start_of_goes hcode.verified hcode.straight hcode.aligned hp fetch goes
    exact ⟨p', locals, rfl, hp', hcode, hK⟩
  enter := by
    intro K b index r target found body top
    have hbody : r.body = .compiled (some target) r.locals := by
      unfold Routine.code? at body
      unfold Routine.locals
      cases hr : r.body with
      | host builtin => simp [hr] at body
      | compiled code locals => simpa [hr] using body
    exact ⟨0, r.locals.length, rfl, .first, neat.code (.routine (Machine.mem_of_at? found) hbody), top⟩
  block h top := ⟨0, 0, rfl, .first, h, by simpa using top⟩
  host found body args := neat.host (Machine.mem_of_at? found) body args

/-- What a host can ask of a machine. -/
inductive Inquiry where
  | load (exe : Executable)
  | reset
  | request (q : HostRequest)
  | global (index : Int)
  | setGlobal (index : Int) (value : Slot)
  | newObject (o : HostObject)
  | object (handle : UInt64)
  | sp
  | halted

/-- What a host is told. -/
inductive Answer where
  | done
  | rejected (e : LoadError)
  | refused (e : CallError)
  | value (v : Slot)
  | fault (e : Fault)
  /-- More steps are needed than there are. -/
  | pending
  | handle (handle : UInt64)
  | object (o : HostObject)
  | sp (sp : Int)
  | halted (halted : Bool)
deriving DecidableEq

/-- What a reply tells the host, and the machine that it leaves. -/
def Answer.ofReply (m : Machine) : Except CallError (Outcome Slot) → Answer × Option Machine
  | .error e => (refused e, some m)
  | .ok (.finished v m') => (value v, some m')
  | .ok (.faulted e m') => (fault e, some m')
  | .ok .unfinished => (pending, none)

namespace Machine

/-- What a machine answers within so many steps, and the machine afterwards, if there is an end. -/
def ask (fuel : Nat) (m : Machine) : Inquiry → Answer × Option Machine
  | .load exe =>
    match m.load exe with
    | .ok m' => (.done, some m')
    | .error e => (.rejected e, some m)
  | .reset => (.done, some m.reset)
  | .request q => Answer.ofReply m (q.reply fuel m)
  | .global index =>
    match m.global? index with
    | some v => (.value v, some m)
    | none => (.fault .outOfRange, some m)
  | .setGlobal index value =>
    match m.setGlobal? index value with
    | some m' => (.done, some m')
    | none => (.fault .outOfRange, some m)
  | .newObject o => (.handle (m.newObject o).1, some (m.newObject o).2)
  | .object handle => (.object (m.object handle), some m)
  | .sp => (.sp m.sp, some m)
  | .halted => (.halted m.halted, some m)

/-- The answers to a series of inquiries, up to one that does not come to an end. -/
def answers (fuel : Nat) : Machine → List Inquiry → List Answer
  | _, [] => []
  | m, q :: qs =>
    match m.ask fuel q with
    | (a, some m') => a :: answers fuel m' qs
    | (a, none) => [a]

/-- The machines with memories of the given sizes, with tags or without, that any series of inquiries
leads to. -/
inductive Reached (heap stack : Nat) (tagged : Bool) : Machine → Prop where
  | new {settings : Settings} (h : settings.tagged = tagged) :
      Reached heap stack tagged (.new heap stack settings)
  | ask {m m' : Machine} (h : Reached heap stack tagged m) {fuel : Nat} {q : Inquiry}
      (asked : (m.ask fuel q).2 = some m') : Reached heap stack tagged m'

variable {m n m' n' : Machine} {exe : Executable} {fuel : Nat}

/-! ### Inquiries keep the shape -/

theorem shape_install (m : Machine) (exe : Executable) : (m.install exe).shape = m.shape := by
  have htags : (m.install exe).heapTags.size = m.heapTags.size := by
    change (if m.settings.tagged then retag m.heapTags exe.globals else m.heapTags).size = _
    split
    · exact size_foldl_setIfInBounds ..
    · rfl
  have hheap : (m.install exe).heap.size = m.heap.size := Array.size_replicate
  simp only [shape, htags, hheap]
  rfl

theorem shape_of_load (h : m.load exe = .ok m') : m'.shape = m.shape := by
  obtain ⟨-, rfl⟩ := load_eq_ok.1 h
  exact m.shape_install exe

theorem shape_of_setGlobal {index : Int} {value : Slot} (h : m.setGlobal? index value = some m') :
    m'.shape = m.shape := by
  unfold setGlobal? at h
  split at h
  · cases h
    simp [shape]
  · cases h

/-- No inquiry changes the shape of a machine. -/
theorem shape_of_ask {q : Inquiry} (h : (m.ask fuel q).2 = some m') : m'.shape = m.shape := by
  cases q with
  | load exe =>
    simp only [ask] at h
    split at h
    · next hload =>
      cases h
      exact shape_of_load hload
    · cases h
      rfl
  | reset =>
    cases h
    simp [shape, reset]
  | request q =>
    simp only [ask] at h
    cases hreply : q.reply fuel m with
    | error e =>
      rw [hreply] at h
      cases h
      rfl
    | ok o =>
      rw [hreply] at h
      cases o with
      | finished v m₁ =>
        cases h
        exact shape_of_reply hreply (.inl ⟨v, rfl⟩)
      | faulted e m₁ =>
        cases h
        exact shape_of_reply hreply (.inr ⟨e, rfl⟩)
      | unfinished => cases h
  | setGlobal index value =>
    simp only [ask] at h
    split at h
    · next hset =>
      cases h
      exact shape_of_setGlobal hset
    · cases h
      rfl
  | global index =>
    simp only [ask] at h
    split at h <;> cases h <;> rfl
  | newObject | object | sp | halted =>
    cases h
    rfl

theorem Reached.shape {heap stack : Nat} {tagged : Bool} (h : Reached heap stack tagged m) :
    m.shape = ⟨tagged, heap, stack, if tagged then heap else 0, if tagged then stack else 0⟩ := by
  induction h with
  | @new settings h =>
    subst h
    cases htagged : settings.tagged <;> simp [Machine.shape, Machine.new, htagged]
  | ask h asked ih => exact (shape_of_ask asked).trans ih

/-! ### Inquiries on machines that agree -/

/-- Two machines give the same answer and both or none come to an end, and then they are related. -/
inductive AskedAlike (R : Machine → Machine → Prop) :
    Answer × Option Machine → Answer × Option Machine → Prop where
  | on (a : Answer) {m n : Machine} (h : R m n) : AskedAlike R (a, some m) (a, some n)
  | stuck (a : Answer) : AskedAlike R (a, none) (a, none)

/-- Replies that are alike tell the host the same. -/
theorem askedAlike_ofReply {R : Machine → Machine → Prop} {x y : Except CallError (Outcome Slot)}
    (h : R m n) (hreply : Reply.Alike False R x y) :
    AskedAlike R (Answer.ofReply m x) (Answer.ofReply n y) := by
  cases hreply with
  | refused e => exact .on _ h
  | answered h =>
    cases h with
    | finished h | faulted h => exact .on _ h
    | unfinished => exact .stuck _
    | spared h => exact h.elim

/-- The inquiries after which the program is still there, other than to execute code of the host's that
is not neat. -/
def Suits (exe : Executable) : Inquiry → Prop
  | .load _ => False
  | .request (.execute code) => code.Neat (exe.limits 0)
  | _ => True

variable {s : Shape}

/-- Machines that agree with a neat program on them answer alike, and agree again. -/
theorem ask_of_near (neat : exe.Neat) (h : Near (exe.footing s) 0 m n) {q : Inquiry} (suits : Suits exe q) :
    AskedAlike (Near (exe.footing s) 0) (m.ask fuel q) (n.ask fuel q) := by
  obtain ⟨K, hK, hagree⟩ := h
  have h : Near (exe.footing s) 0 m n := ⟨K, hK, hagree⟩
  cases q with
  | load exe' => exact suits.elim
  | reset =>
    refine .on _ ⟨K, hK, ?_⟩
    simp only [reset, hagree.heap]
    exact (((hagree.setHeap (by simp [hagree.heap])).setSp hK).setBase 0).setFrames #[] |>.setHalted false
  | request q =>
    refine askedAlike_ofReply h (reply_of_near (Regime.neat neat s) h ?_ ?_ fuel)
    · intro exe' hexe code hcode
      cases hexe
      exact neat.code (.init hcode)
    · rintro code rfl
      exact suits
  | global index =>
    simp only [ask, global?, ← hagree.heap]
    split
    · exact .on _ h
    · exact .on _ h
  | setGlobal index value =>
    simp only [ask, setGlobal?, ← hagree.heap]
    split
    · next hset =>
      split at hset
      · cases hset
        rw [if_pos ‹_›]
        exact .on _ ⟨K, hK, hagree.setHeap (by simp)⟩
      · cases hset
    · next hset =>
      split at hset
      · cases hset
      · rw [if_neg ‹_›]
        exact .on _ h
  | newObject o =>
    simp only [ask, newObject, ← hagree.objects]
    exact .on _ ⟨K, hK, hagree.setObjects _⟩
  | object handle =>
    simp only [ask, object, ← hagree.objects]
    exact .on _ h
  | sp =>
    simp only [ask, ← hagree.sp]
    exact .on _ h
  | halted =>
    simp only [ask, ← hagree.halted]
    exact .on _ h

theorem answers_of_near (neat : exe.Neat) (h : Near (exe.footing s) 0 m n) {qs : List Inquiry}
    (suits : ∀ q ∈ qs, Suits exe q) : m.answers fuel qs = n.answers fuel qs := by
  induction qs generalizing m n with
  | nil => rfl
  | cons q qs ih =>
    obtain ⟨hq, hqs⟩ := List.forall_mem_cons.1 suits
    have halike : AskedAlike (Near (exe.footing s) 0) (m.ask fuel q) (n.ask fuel q) :=
      ask_of_near neat h hq
    unfold answers
    revert halike
    generalize m.ask fuel q = x, n.ask fuel q = y
    intro halike
    cases halike with
    | on a h => exact congrArg (a :: ·) (ih h hqs)
    | stuck a => rfl

/-! ### Loading -/

/-- Loading makes machines of one shape agree. -/
theorem near_install (hshape : m.shape = n.shape) (exe : Executable) :
    Near (exe.footing m.shape) 0 (m.install exe) (n.install exe) := by
  have htagged : m.settings.tagged = n.settings.tagged := congrArg Shape.tagged hshape
  have hheap : m.heap.size = n.heap.size := congrArg Shape.heap hshape
  have nothing {xs ys : Array Kind} (hsize : xs.size = ys.size) : SameBelow 0 xs ys :=
    ⟨hsize, fun i hi => by omega⟩
  refine ⟨0, Int.le_refl 0, ?_⟩
  exact
    { shape := m.shape_install exe
      tagged := htagged
      program := rfl, exe := rfl, objects := rfl, frames := rfl, sp := rfl, base := rfl, halted := rfl
      heap := by simp [install, reset, hheap]
      stack := ⟨congrArg Shape.stack hshape, fun i hi => by omega⟩
      stackTags := fun _ => nothing (congrArg Shape.stackTags hshape)
      heapTags := fun h => by
        have htags : SameBelow 0 m.heapTags n.heapTags := nothing (congrArg Shape.heapTags hshape)
        have hrow := htags.setRow (b := 0) (j := 0) (by simp) exe.globals
        have h : m.settings.tagged = true := h
        simp only [install, reset, h, ← htagged, if_true, retag]
        simpa [Executable.footing] using hrow
      floor := Int.le_refl 0
      top := Int.le_refl 0 }

/-- What a neat program answers after it was loaded does not depend on what the machine did before. -/
theorem answers_of_load (neat : exe.Neat) (hshape : m.shape = n.shape) (hload : m.load exe = .ok m') :
    ∃ n', n.load exe = .ok n' ∧
      ∀ fuel qs, (∀ q ∈ qs, Suits exe q) → m'.answers fuel qs = n'.answers fuel qs := by
  have hheap : m.heap.size = n.heap.size := congrArg Shape.heap hshape
  obtain ⟨hcheck, rfl⟩ := load_eq_ok.1 hload
  rw [hheap] at hcheck
  refine ⟨n.install exe, load_eq_ok.2 ⟨hcheck, rfl⟩, fun fuel qs suits => ?_⟩
  exact answers_of_near neat (near_install hshape exe) suits

end Machine
end Stackwork
