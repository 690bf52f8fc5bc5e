import Stackwork.Proofs.Machine.Parity

/-!
# Twin machines

Machines that show the same face and run the same tasks in lockstep. They may differ in the
frames at the bottom, which no task of theirs comes down to, in whether they trace and in the
lines they write, and the second may do without tags when the first is spared its faults.

`Config.Twin` is the relation between two runs; `Config.progress_of_twin` is its step and
`Config.run_of_twin` the whole run.
-/
namespace Stackwork

/-- In what two machines may differ. -/
structure Machine.Pairing where
  /-- Nothing is said any more when the first machine has faulted. -/
  spare : Prop
  /-- The frames at the bottom of the first machine, and of the second. -/
  low : List Frame
  low' : List Frame
  /-- Whether the first machine traces, and the second. -/
  trace : Bool
  trace' : Bool
  /-- How the journals correspond. -/
  lines : Array String → Array String → Prop

namespace Machine

/-- Two machines that differ at most as said, with at least `k` frames above those at the bottom. -/
structure Twin (p : Pairing) (k : Nat) (m n : Machine) : Prop where
  face : m.face = n.face
  frames : ∃ fs, m.frames.toList = p.low ++ fs ∧ n.frames.toList = p.low' ++ fs ∧ k ≤ fs.length
  tags : n.settings.tagged = m.settings.tagged ∧ n.heapTags = m.heapTags ∧
      n.stackTags = m.stackTags ∨ p.spare ∧ n.settings.tagged = false
  trace : m.settings.trace = p.trace
  trace' : n.settings.trace = p.trace'
  lines : p.lines m.journal n.journal

/-- The journal with the line of an instruction that is about to run. -/
def traced (m : Machine) (code : Code) (pc : Int) (i : Instr) : Array String :=
  if m.settings.trace then m.journal.push (m.traceLine code pc i) else m.journal

theorem trace_eq (m : Machine) (code : Code) (pc : Int) (i : Instr) :
    trace code pc i m = .ok () { m with journal := m.traced code pc i } := by
  change (if m.settings.trace then _ else _ : Op Unit) m = _
  unfold traced
  split <;> rfl

/-- Journals that correspond still do when both machines write the same line, and when they trace
an instruction. -/
structure Pairing.Sound (p : Pairing) : Prop where
  write {j j' : Array String} (h : p.lines j j') (line : String) :
    p.lines (j.push line) (j'.push line)
  trace {k : Nat} {m n : Machine} (h : Twin p k m n) {code : Code} {pc : Int} {i : Instr}
    (fetch : code.instr? pc = some i) : p.lines (m.traced code pc i) (n.traced code pc i)

/-- Frame depths that are equally far above the frames at the bottom. -/
def Pairing.Deep (p : Pairing) (d d' : Nat) : Prop :=
  ∃ k, d = p.low.length + k ∧ d' = p.low'.length + k

/-- Write the result of a host function with the kind that the routine gives. -/
def writeResult (call : HostCall) (v : Slot) : Op Unit :=
  match call.routine.returnKind? with
  | some k => writeStack call.bottom v k
  | none => fault .absent

/-- A tagged machine writes the result of a host function once more, for its tag. -/
def tagResult (call : HostCall) (v : Slot) : Op Unit := do
  if (← get).settings.tagged then writeResult call v

variable {call : HostCall} {v : Slot} {m : Machine}

theorem tagResult_of_untagged (h : m.settings.tagged = false) : tagResult call v m = .ok () m := by
  change (if m.settings.tagged then writeResult call v else pure ()) m = _
  rw [h]
  rfl

theorem tagResult_of_tagged (h : m.settings.tagged = true) : tagResult call v m = writeResult call v m := by
  change (if m.settings.tagged then writeResult call v else pure ()) m = _
  rw [h]
  rfl

theorem endHost_eq (call : HostCall) (v : Slot) : endHost call v = (do
    modify fun m => { m with base := call.base }
    writeStack call.bottom v .none
    tagResult call v
    modify fun m => { m with sp := call.bottom + 1 }) := by
  unfold endHost tagResult writeResult
  refine bind_congr fun _ => bind_congr fun _ => ?_
  rw [bind_assoc]
  refine bind_congr fun m => ?_
  simp only
  split
  · cases call.routine.returnKind? <;> rfl
  · rw [pure_bind]

open Op (Pairs Steady)

namespace Twin

variable {p : Pairing} {k : Nat} {m n : Machine}

section

variable (h : Twin p k m n)
include h

theorem heap : m.heap = n.heap := congrArg Face.heap h.face

theorem stack : m.stack = n.stack := congrArg Face.stack h.face

theorem sp : m.sp = n.sp := congrArg Face.sp h.face

theorem weaken : Twin p 0 m n :=
  let ⟨fs, hm, hn, _⟩ := h.frames
  { h with frames := ⟨fs, hm, hn, Nat.zero_le _⟩ }

/-- Twins with the same frames at the bottom have the same frames. -/
theorem frames_eq (hlow : p.low = p.low') : m.frames = n.frames := by
  obtain ⟨fs, hm, hn, -⟩ := h.frames
  exact Array.toList_inj.1 (by rw [hm, hn, hlow])

/-- When one machine has no frames but those at the bottom, neither has the other. -/
theorem frames_of_low (hlow : m.frames.toList = p.low) : n.frames.toList = p.low' := by
  obtain ⟨fs, hm, hn, -⟩ := h.frames
  obtain rfl : fs = [] := by simpa [hlow] using hm
  simpa using hn

theorem wear (F : Face) : Twin p k (m.wear F) (n.wear F) := { h with face := rfl }

/-- Change one part of the face on both sides. -/
theorem change (f : Face → Face) : Twin p k (m.wear (f m.face)) (n.wear (f n.face)) := by
  rw [h.face]
  exact h.wear _

/-- Both machines read the same, or the second has no tag to stop at. -/
theorem lookUp_alike (region : Region) (i : Int) (kind : Kind) (slot? : Option Slot)
    {tags tags' : Array Kind}
    (htags : n.settings.tagged = m.settings.tagged ∧ tags' = tags ∨ p.spare ∧ n.settings.tagged = false) :
    Op.Alike p.spare (Twin p k) (Twin p k) Eq
      (m.outcome (lookUp region i kind slot? (m.tagAt tags i)))
      (n.outcome (lookUp region i kind slot? (n.tagAt tags' i))) := by
  refine alike_outcome h ?_
  rcases htags with ⟨htagged, rfl⟩ | ⟨hspare, htagged⟩
  · exact .inl (by simp only [tagAt, htagged])
  · have hnone : n.tagAt tags' i = none := by simp [tagAt, htagged]
    rw [hnone]
    exact .inr ⟨hspare, fun v hv => lookUp_untagged hv⟩

end

theorem readStack (i : Int) (kind : Kind) : Steady p.spare (Twin p k) (readStack i kind) := by
  intro m n h
  rw [readStack_apply, readStack_apply, h.stack]
  exact h.lookUp_alike .stack i kind _ (h.tags.imp_left fun ht => ⟨ht.1, ht.2.2⟩)

theorem readHeap (i : Int) (kind : Kind) : Steady p.spare (Twin p k) (readHeap i kind) := by
  intro m n h
  rw [readHeap_apply, readHeap_apply, h.heap]
  exact h.lookUp_alike .heap i kind _ (h.tags.imp_left fun ht => ⟨ht.1, ht.2.1⟩)

theorem writeStack (i : Int) (v : Slot) (kind : Kind) :
    Steady p.spare (Twin p k) (writeStack i v kind) := by
  intro m n h
  unfold Machine.writeStack
  rw [← h.stack]
  split
  · have hface := h.face
    simp only [Machine.face, Face.mk.injEq] at hface
    refine .ok rfl { h with face := ?_, tags := h.tags.imp_left fun ht => ?_ }
    · simp [Machine.face, hface]
    · exact ⟨ht.1, ht.2.1, by simp [ht]⟩
  · exact .error h

theorem writeHeap (i : Int) (v : Slot) (kind : Kind) :
    Steady p.spare (Twin p k) (writeHeap i v kind) := by
  intro m n h
  unfold Machine.writeHeap
  rw [← h.heap]
  split
  · have hface := h.face
    simp only [Machine.face, Face.mk.injEq] at hface
    refine .ok rfl { h with face := ?_, tags := h.tags.imp_left fun ht => ?_ }
    · simp [Machine.face, hface]
    · exact ⟨ht.1, by simp [ht], ht.2.2⟩
  · exact .error h

theorem enter (r : Routine) : Steady p.spare (Twin p k) (enter r) := by
  intro m n h
  have hface := h.face
  simp only [Machine.face, Face.mk.injEq] at hface
  unfold Machine.enter
  simp only [← h.sp, ← h.stack]
  by_cases hm : 0 ≤ m.sp ∧ m.sp ≤ m.sp - r.arity + r.locals.length ∧
      m.sp - r.arity + r.locals.length ≤ m.stack.size ∧ (m.settings.tagged → 0 ≤ m.sp - r.arity)
  · have hn : 0 ≤ m.sp ∧ m.sp ≤ m.sp - r.arity + r.locals.length ∧
        m.sp - r.arity + r.locals.length ≤ m.stack.size ∧
        (n.settings.tagged → 0 ≤ m.sp - r.arity) := by
      refine ⟨hm.1, hm.2.1, hm.2.2.1, ?_⟩
      rcases h.tags with ht | ⟨-, ht⟩
      · exact fun htagged => hm.2.2.2 (ht.1 ▸ htagged)
      · simp [ht]
    rw [if_pos hm, if_pos hn]
    refine .ok rfl { h with face := ?_, tags := h.tags.imp_left fun ht => ?_ }
    · simp [Machine.face, hface]
    · exact ⟨ht.1, ht.2.1, by simp [ht]⟩
  · rw [if_neg hm]
    rcases h.tags with ht | ⟨hspare, -⟩
    · rw [← ht.1] at hm
      rw [if_neg hm]
      exact .error h
    · exact .spared hspare

/-- A slot that has just been written with `v`, so that writing it again changes its tag only. -/
def Holding (p : Pairing) (k : Nat) (i : Int) (v : Slot) (m n : Machine) : Prop :=
  Twin p k m n ∧ m.stack.setIfInBounds i.toNat v = m.stack

theorem holding_of_writeStack (i : Int) (v : Slot) (kind : Kind) :
    Pairs p.spare (Twin p k) (Twin p k) (Holding p k i v) Eq (Machine.writeStack i v kind)
      (Machine.writeStack i v kind) := by
  intro m n h
  have hpair := Twin.writeStack i v kind h
  cases hm : Machine.writeStack i v kind m with
  | error f m' =>
    rw [hm] at hpair
    generalize Machine.writeStack i v kind n = y at hpair ⊢
    cases hpair with
    | error rel => exact .error rel
    | spared h => exact .spared h
  | ok u m' =>
    have hset : m'.stack.setIfInBounds i.toNat v = m'.stack := by
      unfold Machine.writeStack at hm
      split at hm <;> cases hm
      simp
    rw [hm] at hpair
    generalize Machine.writeStack i v kind n = y at hpair ⊢
    cases hpair with
    | ok value rel => exact .ok value ⟨rel, hset⟩

theorem endHost (call : HostCall) (v : Slot) : Steady p.spare (Twin p k) (endHost call v) := by
  rw [endHost_eq]
  refine .bindEq (.modify fun m n h => h.change fun F => { F with base := call.base }) fun _ =>
    .bindEq (holding_of_writeStack _ _ _) fun _ => .bindEq (R := Twin p k) ?_ fun _ =>
      .modify fun m n h => h.change fun F => { F with sp := call.bottom + 1 }
  rintro m n ⟨h, hset⟩
  rcases h.tags with ht | ⟨hspare, ht⟩
  · cases htagged : m.settings.tagged with
    | false =>
      rw [tagResult_of_untagged htagged, tagResult_of_untagged (ht.1.trans htagged)]
      exact .ok rfl h
    | true =>
      rw [tagResult_of_tagged htagged, tagResult_of_tagged (ht.1.trans htagged)]
      unfold writeResult
      cases call.routine.returnKind? with
      | none => exact .error h
      | some kind => exact Twin.writeStack _ _ _ h
  · -- The second machine is done; the first may still have a tag to write.
    rw [tagResult_of_untagged ht]
    cases htagged : m.settings.tagged with
    | false =>
      rw [tagResult_of_untagged htagged]
      exact .ok rfl h
    | true =>
      rw [tagResult_of_tagged htagged]
      unfold writeResult
      cases call.routine.returnKind? with
      | none => exact .spared hspare
      | some kind =>
        simp only [Machine.writeStack]
        split
        · rw [hset]
          exact .ok rfl { h with tags := .inr ⟨hspare, ht⟩ }
        · exact .spared hspare

/-- Twins show the same face, and depths correspond when they are equally far above the bottom. -/
theorem parity (hp : p.Sound) (k : Nat) : Parity p.spare (Twin p k) p.Deep where
  face h := h.face
  wear h F := h.wear F
  write h line := { h with lines := hp.write h.lines line }
  depth h := by
    obtain ⟨fs, hm, hn, -⟩ := h.frames
    exact ⟨fs.length, by simp [← Array.length_toList, hm], by simp [← Array.length_toList, hn]⟩
  pushFrame h f := by
    obtain ⟨fs, hm, hn, hk⟩ := h.frames
    exact { h with frames := ⟨fs ++ [f], by simp [hm], by simp [hn], by simp; omega⟩ }
  readHeap := Twin.readHeap
  writeHeap := Twin.writeHeap
  readStack := Twin.readStack
  writeStack := Twin.writeStack
  enter := Twin.enter
  endHost := Twin.endHost

theorem trace_pairs (hp : p.Sound) {code : Code} {pc : Int} {i : Instr}
    (fetch : code.instr? pc = some i) :
    Steady p.spare (Twin p k) (Machine.trace code pc i) := by
  intro m n h
  rw [trace_eq, trace_eq]
  exact .ok rfl { h with lines := hp.trace h fetch }

variable {d d' : Nat}

/-- Going back to the caller, at depths that correspond. -/
theorem findCaller (hd : d = p.low.length + k) (hd' : d' = p.low'.length + k) :
    Pairs p.spare (Twin p k) (Twin p k) (Twin p 0) Eq (findCaller d) (findCaller d') := by
  intro m n h
  obtain ⟨fs, hm, hn, hk⟩ := h.frames
  have hsize : m.frames.size = p.low.length + fs.length := by simp [← Array.length_toList, hm]
  have hsize' : n.frames.size = p.low'.length + fs.length := by simp [← Array.length_toList, hn]
  rcases fs.eq_nil_or_concat with rfl | ⟨gs, f, rfl⟩
  · obtain rfl : k = 0 := by simpa using hk
    rw [findCaller_of_outermost (by simp [hsize, hd]), findCaller_of_outermost (by simp [hsize', hd'])]
    exact .ok rfl h
  · rw [List.concat_eq_append] at hm hn
    by_cases hall : gs.length + 1 = k
    · rw [findCaller_of_outermost (by simp [hsize, hd, hall]),
        findCaller_of_outermost (by simp [hsize', hd', hall])]
      exact .ok rfl h.weaken
    · have hback : m.frames.back? = some f := by
        rw [← Array.getLast?_toList, hm, ← List.append_assoc, List.getLast?_concat]
      have hback' : n.frames.back? = some f := by
        rw [← Array.getLast?_toList, hn, ← List.append_assoc, List.getLast?_concat]
      rw [findCaller_of_inner (by simp [hsize, hd, hall]) hback,
        findCaller_of_inner (by simp [hsize', hd', hall]) hback']
      refine .ok rfl { h.change fun F => { F with base := f.base } with frames := ⟨gs, ?_, ?_, Nat.zero_le _⟩ }
      · rw [Array.toList_pop, hm, ← List.append_assoc, List.dropLast_concat]
      · rw [Array.toList_pop, hn, ← List.append_assoc, List.dropLast_concat]

/-- Returning, at depths that correspond. -/
theorem returnFrom (hp : p.Sound) (kind : Kind) (hd : d = p.low.length + k) (hd' : d' = p.low'.length + k) :
    Pairs p.spare (Twin p k) (Twin p k) (Twin p 0) Eq (returnFrom kind d) (returnFrom kind d') := by
  have hparity := parity hp k
  rw [returnFrom_eq, returnFrom_eq]
  refine .bindEq (R := Twin p k) (.ite Iff.rfl (fun _ => .pure rfl) fun _ => hparity.likeness.pop kind)
    fun v => ?_
  rw [handBack, handBack]
  exact .bindEq (hparity.putResult kind v) fun _ => findCaller hd hd'

/-- Dropping the frames of a loop. -/
theorem takeFrames (h : Twin p k m n) (hd : d = p.low.length + k) (hd' : d' = p.low'.length + k) :
    Twin p 0 { m with frames := m.frames.take d } { n with frames := n.frames.take d' } := by
  obtain ⟨fs, hm, hn, -⟩ := h.frames
  refine { h with frames := ⟨fs.take k, ?_, ?_, Nat.zero_le _⟩ }
  · simp [hm, hd, List.take_append, List.take_of_length_le]
  · simp [hn, hd', List.take_append, List.take_of_length_le]

/-- A dispatch in loops at depths that correspond, with that many frames. -/
theorem dispatch (hp : p.Sound) (code : Code) (pc : Int) (hd : d = p.low.length + k)
    (hd' : d' = p.low'.length + k) :
    Pairs p.spare (Twin p k) (Twin p k) (Twin p 0) Eq (dispatch code pc d) (dispatch code pc d') :=
  (parity hp k).dispatch (fun _ _ h => h.weaken) (fun _ => rfl) (fun _ fetch => trace_pairs hp fetch)
    (fun kind => returnFrom hp kind hd hd')
    fun _ _ _ h => .ok rfl ((h.takeFrames hd hd').change fun F => { F with halted := true })

open Parity (Left)

/-- One step of loops at depths that correspond. -/
theorem loopStep (hp : p.Sound) (code : Code) (pc : Int) (hd : d = p.low.length + k)
    (hd' : d' = p.low'.length + k) (v : Slot) :
    Pairs p.spare (Twin p 0) (Twin p k) (Twin p 0) (Left p.Deep) (taskStep v (.loop code pc d))
      (taskStep v (.loop code pc d')) := by
  have hdeep : p.Deep d d' := ⟨k, hd, hd'⟩
  refine .get fun m n h => .ite (by rw [(parity hp k).halted h]) (fun _ => ?_) fun _ => ?_
  · exact .bindEq (.modify fun m n h => h.takeFrames hd hd') fun _ => .pure ⟨.nil, rfl⟩
  · refine .bindEq ((dispatch hp code pc hd hd').mono (fun _ _ h => h.weaken) (fun _ _ h => h)
      fun _ _ h => h) fun next => ?_
    cases next with
    | goto pc | move code pc => exact .pure ⟨.cons (.loop _ _ hdeep) .nil, rfl⟩
    | leave => exact .pure ⟨.nil, rfl⟩
    | host r builtin pc =>
      exact ((parity hp 0).beginHost r builtin).bind fun t t' ht =>
        .pure ⟨.cons ht (.cons (.loop _ _ hdeep) .nil), rfl⟩

end Twin
end Machine

open Machine (Pairing)

/-- Two runs in lockstep on twin machines. The loops are nested above their frame depths, so that
none of them comes down to the frames at the bottom. -/
structure Config.Twin (p : Pairing) (bottom : List Frame) (c c' : Config) : Prop where
  machine : Machine.Twin p 0 c.machine c'.machine
  tasks : List.Forall₂ (Task.Like p.Deep) c.tasks c'.tasks
  result : c.result = c'.result
  nested : c.Nested (fun _ _ => True) bottom

namespace Config

variable {p : Pairing} {bottom : List Frame}

/-- Both runs take a step. -/
theorem progress_of_twin (hp : p.Sound) (c c' : Config) (h : c.Twin p bottom c') :
    Progress.Alike p.spare (Machine.Twin p 0) (Twin p bottom) c.step c'.step := by
  obtain ⟨m, tasks, v⟩ := c
  obtain ⟨n, tasks', v'⟩ := c'
  obtain ⟨hm, htasks, rfl, hnested⟩ := h
  cases htasks with
  | nil => exact .finished hm
  | @cons t t' rest rest' ht hrest =>
    have step_of (halike : Op.Alike p.spare (Machine.Twin p 0) (Machine.Twin p 0)
        (Machine.Parity.Left p.Deep) (Machine.taskStep v t m) (Machine.taskStep v t' n)) :
        Progress.Alike p.spare (Machine.Twin p 0) (Twin p bottom) (step ⟨m, t :: rest, v⟩)
          (step ⟨n, t' :: rest', v⟩) := by
      refine progress_of_taskStep halike fun x y m' n' hstep hleft hm' => ?_
      refine ⟨hm', List.rel_append hleft.1 hrest, hleft.2, nested_of_follows handedOn_true hnested ?_⟩
      simp only [Follows, step, hstep]
    cases ht with
    | @loop d d' code pc hdeep =>
      obtain ⟨k, hd, hd'⟩ := hdeep
      obtain ⟨fs, hfs, hfs', -⟩ := hm.frames
      have hk : k ≤ fs.length := by
        have hle : d ≤ m.frames.toList.length := hnested.2.1
        rw [hfs, List.length_append] at hle
        omega
      exact step_of (Machine.Twin.loopStep hp code pc hd hd' v { hm with frames := ⟨fs, hfs, hfs', hk⟩ })
    | script call rest | waiting call next | closeBlock sp base | closeCall bottom base =>
      exact step_of ((Machine.Twin.parity hp 0).taskStep (by simp) v hm)

/-- A run that comes to its end is accompanied there. -/
theorem reaches_of_twin (hp : p.Sound) {c c' : Config} (h : c.Twin p bottom c') {m : Machine} {v : Slot}
    (run : c.Reaches ⟨m, [], v⟩) : ∃ n, c'.Reaches ⟨n, [], v⟩ ∧ Machine.Twin p 0 m n := by
  induction run using Relation.ReflTransGen.head_induction_on generalizing c' with
  | refl =>
    obtain ⟨n, tasks', v'⟩ := c'
    obtain ⟨hm, htasks, rfl, -⟩ := h
    cases htasks
    exact ⟨n, .refl, hm⟩
  | head hstep _ ih =>
    have halike := progress_of_twin hp _ _ h
    rw [show step _ = _ from hstep] at halike
    generalize hstep' : c'.step = y at halike
    cases halike with
    | running hc =>
      obtain ⟨n, hreach, hn⟩ := ih hc
      exact ⟨n, .head hstep' hreach, hn⟩

end Config

namespace Machine

variable {p : Pairing} {m n : Machine}

/-- Blocks of code come out alike on twins. -/
theorem runBlock_of_twin (hp : p.Sound) (h : Twin p 0 m n) (fuel : Nat) (code : Code) :
    Outcome.Alike p.spare (Twin p 0) (m.runBlock fuel code) (n.runBlock fuel code) := by
  refine runBlock_alike (perform_alike (S := Config.Twin p m.frames.toList) (Config.progress_of_twin hp) fuel
    ((Twin.parity hp 0).beginBlock code h) fun ts ts' m' n' begun hts hm => ⟨hm, hts, rfl, ?_⟩)
  exact (nested_of_begin handedOn_true (gives_beginBlock code) begun).1

theorem runInits_of_twin (hp : p.Sound) (h : Twin p 0 m n) (fuel : Nat) (codes : List Code) :
    Outcome.Alike p.spare (Twin p 0) (runInits fuel codes m) (runInits fuel codes n) :=
  runInits_alike (fun _ _ h => (Twin.parity hp 0).halted h)
    (fun code _ _ _ h => runBlock_of_twin hp h fuel code) h

/-- Calls come out alike on twins. -/
theorem perform_of_twin (hp : p.Sound) (h : Twin p 0 m n) (fuel : Nat) (r : Routine)
    (args : List Slot) :
    Outcome.Alike p.spare (Twin p 0) (m.perform fuel (beginCall r args))
      (n.perform fuel (beginCall r args)) := by
  refine perform_alike (S := Config.Twin p m.frames.toList) (Config.progress_of_twin hp) fuel
    ((Twin.parity hp 0).beginCall r args h) fun ts ts' m' n' begun hts hm => ⟨hm, hts, rfl, ?_⟩
  exact (nested_of_begin handedOn_true (gives_beginCall r args) begun).1

end Machine
end Stackwork
