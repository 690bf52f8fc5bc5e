import Stackwork.Proofs.Machine.Roots

/-!
# Calls from the host and calls from code

A call from the host runs a routine in a dispatch loop of its own, at the frame depth of the
moment; CALL pushes a frame and goes on in the same loop. Both come to the same: the same value
in place of the arguments, the same heap and the same objects, and a halt in one is a halt in the
other.

The comparison goes through a third run, that of the routine alone on the machine that CALL left.
It is a twin of the run from the host, with other frames at the bottom. From the run with CALL it
differs in nothing but the depth of its last loop (`Config.resumed_of_reaches`), or in the BASE
that the host function will restore (`Config.rebased_of_reaches`).
-/
namespace Stackwork

namespace Machine

/-- How a dispatch depends on the frame depth of its loop: not at all, and then the loop is not
over; by a return; or by HALT. -/
inductive ByDepth (code : Code) (pc : Int) (m : Machine) : Prop where
  | level (same : ∀ d d', dispatch code pc d m = dispatch code pc d' m)
      (stays : ∀ d m', dispatch code pc d m ≠ .ok .leave m')
  | returns {m₁ : Machine} (same : m₁.control = m.control) (sp : m₁.sp = m.base + 1)
      (back : ∀ d, dispatch code pc d m = findCaller d m₁)
  | halts {m₁ : Machine} (same : m₁.control = m.control)
      (stop : ∀ d, dispatch code pc d m =
        .ok .leave { m₁ with halted := true, frames := m₁.frames.take d })

variable {m m' : Machine} {code : Code} {pc : Int}

variable {k : Kind} {v : Slot} {m₁ : Machine} {new : List Task}

theorem registers_of_putResult (h : putResult k v m = .ok () m') :
    m'.control = m.control ∧ m'.sp = m.base + 1 := by
  obtain ⟨_, _, hget, h₁⟩ := Op.bind_eq_ok.1 h
  cases hget
  obtain ⟨_, m₁, hwrite, h₂⟩ := Op.bind_eq_ok.1 h₁
  cases h₂
  have hm₁ : m₁.control = m.control := keeps_writeStack _ _ _ hwrite
  exact ⟨hm₁, rfl⟩

/-- A return faults before it looks at the frames, or all that is left to do is to look for the
caller. -/
theorem returnFrom_byDepth (k : Kind) (m : Machine) :
    (∃ f m', ∀ d, returnFrom k d m = .error f m') ∨
      ∃ m', m'.control = m.control ∧ m'.sp = m.base + 1 ∧ ∀ d, returnFrom k d m = findCaller d m' := by
  simp only [returnFrom_eq]
  cases hpop : popResult k m with
  | error f m' => exact .inl ⟨f, m', fun d => EStateM.bind_of_error hpop⟩
  | ok v m₁ =>
    have hm₁ : m₁.control = m.control := keeps_popResult k hpop
    simp only [EStateM.bind_of_ok hpop, handBack]
    cases hput : putResult k v m₁ with
    | error f m' => exact .inl ⟨f, m', fun d => EStateM.bind_of_error hput⟩
    | ok u m₂ =>
      obtain ⟨hm₂, hsp⟩ := registers_of_putResult hput
      refine .inr ⟨m₂, hm₂.trans hm₁, ?_, fun d => EStateM.bind_of_ok hput⟩
      rw [hsp, show m₁.base = m.base from congrArg Control.base hm₁]

theorem byDepth_of_returnFrom (same : m₁.control = m.control)
    (h : ∀ d, dispatch code pc d m = returnFrom k d m₁) : ByDepth code pc m := by
  rcases returnFrom_byDepth k m₁ with ⟨f, m', hfault⟩ | ⟨m', hm', hsp, hback⟩
  · exact .level (fun d d' => by rw [h, h, hfault, hfault]) fun d m' => by
      rw [h, hfault]
      simp
  · refine .returns (hm'.trans same) ?_ fun d => (h d).trans (hback d)
    rw [hsp, show m₁.base = m.base from congrArg Control.base same]

/-- A call does not end the loop. -/
theorem callRoutine_stays {index : Int} : callRoutine code pc index m ≠ .ok .leave m' := by
  intro h
  obtain ⟨_, _, -, h₁⟩ := Op.bind_eq_ok.1 h
  obtain ⟨r, _, -, h₂⟩ := Op.bind_eq_ok.1 h₁
  cases body : r.body with
  | host builtin =>
    simp only [body] at h₂
    cases h₂
  | compiled target ks =>
    simp only [body] at h₂
    obtain ⟨_, _, -, h₃⟩ := Op.bind_eq_ok.1 h₂
    obtain ⟨_, _, -, h₄⟩ := Op.bind_eq_ok.1 h₃
    obtain ⟨_, _, -, h₅⟩ := Op.bind_eq_ok.1 h₄
    cases target <;> cases h₅

/-- Only returns and HALT ask for the depth of the loop. -/
theorem execute_level {op : Opcode} (hret : op ≠ .ret) (hhalt : op ≠ .halt) (code : Code) (pc : Int)
    (k : Kind) (d d' : Nat) : execute code pc d op k = execute code pc d' op k := by
  cases op with
  | ret => exact absurd rfl hret
  | halt => exact absurd rfl hhalt
  | _ => rfl

theorem byDepth (code : Code) (pc : Int) (m : Machine) : ByDepth code pc m := by
  by_cases hpc : pc < code.size
  case neg =>
    refine byDepth_of_returnFrom (k := .none) rfl fun d => ?_
    unfold dispatch
    rw [if_neg hpc]
  cases hw : code.word? pc with
  | none =>
    have hfault (d : Nat) : dispatch code pc d m = .error .outOfRange m := by
      rw [dispatch_of_lt d hpc, hw]
      rfl
    exact .level (fun d d' => by rw [hfault, hfault]) fun d m' => by simp [hfault]
  | some w =>
    have hwork (d : Nat) : dispatch code pc d m =
        work code pc d ⟨w⟩ { m with journal := m.traced code pc ⟨w⟩ } := by
      rw [dispatch_of_lt d hpc, hw]
      exact (EStateM.bind_of_ok rfl).trans (EStateM.bind_of_ok (trace_eq _ _ _ _))
    unfold work at hwork
    have same : { m with journal := m.traced code pc ⟨w⟩ }.control = m.control := rfl
    cases hop : (Instr.mk w).op? with
    | none =>
      simp only [hop] at hwork
      exact .level (fun d d' => by rw [hwork, hwork]) fun d m' => by simp [hwork]
    | some op =>
      simp only [hop] at hwork
      by_cases hret : op = .ret
      · subst hret
        exact byDepth_of_returnFrom same hwork
      by_cases hhalt : op = .halt
      · subst hhalt
        exact .halts same hwork
      refine .level (fun d d' => ?_) fun d m' hleave => ?_
      · rw [hwork, hwork, execute_level hret hhalt]
      · rw [hwork] at hleave
        by_cases hcall : op = .call
        · subst hcall
          obtain ⟨_, _, -, h⟩ := Op.bind_eq_ok.1 hleave
          exact callRoutine_stays h
        by_cases hcallR : op = .callR
        · subst hcallR
          obtain ⟨_, _, -, h⟩ := Op.bind_eq_ok.1 hleave
          exact callRoutine_stays h
        obtain ⟨-, pc', hgoto, -⟩ := yields_execute hop hcall hcallR hret hhalt _ rfl hleave
        cases hgoto

/-- A loop passes on the result before it, and starts nothing that waits for it. -/
theorem loopStep_result {d : Nat} {v₁ : Slot} (h : taskStep v (.loop code pc d) m = .ok (new, v₁) m₁)
    (w : Slot) : taskStep w (.loop code pc d) m = .ok (new, w) m₁ ∧ Task.Unawaited new := by
  cases hhalted : m.halted with
  | true =>
    rw [loopStep_of_halted hhalted] at h
    cases h
    exact ⟨loopStep_of_halted hhalted _ _ _ _, trivial⟩
  | false =>
    rw [loopStep_of_running hhalted] at h ⊢
    obtain ⟨next, m₂, hnext, hon⟩ := Op.bind_eq_ok.1 h
    rw [EStateM.bind_of_ok hnext]
    cases next with
    | goto | move | leave =>
      cases hon
      exact ⟨rfl, trivial⟩
    | host r builtin pc' =>
      obtain ⟨t, m₃, ht, hret⟩ := Op.bind_eq_ok.1 hon
      cases hret
      obtain ⟨args, rfl, -⟩ := script_of_beginHost ht
      exact ⟨Op.bind_eq_ok.2 ⟨_, _, ht, rfl⟩, trivial⟩

/-- What a host function starts runs on top of the function itself. -/
theorem unawaited_of_scriptStep {call : HostCall} {s : HostScript} (h : scriptStep call s m = .ok new m') :
    Task.Unawaited new := by
  cases scriptFlow_of_scriptStep h with
  | done | again => trivial
  | @begins x _ _ _ _ begun =>
    cases x with
    | block code =>
      cases begun
      trivial
    | call r args =>
      cases begun_of_beginCall begun with
      | host body pushed hosted =>
        obtain ⟨_, rfl, -⟩ := script_of_beginHost hosted
        trivial
      | code => trivial

end Machine

/-- The host function of a call, at work or waiting, and the same function in another call. -/
inductive Task.Hosts (call call' : HostCall) : Task → Task → Prop where
  | script (s : HostScript) : Hosts call call' (.script call s) (.script call' s)
  | waiting (next : Slot → HostScript) : Hosts call call' (.waiting call next) (.waiting call' next)

namespace Machine

variable {v : Slot} {m m' : Machine} {call : HostCall}

theorem writeStack_rebase {i : Int} {k : Kind} (h : writeStack i v k m = .ok () m') (base : Int) :
    writeStack i v k { m with base } = .ok () { m' with base } := by
  unfold writeStack at h ⊢
  split at h
  · next hroom =>
    cases h
    exact if_pos hroom
  · cases h

theorem tagResult_rebase (h : tagResult call v m = .ok () m') (base : Int) :
    tagResult { call with base } v { m with base } = .ok () { m' with base } := by
  cases htagged : m.settings.tagged with
  | false =>
    rw [tagResult_of_untagged htagged] at h
    cases h
    exact tagResult_of_untagged htagged
  | true =>
    rw [tagResult_of_tagged htagged] at h
    refine (tagResult_of_tagged (m := { m with base }) htagged).trans ?_
    unfold writeResult at h ⊢
    cases hkind : call.routine.returnKind? with
    | none =>
      simp only [hkind] at h
      cases h
    | some k =>
      simp only [hkind] at h ⊢
      exact writeStack_rebase h base

/-- The end of a host function for a caller with another BASE. -/
theorem endHost_rebase (h : endHost call v m = .ok () m') (base : Int) :
    endHost { call with base } v m = .ok () { m' with base } := by
  rw [endHost_eq] at h ⊢
  obtain ⟨_, _, hbase, h₁⟩ := Op.bind_eq_ok.1 h
  cases hbase
  obtain ⟨_, m₁, hwrite, h₂⟩ := Op.bind_eq_ok.1 h₁
  obtain ⟨_, m₂, htag, h₃⟩ := Op.bind_eq_ok.1 h₂
  cases h₃
  exact Op.bind_eq_ok.2 ⟨_, _, rfl, Op.bind_eq_ok.2 ⟨_, _, writeStack_rebase hwrite base,
    Op.bind_eq_ok.2 ⟨_, _, tagResult_rebase htag base, rfl⟩⟩⟩

variable {r : Routine}

theorem beginHost_rebase {builtin : Builtin} {s : HostScript}
    (h : beginHost r builtin m = .ok (.script call s) m') (base : Int) :
    beginHost r builtin { m with base } = .ok (.script { call with base } s) m' := by
  unfold beginHost at h ⊢
  simp only at h
  split at h
  · next hroom =>
    cases h
    exact if_pos hroom
  · cases h

theorem enter_rebase {bottom : Int} (h : enter r m = .ok bottom m') (base : Int) :
    enter r { m with base } = .ok bottom { m' with base } := by
  unfold enter at h ⊢
  simp only at h
  split at h
  · next hroom =>
    cases h
    exact if_pos hroom
  · cases h

end Machine

namespace Config

open Machine

variable {m m' : Machine} {v v' : Slot} {t : Task} {c : Config} {code : Code} {pc : Int}

theorem eq_of_reaches_nil (h : Reaches ⟨m, [], v⟩ ⟨m', [], v'⟩) : m = m' ∧ v = v' := by
  cases h.cases_head with
  | inl heq =>
    cases heq
    exact ⟨rfl, rfl⟩
  | inr hstep =>
    obtain ⟨c, hstep, -⟩ := hstep
    cases hstep

/-- A task that comes to its end on top of another has come to its end alone. -/
theorem ends_above {u : Task} (h : Reaches ⟨m, [t, u], v⟩ ⟨m', [], v'⟩) :
    ∃ m₁ v₁, Reaches ⟨m, [t], v⟩ ⟨m₁, [], v₁⟩ ∧ Reaches ⟨m₁, [u], v₁⟩ ⟨m', [], v'⟩ := by
  have habove : Reaches ⟨m, [t] ++ [u], v⟩ ⟨m', [], v'⟩ := h
  rcases reaches_above habove with ⟨m₁, ts, v₁, heq, -⟩ | hend
  · simp at heq
  · exact hend

/-- A loop that a halted machine comes to is over. -/
theorem Reaches.halt {d : Nat} {rest : List Task} (h : c.Reaches ⟨m, .loop code pc d :: rest, v⟩)
    (hhalted : m.halted = true) : c.Reaches ⟨{ m with frames := m.frames.take d }, rest, v⟩ := by
  refine h.tail ?_
  simp only [Follows, step, loopStep_of_halted hhalted, List.nil_append]

variable {call : HostCall} {t' : Task} {v₁ : Slot} {m₁ : Machine} {new ts : List Task} {seat : Int}

/-- A step of a host function, and of the same function with another BASE to restore. Either both
go on alike, or both are over. -/
theorem rebased_of_step {base : Int} (hosts : Task.Hosts call { call with base } t t')
    (h : taskStep v t m = .ok (new, v₁) m₁) (rest : List Task) :
    (∃ ts u u', Task.Hosts call { call with base } u u' ∧ new = ts ++ [u] ∧
      Follows ⟨m, t' :: rest, v⟩ ⟨m₁, ts ++ u' :: rest, v₁⟩) ∨
    new = [] ∧ m₁.sp = call.bottom + 1 ∧
      Follows ⟨m, t' :: rest, v⟩ ⟨{ m₁ with base }, rest, v₁⟩ := by
  cases hosts with
  | waiting next =>
    cases h
    exact .inl ⟨[], _, _, .script _, rfl, rfl⟩
  | script s =>
    obtain ⟨ts, m₂, hscript, hret⟩ := Op.bind_eq_ok.1 h
    cases hret
    have follows {ts' : List Task} {m₂ : Machine}
        (hstep : scriptStep { call with base } s m = .ok ts' m₂) :
        Follows ⟨m, .script { call with base } s :: rest, v⟩ ⟨m₂, ts' ++ rest, v⟩ := by
      have htask : taskStep v (.script { call with base } s) m = .ok (ts', v) m₂ :=
        Op.bind_eq_ok.2 ⟨_, _, hstep, rfl⟩
      simp only [Follows, step, htask]
    cases scriptFlow_of_scriptStep hscript with
    | done last ends =>
      subst last
      exact .inr ⟨rfl, (registers_of_endHost ends).2,
        follows (Op.bind_eq_ok.2 ⟨_, _, endHost_rebase ends base, rfl⟩)⟩
    | again same => exact .inl ⟨[], _, _, .script _, rfl, follows (same _)⟩
    | @begins x tasks next _ complete begun same =>
      have hfollows := follows (same { call with base })
      rw [List.append_assoc] at hfollows
      exact .inl ⟨tasks, _, _, .waiting _, rfl, hfollows⟩

/-- When a host function has come to its end, so has the same function with another BASE to
restore. -/
theorem rebased_of_reaches (base : Int) (rest : List Task) (h : c.Reaches ⟨m', [], v'⟩)
    (hc : c = ⟨m, ts ++ [t], v⟩) (hosts : Task.Hosts call { call with base } t t') :
    Reaches ⟨m, ts ++ t' :: rest, v⟩ ⟨{ m' with base }, rest, v'⟩ ∧ m'.sp = call.bottom + 1 := by
  induction h using Relation.ReflTransGen.head_induction_on generalizing m ts t t' v with
  | refl => cases ts <;> cases hc
  | @head c c₁ hstep hrun ih =>
    subst hc
    cases ts with
    | cons u ts =>
      obtain ⟨new, v₁, m₁, hu, rfl⟩ := follows_cons hstep
      have hc₁ : (⟨m₁, new ++ (ts ++ [t]), v₁⟩ : Config) = ⟨m₁, (new ++ ts) ++ [t], v₁⟩ := by
        rw [List.append_assoc]
      obtain ⟨hreach, hsp⟩ := ih hc₁ hosts
      refine ⟨.head ?_ hreach, hsp⟩
      simp only [Follows, List.cons_append, step, hu, List.append_assoc]
    | nil =>
      obtain ⟨new, v₁, m₁, ht, rfl⟩ := follows_cons hstep
      obtain ⟨ts, u, u', hosts', rfl, hfollows⟩ | ⟨rfl, hsp, hfollows⟩ :=
        rebased_of_step hosts ht rest
      · obtain ⟨hreach, hsp⟩ := ih (by rw [List.append_nil]) hosts'
        exact ⟨.head hfollows hreach, hsp⟩
      · obtain ⟨rfl, rfl⟩ := eq_of_reaches_nil hrun
        exact ⟨.single hfollows, hsp⟩

/-- Where a loop goes on when the routine that it called, from frame `f`, has come to its end:
behind the call, or nowhere in a halted machine. -/
def resumed (low : Array Frame) (f : Frame) (d : Nat) (rest : List Task) (m : Machine) (v : Slot) :
    Config :=
  if m.halted then ⟨{ m with frames := low.take d }, rest, v⟩
  else ⟨{ m with frames := low, base := f.base }, .loop f.code f.pc d :: rest, v⟩

variable {low : Array Frame} {f : Frame} {d : Nat}

/-- A loop on its own, before its first step. -/
theorem nested_alone (m : Machine) (code : Code) (v : Slot) :
    Nested (fun _ _ => True) m.frames.toList ⟨m, [.loop code 0 m.frames.size], v⟩ :=
  ⟨trivial, by simp, fun _ _ => trivial, List.take_of_length_le (by simp)⟩

theorem rooted_alone (m : Machine) (code : Code) (v : Slot) :
    Rooted m.base ⟨m, [.loop code 0 m.frames.size], v⟩ := by
  refine ⟨?_, trivial⟩
  rw [List.drop_of_length_le (by simp)]
  rfl

/-- A step of a loop whose frames begin above `f`, and of the same loop at a lower depth. Either
both go on alike, or the first is over and the second goes back to `f`. -/
theorem resumed_of_loopStep (hd : d ≤ low.size) (hlow : (low.push f).toList <+: m.frames.toList)
    (h : taskStep v (.loop code pc (low.size + 1)) m = .ok (new, v₁) m₁) (rest : List Task) :
    (∃ ts code' pc', new = ts ++ [.loop code' pc' (low.size + 1)] ∧
      Follows ⟨m, .loop code pc d :: rest, v⟩ ⟨m₁, ts ++ .loop code' pc' d :: rest, v₁⟩) ∨
    new = [] ∧ Follows ⟨m, .loop code pc d :: rest, v⟩ (resumed low f d rest m₁ v₁) ∧
      (m₁.halted = false → m.frames = low.push f ∧ m₁.sp = m.base + 1) := by
  obtain ⟨above, habove⟩ := hlow
  rw [Array.toList_push] at habove
  have htake : m.frames.take d = low.take d := by
    have htoList (xs : Array Frame) : (xs.take d).toList = xs.toList.take d := by simp
    apply Array.toList_inj.1
    rw [htoList, htoList, ← habove, List.append_assoc]
    exact List.take_append_of_le_length hd
  have hsize : m.frames.size = low.size + 1 + above.length := by
    simp [← Array.length_toList, ← habove]
    omega
  have follows {new : List Task} {w : Slot} {m₂ : Machine}
      (hstep : taskStep v (.loop code pc d) m = .ok (new, w) m₂) :
      Follows ⟨m, .loop code pc d :: rest, v⟩ ⟨m₂, new ++ rest, w⟩ := by
    simp only [Follows, step, hstep]
  cases hhalted : m.halted with
  | true =>
    rw [loopStep_of_halted hhalted] at h
    cases h
    refine .inr ⟨rfl, ?_, fun hrun => by simp [hhalted] at hrun⟩
    rw [resumed, if_pos hhalted, ← htake]
    exact follows (loopStep_of_halted hhalted _ _ _ _)
  | false =>
    rw [loopStep_of_running hhalted] at h
    have goes {new : List Task} {w : Slot} {next : Next} {m₂ m₃ : Machine}
        (hnext : dispatch code pc d m = .ok next m₂) (hon : resume code d v next m₂ = .ok (new, w) m₃) :
        Follows ⟨m, .loop code pc d :: rest, v⟩ ⟨m₃, new ++ rest, w⟩ :=
      follows ((loopStep_of_running hhalted _ _ _ _).trans (Op.bind_eq_ok.2 ⟨_, _, hnext, hon⟩))
    obtain ⟨next, m₂, hnext, hon⟩ := Op.bind_eq_ok.1 h
    cases byDepth code pc m with
    | level same stays =>
      have hnext' := (same d _).trans hnext
      refine .inl ?_
      cases next with
      | goto pc' =>
        cases hon
        exact ⟨[], code, pc', rfl, goes hnext' rfl⟩
      | move code' pc' =>
        cases hon
        exact ⟨[], code', pc', rfl, goes hnext' rfl⟩
      | host r builtin pc' =>
        obtain ⟨t, m₃, ht, hret⟩ := Op.bind_eq_ok.1 hon
        cases hret
        exact ⟨[t], code, pc', rfl, goes hnext' (Op.bind_eq_ok.2 ⟨t, _, ht, rfl⟩)⟩
      | leave => exact absurd hnext (stays _ _)
    | @returns m₃ same sp back =>
      have hframes : m₃.frames = m.frames := congrArg Control.frames same
      have hrun : m₃.halted = false := (congrArg Control.halted same).trans hhalted
      rcases above.eq_nil_or_concat with rfl | ⟨gs, g, rfl⟩
      · -- The frame `f` is the last one: the first loop is over, the second goes back there.
        have hlast : m.frames = low.push f := Array.toList_inj.1 (by simp [← habove])
        rw [back, findCaller_of_outermost (by rw [hframes, hsize]; rfl)] at hnext
        cases hnext
        cases hon
        refine .inr ⟨rfl, ?_, fun _ => ⟨hlast, sp⟩⟩
        have hinner : m₁.frames.size ≠ d := by
          rw [hframes, hsize]
          omega
        have hback : m₁.frames.back? = some f := by rw [hframes, hlast, Array.back?_push]
        have hgoes := goes ((back d).trans (findCaller_of_inner hinner hback)) rfl
        rw [resumed, if_neg (by simp [hrun])]
        rwa [hframes, hlast, Array.pop_push] at hgoes
      · -- There are frames above `f`, and both loops go back to the last one.
        have hback : m₃.frames.back? = some g := by
          rw [hframes, ← Array.getLast?_toList, ← habove, List.concat_eq_append, ← List.append_assoc,
            List.getLast?_concat]
        have hlen : m₃.frames.size = low.size + 1 + (gs.length + 1) := by
          rw [hframes, hsize, List.concat_eq_append, List.length_append, List.length_singleton]
        rw [back, findCaller_of_inner (by omega) hback] at hnext
        cases hnext
        cases hon
        exact .inl ⟨[], g.code, g.pc, rfl, goes ((back d).trans (findCaller_of_inner (by omega) hback)) rfl⟩
    | @halts m₃ same stop =>
      have hframes : m₃.frames = m.frames := congrArg Control.frames same
      rw [stop] at hnext
      cases hnext
      cases hon
      refine .inr ⟨rfl, ?_, fun hrun => by simp at hrun⟩
      have hgoes := goes (stop d) rfl
      rw [hframes, htake] at hgoes
      rw [resumed, if_pos rfl]
      exact hgoes

/-- When the tasks of a loop whose frames begin above `f` have come to their end, the same tasks
with the loop at a lower depth have led back to `f`. -/
theorem resumed_of_reaches (hd : d ≤ low.size) (rest : List Task) (h : c.Reaches ⟨m', [], v'⟩)
    (hc : c = ⟨m, ts ++ [.loop code pc (low.size + 1)], v⟩)
    (hnested : c.Nested (fun _ _ => True) (low.push f).toList) (hrooted : c.Rooted seat) :
    Reaches ⟨m, ts ++ .loop code pc d :: rest, v⟩ (resumed low f d rest m' v') ∧
      (m'.halted = false → m'.sp = seat + 1) := by
  induction h using Relation.ReflTransGen.head_induction_on generalizing m ts code pc v with
  | refl =>
    cases ts <;> cases hc
  | @head c c₁ hstep hrun ih =>
    have hnested₁ := nested_of_follows handedOn_true hnested hstep
    have hrooted₁ := rooted_of_follows hnested hrooted hstep
    subst hc
    cases ts with
    | cons t ts =>
      obtain ⟨new, v₁, m₁, ht, rfl⟩ := follows_cons hstep
      have hc₁ : (⟨m₁, new ++ (ts ++ [.loop code pc (low.size + 1)]), v₁⟩ : Config) =
          ⟨m₁, (new ++ ts) ++ [.loop code pc (low.size + 1)], v₁⟩ := by rw [List.append_assoc]
      obtain ⟨hreach, hsp⟩ := ih hc₁ hnested₁ hrooted₁
      refine ⟨.head ?_ hreach, hsp⟩
      simp only [Follows, List.cons_append, step, ht, List.append_assoc]
    | nil =>
      obtain ⟨new, v₁, m₁, ht, rfl⟩ := follows_cons hstep
      have hlow : (low.push f).toList <+: m.frames.toList := prefix_of_nested hnested
      obtain ⟨ts, code', pc', rfl, hfollows⟩ | ⟨rfl, hfollows, hback⟩ :=
        resumed_of_loopStep hd hlow ht rest
      · obtain ⟨hreach, hsp⟩ := ih (by rw [List.append_nil]) hnested₁ hrooted₁
        exact ⟨.head hfollows hreach, hsp⟩
      · obtain ⟨rfl, rfl⟩ := eq_of_reaches_nil hrun
        refine ⟨.single hfollows, fun hrun => ?_⟩
        obtain ⟨hframes, hsp⟩ := hback hrun
        have hseat : m.base = seat := by
          have hroot : Task.root m.base (m.frames.toList.drop (low.size + 1)) = seat := hrooted.1
          rwa [hframes, List.drop_of_length_le (by simp)] at hroot
        rw [hsp, hseat]

/-- What a task comes to depends on the result before it only if it waits for one. -/
theorem reaches_of_result {P : Code → Int → Prop} (hP : HandedOn P) {bottom : List Frame}
    (h : c.Reaches ⟨m', [], v'⟩) (hnested : c.Nested P bottom) (hrooted : c.Rooted seat) (w : Slot)
    (hw : c.result = w ∨ Task.Unawaited c.tasks) : ∃ w', Reaches { c with result := w } ⟨m', [], w'⟩ := by
  induction h using Relation.ReflTransGen.head_induction_on generalizing w with
  | refl => exact ⟨w, .refl⟩
  | @head c c₁ hstep hrun ih =>
    have hnested₁ := nested_of_follows hP hnested hstep
    have hrooted₁ := rooted_of_follows hnested hrooted hstep
    obtain ⟨m, tasks, v⟩ := c
    cases tasks with
    | nil => cases hstep
    | cons t rest =>
      obtain ⟨new, v₁, m₁, ht, rfl⟩ := follows_cons hstep
      have step_of {w₁ : Slot} (hstep : taskStep w t m = .ok (new, w₁) m₁)
          (hw₁ : v₁ = w₁ ∨ Task.Unawaited (new ++ rest)) :
          ∃ w', Reaches ⟨m, t :: rest, w⟩ ⟨m', [], w'⟩ := by
        obtain ⟨w', hreach⟩ := ih hnested₁ hrooted₁ w₁ hw₁
        refine ⟨w', .head ?_ hreach⟩
        simp only [Follows, step, hstep]
      cases t with
      | loop code pc d =>
        obtain ⟨hstep, hnew⟩ := loopStep_result ht w
        exact step_of hstep (.inr (hnew.append (Task.Seated.unawaited hrooted.1)))
      | script call s =>
        obtain ⟨ts, m₂, hscript, hret⟩ := Op.bind_eq_ok.1 ht
        cases hret
        have hstep : taskStep w (.script call s) m = .ok (new, w) m₁ :=
          Op.bind_eq_ok.2 ⟨_, _, hscript, rfl⟩
        exact step_of hstep (.inr ((unawaited_of_scriptStep hscript).append hrooted.1))
      | waiting call next =>
        obtain rfl : v = w := hw.resolve_right id
        exact step_of ht (.inl rfl)
      | closeBlock sp base =>
        cases ht
        exact step_of rfl (.inl rfl)
      | closeCall bottom base => exact step_of ht (.inl rfl)

end Config

namespace Machine

open Op (Keeps)

/-- Arguments are pushed without touching the heap. -/
theorem keeps_heap_pushArgs (args : List Slot) (inputs : List Ty) :
    Keeps (fun m => (m.heap, m.heapTags)) (pushArgs args inputs) := by
  have hpush (v : Slot) (k : Kind) : Keeps (fun m => (m.heap, m.heapTags)) (push v k) := by
    refine .bind .get fun m => .bind ?_ fun _ => .modify fun _ => rfl
    intro m₁ a m' h
    unfold writeStack at h
    split at h <;> cases h
    rfl
  induction args generalizing inputs with
  | nil => exact .pure ()
  | cons v vs ih =>
    cases inputs with
    | nil => exact .pure ()
    | cons t ts => exact .bind (hpush _ _) fun _ => ih ts

/-- A running machine `n`, whose loop is at an instruction that calls routine `index`. It has the
program, the heap and the objects of `m`, and the stack that `m` has with the arguments on top;
its BASE, its frames and what its loop was called from are its own. -/
structure AtCall (m : Machine) (r : Routine) (index : Int) (args : List Slot) (n : Machine)
    (code : Code) (pc : Int) (depth : Nat) : Prop where
  fetch : ∃ i, code.instr? pc = some i ∧ i.op? = some .call
  operand : ∃ w : Int32, code.int? (pc + 1) = some w ∧ w.toInt = index
  depth : depth ≤ n.frames.size
  running : n.halted = false
  exe : n.exe = m.exe
  heap : n.heap = m.heap
  objects : n.objects = m.objects
  tagged : n.settings.tagged = m.settings.tagged
  heapTags : n.heapTags = m.heapTags
  pushed : ∃ m₀, pushArgs args r.type.inputs { m with halted := false } = .ok () m₀ ∧
    n.sp = m₀.sp ∧ n.stack = m₀.stack ∧ n.stackTags = m₀.stackTags

/-- Machines that differ in the frames at the bottom, and in what they trace. -/
def callPair (m n : Machine) (low' : List Frame) : Pairing where
  spare := False
  low := m.frames.toList
  low' := low'
  trace := m.settings.trace
  trace' := n.settings.trace
  lines _ _ := True

theorem sound_callPair (m n : Machine) (low' : List Frame) : (callPair m n low').Sound where
  write _ _ := trivial
  trace _ _ _ _ _ := trivial

variable {m n : Machine} {r : Routine} {index : Int} {args : List Slot} {code : Code} {pc : Int}
  {depth : Nat}

variable {m₀ : Machine} {v : Slot}

section

variable (h : AtCall m r index args n code pc depth)
include h

/-- Behind the arguments both machines show the same face, once they have the same BASE. -/
theorem AtCall.twin
    (pushed : pushArgs args r.type.inputs { m with halted := false } = .ok () m₀) (base : Int)
    (frames : Array Frame) (journal : Array String) :
    Twin (callPair m n frames.toList) 0 { m₀ with base } { n with base, frames, journal } := by
  obtain ⟨_, hpushed, hsp, hstack, htags⟩ := h.pushed
  cases pushed.symm.trans hpushed
  have hcontrol : m₀.control = _ := keeps_pushArgs _ _ pushed
  have hheap := keeps_heap_pushArgs _ _ pushed
  have hsettings : m₀.settings = m.settings := congrArg Control.settings hcontrol
  have hframes : m₀.frames = m.frames := congrArg Control.frames hcontrol
  refine ⟨?_, ⟨[], ?_, ?_, Nat.zero_le _⟩, .inl ⟨?_, ?_, htags⟩, ?_, rfl, trivial⟩
  · simp only [face, Face.mk.injEq]
    refine ⟨?_, hstack.symm, hsp.symm, trivial, ?_, ?_, ?_⟩
    · rw [h.heap]
      exact (Prod.mk.inj hheap).1
    · exact (congrArg Control.exe hcontrol).trans h.exe.symm
    · exact (congrArg Control.objects hcontrol).trans h.objects.symm
    · exact (congrArg Control.halted hcontrol).trans h.running.symm
  · simp [callPair, hframes]
  · simp [callPair]
  · exact h.tagged.trans (congrArg Settings.tagged hsettings).symm
  · exact h.heapTags.trans (Prod.mk.inj hheap).2.symm
  · exact congrArg Settings.trace hsettings

/-- The instruction at hand calls the routine, and execution will go on behind its operand. -/
theorem AtCall.dispatch_eq :
    ∃ journal, dispatch code pc depth n = callRoutine code (pc + 2) index { n with journal } := by
  obtain ⟨i, fetch, hop⟩ := h.fetch
  obtain ⟨w, hw, rfl⟩ := h.operand
  obtain ⟨word, hword, rfl⟩ := Option.map_eq_some_iff.1 fetch
  have hlt : pc < code.size := by
    have hpos : 0 ≤ pc := by
      by_contra hneg
      simp [Code.word?, hneg] at hword
    obtain ⟨p, rfl⟩ := Int.eq_ofNat_of_zero_le hpos
    exact_mod_cast Code.lt_size fetch
  refine ⟨n.traced code pc ⟨word⟩, ?_⟩
  rw [dispatch_of_lt depth hlt, hword]
  refine (EStateM.bind_of_ok rfl).trans ((EStateM.bind_of_ok (trace_eq _ _ _ _)).trans ?_)
  have hoperand (m : Machine) : Machine.operand code (pc + 1) m = .ok w.toInt m := by
    rw [Machine.operand, hw]
    rfl
  simp only [work, hop, execute]
  rw [EStateM.bind_of_ok (hoperand _), Int.add_assoc]
  rfl

theorem AtCall.routine (found : at? m.routines index = some r) : at? n.routines index = some r := by
  rw [← found]
  simp only [routines, h.exe]

/-- A step of the loop at the call, by what the call goes on with. -/
theorem AtCall.follows {journal : Array String}
    {next : Next} {n₁ n₂ : Machine} {new : List Task} (rest : List Task) (w : Slot)
    (hd : dispatch code pc depth n = callRoutine code (pc + 2) index { n with journal })
    (hcall : callRoutine code (pc + 2) index { n with journal } = .ok next n₁)
    (hon : resume code depth w next n₁ = .ok (new, w) n₂) :
    Config.Follows ⟨n, .loop code pc depth :: rest, w⟩ ⟨n₂, new ++ rest, w⟩ := by
  have hstep := (loopStep_of_running h.running w code pc depth).trans
    (Op.bind_eq_ok.2 ⟨_, _, hd.trans hcall, hon⟩)
  simp only [Config.Follows, Config.step, hstep]

end

/-- Started at the call, a run comes to what `m₂` shows: behind the call, or to the end of the loop
when `m₂` is halted. -/
def Completes (start : Config) (n : Machine) (bottom : Int) (code : Code) (pc : Int) (depth : Nat)
    (rest : List Task) (m₂ : Machine) : Prop :=
  ∃ (n₂ : Machine) (w : Slot), m₂.face = n₂.face ∧
    (m₂.halted = false → n₂.sp = bottom + 1 ∧
      start.Reaches ⟨{ n₂ with frames := n.frames, base := n.base }, .loop code (pc + 2) depth :: rest, w⟩) ∧
    (m₂.halted = true → ∃ base,
      start.Reaches ⟨{ n₂ with frames := n.frames.take depth, base }, rest, w⟩)

variable {m₁ m₂ : Machine} {base : Int}

/-- The call of a host function. -/
theorem AtCall.completes_host (h : AtCall m r index args n code pc depth)
    (found : at? m.routines index = some r) {builtin : Builtin} (body : r.body = .host builtin) {t : Task}
    (pushed : pushArgs args r.type.inputs { m with halted := false } = .ok () m₀)
    (begun : beginHost r builtin m₀ = .ok t m₁) (run : Config.Reaches ⟨m₁, [t], .zero⟩ ⟨m₂, [], v⟩)
    (rest : List Task) (w : Slot) :
    Completes ⟨n, .loop code pc depth :: rest, w⟩ n (m₀.sp - r.arity) code pc depth rest m₂ := by
  obtain ⟨journal, hd⟩ := h.dispatch_eq
  have hcall : callRoutine code (pc + 2) index { n with journal } =
      .ok (.host r builtin (pc + 2)) { n with journal } := by
    refine (EStateM.bind_of_ok rfl).trans ?_
    refine (EStateM.bind_of_ok (Op.require_eq_ok.2 ⟨h.routine found, rfl⟩)).trans ?_
    rw [body]
    rfl
  have hsound := sound_callPair m n n.frames.toList
  have hframes : m₁.frames = m.frames := (congrArg Backdrop.frames (keeps_beginHost _ _ begun)).trans
    (congrArg Control.frames (keeps_pushArgs _ _ pushed))
  -- With the BASE of `m` in place of its own, `n` begins the host function as `m` does.
  obtain ⟨s, rfl, -⟩ := script_of_beginHost begun
  have hhost := (Twin.parity hsound 0).beginHost r builtin (h.twin pushed m₀.base n.frames journal)
  rw [show beginHost r builtin { m₀ with base := m₀.base } = _ from begun] at hhost
  obtain ⟨t', n₁, hbegun, hlike, htwin⟩ := hhost.of_ok
  cases hlike
  have hfollows := h.follows rest w hd hcall
    (Op.bind_eq_ok.2 ⟨_, _, beginHost_rebase hbegun n.base, rfl⟩)
  let call : HostCall := ⟨r, m₀.sp - r.arity, m₀.base⟩
  have hnested (v : Slot) : Config.Nested (fun _ _ => True) m.frames.toList
      ⟨m₁, [.script call (builtin s)], v⟩ := congrArg Array.toList hframes
  have hrooted : Config.Rooted 0 ⟨m₁, [.script call (builtin s)], .zero⟩ := ⟨trivial, trivial⟩
  obtain ⟨v', hrun⟩ := Config.reaches_of_result handedOn_true run (hnested _) hrooted w (.inr trivial)
  have htwins : Config.Twin (callPair m n n.frames.toList) m.frames.toList
      ⟨m₁, [.script call (builtin s)], w⟩ ⟨n₁, [.script call (builtin s)], w⟩ :=
    ⟨htwin, .cons (.script _ _) .nil, rfl, hnested w⟩
  obtain ⟨n₂, hrun', htwin₂⟩ := Config.reaches_of_twin hsound htwins hrun
  have hframes₂ : n₂.frames = n.frames := Array.toList_inj.1
    (htwin₂.frames_of_low (Config.nested_of_reaches handedOn_true (hnested _) run))
  have hc : (⟨n₁, [.script call (builtin s)], w⟩ : Config) = ⟨n₁, [] ++ [.script call (builtin s)], w⟩ :=
    rfl
  obtain ⟨hreach, hsp⟩ :=
    Config.rebased_of_reaches n.base (.loop code (pc + 2) depth :: rest) hrun' hc (.script _)
  have hall := Relation.ReflTransGen.head hfollows hreach
  refine ⟨n₂, v', htwin₂.face, fun _ => ⟨hsp, ?_⟩, fun hhalted => ⟨n.base, ?_⟩⟩
  · rw [← hframes₂]
    exact hall
  · have hhalted₂ : n₂.halted = true := (congrArg Face.halted htwin₂.face).symm.trans hhalted
    rw [← hframes₂]
    exact Config.Reaches.halt hall hhalted₂

/-- The call of a routine that has code. -/
theorem AtCall.completes_code (h : AtCall m r index args n code pc depth)
    (found : at? m.routines index = some r) {target : Code} {ks : List Kind}
    (body : r.body = .compiled (some target) ks)
    (pushed : pushArgs args r.type.inputs { m with halted := false } = .ok () m₀)
    (entered : enter r m₀ = .ok base m₁)
    (run : Config.Reaches ⟨{ m₁ with base }, [.loop target 0 m.frames.size], .zero⟩ ⟨m₂, [], v⟩)
    (rest : List Task) (w : Slot) :
    Completes ⟨n, .loop code pc depth :: rest, w⟩ n base code pc depth rest m₂ := by
  obtain ⟨journal, hd⟩ := h.dispatch_eq
  let f : Frame := ⟨code, pc + 2, n.base⟩
  have hsound := sound_callPair m n (n.frames.push f).toList
  have hframes : m₁.frames = m.frames := (congrArg Control.frames (keeps_enter _ entered)).trans
    (congrArg Control.frames (keeps_pushArgs _ _ pushed))
  -- With the BASE of `m` in place of its own, `n` lays out the frame as `m` does.
  have henter := Twin.enter r (h.twin pushed m₀.base (n.frames.push f) journal)
  rw [show enter r { m₀ with base := m₀.base } = _ from entered] at henter
  obtain ⟨_, n₁, hentered, rfl, htwin⟩ := henter.of_ok
  have hentered' : enter r { n with journal, frames := n.frames.push f } =
      .ok base { n₁ with base := n.base } := enter_rebase hentered n.base
  have hcall : callRoutine code (pc + 2) index { n with journal } =
      .ok (.move target 0) { n₁ with base } := by
    refine (EStateM.bind_of_ok rfl).trans ?_
    refine (EStateM.bind_of_ok (Op.require_eq_ok.2 ⟨h.routine found, rfl⟩)).trans ?_
    rw [body]
    exact (EStateM.bind_of_ok rfl).trans ((EStateM.bind_of_ok hentered').trans rfl)
  have hfollows := h.follows rest w hd hcall rfl
  have htwin₁ := htwin.change fun F => { F with base }
  have hnested (v : Slot) : Config.Nested (fun _ _ => True) m.frames.toList
      ⟨{ m₁ with base }, [.loop target 0 m.frames.size], v⟩ := by
    rw [← hframes]
    exact Config.nested_alone _ _ v
  have hrooted : Config.Rooted base ⟨{ m₁ with base }, [.loop target 0 m.frames.size], .zero⟩ := by
    rw [← hframes]
    exact Config.rooted_alone _ _ .zero
  obtain ⟨v', hrun⟩ := Config.reaches_of_result handedOn_true run (hnested .zero) hrooted w (.inr trivial)
  have hdeep : (callPair m n (n.frames.push f).toList).Deep m.frames.size (n.frames.size + 1) :=
    ⟨0, rfl, by simp [callPair]⟩
  have htwins : Config.Twin (callPair m n (n.frames.push f).toList) m.frames.toList
      ⟨{ m₁ with base }, [.loop target 0 m.frames.size], w⟩
      ⟨{ n₁ with base }, [.loop target 0 (n.frames.size + 1)], w⟩ :=
    ⟨htwin₁, .cons (.loop _ _ hdeep) .nil, rfl, hnested w⟩
  obtain ⟨n₂, hrun', htwin₂⟩ := Config.reaches_of_twin hsound htwins hrun
  have hframes₁ : n₁.frames = n.frames.push f := Array.toList_inj.1
    (htwin.frames_of_low (congrArg Array.toList hframes))
  have hsize : n.frames.size + 1 = n₁.frames.size := by rw [hframes₁, Array.size_push]
  have hnested₁ : Config.Nested (fun _ _ => True) (n.frames.push f).toList
      ⟨{ n₁ with base }, [.loop target 0 (n.frames.size + 1)], w⟩ := by
    rw [hsize, ← hframes₁]
    exact Config.nested_alone _ _ w
  have hrooted₁ : Config.Rooted base ⟨{ n₁ with base }, [.loop target 0 (n.frames.size + 1)], w⟩ := by
    rw [hsize]
    exact Config.rooted_alone _ _ w
  have hc : (⟨{ n₁ with base }, [.loop target 0 (n.frames.size + 1)], w⟩ : Config) =
      ⟨{ n₁ with base }, [] ++ [.loop target 0 (n.frames.size + 1)], w⟩ := rfl
  obtain ⟨hreach, hsp⟩ := Config.resumed_of_reaches h.depth rest hrun' hc hnested₁ hrooted₁
  have hall := Relation.ReflTransGen.head hfollows hreach
  have hhalted₂ : n₂.halted = m₂.halted := (congrArg Face.halted htwin₂.face).symm
  refine ⟨n₂, v', htwin₂.face, fun hrunning => ⟨hsp (hhalted₂.trans hrunning), ?_⟩,
    fun hhalted => ⟨n₂.base, ?_⟩⟩
  · rwa [Config.resumed, if_neg (by simp [hhalted₂, hrunning])] at hall
  · rwa [Config.resumed, if_pos (hhalted₂.trans hhalted)] at hall

/-- The end of a call from the host takes its result from where the arguments were. -/
theorem endCall_of_reaches {bottom : Int} {w : Slot}
    (h : Config.Reaches ⟨m, [.closeCall bottom base], w⟩ ⟨n, [], v⟩) :
    n = { m with sp := bottom, base } ∧ (m.halted = false → at? m.stack bottom = some v) := by
  obtain heq | ⟨c, hstep, hrun⟩ := h.cases_head
  · cases heq
  obtain ⟨new, v₁, m₁, ht, rfl⟩ := Config.follows_cons hstep
  obtain ⟨u, m₂, hend, hret⟩ := Op.bind_eq_ok.1 ht
  cases hret
  obtain ⟨rfl, rfl⟩ := Config.eq_of_reaches_nil hrun
  obtain ⟨_, _, hget, hread⟩ := Op.bind_eq_ok.1 hend
  cases hget
  simp only at hread
  split at hread
  · next hhalted =>
    cases hread
    exact ⟨rfl, fun hrunning => by simp [hhalted] at hrunning⟩
  · obtain ⟨_, _, hget, hput⟩ := Op.bind_eq_ok.1 hread
    cases hget
    obtain ⟨_, m₂, hreq, hset⟩ := Op.bind_eq_ok.1 hput
    obtain ⟨hslot, rfl⟩ := Op.require_eq_ok.1 hreq
    cases hset
    exact ⟨rfl, fun _ => hslot⟩

/-- What a call by an instruction comes to in `n'`, when the call from the host has come to `v` and
`m'`: the value has taken the place of the arguments, and the caller has its registers and frames
back. -/
structure Called (m m' : Machine) (v : Slot) (n n' : Machine) : Prop where
  result : at? n'.stack m.sp = some v
  sp : n'.sp = m.sp + 1
  base : n'.base = n.base
  frames : n'.frames = n.frames
  running : n'.halted = false
  stack : n'.stack = m'.stack
  heap : n'.heap = m'.heap
  objects : n'.objects = m'.objects

/-- What a call by an instruction comes to in `n'`, when the call from the host has halted in `m'`. -/
structure Stopped (m' : Machine) (depth : Nat) (n n' : Machine) : Prop where
  halted : n'.halted = true
  frames : n'.frames = n.frames.take depth
  stack : n'.stack = m'.stack
  heap : n'.heap = m'.heap
  objects : n'.objects = m'.objects

/-- Calls from the host and calls from code agree. When the call of a routine from the host comes
to a value, the call instruction in any running loop, with the same memories and the arguments on
the stack, leads to the instruction behind it with that value in place of the arguments; when the
call from the host halts, so does the loop. -/
theorem calls_agree (found : m.callee index args = .ok r) (h : AtCall m r index args n code pc depth)
    {fuel : Nat} {v : Slot} {m' : Machine} (hcall : m.call fuel index args = .ok (.finished v m'))
    (rest : List Task) (w : Slot) :
    (m'.halted = false → ∃ n' w', m.Called m' v n n' ∧
      Config.Reaches ⟨n, .loop code pc depth :: rest, w⟩ ⟨n', .loop code (pc + 2) depth :: rest, w'⟩) ∧
    (m'.halted = true → ∃ n' w', m'.Stopped depth n n' ∧
      Config.Reaches ⟨n, .loop code pc depth :: rest, w⟩ ⟨n', rest, w'⟩) := by
  have hroutine : at? m.routines index = some r := routine_of_callee found
  have hlen := length_of_callee found
  -- The run from the host is that of the routine alone, and then the result is taken.
  have hruns : ∃ m₂, Completes ⟨n, .loop code pc depth :: rest, w⟩ n m.sp code pc depth rest m₂ ∧
      m' = { m₂ with sp := m.sp, base := m.base } ∧
      (m₂.halted = false → at? m₂.stack m.sp = some v) := by
    rw [call, found] at hcall
    have hperform : m.perform fuel (beginCall r args) = .finished v m' := Except.ok.inj hcall
    unfold perform at hperform
    split at hperform
    case h_2 => cases hperform
    next tasks m₁ begun =>
    have hreach := Config.reaches_of_run hperform
    cases begun_of_beginCall begun with
    | @host builtin t m₀ _ body pushed hosted =>
      obtain ⟨m₂, w₂, hrun, hclose⟩ := Config.ends_above hreach
      have hbottom : m₀.sp - r.arity = m.sp := by
        rw [sp_of_pushArgs hlen pushed, hlen]
        simp
      exact ⟨m₂, hbottom ▸ h.completes_host hroutine body pushed hosted hrun rest w,
        endCall_of_reaches hclose⟩
    | @code target ks base m₀ m₁ body pushed entered =>
      obtain ⟨m₂, w₂, hrun, hclose⟩ := Config.ends_above hreach
      have hbottom : base = m.sp := by
        rw [base_of_enter entered, sp_of_pushArgs hlen pushed, hlen]
        simp
      exact ⟨m₂, hbottom ▸ h.completes_code hroutine body pushed entered hrun rest w,
        endCall_of_reaches hclose⟩
  obtain ⟨m₂, ⟨n₂, w', hface, hback, hstop⟩, rfl, hslot⟩ := hruns
  have hstack : n₂.stack = m₂.stack := (congrArg Face.stack hface).symm
  have hheap : n₂.heap = m₂.heap := (congrArg Face.heap hface).symm
  have hobjects : n₂.objects = m₂.objects := (congrArg Face.objects hface).symm
  have hhalted : n₂.halted = m₂.halted := (congrArg Face.halted hface).symm
  refine ⟨fun hrunning => ?_, fun hhalts => ?_⟩
  · obtain ⟨hsp, hreach⟩ := hback hrunning
    refine ⟨{ n₂ with frames := n.frames, base := n.base }, w',
      ⟨?_, hsp, rfl, rfl, hhalted.trans hrunning, hstack, hheap, hobjects⟩, hreach⟩
    exact (congrArg (at? · m.sp) hstack).trans (hslot hrunning)
  · obtain ⟨base, hreach⟩ := hstop hhalts
    exact ⟨{ n₂ with frames := n.frames.take depth, base }, w',
      ⟨hhalted.trans hhalts, rfl, hstack, hheap, hobjects⟩, hreach⟩

/-- A routine that sums the numbers up to its argument and calls itself for it. -/
def sum : Routine := ⟨"sum", .function 5 (.prim 2 .int) [.prim 2 .int], 0,
  .compiled (some ⟨#[0x112, 0, 0x53, 13, 0x112, 0, 0x112, 0, 0x122, 0x60, 0, 0x130, 0x162, 0x103, 0x162]⟩)
    [.int]⟩

/-- A loaded machine with three slots on its stack. -/
def summing : Machine :=
  { new 2 16 {} with exe := some { name := "summing", routines := #[sum] }, sp := 3 }

/-- The sum up to two, called from the host, and called by an instruction in a loop that has a frame
below it. -/
theorem calls_agree_summing : ∃ (m' n n' : Machine) (w : Slot),
    summing.call 60 0 [⟨2⟩] = .ok (.finished ⟨3⟩ m') ∧ n.frames.size = 1 ∧ n.base = 1 ∧
      summing.Called m' ⟨3⟩ n n' ∧
      Config.Reaches ⟨n, [.loop ⟨#[0x60, 0]⟩ 0 1], .zero⟩ ⟨n', [.loop ⟨#[0x60, 0]⟩ 2 1], w⟩ := by
  have hcall : ∃ m', summing.call 60 0 [⟨2⟩] = .ok (.finished ⟨3⟩ m') ∧ m'.halted = false := by
    unfold summing
    exact ⟨_, rfl, rfl⟩
  obtain ⟨m', hm', hrunning⟩ := hcall
  let n : Machine := { summing with
    sp := 4, stack := summing.stack.setIfInBounds 3 ⟨2⟩, base := 1, frames := #[⟨⟨#[]⟩, 0, 0⟩] }
  have hat : AtCall summing sum 0 [⟨2⟩] n ⟨#[0x60, 0]⟩ 0 1 :=
    ⟨⟨_, rfl, rfl⟩, ⟨0, rfl, rfl⟩, Nat.le_refl 1, rfl, rfl, rfl, rfl, rfl, rfl, _, rfl, rfl, rfl, rfl⟩
  obtain ⟨n', w, hcalled, hreach⟩ := (calls_agree rfl hat hm' [] .zero).1 hrunning
  exact ⟨m', n, n', w, hm', rfl, rfl, hcalled, hreach⟩

end Machine
end Stackwork
