import Stackwork.Proofs.Machine.Situation

/-!
# Calls

What a call does to the machine, wherever it comes from. Code that calls leaves a frame and
goes on behind it; the host waits for the result and goes on even when the program has been
halted meanwhile. `Simulates` states that the routines of a program do what a meaning of calls
says; from it follow the meaning of a call from code, of a call from the host, and of host
functions, which are scripts of requests.
-/
namespace Stackwork

open Op (Takes)
open Machine (Live)

variable {exe : Executable}

/-- What is live while a host function is at work. -/
abbrev Situation.Hosting (exe : Executable) (cells : List Slot) (world : World) (σ : Situation) (m : Machine) :
    Prop :=
  m.Live exe σ.size (σ.below ++ cells) σ.below.length σ.outer world

/-- A host function is at work, in the place of the code of a frame. -/
def Situation.Script (exe : Executable) (r : Routine) (s : HostScript) (cells : List Slot)
    (world : World) (σ : Situation) (c : Config) : Prop :=
  ∃ m result base, (∀ f, σ.caller = some f → base = f.base) ∧
    c = ⟨m, .script ⟨r, σ.below.length, base⟩ s :: (σ.resumed ++ σ.tasks), result⟩ ∧
      σ.Hosting exe cells world m

/-- The host starts some code, with some cells live below. -/
def Situation.ofHost (size : Nat) (cells : List Slot) (frames : Array Frame) (tasks : List Task) :
    Situation where
  size := size
  below := cells
  outer := frames
  caller := none
  depth := frames.size
  tasks := tasks
  inner := Nat.le_refl _
  bottom := fun _ => rfl

namespace Routine

/-- A routine that can be called with the given arguments. -/
structure Accepts (r : Routine) (args : List Slot) : Prop where
  arity : args.length = r.arity
  fits : r.arity ≤ r.frameSize
  runnable : r.isBuiltin ∨ r.code?.isSome

theorem Accepts.code_of_compiled {r : Routine} {args : List Slot} (h : r.Accepts args)
    {code : Option Code} {ks : List Kind} (hbody : r.body = .compiled code ks) :
    ∃ c, code = some c := by
  have hrun := h.runnable
  simp only [isBuiltin, code?, hbody, Bool.false_eq_true, false_or] at hrun
  exact Option.isSome_iff_exists.1 hrun

/-- A call of the routine has just begun. -/
def Opened (r : Routine) (exe : Executable) (args : List Slot) (world : World) : Situation → Config → Prop :=
  match r.body with
  | .host builtin => Situation.Script exe r (builtin args) args world
  | .compiled none _ => fun _ _ => False
  | .compiled (some code) ks =>
    Situation.At exe code 0 (args ++ List.replicate (ks.length - args.length) .zero) world

end Routine

/-- The routines of a program do what `call` says. -/
def Simulates (exe : Executable) (call : Int → List Slot → Eval Slot) : Prop :=
  ∀ index args w, Eval.Settled (call index args w) →
    ∃ r, Machine.at? exe.routines index = some r ∧ r.Accepts args ∧
      Carries exe (r.Opened exe args w) (call index args w) fun v w σ => σ.Back exe v w

namespace Machine

variable {size : Nat} {cells : List Slot} {base : Int} {frames : Array Frame} {world : World}

/-- A call from the host lays out the frame above what is live. -/
theorem takes_beginCall {r : Routine} {args : List Slot} (accepts : r.Accepts args)
    (rest : List Task) (result : Slot) :
    Takes size (cells.length + r.frameSize) (Live exe size cells base frames world) (beginCall r args)
      fun tasks m => r.Opened exe args { world with halted := false }
        (.ofHost size cells frames (.closeCall cells.length base :: rest)) ⟨m, tasks ++ rest, result⟩ := by
  have hargs : args.length = r.type.inputs.length := accepts.arity
  have hresume : Takes size 0 (Live exe size cells base frames world)
      (modify fun m => { m with halted := false })
      fun _ => Live exe size cells base frames { world with halted := false } :=
    .modify fun m h => { h with
      world := by
        have := h.world
        subst this
        rfl
      tagged := h.tagged }
  refine hresume.after fun _ => .get fun m h => .get fun m' h' => ?_
  rw [h.sp, h'.base]
  have hpush : Takes size (cells.length + args.length)
      (Live exe size cells base frames { world with halted := false }) (pushArgs args r.type.inputs) _ :=
    takes_pushArgs hargs
  have hfits := accepts.fits
  refine (?_ : Takes size (max (cells.length + args.length) (cells.length + r.frameSize)) _ _ _).relevel
    fun m h => by rw [accepts.arity]; omega
  refine hpush.bind fun _ => ?_
  unfold Routine.Opened
  cases hbody : r.body with
  | host builtin =>
    refine Takes.relevel (?_ : Takes size 0 _ _ _) fun m h => ?_
    · have hhost : Takes size 0 (Live exe size (cells ++ args) base frames { world with halted := false })
          (beginHost r builtin) _ := takes_beginHost accepts.arity builtin
      exact hhost.read (.pure fun m h => ⟨m, result, base, fun f hf => (by cases hf), rfl, h⟩)
    · have hlen := h.length_le
      rw [List.length_append, accepts.arity] at hlen
      rw [Routine.frameSize, hbody]
      exact iff_of_true (Nat.zero_le _) hlen
  | compiled code ks =>
    obtain ⟨code, rfl⟩ := accepts.code_of_compiled hbody
    have hlocals : r.locals = ks := by rw [Routine.locals, hbody]
    have hsize : r.frameSize = r.locals.length := by rw [Routine.frameSize, Routine.locals, hbody]
    rw [hsize] at hfits ⊢
    have henter : Takes size (cells.length + r.locals.length)
        (Live exe size (cells ++ args) base frames { world with halted := false }) (enter r) _ :=
      takes_enter accepts.arity hfits
    rw [hlocals] at henter ⊢
    refine .get fun m h => henter.readThen ?_
    rw [h.frames]
    refine (Takes.modify fun m h => h.setBase _).after fun _ => .pure fun m h => ?_
    exact ⟨rfl, m, result, rfl, h⟩

end Machine

/-- Whoever called from the host goes on with the result `v`. -/
def Handed (exe : Executable) (size : Nat) (cells : List Slot) (base : Int) (frames : Array Frame)
    (rest : List Task) (v : Slot) (world : World) (c : Config) : Prop :=
  ∃ m, c = ⟨m, rest, v⟩ ∧ m.Live exe size cells base frames world

namespace Situation

variable {size : Nat} {cells : List Slot} {base : Int} {frames : Array Frame} {rest : List Task}
  {world : World} {c : Config}

/-- The host takes the result of a call that has returned. -/
theorem Back.leads_close {v : Slot}
    (h : (ofHost size cells frames (.closeCall cells.length base :: rest)).Back exe v world c) :
    c.Leads size 0 (Handed exe size cells base frames rest v world) := by
  obtain ⟨running, m, result, base', -, rfl, hm⟩ := h
  have hclose : Takes size 0 (Live exe size (cells ++ [v]) base' frames world)
      (Machine.taskStep result (.closeCall cells.length base))
      fun p m => p = ([], v) ∧ m.Live exe size cells base frames world :=
    (Machine.takes_endCall running base).read (.pure fun m h => ⟨rfl, h⟩)
  exact .of_takes_eq hm hclose fun m' hm' => ⟨m', rfl, hm'⟩

/-- A call that has been halted has no result. -/
theorem Out.leads_close (h : (ofHost size cells frames (.closeCall cells.length base :: rest)).Out exe world c) :
    c.Leads size 0 (Handed exe size cells base frames rest .zero world) := by
  obtain ⟨halted, m, result, above, sp, base', rfl, hm⟩ := h
  have hframes : frames.take frames.size = frames := by simp
  have hclose : Takes size 0 (Machine.Holds exe size (cells ++ above) sp base' frames world)
      (Machine.taskStep result (.closeCall cells.length base))
      fun p m => p = ([], .zero) ∧ m.Live exe size cells base frames world :=
    (Machine.takes_endCall_halted halted base).read (.pure fun m h => ⟨rfl, h⟩)
  exact .of_takes_eq (hframes ▸ hm) hclose fun m' hm' => ⟨m', rfl, hm'⟩

end Situation

/-- A call from the host comes to the value that its meaning gives. -/
theorem Simulates.leads_call {call : Int → List Slot → Eval Slot} (sim : Simulates exe call)
    {index : Int} {args : List Slot} {w w' : World} {v : Slot}
    (h : Eval.settle (call index args) w = .ok v w') :
    ∃ r, Machine.at? exe.routines index = some r ∧ r.Accepts args ∧ ∃ need : Nat,
      ∀ size cells base frames rest c,
        r.Opened exe args w (.ofHost size cells frames (.closeCall cells.length base :: rest)) c →
        c.Leads size (cells.length + need) (Handed exe size cells base frames rest v w') := by
  have settled : Eval.Settled (call index args w) := Eval.settled_of_settle h
  obtain ⟨r, found, accepts, carries⟩ := sim index args w settled
  refine ⟨r, found, accepts, ?_⟩
  obtain ⟨need, hneed⟩ := carries settled
  refine ⟨need, fun size cells base frames rest c opened => ?_⟩
  rw [← Nat.max_zero (cells.length + need)]
  refine (hneed _ c opened).bind fun c' hafter => ?_
  unfold Eval.settle at h
  split at h
  · next hcall =>
    cases h
    rw [hcall] at hafter
    exact Situation.Out.leads_close hafter
  · rw [h] at hafter
    exact Situation.Back.leads_close hafter

namespace Situation

variable {σ : Situation} {cells : List Slot} {code : Code} {ret : Nat} {w : World} {c : Config}

/-- Code that has some cells above its base calls and goes on at `ret`. -/
def called (σ : Situation) (cells : List Slot) (code : Code) (ret : Nat) : Situation where
  size := σ.size
  below := σ.below ++ cells
  outer := σ.frames
  caller := some ⟨code, ret, σ.below.length⟩
  depth := σ.depth
  tasks := σ.tasks
  inner := σ.depth_le_frames
  bottom := nofun

theorem Back.of_called {v : Slot} (h : (σ.called cells code ret).Back exe v w c) :
    σ.At exe code ret (cells ++ [v]) w c := by
  obtain ⟨running, m, result, base, hbase, rfl, hm⟩ := h
  obtain rfl := hbase _ rfl
  exact ⟨running, m, result, rfl, by rwa [has_append]⟩

theorem Out.of_called (h : (σ.called cells code ret).Out exe w c) : σ.Out exe w c := by
  obtain ⟨halted, m, result, above, sp, base, rfl, hm⟩ := h
  refine ⟨halted, m, result, cells ++ above, sp, base, rfl, ?_⟩
  rw [← List.append_assoc, ← σ.take_frames]
  exact hm

/-- An instruction that calls a routine. -/
theorem leads_opened {m : Machine} {pc : Int} {result : Slot} {index : Int} {r : Routine}
    {args start : List Slot} (found : Machine.at? exe.routines index = some r)
    (accepts : r.Accepts args) (running : w.halted = false)
    (hm : σ.Has exe start w m)
    (hdispatch : ∀ {level : Nat} {post : Next → Machine → Prop},
      Takes σ.size level (σ.Has exe (cells ++ args) w) (Machine.callRoutine code ret index) post →
      Takes σ.size level (σ.Has exe start w) (Machine.dispatch code pc σ.depth) post) :
    Config.Leads σ.size ((σ.below ++ cells).length + r.frameSize)
      ⟨m, .loop code pc σ.depth :: σ.tasks, result⟩ (r.Opened exe args w (σ.called cells code ret)) := by
  rw [σ.has_append] at hdispatch
  unfold Routine.Opened
  cases hbody : r.body with
  | host builtin =>
    have hcall : Takes σ.size ((σ.below ++ cells).length + r.frameSize)
        (Live exe σ.size (σ.below ++ cells ++ args) σ.below.length σ.frames w)
        (Machine.callRoutine code ret index) _ :=
      (Machine.takes_callRoutine_host found hbody code ret).relevel fun m h => by
        have hlen := h.length_le
        rw [List.length_append, accepts.arity] at hlen
        rw [Routine.frameSize, hbody]
        exact iff_of_true (Nat.zero_le _) hlen
    have hloop : Takes σ.size ((σ.below ++ cells).length + r.frameSize) (σ.Has exe start w)
        (Machine.taskStep result (.loop code pc σ.depth)) fun p m =>
          p = ([.script ⟨r, (σ.below ++ cells).length, σ.below.length⟩ (builtin args),
            .loop code ret σ.depth], result) ∧
          m.Live exe σ.size (σ.below ++ cells ++ args) (σ.below ++ cells).length σ.frames w :=
      Machine.takes_loop (fun _ h => h.halted_eq.trans running) (hdispatch hcall)
        ((Machine.takes_beginHost accepts.arity builtin).read (.pure fun m h => ⟨rfl, h⟩))
    refine .of_takes_eq hm hloop fun m' hm' => ?_
    refine ⟨m', _, σ.below.length, ?_, rfl, hm'⟩
    intro f hf
    cases hf
    rfl
  | compiled target ks =>
    obtain ⟨target, rfl⟩ := accepts.code_of_compiled hbody
    have hsize : r.frameSize = ks.length := by rw [Routine.frameSize, hbody]
    rw [hsize]
    have hloop : Takes σ.size ((σ.below ++ cells).length + ks.length) (σ.Has exe start w)
        (Machine.taskStep result (.loop code pc σ.depth)) fun p m =>
          p = ([.loop target 0 σ.depth], result) ∧ m.Live exe σ.size
            (σ.below ++ cells ++ (args ++ List.replicate (ks.length - args.length) .zero))
            (σ.below ++ cells).length (σ.frames.push ⟨code, ret, σ.below.length⟩) w :=
      Machine.takes_loop (fun _ h => h.halted_eq.trans running)
        (hdispatch (Machine.takes_callRoutine_code found hbody accepts.arity
          (by simpa only [Routine.frameSize, hbody] using accepts.fits) code ret))
        (.pure fun m h => ⟨rfl, h⟩)
    exact .of_takes_eq hm hloop fun m' hm' => ⟨running, m', _, rfl, hm'⟩

end Situation

section Scripts

variable {r : Routine} {cells : List Slot} {w w' : World}

variable {α : Type} {outcome : EStateM.Result Stop World α} {good : α → World → Situation → Config → Prop}
  {σ : Situation} {index base sp : Int} {args : List Slot} {v : Slot} {m : Machine}

/-- A request that is answered at once. -/
theorem Carries.answered {s s' : HostScript}
    (hx : ∀ size cells base frames call,
      Takes size 0 (Live exe size cells base frames w) (Machine.scriptStep call s) fun tasks m =>
        tasks = [.script call s'] ∧ m.Live exe size cells base frames w')
    (h : Carries exe (Situation.Script exe r s' cells w') outcome good) :
    Carries exe (Situation.Script exe r s cells w) outcome good := by
  intro settled
  obtain ⟨need, hneed⟩ := h settled
  refine ⟨need, ?_⟩
  rintro σ c ⟨m, result, base, hbase, rfl, hm⟩
  have hstep : Takes σ.size 0 (σ.Hosting exe cells w)
      (Machine.taskStep result (.script ⟨r, σ.below.length, base⟩ s)) fun p m =>
        p = ([.script ⟨r, σ.below.length, base⟩ s'], result) ∧ σ.Hosting exe cells w' m :=
    (hx _ _ _ _ _).read (.pure fun m h => ⟨rfl, h⟩)
  have hfirst : Config.Leads σ.size 0 _ (Situation.Script exe r s' cells w' σ) :=
    .of_takes_eq hm hstep fun m' hm' => ⟨m', _, base, hbase, rfl, hm'⟩
  rw [← Nat.zero_max (σ.below.length + need)]
  exact hfirst.bind fun c' hc' => hneed σ c' hc'

variable {call : Int → List Slot → Eval Slot}

/-- What is left to do behind a call that a host function has asked for. -/
def Situation.behindRequest (σ : Situation) (r : Routine) (base : Int) (next : Slot → HostScript) :
    List Task :=
  .waiting ⟨r, σ.below.length, base⟩ next :: (σ.resumed ++ σ.tasks)

theorem takes_script {size need : Nat} {pre : Machine → Prop} {host : HostCall} {s : HostScript} {result : Slot}
    {Q : List Task × Slot → Machine → Prop}
    (h : Takes size need pre (Machine.scriptStep host s) fun tasks m => Q (tasks, result) m) :
    Takes size need pre (Machine.taskStep result (.script host s)) Q :=
  h.andThen fun _ => .pure fun _ hm => hm

/-- A host function asks for a call. -/
theorem Situation.takes_request {callee : Routine} (found : Machine.at? exe.routines index = some callee)
    (accepts : callee.Accepts args) (base : Int) (next : Except CallError Slot → HostScript) (result : Slot) :
    Takes σ.size ((σ.below ++ cells).length + callee.frameSize) (σ.Hosting exe cells w)
      (Machine.taskStep result (.script ⟨r, σ.below.length, base⟩ (.call index args next)))
      fun p m => callee.Opened exe args { w with halted := false }
        (.ofHost σ.size (σ.below ++ cells) σ.outer
          (.closeCall (σ.below ++ cells).length σ.below.length ::
            σ.behindRequest r base fun v => next (.ok v)))
        ⟨m, p.1 ++ (σ.resumed ++ σ.tasks), p.2⟩ := by
  refine takes_script (.get fun m hm => ?_)
  have hfound : m.callee index args = .ok callee := by
    rw [Machine.callee, hm.routines_eq, found]
    exact if_pos accepts.arity
  rw [hfound]
  refine (Machine.takes_beginCall accepts (σ.behindRequest r base fun v => next (.ok v))
    result).andThen fun tasks => .pure fun m hm => ?_
  rwa [List.append_assoc]

/-- A host function goes on with the result it has asked for. -/
theorem Situation.leads_answer (hbase : ∀ f, σ.caller = some f → base = f.base) {next : Slot → HostScript}
    {c : Config}
    (h : Handed exe σ.size (σ.below ++ cells) σ.below.length σ.outer (σ.behindRequest r base next) v w c) :
    c.Leads σ.size 0 (σ.Script exe r (next v) cells w) := by
  obtain ⟨m, rfl, hm⟩ := h
  have hstep : Takes σ.size 0 (σ.Hosting exe cells w)
      (Machine.taskStep v (.waiting ⟨r, σ.below.length, base⟩ next)) fun p m =>
        p = ([.script ⟨r, σ.below.length, base⟩ (next v)], v) ∧ σ.Hosting exe cells w m :=
    .pure fun m hm => ⟨rfl, hm⟩
  exact .of_takes_eq hm hstep fun m' hm' => ⟨m', _, base, hbase, rfl, hm'⟩

/-- A request to call a function. -/
theorem Carries.asked (sim : Simulates exe call)
    (hcall : Eval.settle (call index args) { w with halted := false } = .ok v w')
    {next : Except CallError Slot → HostScript}
    (h : Carries exe (Situation.Script exe r (next (.ok v)) cells w') outcome good) :
    Carries exe (Situation.Script exe r (.call index args next) cells w) outcome good := by
  intro settled
  obtain ⟨callee, found, accepts, inner, hinner⟩ := sim.leads_call hcall
  obtain ⟨need, hneed⟩ := h settled
  refine ⟨max (cells.length + callee.frameSize) (max (cells.length + inner) need), ?_⟩
  rintro σ c ⟨m, result, base, hbase, rfl, hm⟩
  have hlevel : σ.below.length + max (cells.length + callee.frameSize) (max (cells.length + inner) need) =
      max ((σ.below ++ cells).length + callee.frameSize)
        (max ((σ.below ++ cells).length + inner) (max 0 (σ.below.length + need))) := by
    rw [List.length_append]
    omega
  rw [hlevel]
  refine Config.Leads.bind (.of_takes hm (σ.takes_request found accepts base next result)
    fun tasks result' m' hopened => hopened) fun c₁ hopened => ?_
  refine (hinner _ _ _ _ _ c₁ hopened).bind fun c₂ handed => ?_
  exact (Situation.leads_answer hbase handed).bind fun c₃ hscript => hneed σ c₃ hscript

/-- What the meaning of a program refuses is refused by the machine. -/
def Refuses (exe : Executable) (refusal? : Int → List Slot → Option CallError) : Prop :=
  ∀ index args e (m : Machine), m.exe = some exe → refusal? index args = some e →
    m.callee index args = .error e

/-- Writing a global from the host. -/
theorem Machine.Holds.setGlobal {size : Nat} {frames : Array Frame}
    (hm : m.Holds exe size cells sp base frames w) (h : w.setGlobal? index v = some w') :
    ∃ m', m.setGlobal? index v = some m' ∧ m'.Holds exe size cells sp base frames w' := by
  obtain rfl := hm.world
  unfold World.setGlobal? at h
  split at h
  · next hrange =>
    cases h
    exact ⟨_, if_pos hrange, { hm with world := rfl, tagged := hm.tagged }⟩
  · cases h

theorem Eval.settle_ne_halted (x : Eval Slot) (w w' : World) : x.settle w ≠ .error .halted w' := by
  unfold Eval.settle
  split
  · intro h
    cases h
  · next hne => exact hne w'

/-- Scripts do what they mean. -/
theorem Carries.script (sim : Simulates exe call) {refusal? : Int → List Slot → Option CallError}
    (refuses : Refuses exe refusal?) (s : HostScript) (w : World) :
    Carries exe (Situation.Script exe r s cells w) (s.eval refusal? call w)
      fun v w => Situation.Script exe r (.done v) cells w := by
  induction s generalizing w with
  | done v =>
    refine .done ?_ fun σ c h => h
    rintro σ c ⟨m, result, base, -, -, hm⟩
    exact hm.lower.length_le
  | log line next ih =>
    refine .answered (fun size cells base frames call => ?_) (ih w)
    exact (Takes.modify fun m h => h.write line).after fun _ => .pure fun m h => ⟨rfl, h⟩
  | registers next ih | stack next ih | execute code next ih => exact fun settled => by cases settled
  | readGlobal index next ih =>
    change Carries exe _ ((Eval.require (Machine.at? w.globals index) >>= fun v =>
      (next v).eval refusal? call) w) _
    cases hv : Machine.at? w.globals index with
    | none => exact fun settled => by cases settled
    | some v =>
      refine .answered (fun size cells base frames call => ?_) (ih v w)
      rw [Machine.scriptStep]
      refine .get fun m h => ?_
      rw [Machine.global?, h.heap_eq, hv]
      exact (Takes.require rfl).read (.pure fun m h => ⟨rfl, h⟩)
  | writeGlobal index value next ih =>
    change Carries exe _ ((Eval.require (w.setGlobal? index value) >>= fun w' =>
      set w' >>= fun _ => next.eval refusal? call) w) _
    cases hw : w.setGlobal? index value with
    | none => exact fun settled => by cases settled
    | some w' =>
      refine .answered (fun size cells base frames call => ?_) (ih w')
      rw [Machine.scriptStep]
      refine .get fun m h => ?_
      obtain ⟨m', hset, hm'⟩ := h.setGlobal hw
      exact (Takes.require hset).read (.of_ok fun m h => ⟨_, m', rfl, rfl, hm'⟩)
  | newObject value next ih =>
    refine .answered (fun size cells base frames call => .of_ok fun m h => ?_)
      (ih (w.newObject value).1 (w.newObject value).2)
    obtain rfl := h.world
    exact ⟨_, _, rfl, rfl, { h with world := rfl, tagged := h.tagged }⟩
  | object handle next ih =>
    refine .answered (fun size cells base frames call => ?_) (ih (w.object handle) w)
    rw [Machine.scriptStep]
    refine .get fun m h => ?_
    obtain rfl := h.world
    exact .pure fun m h => ⟨rfl, h⟩
  | call index args next ih =>
    simp only [HostScript.eval]
    cases hrefused : refusal? index args with
    | some e =>
      refine .answered (fun size cells base frames call => ?_) (ih (.error e) w)
      rw [Machine.scriptStep]
      refine .get fun m h => ?_
      rw [refuses index args e m h.exe hrefused]
      exact .pure fun m h => ⟨rfl, h⟩
    | none =>
      change Carries exe _ ((Eval.settle (call index args) >>= fun v =>
        (next (.ok v)).eval refusal? call) { w with halted := false }) _
      cases hcall : Eval.settle (call index args) { w with halted := false } with
      | ok v w' =>
        rw [EStateM.bind_of_ok hcall]
        exact .asked sim hcall (ih (.ok v) w')
      | error e w' =>
        rw [EStateM.bind_of_error hcall]
        intro settled
        obtain rfl : e = .halted := settled
        exact absurd hcall (Eval.settle_ne_halted _ _ _)

/-- A host function is over and the program has been halted. -/
theorem Situation.leads_out {above : List Slot} {result : Slot} (halted : w.halted)
    (hm : m.Holds exe σ.size (σ.below ++ above) sp base σ.outer w) :
    Config.Leads σ.size 0 ⟨m, σ.resumed ++ σ.tasks, result⟩ (σ.Out exe w) := by
  have hbottom := σ.bottom
  unfold resumed
  cases hcaller : σ.caller with
  | none =>
    refine .here (Nat.zero_le _) ⟨halted, m, result, above, sp, base, rfl, ?_⟩
    have hframes : σ.outer.take σ.depth = σ.outer := by
      rw [← hbottom hcaller]
      simp
    rwa [hframes]
  | some f =>
    have hleave : Takes σ.size 0 (Machine.Holds exe σ.size (σ.below ++ above) sp base σ.outer w)
        (Machine.taskStep result (.loop f.code f.pc σ.depth)) fun p m => p = ([], result) ∧
          m.Holds exe σ.size (σ.below ++ above) sp base (σ.outer.take σ.depth) w := by
      refine .get fun m h => ?_
      rw [h.halted_eq, halted]
      refine (Takes.modify fun m h => ?_).after fun _ => .pure fun m h => ⟨rfl, h⟩
      rw [← h.frames]
      exact h.setFrames _
    exact .of_takes_eq hm hleave fun m' hm' => ⟨halted, m', _, above, sp, base, rfl, hm'⟩

/-- A script that is over hands its result to the caller, unless the program has been halted. -/
theorem Carries.scriptDone (v : Slot) :
    Carries exe (Situation.Script exe r (.done v) cells w) (Eval.unlessHalted v w)
      fun v w σ => σ.Back exe v w := by
  intro _
  refine ⟨1, ?_⟩
  rintro σ c ⟨m, result, base, hbase, rfl, hm⟩
  have hend : Takes σ.size (σ.below.length + 1) (σ.Hosting exe cells w)
      (Machine.taskStep result (.script ⟨r, σ.below.length, base⟩ (.done v))) fun p m =>
        p = ([], result) ∧ m.Live exe σ.size (σ.below ++ [v]) base σ.outer w :=
    takes_script ((Machine.takes_endHost r v).andThen fun _ => .pure fun m h => ⟨rfl, h⟩)
  have hended : Config.Leads σ.size (σ.below.length + 1)
      ⟨m, .script ⟨r, σ.below.length, base⟩ (.done v) :: (σ.resumed ++ σ.tasks), result⟩ fun c =>
        ∃ m, c = ⟨m, σ.resumed ++ σ.tasks, result⟩ ∧
          m.Live exe σ.size (σ.below ++ [v]) base σ.outer w :=
    .of_takes_eq hm hend fun m' hm' => ⟨m', rfl, hm'⟩
  rw [← Nat.max_zero (σ.below.length + 1)]
  refine hended.bind ?_
  rintro c ⟨m, rfl, hm⟩
  cases hhalted : w.halted with
  | true =>
    rw [Eval.unlessHalted, if_pos hhalted]
    exact Situation.leads_out hhalted hm
  | false =>
    rw [Eval.unlessHalted, if_neg (by simp [hhalted])]
    exact .here (Nat.zero_le _) ⟨hhalted, m, result, base, hbase, rfl, hm⟩

end Scripts
end Stackwork
