import Stackwork.Proofs.Machine.Plain

/-!
# Code at work in a situation

Where a piece of code runs is a situation: what lies on the stack below its frame, who called
it, and what is to be done when it is over. The same code runs in any situation, and it takes
the same number of slots above its base. `Carries` states, for an evaluation with a given
outcome, that the machine gets from one condition to another, or out of the code if the
program is halted, whatever the situation; evaluations in sequence are carried out in sequence.
-/
namespace Stackwork

open Machine

namespace Config

/-- On a stack of at least `level` slots a run leads to `post`; on a smaller one it ends out of
range. -/
def Leads (size level : Nat) (c : Config) (post : Config → Prop) : Prop :=
  (level ≤ size → ∃ c', c.Reaches c' ∧ post c') ∧
    (size < level → ∃ c' m, c.Reaches c' ∧ c'.step = .faulted .outOfRange m)

namespace Leads

variable {size level : Nat} {c : Config} {post : Config → Prop}

theorem here (room : level ≤ size) (h : post c) : Leads size level c post :=
  ⟨fun _ => ⟨c, .refl, h⟩, fun hfull => by omega⟩

/-- Runs in sequence. -/
theorem bind {level' : Nat} {mid : Config → Prop} (h : Leads size level c mid)
    (h' : ∀ c', mid c' → Leads size level' c' post) : Leads size (max level level') c post := by
  by_cases hroom : level ≤ size
  · obtain ⟨c₁, hrun, hmid⟩ := h.1 hroom
    constructor
    · intro hmax
      obtain ⟨c₂, hrun', hpost⟩ := (h' c₁ hmid).1 (by omega)
      exact ⟨c₂, hrun.trans hrun', hpost⟩
    · intro hmax
      obtain ⟨c₂, m, hrun', hfault⟩ := (h' c₁ hmid).2 (by omega)
      exact ⟨c₂, m, hrun.trans hrun', hfault⟩
  · exact ⟨fun hmax => by omega, fun _ => h.2 (by omega)⟩

theorem mono {post' : Config → Prop} (h : Leads size level c post) (hpost : ∀ c', post c' → post' c') :
    Leads size level c post' := by
  refine ⟨fun hroom => ?_, h.2⟩
  obtain ⟨c', hrun, hp⟩ := h.1 hroom
  exact ⟨c', hrun, hpost c' hp⟩

variable {m : Machine} {t : Task} {rest : List Task} {result : Slot} {pre : Machine → Prop}

/-- One step of the task on top. -/
theorem of_takes {q : List Task × Slot → Machine → Prop} (hm : pre m)
    (h : Op.Takes size level pre (taskStep result t) q)
    (hq : ∀ tasks result' m', q (tasks, result') m' → post ⟨m', tasks ++ rest, result'⟩) :
    Leads size level ⟨m, t :: rest, result⟩ post := by
  refine ⟨fun hroom => ?_, fun hfull => ?_⟩
  · obtain ⟨⟨tasks, result'⟩, m', hok, hp⟩ := (h hm).1 hroom
    refine ⟨_, .single ?_, hq tasks result' m' hp⟩
    simp only [Follows, step, hok]
  · obtain ⟨m', herr⟩ := (h hm).2 hfull
    refine ⟨_, m', .refl, ?_⟩
    simp only [step, herr]

/-- One step of the task on top, which leaves known tasks. -/
theorem of_takes_eq {tasks : List Task} {result' : Slot} {mid : Machine → Prop} (hm : pre m)
    (h : Op.Takes size level pre (taskStep result t) fun p m => p = (tasks, result') ∧ mid m)
    (hmid : ∀ m', mid m' → post ⟨m', tasks ++ rest, result'⟩) : Leads size level ⟨m, t :: rest, result⟩ post := by
  refine of_takes hm h ?_
  rintro _ _ m' ⟨htasks, hm'⟩
  cases htasks
  exact hmid m' hm'

end Leads
end Config

open Op (Takes)

namespace Machine

/-- A dispatch loop of machines that are not halted. -/
theorem takes_loop {code : Code} {pc : Int} {size depth level : Nat} {result : Slot} {next : Next}
    {pre mid : Machine → Prop} {post : List Task × Slot → Machine → Prop}
    (running : ∀ m, pre m → m.halted = false)
    (hx : Takes size level pre (dispatch code pc depth) fun n m => n = next ∧ mid m)
    (hnext : Takes size 0 mid (resume code depth result next) post) :
    Takes size level pre (taskStep result (.loop code pc depth)) post := by
  refine .get fun m h => ?_
  rw [running m h]
  refine hx.readThen ?_
  cases next <;> exact hnext

end Machine

/-- Where a piece of code runs. -/
structure Situation where
  /-- The size of the stack. -/
  size : Nat
  /-- What lies below the frame. -/
  below : List Slot
  /-- The frames of the machine without the one that the caller left. -/
  outer : Array Frame
  /-- Where the caller goes on; nothing if the host called. -/
  caller : Option Frame
  /-- The number of frames below the dispatch loop. -/
  depth : Nat
  tasks : List Task
  inner : depth ≤ outer.size
  bottom : caller = none → outer.size = depth

namespace Situation

def frames (σ : Situation) : Array Frame :=
  match σ.caller with
  | none => σ.outer
  | some f => σ.outer.push f

/-- What the caller does next. -/
def resumed (σ : Situation) : List Task :=
  match σ.caller with
  | none => []
  | some f => [.loop f.code f.pc σ.depth]

/-- A machine at work in the frame, with the given cells above its base. -/
abbrev Has (exe : Executable) (cells : List Slot) (world : World) (σ : Situation) : Machine → Prop :=
  Live exe σ.size (σ.below ++ cells) σ.below.length σ.frames world

theorem has_append (exe : Executable) (cells above : List Slot) (world : World) (σ : Situation) :
    σ.Has exe (cells ++ above) world =
      Live exe σ.size (σ.below ++ cells ++ above) σ.below.length σ.frames world := by
  rw [List.append_assoc]

/-- The code is at a position, with the given cells above its base. -/
def At (exe : Executable) (code : Code) (pc : Nat) (cells : List Slot) (world : World) (σ : Situation)
    (c : Config) : Prop :=
  world.halted = false ∧
    ∃ m result, c = ⟨m, .loop code pc σ.depth :: σ.tasks, result⟩ ∧ σ.Has exe cells world m

/-- The program has been halted and the loop is over. -/
def Out (exe : Executable) (world : World) (σ : Situation) (c : Config) : Prop :=
  world.halted = true ∧ ∃ m result above sp base, c = ⟨m, σ.tasks, result⟩ ∧
    m.Holds exe σ.size (σ.below ++ above) sp base (σ.outer.take σ.depth) world

/-- The caller goes on with a result in the place of the frame. -/
def Back (exe : Executable) (v : Slot) (world : World) (σ : Situation) (c : Config) : Prop :=
  world.halted = false ∧ ∃ m result base, (∀ f, σ.caller = some f → base = f.base) ∧
    c = ⟨m, σ.resumed ++ σ.tasks, result⟩ ∧
      m.Live exe σ.size (σ.below ++ [v]) base σ.outer world

variable {exe : Executable} {σ : Situation} {c : Config} {world : World}

variable {code : Code} {cells above : List Slot} {v : Slot}

theorem At.length_le {pc : Nat} (h : σ.At exe code pc cells world c) : σ.below.length ≤ σ.size := by
  obtain ⟨-, m, result, -, hm⟩ := h
  exact hm.lower.length_le

theorem Back.length_le (h : σ.Back exe v world c) : σ.below.length ≤ σ.size := by
  obtain ⟨-, m, result, base, -, -, hm⟩ := h
  exact hm.lower.length_le

theorem take_frames (σ : Situation) : σ.frames.take σ.depth = σ.outer.take σ.depth := by
  unfold frames
  have := σ.inner
  cases σ.caller with
  | none => rfl
  | some f =>
    apply Array.toList_inj.1
    simp [this]

theorem depth_le_frames (σ : Situation) : σ.depth ≤ σ.frames.size := by
  unfold frames
  have := σ.inner
  cases σ.caller with
  | none => exact this
  | some f =>
    rw [Array.size_push]
    omega

/-- Where a dispatch loop goes on behind a return. -/
def next (σ : Situation) : Next :=
  match σ.caller with
  | none => .leave
  | some f => .move f.code f.pc

theorem resume_next (σ : Situation) (code : Code) (result : Slot) :
    resume code σ.depth result σ.next = pure (σ.resumed, result) := by
  unfold next resumed
  cases σ.caller <;> rfl

/-- A return hands the result to the caller. -/
theorem takes_handBack (σ : Situation) {sp : Int} (k : Kind) (v : Slot) : Takes σ.size (σ.below.length + 1)
      (Machine.Holds exe σ.size (σ.below ++ above) sp σ.below.length σ.frames world)
      (handBack k σ.depth v) fun next m => next = σ.next ∧
        ∃ base, (∀ f, σ.caller = some f → base = f.base) ∧
          m.Live exe σ.size (σ.below ++ [v]) base σ.outer world := by
  unfold frames next
  have hinner := σ.inner
  have hbottom := σ.bottom
  cases hcaller : σ.caller with
  | none =>
    refine (takes_handBack_leave (hbottom hcaller) k v).mono (fun _ h => h) ?_
    exact fun next m h => ⟨h.1, _, fun f hf => (by cases hf), h.2⟩
  | some f =>
    refine (takes_handBack_move hinner k v).mono (fun _ h => h) ?_
    exact fun next m h => ⟨h.1, _, fun f' hf => (by cases hf; rfl), h.2⟩

/-- A return from a frame, whose result is `v`. -/
theorem leads_return {m : Machine} {pc : Int} {result : Slot} {k : Kind} (running : world.halted = false)
    (hm : σ.Has exe cells world m)
    (hpop : Takes σ.size 0 (σ.Has exe cells world) (popResult k)
      fun a m => a = v ∧ σ.Has exe above world m)
    (hdispatch : ∀ {level : Nat} {post : Next → Machine → Prop},
      Takes σ.size level (σ.Has exe cells world) (returnFrom k σ.depth) post →
      Takes σ.size level (σ.Has exe cells world) (dispatch code pc σ.depth) post) :
    Config.Leads σ.size (σ.below.length + 1) ⟨m, .loop code pc σ.depth :: σ.tasks, result⟩
      (σ.Back exe v world) := by
  have hreturn := hpop.read (σ.takes_handBack k v)
  rw [← returnFrom_eq] at hreturn
  have hloop : Takes σ.size (σ.below.length + 1) (σ.Has exe cells world)
      (taskStep result (.loop code pc σ.depth)) fun p m =>
        p = (σ.resumed, result) ∧ ∃ base, (∀ f, σ.caller = some f → base = f.base) ∧
          m.Live exe σ.size (σ.below ++ [v]) base σ.outer world :=
    takes_loop (fun _ h => h.halted_eq.trans running) (hdispatch hreturn) (by
      rw [resume_next]
      exact .pure fun m h => ⟨rfl, h⟩)
  exact .of_takes_eq hm hloop fun m' ⟨base, hbase, hm'⟩ => ⟨running, m', _, base, hbase, rfl, hm'⟩

end Situation

namespace Eval

variable {α : Type}

/-- An outcome other than having no meaning. -/
def Settled : EStateM.Result Stop World α → Prop
  | .ok _ _ => True
  | .error s _ => s = .halted

theorem settled_of_settle {x : Eval Slot} {w w' : World} {v : Slot}
    (h : settle x w = .ok v w') : Settled (x w) := by
  unfold settle at h
  split at h
  · next hx => rw [hx]; rfl
  · rw [h]; trivial

/-- What holds after an evaluation with some outcome. -/
def After (good : α → World → Config → Prop) (out : World → Config → Prop) :
    EStateM.Result Stop World α → Config → Prop
  | .ok a w => good a w
  | .error _ w => out w

end Eval

/-- The machine carries out an evaluation that has an outcome: from `pre` to `good`, or out of
the code when the program is halted, with a number of slots above its base that does not
depend on the situation. -/
def Carries {α : Type} (exe : Executable) (pre : Situation → Config → Prop)
    (outcome : EStateM.Result Stop World α) (good : α → World → Situation → Config → Prop) : Prop :=
  Eval.Settled outcome → ∃ need : Nat, ∀ σ c, pre σ c →
    c.Leads σ.size (σ.below.length + need)
      (Eval.After (fun a w => good a w σ) (fun w => σ.Out exe w) outcome)

namespace Carries

variable {α β : Type} {exe : Executable} {pre : Situation → Config → Prop}

variable {w : World} {good : α → World → Situation → Config → Prop}
  {outcome : EStateM.Result Stop World α}

/-- Nothing is to be done. -/
theorem done {a : α} (room : ∀ σ c, pre σ c → σ.below.length ≤ σ.size)
    (h : ∀ σ c, pre σ c → good a w σ c) : Carries exe pre (.ok a w) good :=
  fun _ => ⟨0, fun σ c hpre => .here (room σ c hpre) (h σ c hpre)⟩

/-- Evaluations in sequence. -/
theorem bind {x : Eval α} {f : α → Eval β} {mid : α → World → Situation → Config → Prop}
    {good : β → World → Situation → Config → Prop} (hx : Carries exe pre (x w) mid)
    (hf : ∀ a w', Carries exe (mid a w') (f a w') good) : Carries exe pre ((x >>= f) w) good := by
  intro settled
  cases hres : x w with
  | ok a w' =>
    rw [EStateM.bind_of_ok hres] at settled ⊢
    rw [hres] at hx
    obtain ⟨n, hn⟩ := hx trivial
    obtain ⟨n', hn'⟩ := hf a w' settled
    refine ⟨max n n', fun σ c hpre => ?_⟩
    rw [← Nat.add_max_add_left]
    exact (hn σ c hpre).bind fun c' hmid => hn' σ c' hmid
  | error e w' =>
    rw [EStateM.bind_of_error hres] at settled ⊢
    rw [hres] at hx
    obtain ⟨n, hn⟩ := hx settled
    exact ⟨n, fun σ c hpre => (hn σ c hpre).mono fun c' hout => hout⟩

/-- Something done first that comes to no value of its own. -/
theorem first {mid : Situation → Config → Prop} (h : Carries exe pre (.ok () w) fun _ _ => mid)
    (h' : Carries exe mid outcome good) : Carries exe pre outcome good := by
  intro settled
  obtain ⟨n, hn⟩ := h trivial
  obtain ⟨n', hn'⟩ := h' settled
  refine ⟨max n n', fun σ c hpre => ?_⟩
  rw [← Nat.add_max_add_left]
  exact (hn σ c hpre).bind fun c' hmid => hn' σ c' hmid

end Carries
end Stackwork
