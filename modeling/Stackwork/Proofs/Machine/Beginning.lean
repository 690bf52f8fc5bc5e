import Stackwork.Proofs.Machine.Tracking

/-!
# Runs of a typed program

A typed program is run one top level after the other, or one of its routines is called. Where a
run begins the machine is fit, and where it ends the machine is fit again, so all that is known of
runs of typed code holds for every run of the program.
-/
namespace Stackwork

open Op (Takes)
open Machine (Tops Shows at?)

/-- What is left of a call from the host when the arguments are pushed. -/
def Machine.beginBody (r : Routine) (close : Task) : Op (List Task) :=
  match r.body with
  | .host builtin => return [← beginHost r builtin, close]
  | .compiled code _ => do
    let depth := (← get).frames.size
    let base ← enter r
    modify fun m => { m with base }
    match code with
    | some code => return [.loop code 0 depth, close]
    | none => fault .absent

theorem Machine.beginCall_eq (r : Routine) (args : List Slot) : beginCall r args = (do
      modify fun m => { m with halted := false }
      let bottom := (← get).sp
      let base := (← get).base
      pushArgs args r.type.inputs
      beginBody r (.closeCall bottom base)) := rfl

namespace Machine.Cells

variable {size : Nat} {cells : List Tagged} {o : Aside}

variable {r : Routine} {args : List Slot}

/-- The first part of a call from the host: the arguments are pushed. -/
theorem beginCall (len : args.length = r.arity) {level : Nat} {post : List Task → Machine → Prop}
    (hbody : Takes size level (Tops size (cells ++ passed args r.type.inputs) { o with halted := false })
      (beginBody r (.closeCall cells.length o.base)) post) :
    Takes size (max (cells.length + args.length) level) (Tops size cells o) (Machine.beginCall r args) post := by
  have hresume : Takes size 0 (Tops size cells o) (modify fun m => { m with halted := false })
      fun _ => Tops size cells { o with halted := false } := .modify fun m h => h.setHalted false
  rw [beginCall_eq]
  refine hresume.after fun _ => .get fun m h => .get fun m' h' => ?_
  rw [h.sp, h'.base_eq]
  exact (pushArgs len).bind fun _ => hbody

/-- A call of compiled code from the host lays out its frame. -/
theorem beginCall_code {target : Code} (body : r.code? = some target) (len : args.length = r.arity)
    (fits : r.arity ≤ r.locals.length)
    (kinds : (passed args r.type.inputs).map (·.kind) = r.locals.take args.length) :
    Takes size (cells.length + r.frameSize) (Tops size cells o) (Machine.beginCall r args)
      fun tasks m => tasks = [.loop target 0 o.frames.size, .closeCall cells.length o.base] ∧
        m.Tops size (cells ++ frameOf r (passed args r.type.inputs))
          { o with halted := false, base := cells.length } := by
  have hpassed := length_passed len
  have harity : (passed args r.type.inputs).length = r.arity := hpassed.trans len
  have hsize : r.frameSize = r.locals.length := by
    unfold Routine.code? at body
    cases hbody : r.body with
    | host builtin =>
      rw [hbody] at body
      cases body
    | compiled code? ks => rw [Routine.frameSize, Routine.locals, hbody]
  have henter : Takes size (cells.length + r.locals.length)
      (Tops size (cells ++ passed args r.type.inputs) { o with halted := false }) (Machine.enter r) _ :=
    enter harity fits (hpassed ▸ kinds)
  have hbegin : Takes size (cells.length + r.locals.length)
      (Tops size (cells ++ passed args r.type.inputs) { o with halted := false })
      (beginBody r (.closeCall cells.length o.base)) fun tasks m =>
        tasks = [.loop target 0 o.frames.size, .closeCall cells.length o.base] ∧
          m.Tops size (cells ++ frameOf r (passed args r.type.inputs))
            { o with halted := false, base := cells.length } := by
    unfold Routine.code? at body
    unfold beginBody
    cases hbody : r.body with
    | host builtin =>
      rw [hbody] at body
      cases body
    | compiled code? ks =>
      rw [hbody] at body
      obtain rfl : code? = some target := body
      refine .get fun m h => henter.readThen ?_
      rw [h.frames_eq]
      exact Takes.after (.modify fun m h => h.setBase _) fun _ => .pure fun m h => ⟨rfl, h⟩
  exact (beginCall len hbegin).relevel fun m h => by rw [hsize]; omega

/-- A call of a host function from the host. -/
theorem beginCall_host {builtin : Builtin} (body : r.body = .host builtin) (len : args.length = r.arity) :
    Takes size (cells.length + r.frameSize) (Tops size cells o) (Machine.beginCall r args)
      fun tasks m => (∃ s, tasks = [.script ⟨r, cells.length, o.base⟩ s, .closeCall cells.length o.base]) ∧
        m.Tops size (cells ++ passed args r.type.inputs)
          { o with halted := false, base := cells.length } := by
  have harity : (passed args r.type.inputs).length = r.arity := (length_passed len).trans len
  have hsize : r.frameSize = r.arity := by rw [Routine.frameSize, body]
  have hhost : Takes size 0 (Tops size (cells ++ passed args r.type.inputs) { o with halted := false })
      (Machine.beginHost r builtin) _ := beginHost harity builtin
  have hbegin : Takes size 0 (Tops size (cells ++ passed args r.type.inputs) { o with halted := false })
      (beginBody r (.closeCall cells.length o.base)) fun tasks m =>
        (∃ s, tasks = [.script ⟨r, cells.length, o.base⟩ s, .closeCall cells.length o.base]) ∧
          m.Tops size (cells ++ passed args r.type.inputs)
            { o with halted := false, base := cells.length } := by
    rw [beginBody, body]
    exact hhost.read (.pure fun m h => ⟨⟨_, rfl⟩, h⟩)
  exact (beginCall len hbegin).relevel fun m h => by rw [hsize]; omega

end Machine.Cells

/-- What is at work when a routine is called. -/
def Routine.activations (r : Routine) : List Activation := if r.isBuiltin then [] else [.routine r]

namespace Stage

variable (S : Stage) (along : List Activation → Config → Prop)

/-- The first so many top levels of the program have run, one after the other. -/
inductive Between (m : Machine) : Nat → Machine → Prop where
  | first : Between m 0 m
  | next {i : Nat} {m₁ m₂ m₃ : Machine} {code : Code} {tasks : List Task} {as : List Activation}
      {result : Slot} (before : Between m i m₁) (init : S.exe.inits[i]? = some code)
      (begun : Machine.beginBlock code m₁ = .ok tasks m₂) (hosts : S.HostsReturn 0 ⟨m₂, tasks, .zero⟩)
      (run : Config.Tracks along 0 [.block i code] ⟨m₂, tasks, .zero⟩ as ⟨m₃, [], result⟩)
      (on : m₃.halted = false) : Between m (i + 1) m₃

/-- A run begins: with a top level when the program is run, or with a routine that the host calls
with as many arguments as it takes, whatever else the machine is in the middle of. -/
inductive Begins (m : Machine) : Nat → List Activation → Config → Prop where
  | block {i : Nat} {m₁ m₂ : Machine} {code : Code} {tasks : List Task} (before : S.Between along m i m₁)
      (init : S.exe.inits[i]? = some code) (begun : Machine.beginBlock code m₁ = .ok tasks m₂) :
      Begins m 0 [.block i code] ⟨m₂, tasks, .zero⟩
  | call {index : Int} {args : List Slot} {r : Routine} {tasks rest : List Task} {result : Slot}
      {m' : Machine} (found : m.callee index args = .ok r)
      (values : List.Forall₂ S.Holds r.type.inputs args) (begun : Machine.beginCall r args m = .ok tasks m') :
      Begins m rest.length r.activations ⟨m', tasks ++ rest, result⟩

variable {S along}

variable {m : Machine} {args : List Slot} {as : List Activation}

variable {m' : Machine} {i : Nat} {index : Int} {r : Routine}

theorem Fit.sound_block {code : Code} {tasks : List Task} (certified : S.Certified) (fit : S.Fit m)
    (init : S.exe.inits[i]? = some code) (begun : Machine.beginBlock code m = .ok tasks m') :
    ∃ bottom close, close.Closes bottom ∧
      S.Sound m.stack.size bottom m.frames.toList close [] [.block i code] ⟨m', tasks, .zero⟩ := by
  cases begun
  obtain ⟨u, lays, hframe, -⟩ := certified.block init
  have hcode : u.code = code := (Option.some_inj.1 (certified.code lays)).symm
  have tops := (fit.upright.tops_cells.setBase m.sp).setHalted false
  have context : S.Context m.sp.toNat m.frames.toList (.block i code) [] u m.cells []
      { m.aside with base := m.sp, halted := false } := by
    refine ⟨lays, fit.upright.length_cells.symm, (List.append_nil _).symm,
      fit.keeps.of_eq rfl rfl rfl rfl, .outermost ?_⟩
    have := fit.upright.length_cells
    omega
  rw [← List.append_nil m.cells, ← List.append_nil (m.cells ++ [])] at tops
  refine ⟨m.sp.toNat, .closeBlock m.sp m.base, (Int.toNat_of_nonneg fit.upright.nonneg).symm, .own ?_⟩
  have active : S.Active m.stack.size m.sp.toNat m.frames.toList [.block i code] u.code 0
      { m with halted := false, base := m.sp } :=
    .intro (p := 0) context tops (certified.start lays) (hframe ▸ .nil) .nil
  rw [hcode] at active
  exact .loop active

theorem Fit.callee (fit : S.Fit m) (found : m.callee index args = .ok r) :
    at? S.exe.routines index = some r ∧ args.length = r.arity := by
  have hroutines : m.routines = S.exe.routines := by
    have hexe : m.exe = some S.exe := fit.keeps.exe
    rw [Machine.routines, hexe]
  unfold Machine.callee at found
  rw [hroutines] at found
  split at found
  · cases found
  · next r' hr =>
    split at found
    · next harity =>
      cases found
      exact ⟨hr, harity⟩
    · cases found

theorem cells_passed {inputs : List Ty} (h : List.Forall₂ S.Holds inputs args) :
    S.Cells (Machine.Cells.passed args inputs) inputs := by
  induction h with
  | nil => exact .nil
  | cons hv _ ih => exact .cons ⟨rfl, hv⟩ ih

/-- A call from the host does what it should, or there is no room for its frame. -/
theorem Fit.begun (certified : S.Certified) (fit : S.Fit m) (found : m.callee index args = .ok r)
    (values : List.Forall₂ S.Holds r.type.inputs args) :
    (∃ tasks m', Machine.beginCall r args m = .ok tasks m' ∧ ∃ close, close.Closes m.sp.toNat ∧
      ∀ rest result, S.HostsReturn rest.length ⟨m', tasks ++ rest, result⟩ →
        S.Sound m.stack.size m.sp.toNat m.frames.toList close rest r.activations
          ⟨m', tasks ++ rest, result⟩) ∨
      (m.stack.size : Int) < m.sp + r.frameSize ∧ ∃ m', Machine.beginCall r args m = .error .outOfRange m' := by
  obtain ⟨hr, len⟩ := fit.callee found
  have hlen := fit.upright.length_cells
  have closes : (Task.closeCall m.cells.length m.base).Closes m.sp.toNat := by
    change (m.cells.length : Int) = m.sp.toNat
    omega
  have keeps : S.Keeps { m.aside with halted := false, base := m.cells.length } :=
    fit.keeps.of_eq rfl rfl rfl rfl
  have fails (hfull : m.stack.size < m.cells.length + r.frameSize) :
      (m.stack.size : Int) < m.sp + r.frameSize := by omega
  cases hbody : r.body with
  | host builtin =>
    have hbegin := Machine.Cells.beginCall_host hbody len fit.upright.tops_cells
    by_cases hroom : m.cells.length + r.frameSize ≤ m.stack.size
    · obtain ⟨tasks, m', hok, ⟨s, rfl⟩, tops⟩ := hbegin.1 hroom
      refine .inl ⟨_, m', hok, _, closes, fun rest result hosts => ?_⟩
      obtain ⟨id, out, ins, type⟩ := certified.signature hr
      have returns : r.type.output? = some out := by rw [type]; rfl
      refine .inside (Nat.lt_succ_self _) (hosted_of_host tops (by omega) rfl rfl keeps returns)
        (hosts _ _ _ (.first rfl)) .start (List.nil_append _).symm rfl
    · exact .inr ⟨fails (by omega), hbegin.2 (by omega)⟩
  | compiled code? ks =>
    have hbuiltin : r.isBuiltin = false := by rw [Routine.isBuiltin, hbody]
    obtain ⟨u, lays, locals, inputs, -⟩ := certified.routine hr hbuiltin
    have fits : r.arity ≤ r.locals.length := by
      rw [locals, List.length_map]
      exact inputs.length_le
    have hargs := cells_passed values
    have kinds : (Machine.Cells.passed args r.type.inputs).map (·.kind) = r.locals.take args.length := by
      obtain ⟨more, hmore⟩ := inputs
      rw [hargs.kinds_eq, locals, ← hmore, List.map_append, List.take_left' (by simp [len, Routine.arity])]
    have hbegin := Machine.Cells.beginCall_code (certified.code lays) len fits kinds fit.upright.tops_cells
    by_cases hroom : m.cells.length + r.frameSize ≤ m.stack.size
    · obtain ⟨tasks, m', hok, rfl, tops⟩ := hbegin.1 hroom
      refine .inl ⟨_, m', hok, _, closes, fun rest result _ => .own ?_⟩
      have context : S.Context m.sp.toNat m.frames.toList (.routine r) [] u m.cells []
          { m.aside with halted := false, base := m.cells.length } :=
        ⟨lays, rfl, (List.append_nil _).symm, keeps, .outermost (by omega)⟩
      rw [← List.append_nil (m.cells ++ _)] at tops
      have active : S.Active m.stack.size m.sp.toNat m.frames.toList [.routine r] u.code 0 m' :=
        .intro (p := 0) context tops (certified.start lays) (cells_frameOf locals inputs hargs) .nil
      rw [Routine.activations, hbuiltin]
      exact .loop active
    · exact .inr ⟨fails (by omega), hbegin.2 (by omega)⟩

theorem Sound.fit_of_over {size bottom : Nat} {ground : List Frame} {close : Task} {result : Slot}
    (h : S.Sound size bottom ground close [] as ⟨m, [], result⟩) : S.Fit m := by
  cases h with
  | own h =>
    generalize htasks : (⟨m, [], result⟩ : Config).tasks = tasks at h
    cases h with
    | loop | closing => cases htasks
    | done fit => exact fit
  | inside _ _ _ _ form =>
    have := congrArg List.length form
    simp at this

theorem Between.fit (certified : S.Certified) (honest : ∀ as c, along as c → S.HonestAt [] as c) (fit : S.Fit m)
    (h : S.Between along m i m') : S.Fit m' := by
  induction h with
  | first => exact fit
  | next before init begun hosts run on ih =>
    obtain ⟨bottom, close, closes, start⟩ := ih.sound_block certified init begun
    exact (sound_of_tracks certified closes start hosts honest run).fit_of_over

/-- Whatever a run of the program comes to is sound. -/
theorem Begins.sound {n : Nat} {as₀ : List Activation} {c₀ c : Config} (certified : S.Certified)
    (honest : ∀ rest as c, rest.length = n → along as c → S.HonestAt rest as c) (fit : S.Fit m)
    (begins : S.Begins along m n as₀ c₀) (hosts : S.HostsReturn n c₀) (run : Config.Tracks along n as₀ c₀ as c) :
    ∃ size bottom ground close rest, rest.length = n ∧ close.Closes bottom ∧
      S.Sound size bottom ground close rest as c := by
  cases begins with
  | block before init begun =>
    obtain ⟨bottom, close, closes, start⟩ :=
      (before.fit certified (honest [] · · rfl) fit).sound_block certified init begun
    exact ⟨_, bottom, _, close, [], rfl, closes,
      sound_of_tracks certified closes start hosts (honest [] · · rfl) run⟩
  | @call index args r tasks rest result m' found values begun =>
    rcases fit.begun certified found values with ⟨tasks', m'', hok, close, closes, start⟩ | ⟨-, m'', herr⟩
    · rw [begun] at hok
      cases hok
      exact ⟨_, _, _, close, rest, rfl, closes,
        sound_of_tracks certified closes (start rest result hosts) hosts (honest rest · · rfl) run⟩
    · rw [begun] at herr
      cases herr

section

variable {size bottom : Nat} {ground : List Frame} {close : Task} {rest : List Task}
  {as : List Activation} {code : Code} {pc : Int} {p : Nat}

variable {c : Config} {d : Nat} {below : List Task}

/-- When a loop is right above the close of the run, it is the own one. -/
theorem Sound.active (sound : S.Sound size bottom ground close rest as c)
    (top : c.tasks = .loop code pc d :: below) (depth : below.length = rest.length + 1) :
    d = ground.length ∧ S.Active size bottom ground as code pc c.machine := by
  cases sound with
  | own h =>
    rw [top] at h
    generalize htasks : Task.loop code pc d :: below = tasks at h
    cases h with
    | loop active =>
      cases htasks
      exact ⟨rfl, active⟩
    | closing | done =>
      have := congrArg List.length htasks
      simp only [List.length_cons] at this
      omega
  | @inside h call own above t deep hosted returns run form bottommost =>
    rw [form] at top
    have hlen := congrArg List.length top
    simp only [List.length_append, List.length_cons] at hlen
    obtain rfl : above = [] := List.eq_nil_of_length_eq_zero (by omega)
    cases top
    cases bottommost

variable (S) in
/-- What is known of a machine whose loop is at position `p` of a code: the piece of code that is
at work, what is pending there, and where the registers are. -/
structure Located (as : List Activation) (code : Code) (p : Nat) (m : Machine) (a : Activation)
    (u : StackMap) (ts : List Ty) : Prop where
  first : as.head? = some a
  lays : S.Lays a u
  code : u.code = code
  here : u.At p ts
  base : 0 ≤ m.base
  sp : m.sp = m.base + a.frameSize + ts.length
  room : m.sp ≤ m.stack.size
  keeps : S.Keeps m.aside
  top : ∀ {lower : List Ty} {t : Ty}, ts = lower ++ [t] → ∃ v, at? m.stack (m.sp - 1) = some v ∧ S.Holds t v

theorem Active.located (certified : S.Certified) (active : S.Active size bottom ground as code p m) :
    ∃ a u ts, S.Located as code p m a u ts := by
  generalize hpc : (p : Int) = pc at active
  cases active with
  | @intro a as u q below frame pending own ts o m context tops here framed pends =>
    obtain rfl : p = q := by omega
    have hsp : m.sp = m.base + a.frameSize + ts.length := by
      rw [tops.sp, tops.base_eq, context.base, certified.frame context.lays, ← framed.length_eq,
        ← pends.length_eq]
      simp only [List.length_append]
      omega
    refine ⟨a, u, ts, rfl, context.lays, rfl, here, ?_, hsp, ?_, ?_, ?_⟩
    · rw [tops.base_eq, context.base]
      omega
    · have := tops.length_le
      rw [tops.sp, tops.size]
      omega
    · rw [tops.aside]
      exact context.keeps
    · rintro lower t rfl
      obtain ⟨upper, c, rfl, -, hc⟩ := pends.split_last
      rw [← List.append_assoc] at tops
      exact ⟨c.slot, tops.at?_last, hc.holds⟩

/-- A step of the own loop. -/
theorem Sound.stepped {c' : Config} (certified : S.Certified)
    (sound : S.Sound size bottom ground close rest as c) (honest : S.HonestAt rest as c)
    (top : c.tasks = .loop code pc d :: below) (depth : below.length = rest.length + 1) (next : c.Follows c') :
    ∃ p tasks result, c'.tasks = tasks ++ below ∧
      S.Stepped size bottom ground c.result as code p c.machine (.ok (tasks, result) c'.machine) := by
  obtain ⟨rfl, active⟩ := sound.active top depth
  obtain ⟨p, rfl⟩ := active.exists_position
  obtain ⟨m, tasks, result⟩ := c
  obtain rfl : tasks = _ := top
  obtain ⟨tasks, result', m', hstep, rfl⟩ := Config.follows_cons next
  have stepped : S.Steps size bottom ground result as code p m :=
    active.stepped certified fun ha hu => honest rfl depth ha hu
  rw [Steps, hstep] at stepped
  exact ⟨p, tasks, result', rfl, stepped⟩

/-- A step of the own loop does not touch what lies below its BASE. -/
theorem Sound.untouched {c' : Config} (certified : S.Certified)
    (sound : S.Sound size bottom ground close rest as c) (honest : S.HonestAt rest as c)
    (top : c.tasks = .loop code pc d :: below) (depth : below.length = rest.length + 1) (next : c.Follows c') :
    c.machine.Untouched c'.machine := by
  obtain ⟨p, tasks, result, -, stepped⟩ := sound.stepped certified honest top depth next
  cases stepped with
  | on _ _ kept | into _ _ _ kept | back _ _ kept | host _ kept | left _ kept => exact kept

end
end Stage
end Stackwork
