import Stackwork.Proofs.Machine.Beginning
import Stackwork.Proofs.Machine.Loading

/-!
# Machines that wait for a request

A machine serves its host between runs, and a host function in the middle of one. Whatever was
asked of it since a typed program was loaded, it is fit for the next run of the program: runs
that are over have put everything back, and values that come from outside are values of the types
that the program expects.
-/
namespace Stackwork

open Machine (at?)

namespace Machine

/-- Where slots have kinds, every one has its own. -/
structure Sized (m : Machine) : Prop where
  heap : m.settings.tagged → m.heapTags.size = m.heap.size
  stack : m.settings.tagged → m.stackTags.size = m.stack.size

theorem sized_new (heapSize stackSize : Nat) (settings : Settings) :
    (new heapSize stackSize settings).Sized := by
  constructor
  · intro tagged
    have tagged : settings.tagged := tagged
    simp [new, tagged]
  · intro tagged
    have tagged : settings.tagged := tagged
    simp [new, tagged]

theorem getElem?_retagFrom (kinds : List Kind) (n : Nat) (tags : Array Kind) (i : Nat) :
    ((kinds.zipIdx n).foldl (fun ts (k, i) => ts.setIfInBounds i k) tags)[i]? =
      if n ≤ i ∧ i < n + kinds.length ∧ i < tags.size then kinds[i - n]? else tags[i]? := by
  induction kinds generalizing n tags with
  | nil =>
    rw [if_neg (by simp only [List.length_nil]; omega)]
    rfl
  | cons k kinds ih =>
    rw [List.zipIdx_cons, List.foldl_cons, ih, Array.size_setIfInBounds, Array.getElem?_setIfInBounds,
      List.length_cons]
    by_cases hi : n = i
    · subst hi
      rw [if_neg (by omega), if_pos rfl, Nat.sub_self]
      by_cases hsize : n < tags.size
      · rw [if_pos hsize, if_pos (by omega)]
        rfl
      · rw [if_neg hsize, if_neg (by omega), Array.getElem?_eq_none (by omega)]
    · rw [if_neg hi]
      by_cases hin : n ≤ i ∧ i < n + (kinds.length + 1) ∧ i < tags.size
      · obtain ⟨j, rfl⟩ : ∃ j, i = n + 1 + j := ⟨i - (n + 1), by omega⟩
        rw [if_pos hin, if_pos (by omega), Nat.add_sub_cancel_left, Nat.add_assoc, Nat.add_sub_cancel_left,
          Nat.add_comm 1 j]
        rfl
      · rw [if_neg hin, if_neg (by omega)]

/-- The first slots have the given kinds, and the others those that they had. -/
theorem getElem?_retag (tags : Array Kind) (kinds : List Kind) (i : Nat) :
    (retag tags kinds)[i]? = if i < kinds.length ∧ i < tags.size then kinds[i]? else tags[i]? := by
  rw [retag, getElem?_retagFrom]
  simp

end Machine

/-- A call of compiled code from the host begins with a loop. -/
theorem Machine.loop_of_beginCall {r : Routine} {code? : Option Code} {ks : List Kind}
    (body : r.body = .compiled code? ks) {args : List Slot} {m m' : Machine} {tasks : List Task}
    (begun : beginCall r args m = .ok tasks m') : ∃ code d close, tasks = [.loop code 0 d, close] := by
  rw [beginCall_eq] at begun
  obtain ⟨_, _, -, h₁⟩ := Op.bind_eq_ok.1 begun
  obtain ⟨_, _, -, h₂⟩ := Op.bind_eq_ok.1 h₁
  obtain ⟨_, _, -, h₃⟩ := Op.bind_eq_ok.1 h₂
  obtain ⟨_, _, -, h₄⟩ := Op.bind_eq_ok.1 h₃
  rw [beginBody, body] at h₄
  obtain ⟨_, _, -, h₅⟩ := Op.bind_eq_ok.1 h₄
  obtain ⟨_, _, -, h₆⟩ := Op.bind_eq_ok.1 h₅
  obtain ⟨_, _, -, h₇⟩ := Op.bind_eq_ok.1 h₆
  cases code? with
  | some code =>
    cases h₇
    exact ⟨_, _, _, rfl⟩
  | none => cases h₇

/-- A task in which no host function takes part. -/
def Task.IsPlain : Task → Prop
  | .script .. | .waiting .. => False
  | _ => True

/-- Where all routines are compiled, no host function comes in. -/
theorem Config.plain_of_reaches {c c' : Config} (run : c.Reaches c') (plain : ∀ t ∈ c.tasks, t.IsPlain)
    (compiled : ∀ i r, at? c.machine.routines i = some r → r.isBuiltin = false) :
    ∀ t ∈ c'.tasks, t.IsPlain := by
  induction run with
  | refl => exact plain
  | @tail b c' before next ih =>
    have hroutines : b.machine.routines = c.machine.routines := by
      rw [Machine.routines, Machine.routines, show b.machine.exe = c.machine.exe from
        congrArg Machine.Fixture.exe (fixture_of_reaches before)]
    obtain ⟨m, tasks, result⟩ := b
    cases tasks with
    | nil => cases next
    | cons t rest =>
      obtain ⟨tasks, result', m', hstep, rfl⟩ := follows_cons next
      obtain ⟨ht, hrest⟩ := List.forall_mem_cons.1 ih
      refine List.forall_mem_append.2 ⟨?_, hrest⟩
      cases t with
      | loop code pc d =>
        cases Machine.loopFlow_of_taskStep hstep with
        | halt | leave => exact List.forall_mem_nil _
        | goto | enter | back => exact List.forall_mem_singleton.2 trivial
        | @host _ _ r _ _ args fetch found body =>
          have hcompiled := compiled _ r (hroutines ▸ found)
          rw [Routine.isBuiltin, body] at hcompiled
          cases hcompiled
      | closeBlock =>
        cases hstep
        exact List.forall_mem_nil _
      | closeCall bottom base =>
        obtain ⟨v, m₁, -, h₁⟩ := Op.bind_eq_ok.1 hstep
        cases h₁
        exact List.forall_mem_nil _
      | script | waiting => cases ht

namespace Stage

variable {S : Stage}

/-- A machine whose live stack is known has its registers in place. -/
theorem fit_of_tops {size : Nat} {cells : List Tagged} {o : Machine.Aside} {m : Machine}
    (tops : m.Tops size cells o) (keeps : S.Keeps o) : S.Fit m where
  upright := by
    have := tops.length_le
    refine ⟨by rw [tops.sp]; omega, by rw [tops.sp, tops.size]; omega, fun tagged => ?_⟩
    exact (tops.tagsSize tagged).trans tops.size.symm
  keeps := tops.aside ▸ keeps

/-- A program that was just loaded can run. -/
theorem fit_of_load {m₀ m : Machine} (sized : m₀.Sized) (load : m₀.load S.exe = .ok m) : S.Fit m := by
  obtain ⟨hcheck, rfl⟩ := Machine.load_eq_ok.1 load
  have hroom : S.globals.length ≤ m₀.heap.size := by
    have := (Executable.check_eq_ok.1 hcheck).1
    rwa [S.kinds, List.length_map] at this
  refine ⟨⟨Int.le_refl _, Int.natCast_nonneg _, sized.stack⟩, ⟨rfl, fun {i t} ht => ?_, fun tagged i t ht => ?_⟩⟩
  · obtain ⟨hi, -⟩ := List.getElem?_eq_some_iff.1 ht
    have hzero : (Array.replicate m₀.heap.size Slot.zero)[i]? = some .zero := by
      rw [Array.getElem?_replicate, if_pos (by omega)]
    exact ⟨.zero, hzero, S.zero t⟩
  · have tagged : m₀.settings.tagged := tagged
    obtain ⟨hi, -⟩ := List.getElem?_eq_some_iff.1 ht
    have hsize := sized.heap tagged
    change (if m₀.settings.tagged then Machine.retag m₀.heapTags S.exe.globals else m₀.heapTags)[i]? = _
    rw [if_pos tagged, Machine.getElem?_retag, S.kinds, List.length_map, if_pos (by omega), List.getElem?_map, ht]
    rfl

theorem Fit.setGlobal {m m' : Machine} (fit : S.Fit m) {i : Int} {v : Slot} (set : m.setGlobal? i v = some m')
    (value : ∀ t, S.globals[i.toNat]? = some t → S.Holds t v) : S.Fit m' := by
  unfold Machine.setGlobal? at set
  split at set
  · cases set
    refine ⟨⟨fit.upright.nonneg, fit.upright.le_size, fit.upright.tags⟩, ⟨fit.keeps.exe, fun {j t} ht => ?_,
      fit.keeps.tags⟩⟩
    obtain ⟨v', hv', hold⟩ := fit.keeps.globals ht
    have hlt := (Array.getElem?_eq_some_iff.1 hv').1
    change ∃ v', (m.heap.setIfInBounds i.toNat v)[j]? = some v' ∧ S.Holds t v'
    rw [Array.getElem?_setIfInBounds]
    split
    · next hij =>
      subst hij
      exact ⟨v, if_pos hlt, value t ht⟩
    · exact ⟨v', hv', hold⟩
  · cases set

section

variable {size bottom : Nat} {ground : List Frame} {close : Task} {rest : List Task} {as : List Activation}

/-- A run that is over leaves a machine that is fit again. -/
theorem Sound.fit_of_length {c : Config} (h : S.Sound size bottom ground close rest as c)
    (ended : c.tasks.length = rest.length) : S.Fit c.machine := by
  cases h with
  | own h =>
    generalize htasks : c.tasks = tasks at h
    cases h with
    | loop | closing =>
      rw [htasks] at ended
      simp only [List.length_cons] at ended
      omega
    | done fit => exact fit
  | inside deep _ _ _ form =>
    rw [form] at ended
    simp only [List.length_append, List.length_cons] at ended
    omega

/-- Where a loop calls a host function, the machine is fit for what the function may ask. -/
theorem Sound.fit_of_host {c h : Config} {code : Code} {pc : Int} {d : Nat} {below own : List Task}
    {call : HostCall} {s : HostScript} (certified : S.Certified)
    (sound : S.Sound size bottom ground close rest as c) (honest : S.HonestAt rest as c)
    (top : c.tasks = .loop code pc d :: below) (depth : below.length = rest.length + 1) (next : c.Follows h)
    (host : h.tasks = .script call s :: own) (deep : rest.length + 1 < own.length) : S.Fit h.machine := by
  obtain ⟨p, tasks, result, htasks, stepped⟩ := sound.stepped certified honest top depth next
  rw [htasks] at host
  cases stepped with
  | host hosting =>
    cases hosting with
    | intro context tops => exact fit_of_tops tops (context.keeps.of_eq rfl rfl rfl rfl)
  | left =>
    have := congrArg List.length host
    simp only [List.nil_append, List.length_cons] at this
    omega
  | on | into | back => cases host

end

/-- A program without host functions depends on nothing but itself. -/
theorem hostsReturn_of_compiled {n : Nat} {c₀ : Config} (plain : ∀ t ∈ c₀.tasks, t.IsPlain)
    (compiled : ∀ i r, at? c₀.machine.routines i = some r → r.isBuiltin = false) : S.HostsReturn n c₀ := by
  intro call own h enters
  obtain ⟨s, hreaches, htop⟩ : ∃ s, c₀.Reaches h ∧ h.tasks = .script call s :: own := by
    cases enters with
    | first top => exact ⟨_, .refl, top⟩
    | called run _ _ next top => exact ⟨_, (Config.reaches_of_within run).tail next, top⟩
  exact absurd (Config.plain_of_reaches hreaches plain compiled (.script call s) (by simp [htop])) id

variable (S) in
/-- A machine waits for a request: the program was loaded into `m₀`, and what has happened since are
runs of it, changes of globals, new objects and lines in the journal. Runs go by way of
configurations with the property `along`, which may depend on the number of tasks that they work
above. A request comes from the host between runs, or from a host function that has begun. -/
inductive Awaits (along : Nat → List Activation → Config → Prop) (m₀ : Machine) : Machine → Prop where
  | loaded {m : Machine} (load : m₀.load S.exe = .ok m) : Awaits along m₀ m
  | finished {m : Machine} {n : Nat} {as₀ as : List Activation} {c₀ c : Config} (before : Awaits along m₀ m)
      (begins : S.Begins (along n) m n as₀ c₀) (hosts : S.HostsReturn n c₀)
      (run : Config.Tracks (along n) n as₀ c₀ as c) (ended : c.tasks.length = n) : Awaits along m₀ c.machine
  | called {m : Machine} {n : Nat} {as₀ as : List Activation} {c₀ c h : Config} {code : Code} {pc : Int}
      {d : Nat} {below own : List Task} {call : HostCall} {s : HostScript} (before : Awaits along m₀ m)
      (begins : S.Begins (along n) m n as₀ c₀) (hosts : S.HostsReturn n c₀)
      (run : Config.Tracks (along n) n as₀ c₀ as c) (here : along n as c)
      (top : c.tasks = .loop code pc d :: below) (depth : below.length = n + 1) (next : c.Follows h)
      (host : h.tasks = .script call s :: own) (deep : n + 1 < own.length) : Awaits along m₀ h.machine
  | host {m : Machine} {n : Nat} {as₀ : List Activation} {c₀ : Config} {call : HostCall} {s : HostScript}
      {own : List Task} (before : Awaits along m₀ m) (begins : S.Begins (along n) m n as₀ c₀)
      (host : c₀.tasks = .script call s :: own) : Awaits along m₀ c₀.machine
  | setGlobal {m m' : Machine} {i : Int} {v : Slot} (before : Awaits along m₀ m)
      (set : m.setGlobal? i v = some m') (value : ∀ t, S.globals[i.toNat]? = some t → S.Holds t v) :
      Awaits along m₀ m'
  | newObject {m : Machine} (before : Awaits along m₀ m) (o : HostObject) : Awaits along m₀ (m.newObject o).2
  | write {m : Machine} (before : Awaits along m₀ m) (line : String) : Awaits along m₀ (m.write line)

/-- A host function that the host calls finds a fit machine. -/
theorem Begins.fit_of_host {along : List Activation → Config → Prop} {m : Machine} {n : Nat}
    {as₀ : List Activation} {c₀ : Config} {call : HostCall} {s : HostScript} {own : List Task}
    (fit : S.Fit m) (begins : S.Begins along m n as₀ c₀)
    (host : c₀.tasks = .script call s :: own) : S.Fit c₀.machine := by
  cases begins with
  | block before init begun =>
    cases begun
    cases host
  | @call index args r tasks rest result m' found values begun =>
    obtain ⟨hr, len⟩ := fit.callee found
    cases hbody : r.body with
    | host builtin =>
      have hbegin := Machine.Cells.beginCall_host hbody len fit.upright.tops_cells
      by_cases hroom : m.cells.length + r.frameSize ≤ m.stack.size
      · obtain ⟨tasks', m'', hok, -, tops⟩ := hbegin.1 hroom
        rw [begun] at hok
        cases hok
        exact fit_of_tops tops (fit.keeps.of_eq rfl rfl rfl rfl)
      · obtain ⟨m'', herr⟩ := hbegin.2 (by omega)
        rw [begun] at herr
        cases herr
    | compiled code? ks =>
      obtain ⟨code, d, close, rfl⟩ := Machine.loop_of_beginCall hbody begun
      cases host

/-- A machine that waits for a request is fit. -/
theorem Awaits.fit {along : Nat → List Activation → Config → Prop} {m₀ m : Machine} (certified : S.Certified)
    (honest : ∀ rest as c, along (List.length rest) as c → S.HonestAt rest as c) (sized : m₀.Sized)
    (h : S.Awaits along m₀ m) : S.Fit m := by
  have sound {m : Machine} {n : Nat} {as₀ as : List Activation} {c₀ c : Config} (fit : S.Fit m)
      (begins : S.Begins (along n) m n as₀ c₀) (hosts : S.HostsReturn n c₀)
      (run : Config.Tracks (along n) n as₀ c₀ as c) := begins.sound certified
    (fun rest as c hlen hc => honest rest as c (hlen ▸ hc)) fit hosts run
  induction h with
  | loaded load => exact fit_of_load sized load
  | finished before begins hosts run ended ih =>
    obtain ⟨size, bottom, ground, close, rest, rfl, -, hsound⟩ := sound ih begins hosts run
    exact hsound.fit_of_length ended
  | called before begins hosts run here top depth next host deep ih =>
    obtain ⟨size, bottom, ground, close, rest, rfl, -, hsound⟩ := sound ih begins hosts run
    exact hsound.fit_of_host certified (honest rest _ _ here) top depth next host deep
  | host before begins host ih => exact begins.fit_of_host ih host
  | setGlobal before set value ih => exact ih.setGlobal set value
  | newObject before o ih | write before line ih =>
    exact ⟨⟨ih.upright.nonneg, ih.upright.le_size, ih.upright.tags⟩, ih.keeps.of_eq rfl rfl rfl rfl⟩

end Stage
end Stackwork
