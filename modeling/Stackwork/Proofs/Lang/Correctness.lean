import Stackwork.Proofs.Lang.Provenance
import Stackwork.Proofs.Machine.Outcomes

/-!
# Programs run as they mean

A program and everything it imports, as sources, have a meaning; linked and loaded, they are
code. Function by function the code does what the function means, by induction on the depth of
calls, and so a call from the host or a run of the top levels comes to the world, the result
and the halted flag that the meaning gives, on every stack that is high enough. On a smaller
one it ends out of range.
-/
namespace Stackwork

open Machine (Live)

/-- The code of a body does what the body means. -/
theorem Body.Realized.carries_run {exe : Executable} {lim : Limits} {b : Body} {code : Code} {env : Env}
    (h : b.Realized lim code) (suits : b.Suits exe env) (fuel : Nat) (w : World) :
    Carries exe (Situation.At exe code 0 env.locals w) (b.run fuel env 0 w)
      fun v w σ => σ.Back exe v w := by
  obtain ⟨ctx, commands, laid, rfl⟩ := h
  exact laid.carries_run suits fuel 0 w

namespace Definition.Realized

variable {lim : Nat → Limits} {f : Definition} {r : Routine}

theorem type_eq (h : f.Realized lim r) : r.type = f.decl.type := congrArg Signature.type h.signature

theorem name_eq (h : f.Realized lim r) : r.name = f.decl.name := congrArg Signature.name h.signature

theorem arity_eq (h : f.Realized lim r) : r.arity = f.arity := by
  rw [Routine.arity, h.type_eq, Definition.arity]

/-- A routine accepts what its function takes. -/
theorem accepts (h : f.Realized lim r) {args : List Slot} (hargs : args.length = f.arity) :
    r.Accepts args := by
  cases hbody : f.decl.body with
  | host builtin =>
    have hr := h.host hbody
    exact ⟨hargs.trans h.arity_eq.symm, by simp [Routine.frameSize, hr],
      .inl (by simp [Routine.isBuiltin, hr])⟩
  | source scope params locals stmts =>
    obtain ⟨hfits, code, hr, -⟩ := h.source hbody
    refine ⟨hargs.trans h.arity_eq.symm, ?_, .inr (by simp [Routine.code?, hr])⟩
    rw [h.arity_eq]
    simpa [Routine.frameSize, hr, Workspace.frameKinds] using hfits

end Definition.Realized

namespace Workspace.Traced

variable {T : Ty → Prop} {w : Workspace} {sources : List (Option Source)} {root : ModuleId}
  {ms : List Module} (h : w.Traced T sources root ms) (name : String)
include h

/-- Calls are refused for the same reasons. -/
theorem refuses : Refuses (.ofModules name ms) (w.whole sources root).refusal? := by
  intro index args e m hexe hrefuse
  unfold WholeProgram.refusal? at hrefuse
  simp only [Machine.callee, Machine.routines, hexe]
  split at hrefuse
  · next hnone =>
    cases hrefuse
    rw [h.routine_eq_none name hnone]
  · cases hrefuse
  · next f hf =>
    obtain ⟨r, hr, realized⟩ := h.routine_of_function name hf
    split at hrefuse
    · cases hrefuse
    · next harity =>
      cases hrefuse
      rw [hr]
      simp only [realized.arity_eq, realized.name_eq, if_neg harity]

/-- The routines do what the functions mean, however deep the calls are nested. -/
theorem simulates (fuel : Nat) :
    Simulates (.ofModules name ms) ((w.whole sources root).invoke fuel) := by
  induction fuel with
  | zero => exact fun index args w settled => by cases settled
  | succ fuel ih =>
    intro index args world
    rw [WholeProgram.invoke]
    rcases hf : Machine.at? (w.whole sources root).functions index with _ | _ | f
    · exact fun settled => by cases settled
    · exact fun settled => by cases settled
    · obtain ⟨r, hr, realized⟩ := h.routine_of_function name hf
      rw [Option.join_some, Eval.require_some]
      simp only [pure_bind]
      by_cases harity : args.length = f.arity
      · intro _
        refine ⟨r, hr, realized.accepts harity, ?_⟩
        simp only [ne_eq, harity, not_true_eq_false, if_false]
        unfold Routine.Opened
        cases hbody : f.decl.body with
        | host builtin =>
          rw [realized.host hbody]
          exact (Carries.script ih (h.refuses name) _ world).bind fun v w => .scriptDone v
        | source scope params locals stmts =>
          obtain ⟨-, code, hcode, hrun⟩ := realized.source hbody
          rw [hcode]
          have hlen : (Workspace.frameKinds locals).length = locals.size := by
            simp [Workspace.frameKinds]
          simp only [hlen, harity]
          have suits : (f.body stmts).Suits (.ofModules name ms) ⟨f.table, f.literal,
              (w.whole sources root).invoke fuel,
              args ++ List.replicate (locals.size - f.arity) .zero⟩ := ⟨rfl, rfl, ih⟩
          exact hrun.carries_run suits fuel world
      · intro settled
        simp only [ne_eq, harity, not_false_eq_true, if_true] at settled
        cases settled

end Workspace.Traced

namespace WholeProgram

variable {P : WholeProgram} {fuel : Nat} {b : Option Body} {rest : List (Option Body)} {w w' : World}

/-- How a run of several top levels begins. -/
theorem exists_of_runAll_cons (h : P.runAll fuel (b :: rest) w = .ok () w') :
    ∃ b' v w₁, b = some b' ∧ Eval.settle (b'.run fuel ⟨b'.table, b'.literal, P.invoke fuel, []⟩ 0)
        { w with halted := false } = .ok v w₁ ∧
      (if w₁.halted then .ok () w₁ else P.runAll fuel rest w₁) = EStateM.Result.ok () w' := by
  cases b with
  | none => cases h
  | some b' =>
    change (_ >>= fun _ => _ : Eval Unit) { w with halted := false } = _ at h
    cases hfirst : Eval.settle (b'.run fuel ⟨b'.table, b'.literal, P.invoke fuel, []⟩ 0)
        { w with halted := false } with
    | error e w₁ =>
      rw [EStateM.bind_of_error hfirst] at h
      cases h
    | ok v w₁ =>
      rw [EStateM.bind_of_ok hfirst] at h
      refine ⟨b', v, w₁, rfl, hfirst, ?_⟩
      rw [← h]
      change _ = (if w₁.halted = true then (pure () : Eval Unit) else P.runAll fuel rest) w₁
      split <;> rfl

/-- The init codes of a program come to the world that its top levels mean. -/
theorem ends_runInits {exe : Executable} {lim : Limits} (sim : Simulates exe (P.invoke fuel))
    {tops : List (Option Body)} {inits : List Code}
    (realized : List.Forall₂ (fun b code => ∀ b' ∈ b, Body.Realized lim b' code) tops inits)
    (h : P.runAll fuel tops w = .ok () w') :
    ∃ need, ∀ size cells base frames (m : Machine), m.Live exe size cells base frames w →
      Ends size (cells.length + need) (Machine.runInits · inits m) fun _ m =>
        m.Live exe size cells base frames w' := by
  induction realized generalizing w with
  | nil =>
    cases h
    refine ⟨0, fun size cells base frames m hm => ⟨fun _ => ⟨(), m, hm, 0, fun _ _ => rfl⟩, ?_⟩⟩
    intro hfull
    have := hm.length_le
    omega
  | @cons b code tops inits hb _ ih =>
    obtain ⟨b', v, w₁, rfl, hfirst, hrest⟩ := exists_of_runAll_cons h
    have suits : b'.Suits exe ⟨b'.table, b'.literal, P.invoke fuel, []⟩ := ⟨rfl, rfl, sim⟩
    obtain ⟨n, hn⟩ := ((hb b' rfl).carries_run suits fuel _).ends_runBlock hfirst
    cases hhalted : w₁.halted with
    | true =>
      rw [if_pos hhalted] at hrest
      cases hrest
      refine ⟨n, fun size cells base frames m hm => ?_⟩
      rw [← Nat.max_zero (cells.length + n)]
      refine Machine.ends_runInits_cons (hn size cells base frames m hm) fun m hm => ?_
      simp only [hm.halted_eq.trans hhalted, if_true]
      exact ⟨fun _ => ⟨(), m, hm, 0, fun _ _ => rfl⟩, fun h => by omega⟩
    | false =>
      rw [if_neg (by simp [hhalted])] at hrest
      obtain ⟨n', hn'⟩ := ih hrest
      refine ⟨max n n', fun size cells base frames m hm => ?_⟩
      rw [← Nat.add_max_add_left]
      refine Machine.ends_runInits_cons (hn size cells base frames m hm) fun m hm => ?_
      simp only [hm.halted_eq.trans hhalted, Bool.false_eq_true, if_false]
      exact hn' size cells base frames m hm

end WholeProgram

/-- A call from the host comes to the value and the world that its meaning gives. -/
theorem Simulates.ends_perform {exe : Executable} {call : Int → List Slot → Eval Slot}
    (sim : Simulates exe call) {index : Int} {args : List Slot} {w w' : World} {v : Slot}
    (h : Eval.settle (call index args) { w with halted := false } = .ok v w') :
    ∃ r need, Machine.at? exe.routines index = some r ∧ r.Accepts args ∧
      ∀ size cells base frames (m : Machine), m.Live exe size cells base frames w →
        Ends size (cells.length + need) (m.perform · (Machine.beginCall r args)) fun v' m =>
          v' = v ∧ m.Live exe size cells base frames w' := by
  obtain ⟨r, found, accepts, need, hneed⟩ := sim.leads_call h
  refine ⟨r, max r.frameSize need, found, accepts, fun size cells base frames m hm => ?_⟩
  rw [← Nat.add_max_add_left]
  refine Machine.ends_perform hm (Machine.takes_beginCall accepts [] .zero) fun tasks m opened => ?_
  rw [List.append_nil] at opened
  refine (hneed size cells base frames [] _ opened).mono ?_
  rintro c ⟨m, rfl, hm⟩
  exact ⟨m, v, rfl, rfl, hm⟩

/-- A machine that has a program and is free to run it, in a given world. -/
structure Machine.Ready (exe : Executable) (world : World) (m : Machine) : Prop where
  exe : m.exe = some exe
  untagged : m.settings.tagged = false
  sp_nonneg : 0 ≤ m.sp
  sp_le : m.sp ≤ m.stack.size
  world : m.world = world

/-- A request of the host takes `need` slots above SP: if the stack has so many, it comes to the
given result and world, with registers and frames as before, and otherwise it ends out of
range. -/
def Machine.Fulfils {α : Type} (m : Machine) (need : Nat)
    (request : Nat → Except CallError (Outcome α)) (a : α) (world : World) : Prop :=
  (m.sp + need ≤ m.stack.size → ∃ m', m'.world = world ∧
      m'.sp = m.sp ∧ m'.base = m.base ∧ m'.frames = m.frames ∧
        ∃ steps, ∀ fuel ≥ steps, request fuel = .ok (.finished a m')) ∧
    (m.stack.size < m.sp + need → ∃ m' steps, ∀ fuel ≥ steps,
      request fuel = .ok (.faulted .outOfRange m'))

namespace Machine.Ready

variable {exe : Executable} {world world' : World} {m : Machine}

theorem live (h : m.Ready exe world) :
    m.Live exe m.stack.size (m.stack.toList.take m.sp.toNat) m.base m.frames world where
  exe := h.exe
  tagged := h.untagged
  size := rfl
  stack := List.take_prefix _ _
  sp := by
    have := h.sp_nonneg
    have := h.sp_le
    simp
    omega
  base := rfl
  frames := rfl
  world := h.world

theorem length_live (h : m.Ready exe world) : ((m.stack.toList.take m.sp.toNat).length : Int) = m.sp :=
  h.live.sp.symm

/-- What is known to end above any live part of the stack is fulfilled. -/
theorem fulfils (h : m.Ready exe world) {α : Type} {need : Nat} {x : Nat → Outcome α}
    {request : Nat → Except CallError (Outcome α)} {a : α}
    (hrequest : ∀ fuel, request fuel = .ok (x fuel))
    (hx : Ends m.stack.size ((m.stack.toList.take m.sp.toNat).length + need) x fun b m' =>
      b = a ∧ m'.Live exe m.stack.size (m.stack.toList.take m.sp.toNat) m.base m.frames world') :
    m.Fulfils need request a world' := by
  have hlen := h.length_live
  constructor
  · intro hroom
    obtain ⟨b, m', ⟨rfl, hm'⟩, steps, hsteps⟩ := hx.1 (by omega)
    refine ⟨m', hm'.world, hm'.sp.trans hlen, hm'.base, hm'.frames, steps, fun fuel hfuel => ?_⟩
    rw [hrequest, hsteps fuel hfuel]
  · intro hfull
    obtain ⟨m', steps, hsteps⟩ := hx.2 (by omega)
    exact ⟨m', steps, fun fuel hfuel => by rw [hrequest, hsteps fuel hfuel]⟩

end Machine.Ready

namespace Workspace

/-- A compiled program that is linked with everything it imports runs as it means: a call, and
a run of the top levels, that have a meaning in the world of a machine come to just that. -/
theorem runs_as_meant {w : Workspace} {sources : List (Option Source)} {root : ModuleId}
    {s : Source} {exe : Executable} (built : Built (fun w r => r.Admissible w) w sources)
    (compiled : sources[root.index]? = some (some s)) (link : w.modules.link root = .ok exe)
    (known : ∀ i ∈ w.modules.flatten [root], ∀ s, sources[i.index]? = some (some s) →
      s.program.Known ((w.modules.flatten s.program.imports).map w.modules.get))
    (small : Module.SmallTables ((w.modules.flatten [root]).map w.modules.get))
    (compact : ∀ i ∈ w.modules.flatten [root], (w.modules.get i).Compact)
    (fuel : Nat) (world world' : World) :
    (∀ index args v, (w.whole sources root).call fuel index args world = .ok v world' →
      ∃ need, ∀ m : Machine, m.Ready exe world →
        m.Fulfils need (m.call · index args) v world') ∧
    ((w.whole sources root).run fuel world = .ok () world' →
      ∃ need, ∀ m : Machine, m.Ready exe world →
        m.Fulfils need m.run () world') := by
  have wf := built.wf fun _ _ ok => ok
  have inside : root.index < w.modules.size :=
    wf.length ▸ (List.getElem?_eq_some_iff.1 compiled).1
  obtain ⟨name, ms, rfl, traced⟩ :=
    wf.traced inside link small known fun i hi _ _ => compact i hi
  have sim := traced.simulates name fuel
  constructor
  · intro index args v hcall
    obtain ⟨r, need, found, accepts, hends⟩ := sim.ends_perform hcall
    refine ⟨need, fun m ready => ready.fulfils (fun steps => ?_) (hends _ _ _ _ m ready.live)⟩
    rw [Machine.call, Machine.callee, Machine.routines, ready.exe]
    simp only [found, if_pos accepts.arity]
    rfl
  · intro hrun
    obtain ⟨need, hends⟩ := WholeProgram.ends_runInits sim traced.tops_match hrun
    refine ⟨need, fun m ready => ?_⟩
    have hrequest (steps : Nat) : m.run steps = .ok (Machine.runInits steps
        (Executable.ofModules name ms).inits m) := by rw [Machine.run, ready.exe]
    exact ready.fulfils hrequest ((hends _ _ _ _ m ready.live).mono fun _ _ h => ⟨rfl, h⟩)

namespace Counting

/-- Both programs are compiled. -/
def session : List Request := requests ++ [.compile ⟨1⟩ .zero]

def compiled : Workspace := session.foldl Request.apply {}

def sources : List (Option Source) := sourcesOf {} session

/-- The module of the program `main`. -/
def main : Module where
  name := "main"
  imports := [⟨0⟩]
  globals := [greeting]
  strings := ["hello"]
  bases := ⟨1, 1, 0⟩
  init := some (.ofList [770, 1, 0, 785, 1, 258, 3, 96, 0, 1, 272, 0, 258, 10, 313, 82, 5])

/-- A world with the given counter and greeting. -/
def world (count greeting : Slot) : World := ⟨#[count, greeting], #[.text "hello"], false⟩

theorem flatten_compiled : compiled.modules.flatten [⟨1⟩] = [⟨0⟩, ⟨1⟩] := rfl

theorem built_compiled : Built (fun w r => r.Admissible w) compiled sources := by
  refine Built.start.foldl ⟨trivial, ?_, trivial, trivial, trivial, trivial, ?_, trivial, trivial,
    trivial, trivial⟩
  · intro i hi
    cases hi
  · exact List.forall_mem_singleton.2 (by decide)

theorem known_counter : (workspace.program ⟨0⟩).Known [] := by
  have hfunctions : (workspace.program ⟨0⟩).functions = #[⟨"advance", .function 5 int [int], 0,
    .source ⟨1⟩ 1 #[step] #[.combine count (.plain .add) (.var step), .ret (some (.var count))]⟩] := rfl
  have hinit : (workspace.program ⟨0⟩).init = #[] := rfl
  have henv : (workspace.program ⟨0⟩).surroundings [] = ⟨[count], [advance.signature]⟩ := rfl
  refine ⟨fun d hd {scope params locals stmts} hbody => ?_, fun s hs => by simp [hinit] at hs⟩
  rw [hfunctions, Array.mem_singleton] at hd
  subst hd
  cases hbody
  rw [henv]
  simp [Stmt.refs, Expr.refs, Ref.Known, Variable.isGlobal, count, step]

/-- Both programs refer to what is there. -/
theorem known_compiled : ∀ i ∈ compiled.modules.flatten [⟨1⟩], ∀ s, sources[i.index]? = some (some s) →
    s.program.Known ((compiled.modules.flatten s.program.imports).map compiled.modules.get) := by
  rw [flatten_compiled]
  refine List.forall_mem_cons.2 ⟨fun s hs => ?_, List.forall_mem_singleton.2 fun s hs => ?_⟩
  · cases hs
    exact known_counter
  · cases hs
    exact known_main

theorem compact_compiled : ∀ i ∈ compiled.modules.flatten [⟨1⟩],
    (compiled.modules.get i).Compact := by
  rw [flatten_compiled]
  refine List.forall_mem_cons.2 ⟨?_, List.forall_mem_singleton.2 ?_⟩
  · exact ⟨by decide, by decide, by decide⟩
  · exact ⟨by decide, by decide, by decide⟩

end Counting

theorem runs_as_meant_counting :
    ∃ exe, Counting.compiled.modules.link ⟨1⟩ = .ok exe ∧
      (∃ need, ∀ m : Machine, m.Ready exe (Counting.world .zero .zero) →
        m.Fulfils need m.run () (Counting.world (.ofInt 12) ⟨1⟩)) ∧
      ∃ need, ∀ m : Machine, m.Ready exe (Counting.world (.ofInt 12) ⟨1⟩) →
        m.Fulfils need (m.call · 0 [.ofInt 5]) (.ofInt 17) (Counting.world (.ofInt 17) ⟨1⟩) := by
  have link : Counting.compiled.modules.link ⟨1⟩ =
      .ok (.ofModules "main" [Counting.counter, Counting.main]) := rfl
  obtain ⟨s, hs⟩ : ∃ s, Counting.sources[(⟨1⟩ : ModuleId).index]? = some (some s) := ⟨_, rfl⟩
  have h := runs_as_meant Counting.built_compiled hs link Counting.known_compiled
    ⟨by decide, by decide, by decide⟩ Counting.compact_compiled 30
  have hrun : (Counting.compiled.whole Counting.sources ⟨1⟩).run 30 (Counting.world .zero .zero) =
      .ok () (Counting.world (.ofInt 12) ⟨1⟩) := by cbv
  have hcall : (Counting.compiled.whole Counting.sources ⟨1⟩).call 30 0 [.ofInt 5]
      (Counting.world (.ofInt 12) ⟨1⟩) = .ok (.ofInt 17) (Counting.world (.ofInt 17) ⟨1⟩) := by cbv
  refine ⟨_, link, (h _ _).2 hrun, (h _ _).1 0 _ _ hcall⟩

end Workspace
end Stackwork
