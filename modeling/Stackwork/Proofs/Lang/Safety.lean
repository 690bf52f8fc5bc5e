import Stackwork.Proofs.Lang.Correctness
import Stackwork.Proofs.Lang.Positions
import Stackwork.Proofs.Lang.Registering
import Stackwork.Proofs.Lang.Staging
import Stackwork.Proofs.Machine.Fetch
import Stackwork.Proofs.Machine.Serving

/-!
# Compiled programs run safely

A program that was compiled together with everything it imports, and linked and loaded, keeps to
its code, its tables and its frames in every run. The running code fetches whole instructions of
its own, names routines, globals and locals that are there, takes nothing from the stack that it
has not put there above its frame, and never looks at a slot as a kind that it does not have. What
is left to go wrong is a division by zero, and a stack that is too small.
-/
namespace Stackwork

open Machine (at?)

/-- What holds of a machine whose dispatch loop is at a position of the code of an activation. -/
structure Machine.Orderly (exe : Executable) (a : Activation) (code : Code) (p : Nat) (m : Machine) : Prop where
  own : a.code? = some code
  /-- A run gets behind the last instruction only at top level, where this is the end. -/
  fetch : (∃ i, m.Serves (exe.limits a.frameSize) code p i) ∨ p = code.size ∧ ∃ i, a = .block i code
  base : 0 ≤ m.base
  pops : m.base + a.frameSize ≤ m.sp - m.popped code p
  room : m.sp ≤ m.stack.size

namespace Workspace

/-- The stack maps of everything that a root needs. -/
def stage (w : Workspace) (sources : List (Option Source)) (root : ModuleId) (strict : Prop) : Stage :=
  (w.whole sources root).stage (w.modules.get root).name ((w.modules.flatten [root]).map w.modules.get) strict

/-- A root with everything it needs: all of it is compiled, refers to own declarations and imported
ones and to declared constants, and is small enough for operands. -/
structure Complete (w : Workspace) (sources : List (Option Source)) (root : ModuleId) : Prop where
  inside : root.index < w.modules.size
  sourced : ∀ i ∈ w.modules.flatten [root], ∃ s, sources[i.index]? = some (some s)
  known : ∀ i ∈ w.modules.flatten [root], ∀ s, sources[i.index]? = some (some s) →
    s.program.Known ((w.modules.flatten s.program.imports).map w.modules.get)
  consts : ∀ i ∈ w.modules.flatten [root], ∀ s, sources[i.index]? = some (some s) →
    ∀ st ∈ s.program.stmts, ∀ c, .const c ∈ st.refs → c.Declared w.types
  small : Module.SmallTables ((w.modules.flatten [root]).map w.modules.get)
  compact : ∀ i ∈ w.modules.flatten [root], (w.modules.get i).Compact

section

variable {w : Workspace} {sources : List (Option Source)} {root : ModuleId} {exe : Executable}

/-- The types of a registry are those of the tables in it. -/
theorem Registered.governs (registered : w.Registered sources) {i : Nat} {s : Source}
    (hs : sources[i]? = some (some s)) : s.table.Governs w.types.Knows where
  distinct := fun _ _ ht hu => registered.made.sound.distinct ht hu
  proper := (registered.wf.sources i s hs).table
  prims := registered.prims s (List.mem_of_getElem? hs)
  output h := registered.made.sound.parts h _ (List.mem_cons_self ..)
  inputs h t ht := registered.made.sound.parts h t (List.mem_cons_of_mem _ ht)

theorem Complete.typed (complete : w.Complete sources root) (registered : w.Registered sources)
    (link : w.modules.link root = .ok exe) (strict : Prop) :
    exe = (w.stage sources root strict).exe ∧
      w.Typed w.types.Knows sources root ((w.modules.flatten [root]).map w.modules.get) := by
  obtain ⟨name, ms, hexe, traced⟩ := registered.wf.traced complete.inside link complete.small complete.known
    fun i hi _ _ => complete.compact i hi
  have hms := traced.modules
  rw [← hms] at traced
  refine ⟨(Executable.foldlM_addModule_new.1 link).2, traced, complete.sourced, fun i _ s hs => registered.governs hs,
    fun i hi s hs st hst c hc => ?_⟩
  exact (complete.consts i hi s hs st hst c hc).holds registered.made.sound

namespace Typed

variable {T : Ty → Prop} {ms : List Module} {name : String} {strict : Prop} {a : Activation} {u : StackMap}
  {p : Nat} {ts : List Ty} (typed : w.Typed T sources root ms)
include typed

/-- The facts behind the stack map of a piece of code at a position of it. -/
theorem exists_laid (p : Nat) (ts : List Ty) (lays : ((w.whole sources root).stage name ms strict).Lays a u) :
    ∃ b locals ctx commands, (w.whole sources root).Works (.ofModules name ms) a b locals ∧
      b.Laid ctx (Module.limits ms locals.length) commands ∧ a.frameSize = locals.length ∧
        u = (b.listing commands (locals.map (·.type))).stackMap ∧
          (u.At p ts → b.Balanced p ts.length) ∧
            ∃ k ∈ w.modules.flatten [root], ∃ s, sources[k.index]? = some (some s) ∧
              BodyOf T ms s b locals := by
  obtain ⟨b, locals, ctx, commands, works, laid, -, rfl⟩ := lays
  obtain ⟨k, hk, s, hs, body⟩ := typed.exists_bodyOf works
  have governs : ctx.table.Governs T := by
    rw [← laid.table, body.table]
    exact typed.governs k hk s hs
  exact ⟨b, locals, ctx, commands, works, laid, (typed.realized works).1, rfl,
    laid.balanced governs body.output (typed.sits name strict hk hs body), k, hk, s, hs, body⟩

/-- Where the code of a piece of the program is, the instruction there is served. -/
theorem fetched (lays : ((w.whole sources root).stage name ms strict).Lays a u) (here : u.At p ts) {m : Machine}
    (keeps : ((w.whole sources root).stage name ms strict).Keeps m.aside) :
    (∃ i, m.Serves ((Executable.ofModules name ms).limits a.frameSize) u.code p i) ∨
      p = u.code.size ∧ ∃ i, a = .block i u.code := by
  obtain ⟨b, locals, ctx, commands, works, laid, hframe, rfl, -⟩ := typed.exists_laid p ts lays
  have hlimits : (Executable.ofModules name ms).limits a.frameSize = Module.limits ms locals.length := by
    simp [Executable.limits, Executable.ofModules, Module.limits, hframe, List.length_flatMap]
  rcases laid.accepts here with ⟨i, haccepts⟩ | ⟨hsize, htop⟩
  · have hglobals : (Executable.ofModules name ms).globals.length ≤ m.heap.size := by
      have hkinds := ((w.whole sources root).stage name ms strict).kinds
      have hlen : (Executable.ofModules name ms).globals.length =
          ((w.whole sources root).stage name ms strict).globals.length := by
        rw [← List.length_map (f := Kind.ofTy), ← hkinds]
        rfl
      rw [hlen]
      by_contra hlt
      obtain ⟨t, ht⟩ : ∃ t, ((w.whole sources root).stage name ms strict).globals[m.heap.size]? = some t :=
        ⟨_, List.getElem?_eq_getElem (by omega)⟩
      exact absurd (keeps.lt_size ht) (Nat.lt_irrefl _)
    exact .inl ⟨i, Machine.serves_of_accepts keeps.exe hglobals (hlimits ▸ haccepts)⟩
  · refine .inr ⟨hsize, ?_⟩
    have hcode := (typed.certified name strict).code lays
    cases works with
    | @routine i r f scope params locals stmts found definition body =>
      -- A function always has something to return, be it of type void.
      obtain ⟨_, ⟨⟩, k, hk, s, j, hs, hj, -, compiled⟩ := typed.exists_function definition
      obtain ⟨id, out, ins, hsig⟩ := (compiled.bodies j f.decl hj).signature
      have : f.decl.type.output? = none := htop
      rw [hsig] at this
      cases this
    | @block i code b init top =>
      obtain rfl : code = _ := Option.some_inj.1 hcode
      exact ⟨i, rfl⟩

end Typed

/-- Where no call goes through a value, there is no call to be honest about. -/
theorem honestAt_of_direct {name : String} {ms : List Module} {T : Ty → Prop} (typed : w.Typed T sources root ms)
    (direct : ∀ i ∈ w.modules.flatten [root], ∀ s, sources[i.index]? = some (some s) →
      ∀ st ∈ s.program.stmts, st.callees = []) (strict : Prop) (rest : List Task) (as : List Activation)
    (c : Config) : ((w.whole sources root).stage name ms strict).HonestAt rest as c := by
  intro code p d below a u _ _ _ lays ts ins out id here fetch
  obtain ⟨b, locals, ctx, commands, works, laid, -, rfl, -, k, hk, s, hs, body⟩ :=
    typed.exists_laid p ts lays
  have calls : (b.listing commands (locals.map (·.type))).code.op? p = some .callR := by
    have := congrArg (Option.bind · Instr.op?) fetch
    rwa [Option.bind_some, Instr.op?_make] at this
  obtain ⟨callee, hcallee, -⟩ := Body.Laid.callee here calls
  obtain ⟨st, hst, hcallee⟩ := List.mem_flatMap.1 hcallee
  rw [direct k hk s hs st (body.stmts st hst)] at hcallee
  cases hcallee

end

namespace Counting

/-- A type is known where it is in the first table. -/
theorem knows_of_getElem? {w : Workspace} {tt : TyTable} (i : Nat) {t : Ty}
    (table : w.types.tables[0]? = some tt) (mem : tt.types[i]? = some t) : w.types.Knows t :=
  ⟨tt, Array.mem_of_getElem? table, List.mem_of_getElem? mem⟩

theorem registered_compiled : Built (fun w r => r.Admissible w ∧ r.Registered w) compiled sources := by
  have first : 0 < 1 := by decide
  have second : 1 < 2 := by decide
  exact Built.start.foldl ⟨⟨trivial, trivial⟩, ⟨nofun, first⟩, ⟨trivial, knows_of_getElem? 2 rfl rfl⟩,
    ⟨trivial, first, knows_of_getElem? 2 rfl rfl, List.forall_mem_singleton.2 (knows_of_getElem? 2 rfl rfl)⟩,
    ⟨trivial, trivial⟩, ⟨trivial, first⟩, ⟨List.forall_mem_singleton.2 first, first⟩,
    ⟨trivial, knows_of_getElem? 4 rfl rfl⟩, ⟨trivial, trivial⟩, ⟨trivial, second⟩, trivial⟩

theorem stmts_counter {s : Source} (hs : sources[0]? = some (some s)) : s.program.stmts =
    [.combine count (.plain .add) (.var step), .ret (some (.var count))] := by
  cases hs
  rfl

theorem stmts_main {s : Source} (hs : sources[1]? = some (some s)) : s.program.stmts = top := by
  cases hs
  rfl

theorem complete_compiled : compiled.Complete sources ⟨1⟩ where
  inside := by decide
  sourced := by
    rw [flatten_compiled]
    exact List.forall_mem_cons.2 ⟨⟨_, rfl⟩, List.forall_mem_singleton.2 ⟨_, rfl⟩⟩
  known := known_compiled
  consts := by
    rw [flatten_compiled]
    refine List.forall_mem_cons.2 ⟨fun s hs => ?_, List.forall_mem_singleton.2 fun s hs => ?_⟩
    · rw [stmts_counter hs]
      simp [Stmt.refs, Expr.refs]
    · rw [stmts_main hs]
      simp [top, Stmt.refs, Expr.refs, refsOf]
  small := ⟨by decide, by decide, by decide⟩
  compact := compact_compiled

theorem direct_compiled : ∀ i ∈ compiled.modules.flatten [⟨1⟩], ∀ s, sources[i.index]? = some (some s) →
    ∀ st ∈ s.program.stmts, st.callees = [] := by
  rw [flatten_compiled]
  refine List.forall_mem_cons.2 ⟨fun s hs => ?_, List.forall_mem_singleton.2 fun s hs => ?_⟩
  · rw [stmts_counter hs]
    simp [Stmt.callees, Expr.callees]
  · rw [stmts_main hs]
    simp [top, Stmt.callees, Expr.callees, calleesOf]

/-- The whole program. -/
def program : Executable := .ofModules "main" [counter, main]

/-- A machine with the program, before its first run. -/
def loaded : Machine := (Machine.new 4 64 { tagged := true }).install program

/-- The top level of `main`. -/
def topCode : Code := .ofList [770, 1, 0, 785, 1, 258, 3, 96, 0, 1, 272, 0, 258, 10, 313, 82, 5]

/-- The beginning of a run. -/
def first : Config := ⟨loaded, [.loop topCode 0 0, .closeBlock 0 0], .zero⟩

theorem load_program : (Machine.new 4 64 { tagged := true }).load program = .ok loaded := by
  have hcheck : program.check 4 = .ok () := by decide +kernel
  exact congrArg (Except.map _) hcheck

theorem begins_first : (compiled.stage sources ⟨1⟩ False).Begins (fun _ _ => True) loaded 0
    [.block 0 topCode] first :=
  .block .first rfl rfl

end Counting

end Workspace
end Stackwork
