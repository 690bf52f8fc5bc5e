import Stackwork.Proofs.Lang.Safety

/-!
# Calls through a value

A value of a function type is the number of a function, and machines do not check it. As long as
hosts keep to the types of what they hand over, a number that is called is that of a function of
exactly the type of the expression it comes from, or it is zero: variables and results that nothing
was stored in are zero, whatever their type, and zero is the number of some function too.
-/
namespace Stackwork

open Machine (at?)

/-- The slot on top of the stack is the number of a function of a type. -/
def Machine.Names (m : Machine) (t : Ty) : Prop :=
  ∃ v r, at? m.stack (m.sp - 1) = some v ∧ at? m.routines v.toInt.toInt = some r ∧ r.type = t

/-- Where the loop of a run above `n` tasks calls through a value, the value is the number of a
function of the type of the expression it comes from. -/
def WholeProgram.CallsHonestly (P : WholeProgram) (exe : Executable) (n : Nat) (as : List Activation)
    (c : Config) : Prop :=
  ∀ ⦃code own : Code⦄ ⦃p d : Nat⦄ ⦃below : List Task⦄ ⦃a : Activation⦄ ⦃b : Body⦄ ⦃locals : List Variable⦄
    ⦃callee : Expr⦄, c.tasks = .loop code p d :: below → below.length = n + 1 → as.head? = some a →
    a.code? = some own → own.op? p = some .callR → P.Works exe a b locals → b.CallsAt p callee →
    c.machine.Names (callee.typeOf b.table)

/-- What a call through a value finds pending. -/
theorem Stage.Admits.pending_of_callR {S : Stage} {u : StackMap} {p : Nat} {ts : List Ty} (h : S.Admits u p ts)
    (calls : u.code.op? p = some .callR) :
    ∃ lower ins out id, ts = lower ++ ins ++ [.function id out ins] := by
  have only {op : Opcode} {k : Kind} (fetch : u.code.instr? p = some (Instr.make op k)) : op = .callR := by
    rw [Code.op?, fetch, Option.bind_some, Instr.op?_make] at calls
    exact Option.some_inj.1 calls
  cases h with
  | callR => exact ⟨_, _, _, _, rfl⟩
  | push fetch constant =>
    rw [only fetch] at constant
    cases constant
  | branch which fetch => rcases which with rfl | rfl <;> cases only fetch
  | loadGlobal fetch | storeGlobal fetch | loadLocal fetch | storeLocal fetch | pop fetch | unary fetch
  | binary fetch | select fetch | jump fetch | call fetch | ret fetch | retNothing fetch | halt fetch =>
    cases only fetch
  | last size =>
    obtain ⟨i, fetch, -⟩ := Option.bind_eq_some_iff.1 calls
    exact absurd (Code.lt_size fetch) (by omega)

namespace Workspace

section

variable {w : Workspace} {sources : List (Option Source)} {root : ModuleId} {exe : Executable} {T : Ty → Prop}
  {ms : List Module} {name : String} {strict : Prop}

/-- Where the code of a piece of the program calls through a value, it is the call of some expression,
of which the value and the arguments are pending. -/
theorem Typed.callee {a : Activation} {u : StackMap} {p : Nat} {ts : List Ty} (typed : w.Typed T sources root ms)
    (lays : ((w.whole sources root).stage name ms strict).Lays a u) (here : u.At p ts)
    (calls : u.code.op? p = some .callR) :
    ∃ b locals callee lower, (w.whole sources root).Works (.ofModules name ms) a b locals ∧ b.CallsAt p callee ∧
      (callee.typeOf b.table).kind = .function ∧
      ts = lower ++ (callee.typeOf b.table).inputs ++ [callee.typeOf b.table] := by
  obtain ⟨lower', ins, out, id, hfunction⟩ :=
    ((typed.certified name strict).admits lays here).pending_of_callR calls
  obtain ⟨b, locals, ctx, commands, works, laid, -, rfl, -⟩ := typed.exists_laid p ts lays
  obtain ⟨callee, -, hcalls, lower, hpending⟩ := Body.Laid.callee here calls
  refine ⟨b, locals, callee, lower, works, hcalls, ?_, hpending⟩
  have hlast := congrArg List.getLast? (hfunction.symm.trans hpending)
  rw [List.getLast?_concat, List.getLast?_concat] at hlast
  rw [← Option.some_inj.1 hlast]
  rfl

/-- Honest calls are what typed code relies on. -/
theorem honestAt_of_callsHonestly (typed : w.Typed T sources root ms) {rest : List Task} {as : List Activation}
    {c : Config} (h : (w.whole sources root).CallsHonestly (.ofModules name ms) rest.length as c) :
    ((w.whole sources root).stage name ms strict).HonestAt rest as c := by
  intro code p d below a u top depth first lays ts ins out id here fetch
  have calls : u.code.op? p = some .callR := by rw [Code.op?, fetch, Option.bind_some, Instr.op?_make]
  obtain ⟨b, locals, callee, lower, works, hcalls, -, hpending⟩ := typed.callee lays here calls
  have hlast := congrArg List.getLast? hpending
  rw [List.getLast?_concat, List.getLast?_concat] at hlast
  obtain ⟨v, r, hv, hr, htype⟩ :=
    h top depth first ((typed.certified name strict).code lays) calls works hcalls
  refine ⟨r, ?_, htype.trans (Option.some_inj.1 hlast).symm⟩
  simp only [Machine.called?, calls, hv, Option.bind_some, hr]

end

namespace Calling

def int : Ty := .prim 2 .int

/-- The type of `inc`. -/
def unary : Ty := .function 6 int [int]

def x : Variable := ⟨"x", int, .local, 0, some ⟨0, 1⟩⟩

def inc : Callable := ⟨"inc", unary, 1, .declared ⟨0, 1⟩⟩

def f : Variable := ⟨"f", unary, .global, 0, none⟩

def g : Variable := ⟨"g", unary, .global, 1, none⟩

def out : Variable := ⟨"out", int, .global, 2, none⟩

/-- A function is stored in `f` and called; nothing is stored in `g`, which is called too. -/
def top : List Stmt :=
  [.store f (.func inc), .store out (.call (.var f) [.int 1]), .store out (.call (.var g) [.int 1])]

/-- A program with two functions, of which the first one takes nothing. -/
def requests : List Request :=
  [.newTable, .newProgram "p" ⟨0⟩ [], .declareFunction ⟨0⟩ ⟨0⟩ "seven" int [],
    .append { unit := .body ⟨0, 0⟩, scope := some ⟨1⟩ } [.ret (some (.int 7))],
    .declareFunction ⟨0⟩ ⟨0⟩ "inc" int [("x", int)],
    .append { unit := .body ⟨0, 1⟩, scope := some ⟨2⟩ }
      [.ret (some (.binary (.plain .add) (.var x) (.int 1)))],
    .declareGlobal ⟨0⟩ ⟨0⟩ "f" unary, .declareGlobal ⟨0⟩ ⟨0⟩ "g" unary, .declareGlobal ⟨0⟩ ⟨0⟩ "out" int,
    .append { unit := .top ⟨0⟩, scope := some ⟨0⟩ } top]

/-- The workspace before the program is compiled. -/
def workspace : Workspace := requests.foldl Request.apply {}

def session : List Request := requests ++ [.compile ⟨0⟩ .zero]

def compiled : Workspace := session.foldl Request.apply {}

def sources : List (Option Source) := sourcesOf {} session

def topCode : Code := .ofList [260, 273, 0, 260, 272, 0, 97, 273, 2, 260, 272, 1, 97, 273, 2]

def module : Module where
  name := "p"
  routines := [⟨"seven", .function 5 int [], 0, .compiled (some (.ofList [258, 7, 354, 259, 354])) []⟩,
    ⟨"inc", unary, 1, .compiled (some (.ofList [274, 0, 260, 304, 354, 259, 354])) [.int]⟩]
  globals := [f, g, out]
  init := some topCode

theorem flatten_compiled : compiled.modules.flatten [⟨0⟩] = [⟨0⟩] := rfl

theorem allowed_session : AllAllowed (fun w r => r.Admissible w ∧ r.Registered w) {} session := by
  have first : 0 < 1 := by decide
  exact ⟨⟨trivial, trivial⟩, ⟨nofun, first⟩,
    ⟨trivial, first, Counting.knows_of_getElem? 2 rfl rfl, List.forall_mem_nil _⟩, ⟨trivial, trivial⟩,
    ⟨trivial, first, Counting.knows_of_getElem? 2 rfl rfl,
      List.forall_mem_singleton.2 (Counting.knows_of_getElem? 2 rfl rfl)⟩,
    ⟨trivial, trivial⟩, ⟨trivial, Counting.knows_of_getElem? 6 rfl rfl⟩,
    ⟨trivial, Counting.knows_of_getElem? 6 rfl rfl⟩, ⟨trivial, Counting.knows_of_getElem? 2 rfl rfl⟩,
    ⟨trivial, trivial⟩, ⟨trivial, first⟩, trivial⟩

theorem registered_compiled : Built (fun w r => r.Admissible w ∧ r.Registered w) compiled sources := by
  have h := Built.start.foldl allowed_session
  rwa [List.nil_append] at h

/-- The program as it was compiled. -/
def source : Program := workspace.program ⟨0⟩

theorem known_source : source.Known [] := by
  have hfunctions : source.functions = #[
      ⟨"seven", .function 5 int [], 0, .source ⟨1⟩ 0 #[] #[.ret (some (.int 7))]⟩,
      ⟨"inc", unary, 1, .source ⟨2⟩ 1 #[x] #[.ret (some (.binary (.plain .add) (.var x) (.int 1)))]⟩] := rfl
  have hinit : source.init = top.toArray := rfl
  have henv : source.surroundings [] = ⟨[f, g, out], [⟨"seven", .function 5 int [], 0⟩, inc.signature]⟩ := rfl
  refine ⟨fun d hd {scope params locals stmts} hbody => ?_, ?_⟩
  · rw [hfunctions] at hd
    simp only [List.mem_toArray, List.mem_cons, List.not_mem_nil, or_false] at hd
    rcases hd with rfl | rfl
    · cases hbody
      simp [Stmt.refs, Expr.refs]
    · cases hbody
      simp [Stmt.refs, Expr.refs, Ref.Known, Variable.isGlobal, x]
  · rw [hinit, henv]
    simp [top, Stmt.refs, Expr.refs, refsOf, Ref.Known, Variable.isGlobal, f, g, out]

theorem eq_source {i : ModuleId} (hi : i ∈ compiled.modules.flatten [⟨0⟩]) {s : Source}
    (hs : sources[i.index]? = some (some s)) : s.program = source := by
  rw [flatten_compiled, List.mem_singleton] at hi
  subst hi
  have hsource : sources[0]? = some (some ⟨⟨0⟩, source, workspace.tableOf ⟨0⟩⟩) := rfl
  exact congrArg Source.program (Option.some_inj.1 (Option.some_inj.1 (hs.symm.trans hsource)))

theorem stmts_source : source.stmts =
    [.ret (some (.int 7)), .ret (some (.binary (.plain .add) (.var x) (.int 1)))] ++ top := rfl

theorem complete_compiled : compiled.Complete sources ⟨0⟩ where
  inside := by decide
  sourced := by
    rw [flatten_compiled]
    exact List.forall_mem_singleton.2 ⟨_, rfl⟩
  known i hi s hs := by
    rw [eq_source hi hs]
    exact known_source
  consts i hi s hs := by
    rw [eq_source hi hs, stmts_source]
    simp [top, Stmt.refs, Expr.refs, refsOf]
  small := ⟨by decide, by decide, by decide⟩
  compact := by
    rw [flatten_compiled]
    exact List.forall_mem_singleton.2 ⟨by decide, by decide, by decide⟩

def program : Executable := .ofModules "p" [module]

def loaded : Machine := (Machine.new 8 64 { tagged := true }).install program

theorem load_program : (Machine.new 8 64 { tagged := true }).load program = .ok loaded := by
  have hcheck : program.check 8 = .ok () := by decide +kernel
  exact congrArg (Except.map _) hcheck

/-- The beginning of a run. -/
def first : Config := ⟨loaded, [.loop topCode 0 0, .closeBlock 0 0], .zero⟩

/-- The top level as a body. -/
def body : Body := ⟨compiled.tableOf ⟨0⟩, module.pool.handle, none, top⟩

theorem works_body : (compiled.whole sources ⟨0⟩).Works program (.block 0 topCode) body [] := .block rfl rfl

theorem callsAt_second : body.CallsAt 12 (.var g) :=
  ⟨_, ⟨body.marks.take 8, body.marks.drop 9, rfl, rfl⟩, rfl, rfl⟩

/-- Instructions other than calls through a value are honest. -/
theorem honest_at {c : Config} {q : Nat} {below : List Task} (top : c.tasks = .loop topCode q 0 :: below)
    (other : topCode.op? q ≠ some .callR) :
    (compiled.whole sources ⟨0⟩).CallsHonestly program 0 [.block 0 topCode] c := by
  intro code own p d below' a b locals callee top' _ first hown calls
  obtain rfl : a = .block 0 topCode := (Option.some_inj.1 first).symm
  obtain rfl : own = topCode := (Option.some_inj.1 hown).symm
  rw [top] at top'
  obtain ⟨-, hp, -⟩ := Task.loop.inj (List.cons.inj top').1
  obtain rfl : q = p := by omega
  exact absurd calls other

theorem tracks_first : ∃ c, Config.Tracks ((compiled.whole sources ⟨0⟩).CallsHonestly program 0) 0
    [.block 0 topCode] first [.block 0 topCode] c ∧ c.tasks = [.loop topCode 6 0, .closeBlock 0 0] := by
  have step {c c' : Config} (q : Nat) {below : List Task} (other : topCode.op? q ≠ some .callR)
      (before : Config.Tracks ((compiled.whole sources ⟨0⟩).CallsHonestly program 0) 0
        [.block 0 topCode] first [.block 0 topCode] c)
      (top : c.tasks = .loop topCode q 0 :: below) (next : c.step = .running c')
      (same : c.worksOn 0 c' [.block 0 topCode] = [.block 0 topCode]) :
      Config.Tracks ((compiled.whole sources ⟨0⟩).CallsHonestly program 0) 0
        [.block 0 topCode] first [.block 0 topCode] c' := by
    have h := before.step (honest_at top other) (by rw [top]; exact Nat.succ_pos _) next
    rwa [same] at h
  exact ⟨_, step 4 (by decide) (step 3 (by decide) (step 1 (by decide) (step 0 (by decide) .start
    rfl rfl rfl) rfl rfl rfl) rfl rfl rfl) rfl rfl rfl, rfl⟩

theorem hostsReturn_first (S : Stage) : S.HostsReturn 0 first := by
  refine Stage.hostsReturn_of_compiled (List.forall_mem_cons.2 ⟨trivial, List.forall_mem_singleton.2 trivial⟩) ?_
  intro i r hr
  obtain ⟨n, -, hget⟩ := Machine.exists_of_at? hr
  have hmem : r ∈ module.routines := Array.mem_toList_iff.2 (Array.mem_of_getElem? hget)
  simp only [module, List.mem_cons, List.not_mem_nil, or_false] at hmem
  rcases hmem with rfl | rfl
  · rfl
  · rfl

end Calling

end Workspace
end Stackwork
