import Stackwork.Machine.Dispatch

/-!
# Runs

A run is a stack of tasks: dispatch loops, host functions, and what is left to do when
one of them is over. Host functions may call back into the machine to any depth, so
nesting lives in the task list and every step of a run is one total function. A run goes
on until no task is left or a fault ends it; it may also go on for ever, so running takes
a number of steps.
-/
namespace Stackwork

/-- A call of a host function: the routine, where its arguments start, and the BASE to
restore. -/
structure HostCall where
  routine : Routine
  bottom : Int
  base : Int

/-- A piece of work in progress. -/
inductive Task where
  /-- A dispatch loop at a position of a code, begun at a frame depth. -/
  | loop (code : Code) (pc : Int) (depth : Nat)
  /-- A host function at work. -/
  | script (call : HostCall) (rest : HostScript)
  /-- A host function that waits for the result of the task above. -/
  | waiting (call : HostCall) (next : Slot → HostScript)
  /-- Restore SP and BASE behind a block of code. -/
  | closeBlock (sp base : Int)
  /-- Take the result of a call from slot `bottom` and restore SP and BASE. -/
  | closeCall (bottom base : Int)

/-- A machine at work. `result` is what the task that ended last came to. -/
structure Config where
  machine : Machine
  tasks : List Task
  result : Slot := .zero

/-- How a run stands after a step. -/
inductive Progress where
  | running (c : Config)
  | finished (result : Slot) (m : Machine)
  | faulted (f : Fault) (m : Machine)

namespace Machine

/-- Begin a block of code: BASE is the top of the stack. -/
def beginBlock (code : Code) : Op (List Task) := fun m =>
  .ok [.loop code 0 m.frames.size, .closeBlock m.sp m.base] { m with halted := false, base := m.sp }

/-- Begin a host function whose arguments are on the stack. -/
def beginHost (r : Routine) (builtin : Builtin) : Op Task := fun m =>
  let bottom := m.sp - r.arity
  if 0 ≤ bottom ∧ m.sp ≤ m.stack.size then
    let args := (m.stack.extract bottom.toNat m.sp.toNat).toList
    .ok (.script ⟨r, bottom, m.base⟩ (builtin args)) { m with base := bottom }
  else .error .outOfRange m

/-- End a host function: its result takes the place of its arguments. -/
def endHost (call : HostCall) (result : Slot) : Op Unit := do
  modify fun m => { m with base := call.base }
  writeStack call.bottom result .none
  if (← get).settings.tagged then
    match call.routine.returnKind? with
    | some k => writeStack call.bottom result k
    | none => fault .absent
  modify fun m => { m with sp := call.bottom + 1 }

/-- Push arguments with the kinds of the parameters. -/
def pushArgs : List Slot → List Ty → Op Unit
  | v :: vs, t :: ts => do
    push v (Kind.ofTy t)
    pushArgs vs ts
  | _, _ => pure ()

/-- The routine to call, if there is one and it takes that many arguments. -/
def callee (m : Machine) (index : Int) (args : List Slot) : Except CallError Routine :=
  match at? m.routines index with
  | none => .error (.noSuchIndex index)
  | some r =>
    if args.length = r.arity then .ok r else .error (.wrongArity r.name r.arity args.length)

/-- Begin a call from the host. -/
def beginCall (r : Routine) (args : List Slot) : Op (List Task) := do
  modify fun m => { m with halted := false }
  let bottom := (← get).sp
  let close := Task.closeCall bottom (← get).base
  pushArgs args r.type.inputs
  match r.body with
  | .host builtin => return [← beginHost r builtin, close]
  | .compiled code _ =>
    let depth := (← get).frames.size
    let base ← enter r
    modify fun m => { m with base }
    match code with
    | some code => return [.loop code 0 depth, close]
    | none => fault .absent

/-- One step of a host function: what becomes of it. -/
def scriptStep (call : HostCall) : HostScript → Op (List Task)
  | .done result => do
    endHost call result
    return []
  | .log line next => do
    modify (·.write line)
    return [.script call next]
  | .registers next => return [.script call (next (← get).registers)]
  | .stack next => return [.script call (next (← require (← get).liveStack?))]
  | .readGlobal index next => return [.script call (next (← require ((← get).global? index)))]
  | .writeGlobal index value next => do
    set (← require ((← get).setGlobal? index value))
    return [.script call next]
  | .newObject value next => do
    let handle ← modifyGet fun m => m.newObject value
    return [.script call (next handle)]
  | .object handle next => return [.script call (next ((← get).object handle))]
  | .call index args next => do
    match (← get).callee index args with
    | .error e => return [.script call (next (.error e))]
    | .ok r => return (← beginCall r args) ++ [.waiting call fun v => next (.ok v)]
  | .execute code next => return (← beginBlock code) ++ [.waiting call fun _ => next]

/-- The result of a call that is over, and the registers restored. A halted call has no
result. -/
def endCall (bottom base : Int) : Op Slot := do
  let result ← if (← get).halted then pure .zero else require (at? (← get).stack bottom)
  modify fun m => { m with sp := bottom, base }
  return result

/-- One step of a task: the tasks that take its place, and a result if it is over. In a
halted machine a dispatch loop is over, with the frames above its depth dropped. -/
def taskStep (result : Slot) : Task → Op (List Task × Slot)
  | .loop code pc depth => do
    if (← get).halted then
      modify fun m => { m with frames := m.frames.take depth }
      return ([], result)
    match ← dispatch code pc depth with
    | .goto pc => return ([.loop code pc depth], result)
    | .move code pc => return ([.loop code pc depth], result)
    | .host r builtin pc => return ([← beginHost r builtin, .loop code pc depth], result)
    | .leave => return ([], result)
  | .script call rest => return (← scriptStep call rest, result)
  | .waiting call next => return ([.script call (next result)], result)
  | .closeBlock sp base => do
    modify fun m => { m with sp, base }
    return ([], .zero)
  | .closeCall bottom base => return ([], ← endCall bottom base)

end Machine

/-- One step of a run. -/
def Config.step (c : Config) : Progress :=
  match c with
  | ⟨m, [], result⟩ => .finished result m
  | ⟨m, t :: rest, result⟩ =>
    match Machine.taskStep result t m with
    | .ok (tasks, result) m => .running ⟨m, tasks ++ rest, result⟩
    | .error f m => .faulted f m

/-- How a run came out. -/
inductive Outcome (α : Type) where
  | finished (a : α) (m : Machine)
  | faulted (f : Fault) (m : Machine)
  /-- More steps are needed. -/
  | unfinished

/-- Run for at most so many steps. -/
def Config.run : Nat → Config → Outcome Slot
  | 0, _ => .unfinished
  | fuel + 1, c =>
    match c.step with
    | .running c => c.run fuel
    | .finished result m => .finished result m
    | .faulted f m => .faulted f m

namespace Machine

/-- Begin some tasks and run them to their end. -/
def perform (fuel : Nat) (m : Machine) (start : Op (List Task)) : Outcome Slot :=
  match start m with
  | .ok tasks m => Config.run fuel ⟨m, tasks, .zero⟩
  | .error f m => .faulted f m

/-- Run a code as a block of its own; SP and BASE are restored behind it. -/
def runBlock (fuel : Nat) (m : Machine) (code : Code) : Outcome Unit :=
  match m.perform fuel (beginBlock code) with
  | .finished _ m => .finished () m
  | .faulted f m => .faulted f m
  | .unfinished => .unfinished

/-- Run init codes in order, up to one that halts. -/
def runInits (fuel : Nat) : List Code → Machine → Outcome Unit
  | [], m => .finished () m
  | code :: rest, m =>
    match m.runBlock fuel code with
    | .finished () m => if m.halted then .finished () m else runInits fuel rest m
    | other => other

/-- Run the loaded program: the init code of every module, in dependency order. -/
def run (fuel : Nat) (m : Machine) : Except CallError (Outcome Unit) :=
  match m.exe with
  | none => .error .notLoaded
  | some e => .ok (runInits fuel e.inits m)

/-- Call a routine by number. -/
def call (fuel : Nat) (m : Machine) (index : Int) (args : List Slot) :
    Except CallError (Outcome Slot) :=
  (m.callee index args).map fun r => m.perform fuel (beginCall r args)

/-- The loaded routine with a name. -/
def named (m : Machine) (name : String) : Except CallError Routine :=
  match m.exe with
  | none => .error .notLoaded
  | some e =>
    match e.routine? name with
    | none => .error (.noSuchName name)
    | some r => .ok r

/-- Call a routine by name. -/
def callNamed (fuel : Nat) (m : Machine) (name : String) (args : List Slot) :
    Except CallError (Outcome Slot) := do
  m.call fuel (← m.named name).index args

end Machine
end Stackwork
