import Mathlib.Data.List.Range
import Stackwork.Proofs.Lang.Meaning

/-!
# Structured statements

Nests of conditionals and loops as data, what they mean, and what blocks make of them. The
meaning is told without labels: a part of a nest comes to its end, leaves the innermost loop
around it, goes on with the next round of that loop, or returns. Blocks turn a nest into a flat
stretch of statements, which is `Nest.flat`; its labels are the next ones that the workspace
hands out.
-/
namespace Stackwork

/-- A structured statement, or several in a row. -/
inductive Nest where
  | skip
  | seq (x y : Nest)
  | plain (s : Stmt)
  /-- A block with a scope of its own. -/
  | nested (x : Nest)
  | cond (c : Expr) (yes : Nest) (no : Option Nest)
  | whileLoop (c : Expr) (body : Nest)
  | doLoop (body : Nest) (c : Expr)
  | forLoop (first : Option Nest) (c : Option Expr) (last : Option Nest) (body : Nest)
  | leave
  | again

/-- Statements that neither place a label nor lead to one. -/
def Stmt.isPlain : Stmt → Bool
  | .jump _ | .branchTrue .. | .branchFalse .. | .place _ => false
  | _ => true

namespace Nest

@[elab_as_elim] theorem induct {P : Nest → Prop} (skip : P .skip) (seq : ∀ x y, P x → P y → P (.seq x y))
    (plain : ∀ s, P (.plain s)) (nested : ∀ x, P x → P (.nested x))
    (cond : ∀ c yes no, P yes → (∀ x, no = some x → P x) → P (.cond c yes no))
    (whileLoop : ∀ c body, P body → P (.whileLoop c body))
    (doLoop : ∀ body c, P body → P (.doLoop body c))
    (forLoop : ∀ first c last body, (∀ x, first = some x → P x) → (∀ x, last = some x → P x) →
      P body → P (.forLoop first c last body)) (leave : P .leave) (again : P .again) (x : Nest) : P x :=
  @Nest.rec P (fun o => ∀ x, o = some x → P x) skip seq plain nested cond whileLoop doLoop forLoop leave
    again (fun _ h => by cases h) (fun x hx y h => by cases h; exact hx) x

mutual
/-- Plain statements are plain, and breaks and continues stand inside loops; `inside` tells
whether a loop is around. -/
def Fine : Bool → Nest → Prop
  | _, .skip => True
  | inside, .seq x y => x.Fine inside ∧ y.Fine inside
  | _, .plain s => s.isPlain
  | inside, .nested x => x.Fine inside
  | inside, .cond _ yes no => yes.Fine inside ∧ FineOption inside no
  | _, .whileLoop _ body => body.Fine true
  | _, .doLoop body _ => body.Fine true
  -- the first and the last part of a loop belong to the loop around it
  | inside, .forLoop first _ last body => FineOption inside first ∧ FineOption inside last ∧ body.Fine true
  | inside, .leave => inside
  | inside, .again => inside

def FineOption : Bool → Option Nest → Prop
  | _, none => True
  | inside, some x => x.Fine inside
end

end Nest

/-- How a part of a nest ends. -/
inductive Exit where
  /-- Behind its last statement, with the locals as they are then. -/
  | on (locals : List Slot)
  /-- Out of the innermost loop around it. -/
  | leave (locals : List Slot)
  /-- On to the next round of that loop. -/
  | again (locals : List Slot)
  /-- Back to the caller. -/
  | back (result : Slot)

/-- How one round of a loop ends: with another one, or with the end of the loop. -/
inductive Round where
  | more (locals : List Slot)
  | ended (e : Exit)

namespace Eval

/-- Go on with `f` if the end is reached. -/
def thenOn (x : Eval Exit) (f : List Slot → Eval Exit) : Eval Exit := do
  match ← x with
  | .on locals => f locals
  | e => return e

/-- The body of a loop in a round: `f` is what comes behind it. -/
def thenRound (x : Eval Exit) (f : List Slot → Eval Round) : Eval Round := do
  match ← x with
  | .on locals | .again locals => f locals
  | .leave locals => return .ended (.on locals)
  | .back v => return .ended (.back v)

/-- The last part of a round. -/
def thenMore (x : Eval Exit) : Eval Round := do
  match ← x with
  | .on locals => return .more locals
  | e => return .ended e

/-- At most so many rounds. -/
def rounds (round : List Slot → Eval Round) : Nat → List Slot → Eval Exit
  | 0, _ => stop .unfinished
  | n + 1, locals => do
    match ← round locals with
    | .more locals => rounds round n locals
    | .ended e => return e

end Eval

/-- The truth of a condition; one that is not given holds. -/
def condition (env : Env) : Option Expr → Eval Bool
  | none => return true
  | some c => return (← c.eval env).value.toBool

mutual
/-- Run a nest, with at most so many rounds of each loop in it. The statements are those of a
unit that returns `output`. -/
def Nest.exec (b : Body) (n : Nat) : Nest → Env → Eval Exit
  | .skip, env => return .on env.locals
  | .seq x y, env => (x.exec b n env).thenOn fun locals => y.exec b n { env with locals }
  | .plain s, env => do
    match ← b.exec env s with
    | .on locals => return .on locals
    | .back v => return .back v
    | .goto _ => Eval.stop .undefined
  | .nested x, env => x.exec b n env
  | .cond c yes no, env => do
    if ← condition env (some c) then yes.exec b n env else execOption b n no env
  | .whileLoop c body, env =>
    Eval.rounds (fun locals => do
      if ← condition { env with locals } (some c) then
        (body.exec b n { env with locals }).thenRound fun locals => return .more locals
      else return .ended (.on locals)) n env.locals
  | .doLoop body c, env =>
    Eval.rounds (fun locals =>
      (body.exec b n { env with locals }).thenRound fun locals => do
        if ← condition { env with locals } (some c) then return .more locals
        else return .ended (.on locals)) n env.locals
  | .forLoop first c last body, env =>
    (execOption b n first env).thenOn fun locals =>
      Eval.rounds (fun locals => do
        if ← condition { env with locals } c then
          (body.exec b n { env with locals }).thenRound fun locals =>
            (execOption b n last { env with locals }).thenMore
        else return .ended (.on locals)) n locals
  | .leave, env => return .leave env.locals
  | .again, env => return .again env.locals

/-- Run a part that may be absent. -/
def execOption (b : Body) (n : Nat) : Option Nest → Env → Eval Exit
  | none, env => return .on env.locals
  | some x, env => x.exec b n env
end

mutual
/-- Add a nest to a block. -/
def Nest.lower : Nest → Block → StateM Workspace Unit
  | .skip, _ => return ()
  | .seq x y, b => do
    x.lower b
    y.lower b
  | .plain s, b => b.add [s]
  | .nested x, b => do x.lower (← b.nested)
  | .cond c yes no, b => b.addIf c yes.lower (lowerOption no)
  | .whileLoop c body, b => b.addWhile c body.lower
  | .doLoop body c, b => b.addDoWhile body.lower c
  | .forLoop first c last body, b => b.addFor (lowerOption first) c (lowerOption last) body.lower
  | .leave, b => modify fun w => (b.breakLoop w).2
  | .again, b => modify fun w => (b.continueLoop w).2

def lowerOption : Option Nest → Option (Block → StateM Workspace Unit)
  | none => none
  | some x => some x.lower
end

mutual
/-- How many labels a nest needs. -/
def Nest.labels : Nest → Nat
  | .skip | .plain _ | .leave | .again => 0
  | .seq x y => x.labels + y.labels
  | .nested x => x.labels
  | .cond _ yes none => 1 + yes.labels
  | .cond _ yes (some no) => 2 + yes.labels + no.labels
  | .whileLoop _ body => 2 + body.labels
  | .doLoop body _ => 3 + body.labels
  | .forLoop first _ last body => labelsOption first + 3 + body.labels + labelsOption last

def labelsOption : Option Nest → Nat
  | none => 0
  | some x => x.labels
end

/-- The branch in front of a loop, if it has a condition. -/
def branchUnless (c : Option Expr) (l : Label) : List Stmt :=
  match c with
  | none => []
  | some c => [.branchFalse c l]

mutual
/-- The statements a nest becomes, with the loop around it and the number of the next label. -/
def Nest.flat (loop : Option LoopTargets) (next : Nat) : Nest → List Stmt
  | .skip => []
  | .seq x y => x.flat loop next ++ y.flat loop (next + x.labels)
  | .plain s => [s]
  | .nested x => x.flat loop next
  | .cond c yes none =>
    .branchFalse c ⟨next, "if.end"⟩ :: yes.flat loop (next + 1) ++ [.place ⟨next, "if.end"⟩]
  | .cond c yes (some no) =>
    .branchFalse c ⟨next + 1, "if.else"⟩ :: yes.flat loop (next + 2) ++
      [.jump ⟨next, "if.end"⟩, .place ⟨next + 1, "if.else"⟩] ++
      no.flat loop (next + 2 + yes.labels) ++ [.place ⟨next, "if.end"⟩]
  | .whileLoop c body =>
    [.place ⟨next, "while.top"⟩, .branchFalse c ⟨next + 1, "while.end"⟩] ++
      body.flat (some ⟨⟨next + 1, "while.end"⟩, ⟨next, "while.top"⟩⟩) (next + 2) ++
      [.jump ⟨next, "while.top"⟩, .place ⟨next + 1, "while.end"⟩]
  | .doLoop body c =>
    .place ⟨next, "do.top"⟩ :: body.flat (some ⟨⟨next + 2, "do.end"⟩, ⟨next + 1, "do.cond"⟩⟩) (next + 3) ++
      [.place ⟨next + 1, "do.cond"⟩, .branchTrue c ⟨next, "do.top"⟩, .place ⟨next + 2, "do.end"⟩]
  | .forLoop first c last body =>
    let own := next + labelsOption first
    flatOption loop next first ++ .place ⟨own, "for.top"⟩ :: branchUnless c ⟨own + 2, "for.end"⟩ ++
      body.flat (some ⟨⟨own + 2, "for.end"⟩, ⟨own + 1, "for.next"⟩⟩) (own + 3) ++
      .place ⟨own + 1, "for.next"⟩ :: flatOption loop (own + 3 + body.labels) last ++
      [.jump ⟨own, "for.top"⟩, .place ⟨own + 2, "for.end"⟩]
  | .leave => (loop.map fun targets => Stmt.jump targets.leave).toList
  | .again => (loop.map fun targets => Stmt.jump targets.again).toList

def flatOption (loop : Option LoopTargets) (next : Nat) : Option Nest → List Stmt
  | none => []
  | some x => x.flat loop next
end

/-- The statements of a unit. -/
def BlockUnit.stream? (w : Workspace) : BlockUnit → Option (List Stmt)
  | .top p => w.programs[p.index]?.map (·.init.toList)
  | .body key =>
    (w.programs[key.program]?).bind fun prog => prog.functions[key.position]?.bind fun d =>
      match d.body with
      | .source _ _ _ stmts => some stmts.toList
      | .host _ => none
  | .detached => none

/-- The unit `u` has got more statements, and the workspace has handed out so many labels. -/
structure BlockUnit.Grows (u : BlockUnit) (w w' : Workspace) (stmts : List Stmt) (labels : Nat) : Prop where
  stream : ∀ {before}, u.stream? w = some before → u.stream? w' = some (before ++ stmts)
  next : w'.nextLabel = w.nextLabel + labels

namespace BlockUnit.Grows

variable {u : BlockUnit} {w w' w'' : Workspace} {stmts stmts' : List Stmt} {labels labels' : Nat}

theorem refl (u : BlockUnit) (w : Workspace) : u.Grows w w [] 0 := ⟨by simp, rfl⟩

theorem trans (h : u.Grows w w' stmts labels) (h' : u.Grows w' w'' stmts' labels') :
    u.Grows w w'' (stmts ++ stmts') (labels + labels') where
  stream hs := by
    rw [h'.stream (h.stream hs), List.append_assoc]
  next := by rw [h'.next, h.next, Nat.add_assoc]

theorem of_eq (h : u.Grows w w' stmts labels) (heq : w' = w'') : u.Grows w w'' stmts labels := heq ▸ h

theorem append (b : Block) (w : Workspace) (stmts : List Stmt) : b.unit.Grows w (b.append w stmts) stmts 0 := by
  cases hu : b.unit with
  | top p =>
    refine ⟨fun {before} hs => ?_, by simp [Block.append, hu, Workspace.modifyProgram]⟩
    obtain ⟨prog, hprog, rfl⟩ := Option.map_eq_some_iff.1 hs
    simp [Block.append, hu, stream?, Workspace.modifyProgram, Array.getElem?_modify, hprog]
  | body key =>
    refine ⟨fun {before} hs => ?_, by simp [Block.append, hu, Workspace.modifyBody, Workspace.modifyProgram]⟩
    obtain ⟨prog, hprog, hs⟩ := Option.bind_eq_some_iff.1 hs
    obtain ⟨d, hd, hs⟩ := Option.bind_eq_some_iff.1 hs
    split at hs
    · next hbody =>
      cases hs
      simp [Block.append, hu, stream?, Workspace.modifyBody, Workspace.modifyProgram,
        Array.getElem?_modify, hprog, hd, hbody]
    · cases hs
  | detached => exact ⟨fun hs => (by cases hs), by simp [Block.append, hu]⟩

/-- A refused request is only recorded. -/
theorem refuse (b : Block) (w : Workspace) (e : CompileError) :
    b.unit.Grows w (b.refuse (α := Unit) w e).2 [] 0 := by
  unfold Block.refuse
  split
  · refine ⟨fun {before} hs => ?_, rfl⟩
    rw [List.append_nil]
    cases hu : b.unit with
    | top p =>
      rw [hu] at hs
      obtain ⟨prog, hprog, rfl⟩ := Option.map_eq_some_iff.1 hs
      simp only [stream?, Workspace.record, Workspace.modifyProgram, Array.getElem?_modify, hprog]
      split <;> rfl
    | body key =>
      rw [hu] at hs
      obtain ⟨prog, hprog, hs⟩ := Option.bind_eq_some_iff.1 hs
      rw [← hs]
      simp only [stream?, Workspace.record, Workspace.modifyProgram, Array.getElem?_modify, hprog]
      split <;> rfl
    | detached =>
      rw [hu] at hs
      cases hs
  · exact .refl _ _

theorem newLabel (u : BlockUnit) (w : Workspace) (name : String) : u.Grows w (w.newLabel name).2 [] 1 := by
  refine ⟨fun {before} hs => ?_, rfl⟩
  rw [List.append_nil, ← hs]
  cases u <;> rfl

theorem newScope (u : BlockUnit) (w : Workspace) (parent : Option ScopeId) (name : String) :
    u.Grows w (w.newScope parent name).2 [] 0 := by
  refine ⟨fun {before} hs => ?_, rfl⟩
  rw [List.append_nil, ← hs]
  cases u <;> rfl

end BlockUnit.Grows

namespace Block

/-- An action on blocks in a loop that appends statements and takes labels for them. -/
def Appends (f : Block → StateM Workspace Unit) (loop : Option LoopTargets) (flat : Nat → List Stmt)
    (labels : Nat) : Prop :=
  ∀ (b : Block) (w : Workspace), b.loop = loop → b.unit.Grows w (f b w).2 (flat w.nextLabel) labels

variable {loop : Option LoopTargets} {yes no : Block → StateM Workspace Unit} {flat flat' : Nat → List Stmt}
  {flatIn : LoopTargets → Nat → List Stmt} {labels labels' : Nat}

open BlockUnit (Grows)

/-- A block inside another one, with the given loop around it. -/
def inner (b : Block) (w : Workspace) (loop : Option LoopTargets) : Block :=
  { b with scope := some (w.newScope b.scope "").1, loop }

variable {b : Block} {w w' : Workspace} {stmts : List Stmt} {before : Nat}

/-- A part in a block of its own. -/
theorem Appends.inside (h : Appends yes loop flat labels) (hw : b.unit.Grows w w' stmts before) :
    b.unit.Grows w (yes (b.inner w' loop) (w'.newScope b.scope "").2).2
      (stmts ++ flat (w.nextLabel + before)) (before + labels) := by
  have := (hw.trans (.newScope b.unit w' b.scope "")).trans (h (b.inner w' loop) _ rfl)
  rw [List.append_nil, Nat.add_zero] at this
  rw [← hw.next]
  exact this

theorem appends_addIf (c : Expr) (hyes : Appends yes loop flat labels) :
    Appends (fun b => b.addIf c yes none) loop (fun next =>
      .branchFalse c ⟨next, "if.end"⟩ :: flat (next + 1) ++ [.place ⟨next, "if.end"⟩]) (1 + labels) := by
  rintro b w rfl
  have hbranch := (Grows.newLabel b.unit w "if.end").trans
    (.append b _ [.branchFalse c ⟨w.nextLabel, "if.end"⟩])
  have : b.unit.Grows w (b.addIf c yes none w).2 _ _ :=
    (hyes.inside hbranch).trans (.append b _ [.place ⟨w.nextLabel, "if.end"⟩])
  simpa using this

theorem appends_addIfElse (c : Expr) (hyes : Appends yes loop flat labels) (hno : Appends no loop flat' labels') :
    Appends (fun b => b.addIf c yes (some no)) loop (fun next =>
      .branchFalse c ⟨next + 1, "if.else"⟩ :: flat (next + 2) ++
        [.jump ⟨next, "if.end"⟩, .place ⟨next + 1, "if.else"⟩] ++ flat' (next + 2 + labels) ++
        [.place ⟨next, "if.end"⟩]) (2 + labels + labels') := by
  rintro b w rfl
  have hbranch := ((Grows.newLabel b.unit w "if.end").trans (.newLabel b.unit _ "if.else")).trans
    (.append b _ [.branchFalse c ⟨w.nextLabel + 1, "if.else"⟩])
  have hjump := (hyes.inside hbranch).trans
    (.append b _ [.jump ⟨w.nextLabel, "if.end"⟩, .place ⟨w.nextLabel + 1, "if.else"⟩])
  have : b.unit.Grows w (b.addIf c yes (some no) w).2 _ _ :=
    (hno.inside hjump).trans (.append b _ [.place ⟨w.nextLabel, "if.end"⟩])
  simpa [Nat.add_assoc] using this

theorem appends_addWhile (c : Expr) (hbody : ∀ targets, Appends yes (some targets) (flatIn targets) labels) :
    Appends (fun b => b.addWhile c yes) loop (fun next =>
      [.place ⟨next, "while.top"⟩, .branchFalse c ⟨next + 1, "while.end"⟩] ++
        flatIn ⟨⟨next + 1, "while.end"⟩, ⟨next, "while.top"⟩⟩ (next + 2) ++
        [.jump ⟨next, "while.top"⟩, .place ⟨next + 1, "while.end"⟩]) (2 + labels) := by
  rintro b w rfl
  have hbranch := ((Grows.newLabel b.unit w "while.top").trans (.newLabel b.unit _ "while.end")).trans
    (.append b _ [.place ⟨w.nextLabel, "while.top"⟩, .branchFalse c ⟨w.nextLabel + 1, "while.end"⟩])
  have : b.unit.Grows w (b.addWhile c yes w).2 _ _ := ((hbody _).inside hbranch).trans
    (.append b _ [.jump ⟨w.nextLabel, "while.top"⟩, .place ⟨w.nextLabel + 1, "while.end"⟩])
  simpa [Nat.add_assoc] using this

theorem appends_addDoWhile (c : Expr) (hbody : ∀ targets, Appends yes (some targets) (flatIn targets) labels) :
    Appends (fun b => b.addDoWhile yes c) loop (fun next =>
      .place ⟨next, "do.top"⟩ :: flatIn ⟨⟨next + 2, "do.end"⟩, ⟨next + 1, "do.cond"⟩⟩ (next + 3) ++
        [.place ⟨next + 1, "do.cond"⟩, .branchTrue c ⟨next, "do.top"⟩, .place ⟨next + 2, "do.end"⟩])
      (3 + labels) := by
  rintro b w rfl
  have hlabels := ((Grows.newLabel b.unit w "do.top").trans (.newLabel b.unit _ "do.cond")).trans
    (.newLabel b.unit _ "do.end")
  have htop := hlabels.trans (.append b _ [.place ⟨w.nextLabel, "do.top"⟩])
  have : b.unit.Grows w (b.addDoWhile yes c w).2 _ _ := ((hbody _).inside htop).trans
    (.append b _ [.place ⟨w.nextLabel + 1, "do.cond"⟩, .branchTrue c ⟨w.nextLabel, "do.top"⟩,
      .place ⟨w.nextLabel + 2, "do.end"⟩])
  simpa [Nat.add_assoc] using this

/-- An action that may be absent. -/
def optional (f : Option (Block → StateM Workspace Unit)) (b : Block) : StateM Workspace Unit :=
  match f with
  | none => return ()
  | some f => f b

theorem Appends.next (h : Appends yes b.loop flat labels) (hw : b.unit.Grows w w' stmts before) :
    b.unit.Grows w (yes b w').2 (stmts ++ flat (w.nextLabel + before)) (before + labels) := by
  have := hw.trans (h b w' rfl)
  rwa [hw.next] at this

theorem appends_branchUnless (c : Option Expr) (l : Label) :
    Appends (fun b => match c with | none => return () | some c => b.add [.branchFalse c l]) loop
      (fun _ => branchUnless c l) 0 := by
  rintro b w rfl
  cases c with
  | none => exact .refl _ _
  | some c => exact .append b w _

theorem appends_addFor {first last : Option (Block → StateM Workspace Unit)} (c : Option Expr)
    {flatBody : LoopTargets → Nat → List Stmt} {labelsBody : Nat}
    (hfirst : Appends (optional first) loop flat labels) (hlast : Appends (optional last) loop flat' labels')
    (hbody : ∀ targets, Appends yes (some targets) (flatBody targets) labelsBody) :
    Appends (fun b => b.addFor first c last yes) loop (fun next =>
      flat next ++ .place ⟨next + labels, "for.top"⟩ :: branchUnless c ⟨next + labels + 2, "for.end"⟩ ++
        flatBody ⟨⟨next + labels + 2, "for.end"⟩, ⟨next + labels + 1, "for.next"⟩⟩ (next + labels + 3) ++
        .place ⟨next + labels + 1, "for.next"⟩ :: flat' (next + labels + 3 + labelsBody) ++
        [.jump ⟨next + labels, "for.top"⟩, .place ⟨next + labels + 2, "for.end"⟩])
      (labels + 3 + labelsBody + labels') := by
  rintro b w rfl
  let outer := b.inner w b.loop
  have hstart : outer.unit.Grows w (optional first outer (w.newScope b.scope "").2).2 _ _ :=
    hfirst.next (b := outer) (.newScope b.unit w b.scope "")
  have hnext := hstart.next
  generalize hw₁ : (optional first outer (w.newScope b.scope "").2).2 = w₁ at hstart hnext
  have hlabels := ((hstart.trans (.newLabel b.unit w₁ "for.top")).trans (.newLabel b.unit _ "for.next")).trans
    (.newLabel b.unit _ "for.end")
  have htop := hlabels.trans (.append outer _ [.place ⟨w₁.nextLabel, "for.top"⟩])
  have hbranch := (appends_branchUnless c ⟨w₁.nextLabel + 2, "for.end"⟩).next (b := outer) htop
  have hround := (hbody ⟨⟨w₁.nextLabel + 2, "for.end"⟩, ⟨w₁.nextLabel + 1, "for.next"⟩⟩).inside hbranch
  have hlast := hlast.next (b := outer) (hround.trans (.append outer _ [.place ⟨w₁.nextLabel + 1, "for.next"⟩]))
  have hall := hlast.trans
    (.append outer _ [.jump ⟨w₁.nextLabel, "for.top"⟩, .place ⟨w₁.nextLabel + 2, "for.end"⟩])
  have := hall.of_eq (show _ = (b.addFor first c last yes w).2 by
    cases first <;> cases c <;> cases last <;> cases hw₁ <;> rfl)
  rw [hnext] at this
  change outer.unit.Grows _ _ _ _
  simpa [Nat.add_assoc] using this

end Block

namespace Nest

open Block (Appends optional)

/-- Blocks turn a nest into its flat form. -/
theorem appends_lower (x : Nest) : ∀ loop, Appends x.lower loop (x.flat loop ·) x.labels := by
  have absent (loop : Option LoopTargets) : Appends (optional (lowerOption none)) loop (flatOption loop · none)
      (labelsOption none) := fun b w _ => .refl _ _
  induction x using Nest.induct with
  | skip => exact fun loop b w _ => .refl _ _
  | seq x y ihx ihy =>
    rintro loop b w rfl
    exact (ihy b.loop).next (ihx b.loop b w rfl)
  | plain s => exact fun loop b w _ => .append b w [s]
  | nested x ih =>
    rintro loop b w rfl
    have := (ih b.loop).inside (.refl b.unit w)
    rw [List.nil_append, Nat.zero_add] at this
    exact this
  | cond c yes no ihyes ihno =>
    intro loop
    cases no with
    | none => exact Block.appends_addIf c (ihyes loop)
    | some no => exact Block.appends_addIfElse c (ihyes loop) (ihno no rfl loop)
  | whileLoop c body ih => exact fun loop => Block.appends_addWhile c fun targets => ih (some targets)
  | doLoop body c ih => exact fun loop => Block.appends_addDoWhile c fun targets => ih (some targets)
  | forLoop first c last body ihfirst ihlast ih =>
    intro loop
    have option (o : Option Nest) (h : ∀ x, o = some x → ∀ loop, Appends x.lower loop (x.flat loop ·) x.labels) :
        Appends (optional (lowerOption o)) loop (flatOption loop · o) (labelsOption o) := by
      cases o with
      | none => exact absent loop
      | some x => exact h x rfl loop
    exact Block.appends_addFor c (option first ihfirst) (option last ihlast) fun targets => ih (some targets)
  | leave =>
    rintro loop b w rfl
    cases hloop : b.loop with
    | none => exact (BlockUnit.Grows.refuse b w _).of_eq (by simp [lower, Block.breakLoop, hloop]; rfl)
    | some targets => exact (BlockUnit.Grows.append b w _).of_eq (by simp [lower, Block.breakLoop, hloop]; rfl)
  | again =>
    rintro loop b w rfl
    cases hloop : b.loop with
    | none => exact (BlockUnit.Grows.refuse b w _).of_eq (by simp [lower, Block.continueLoop, hloop]; rfl)
    | some targets => exact (BlockUnit.Grows.append b w _).of_eq (by simp [lower, Block.continueLoop, hloop]; rfl)

end Nest

/-- The label that a statement places, by its number. -/
def Stmt.placed? : Stmt → Option Nat
  | .place l => some l.uid
  | _ => none

/-- The labels that are placed in a stretch of statements. -/
def placedIn (stmts : List Stmt) : List Nat := stmts.filterMap Stmt.placed?

@[simp, grind =] theorem placedIn_nil : placedIn [] = [] := rfl

@[simp, grind =] theorem placedIn_append (xs ys : List Stmt) : placedIn (xs ++ ys) = placedIn xs ++ placedIn ys :=
  List.filterMap_append

@[simp, grind =] theorem placedIn_place (l : Label) (xs : List Stmt) :
    placedIn (.place l :: xs) = l.uid :: placedIn xs :=
  rfl

@[simp, grind =] theorem placedIn_jump (l : Label) (xs : List Stmt) : placedIn (.jump l :: xs) = placedIn xs := rfl

@[simp, grind =] theorem placedIn_branchTrue (c : Expr) (l : Label) (xs : List Stmt) :
    placedIn (.branchTrue c l :: xs) = placedIn xs := rfl

@[simp, grind =] theorem placedIn_branchFalse (c : Expr) (l : Label) (xs : List Stmt) :
    placedIn (.branchFalse c l :: xs) = placedIn xs := rfl

@[simp, grind =] theorem placedIn_branchUnless (c : Option Expr) (l : Label) : placedIn (branchUnless c l) = [] := by
  cases c <;> rfl

@[simp] theorem placedIn_jumps (loop : Option LoopTargets) (aim : LoopTargets → Label) :
    placedIn (loop.map fun targets => Stmt.jump (aim targets)).toList = [] := by
  cases loop <;> rfl

theorem placedIn_plain {s : Stmt} (h : s.isPlain) : placedIn [s] = [] := by
  cases s <;> first | rfl | cases h

namespace Nest

open List

/-- A nest places the labels it takes, each of them once. -/
theorem placedIn_flat (x : Nest) : ∀ {inside}, x.Fine inside → ∀ loop next,
    placedIn (x.flat loop next) ~ range' next x.labels := by
  have absent (o : Option Nest) (h : ∀ x, o = some x → ∀ {inside}, x.Fine inside → ∀ loop next,
      placedIn (x.flat loop next) ~ range' next x.labels) {inside : Bool} (fine : FineOption inside o)
      (loop : Option LoopTargets) (next : Nat) :
      placedIn (flatOption loop next o) ~ range' next (labelsOption o) := by
    cases o with
    | none => exact .refl _
    | some x => exact h x rfl fine loop next
  induction x using Nest.induct with
  | skip | leave | again => 
    intro inside fine loop next
    simp [flat, labels]
  | seq x y ihx ihy =>
    intro inside fine loop next
    simp only [flat, labels, placedIn_append]
    rw [← range'_append_1]
    exact (ihx fine.1 loop next).append (ihy fine.2 loop _)
  | plain s =>
    intro inside fine loop next
    simp [flat, labels, placedIn_plain fine]
  | nested x ih => exact fun fine loop next => ih fine loop next
  | cond c yes no ihyes ihno =>
    intro inside fine loop next
    cases no with
    | none =>
      have hyes := (ihyes fine.1 loop (next + 1)).count_eq
      have hrange : range' next (1 + yes.labels) = next :: range' (next + 1) yes.labels := by
        rw [Nat.add_comm, range'_succ]
      simp only [flat, labels, hrange]
      grind
    | some no =>
      have hyes := (ihyes fine.1 loop (next + 2)).count_eq
      have hno := (ihno no rfl fine.2 loop (next + 2 + yes.labels)).count_eq
      have hrange : range' next (2 + yes.labels + no.labels) = [next, next + 1] ++
          range' (next + 2) yes.labels ++ range' (next + 2 + yes.labels) no.labels := by
        rw [← range'_append_1, ← range'_append_1, Nat.add_assoc]
        rfl
      simp only [flat, labels, hrange]
      grind
  | whileLoop c body ih =>
    intro inside fine loop next
    have hbody := (ih fine (some ⟨⟨next + 1, "while.end"⟩, ⟨next, "while.top"⟩⟩) (next + 2)).count_eq
    have hrange : range' next (2 + body.labels) = [next, next + 1] ++ range' (next + 2) body.labels := by
      rw [← range'_append_1]
      rfl
    simp only [flat, labels, hrange]
    grind
  | doLoop body c ih =>
    intro inside fine loop next
    have hbody := (ih fine (some ⟨⟨next + 2, "do.end"⟩, ⟨next + 1, "do.cond"⟩⟩) (next + 3)).count_eq
    have hrange : range' next (3 + body.labels) =
        [next, next + 1, next + 2] ++ range' (next + 3) body.labels := by
      rw [← range'_append_1]
      rfl
    simp only [flat, labels, hrange]
    grind
  | forLoop first c last body ihfirst ihlast ih =>
    intro inside fine loop next
    let own := next + labelsOption first
    have hfirst := (absent first ihfirst fine.1 loop next).count_eq
    have hbody := (ih fine.2.2 (some ⟨⟨own + 2, "for.end"⟩, ⟨own + 1, "for.next"⟩⟩) (own + 3)).count_eq
    have hlast := (absent last ihlast fine.2.1 loop (own + 3 + body.labels)).count_eq
    have hrange : range' next (labelsOption first + 3 + body.labels + labelsOption last) =
        range' next (labelsOption first) ++ [own, own + 1, own + 2] ++ range' (own + 3) body.labels ++
          range' (own + 3 + body.labels) (labelsOption last) := by
      simp only [← range'_append_1, Nat.add_assoc, own, append_assoc]
      rfl
    simp only [flat, labels, hrange]
    grind

end Nest
end Stackwork
