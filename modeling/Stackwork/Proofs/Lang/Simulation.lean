import Stackwork.Proofs.Lang.Carrying

/-!
# Generated code does what it means

The code of a term leaves the value of the term on the stack, the code of a statement does
what the statement does to the locals and to the world, and the code of a unit runs its
statements. Terms are by induction on the term, in any code around it and above any
temporaries; units are by induction on the number of statements that are run, with the
position in the statements as the position in the code.
-/
namespace Stackwork

open Line
open List (append_assoc prefix_append)
open Carries (jump push halt)
open Command (placed?)
open Kind (ofTy int)

variable {exe : Executable} {addressOf : Label → Nat} {all front : List (Line Label)} {env : Env}
  {lim : Limits}

theorem Line.words_le {ls : List (Line Label)} (h : ls <+: all) : words ls ≤ words all := by
  obtain ⟨back, rfl⟩ := h
  rw [words_append]
  exact Nat.le_add_right _ _

/-- What the code of a term does wherever it stands. -/
def Term.Carried (exe : Executable) (addressOf : Label → Nat) (all : List (Line Label)) (env : Env)
    (t : Term) : Prop :=
  ∀ front temps w, front ++ t.lines env.literal <+: all →
    Carries exe (Behind exe addressOf all front (env.locals ++ temps) w) (t.eval env w)
      fun v w => Behind exe addressOf all (front ++ t.lines env.literal) (env.locals ++ temps ++ [v]) w

/-- Arguments are left on the stack in order. -/
theorem carries_evalTerms {ts : List Term} (h : ∀ t ∈ ts, t.Carried exe addressOf all env)
    (temps : List Slot) (w : World) (hall : front ++ linesOf env.literal ts <+: all) :
    Carries exe (Behind exe addressOf all front (env.locals ++ temps) w) (evalTerms env ts w)
      fun vs w => Behind exe addressOf all (front ++ linesOf env.literal ts)
        (env.locals ++ temps ++ vs) w := by
  induction ts generalizing front temps w with
  | nil =>
    refine .done (fun σ c h => h.length_le) fun σ c h => ?_
    simpa [linesOf] using h
  | cons t ts ih =>
    obtain ⟨ht, hts⟩ := List.forall_mem_cons.1 h
    rw [linesOf, ← append_assoc] at hall ⊢
    rw [evalTerms]
    refine (ht front temps w ((prefix_append _ _).trans hall)).bind fun v w => ?_
    rw [append_assoc]
    refine (ih hts (temps ++ [v]) w hall).bind fun vs w => ?_
    refine .done (fun σ c h => h.length_le) fun σ c h => ?_
    simpa using h

/-- The branch in front of the second operand of a connective. -/
abbrev branchOver (branch : Opcode) (y : List (Line Label)) : Line Label :=
  ⟨branch, .none, [.ahead (Line.words y + 2)]⟩

/-- The jump behind the second operand. -/
abbrev jumpOver : Line Label := ⟨.jump, .none, [.ahead 1]⟩

theorem append_connectiveLines (branch : Opcode) (short : Int32) (front x y : List (Line Label)) :
    front ++ connectiveLines branch short x y =
      front ++ x ++ [branchOver branch y] ++ y ++ [jumpOver] ++ [pushInt short] := by
  simp [connectiveLines]

/-- The branch of a connective leads to where the result is pushed. -/
theorem resolve_branchOver (branch : Opcode) (y : List (Line Label)) :
    (Item.ahead (words y + 2)).resolve addressOf (words front + 1) =
      UInt32.ofNat (words (front ++ [branchOver branch y] ++ y ++ [jumpOver])) := by
  have : words (front ++ [branchOver branch y] ++ y ++ [jumpOver]) =
      words front + 1 + 1 + (words y + 2) := by
    simp
    omega
  rw [this]
  rfl

/-- The jump behind the second operand leads over that. -/
theorem resolve_jumpOver {short : Int32} (hshort : (pushInt short : Line Label).args = []) :
    (Item.ahead 1).resolve addressOf (words front + 1) =
      UInt32.ofNat (words (front ++ [jumpOver] ++ [pushInt short])) := by
  have : words (front ++ [jumpOver] ++ [pushInt short]) = words front + 1 + 1 + 1 := by
    simp [hshort]
  rw [this]
  rfl

/-- The branch of a connective leads to where the result is pushed or stays with the second
operand. -/
theorem Carries.connective (b : Bool) {short : Int32} {x y : Term}
    (hshort : (pushInt short : Line Label).args = []) (small : words all < operandLimit)
    (hx : x.Carried exe addressOf all env) (hy : y.Carried exe addressOf all env)
    {temps : List Slot} {w : World}
    (hall : front ++ connectiveLines (.branch b) short (x.lines env.literal) (y.lines env.literal) <+: all) :
    Carries exe (Behind exe addressOf all front (env.locals ++ temps) w)
      ((x.eval env >>= fun v => if v.toBool = b then return .ofInt short else y.eval env) w)
      fun v w => Behind exe addressOf all
        (front ++ connectiveLines (.branch b) short (x.lines env.literal) (y.lines env.literal))
        (env.locals ++ temps ++ [v]) w := by
  rw [append_connectiveLines] at hall ⊢
  have hjump := (prefix_append _ _).trans hall
  have hsecond := (prefix_append _ _).trans hjump
  have hfirst := (prefix_append _ _).trans hsecond
  refine (hx front temps w ((prefix_append _ _).trans hfirst)).bind fun v w => ?_
  refine .first (.branch hfirst (resolve_branchOver ..) (Nat.lt_of_le_of_lt (words_le hjump) small) v rfl) ?_
  by_cases hv : v.toBool = b
  · rw [if_pos hv, if_pos hv]
    exact push (pushesCell_pushInt short) hall rfl
  · rw [if_neg hv, if_neg hv, ← bind_pure (y.eval env)]
    refine (hy _ temps w hsecond).bind fun v' w => ?_
    exact jump hjump (resolve_jumpOver hshort) (Nat.lt_of_le_of_lt (words_le hall) small) rfl

/-- The code of a term leaves the value of the term on the stack. -/
theorem Term.carried (sim : Simulates exe env.call) (small : lim.Small)
    (short : words all < operandLimit) (t : Term) (fits : ∀ a ∈ t.accesses, a.Fits lim) :
    t.Carried exe addressOf all env := by
  induction t using Term.induct with
  | int v => exact fun front temps w hall => .push (pushesCell_pushInt v) hall rfl
  | float bits => exact fun front temps w hall => .push (pushesCell_pushFloat bits) hall rfl
  | text s => exact fun front temps w hall => .push (pushesCell_pushObj _) hall rfl
  | load v =>
    have hv : v.Fits lim := fits (.load v) (List.mem_singleton.2 rfl)
    exact fun front temps w hall => .load hv.nonneg (hv.lt_operandLimit small) hall
  | unary op k x ihx =>
    intro front temps w hall
    rw [lines, ← append_assoc] at hall ⊢
    refine (ihx fits front temps w ((prefix_append _ _).trans hall)).bind fun v w => ?_
    refine (Carries.unary hall v).bind fun t w => ?_
    exact .done (fun σ c h => h.length_le) fun σ c h => h
  | binary op k x y ihx ihy =>
    intro front temps w hall
    obtain ⟨fx, fy⟩ := List.forall_mem_append.1 fits
    rw [lines, ← append_assoc, ← append_assoc] at hall ⊢
    have hy := (prefix_append _ _).trans hall
    refine (ihx fx front temps w ((prefix_append _ _).trans hy)).bind fun v w => ?_
    rw [append_assoc]
    refine (ihy fy _ (temps ++ [v]) w hy).bind fun v' w => ?_
    rw [← append_assoc]
    refine (Carries.binary hall v v').bind fun t w => ?_
    exact .done (fun σ c h => h.length_le) fun σ c h => h
  | both x y ihx ihy =>
    intro front temps w hall
    obtain ⟨fx, fy⟩ := List.forall_mem_append.1 fits
    have heval : (both x y).eval env = x.eval env >>= fun v =>
        if v.toBool = false then return .ofInt 0 else y.eval env := by
      rw [eval]
      refine bind_congr fun v => ?_
      cases v.toBool <;> rfl
    rw [heval]
    exact .connective false rfl short (ihx fx) (ihy fy) hall
  | either x y ihx ihy =>
    intro front temps w hall
    obtain ⟨fx, fy⟩ := List.forall_mem_append.1 fits
    exact .connective true rfl short (ihx fx) (ihy fy) hall
  | select k c a b ihc iha ihb =>
    intro front temps w hall
    obtain ⟨fca, fb⟩ := List.forall_mem_append.1 fits
    obtain ⟨fc, fa⟩ := List.forall_mem_append.1 fca
    rw [lines, ← append_assoc, ← append_assoc, ← append_assoc] at hall ⊢
    have hb := (prefix_append _ _).trans hall
    have ha := (prefix_append _ _).trans hb
    refine (ihc fc front temps w ((prefix_append _ _).trans ha)).bind fun v w => ?_
    rw [append_assoc]
    refine (iha fa _ (temps ++ [v]) w ha).bind fun v' w => ?_
    rw [append_assoc env.locals]
    refine (ihb fb _ (temps ++ [v] ++ [v']) w hb).bind fun v'' w => ?_
    simp only [← append_assoc]
    exact .select hall v v' v''
  | call index args ih =>
    intro front temps w hall
    obtain ⟨fargs, fcall⟩ := List.forall_mem_append.1 fits
    obtain ⟨nonneg, lt⟩ : Access.Fits lim (.call index) := fcall _ (List.mem_singleton.2 rfl)
    have hlt : index < operandLimit := by
      have := small.functions
      omega
    have hargs (t : Term) (ht : t ∈ args) : t.Carried exe addressOf all env :=
      ih t ht fun a ha => fargs a (mem_accessesOf.2 ⟨t, ht, ha⟩)
    rw [lines, ← append_assoc] at hall ⊢
    refine (carries_evalTerms hargs temps w ((prefix_append _ _).trans hall)).bind fun vs w => ?_
    exact .call hall nonneg hlt sim vs
  | callValue f args ihf ih =>
    intro front temps w hall
    obtain ⟨fargs, ff⟩ := List.forall_mem_append.1 fits
    have hargs (t : Term) (ht : t ∈ args) : t.Carried exe addressOf all env :=
      ih t ht fun a ha => fargs a (mem_accessesOf.2 ⟨t, ht, ha⟩)
    rw [lines, ← append_assoc, ← append_assoc] at hall ⊢
    have hf := (prefix_append _ _).trans hall
    refine (carries_evalTerms hargs temps w ((prefix_append _ _).trans hf)).bind fun vs w => ?_
    rw [append_assoc]
    refine (ihf ff _ (temps ++ vs) w hf).bind fun v w => ?_
    rw [← append_assoc]
    exact .callValue hall sim vs v

theorem Line.pushes_null (k : Kind) : (⟨.pushNull, k, []⟩ : Line Label).PushesCell ⟨.zero, .obj⟩ :=
  fun _ _ _ _ _ => (Machine.Cells.push .zero .obj).goto (by simp)

theorem Line.pushes_zero (k : Kind) :
    (⟨.pushZero, k, []⟩ : Line Label).PushesCell ⟨.zero, if k = .int then .int else .float⟩ := by
  intro addressOf all front depth size cells o hall
  simp only [Effect, Machine.execute]
  split <;> exact (Machine.Cells.push _ _).goto (by simp)

variable {commands : List Command} {l : Label} {s : Stmt}

/-- A label that is placed once leads to where it is placed. -/
theorem labelAddress_eq {handle : String → UInt64} {j : Nat}
    (once : (commands.filterMap placed?).Nodup) (hj : commands[j]? = some (.place l)) :
    labelAddress handle commands l = words (bodyLines handle (commands.take j)) := by
  obtain ⟨a, b, rfl, haddress⟩ := exists_labelAddress handle (List.mem_of_getElem? hj)
  have hsplit : ((a ++ .place l :: b).filterMap placed?) =
      a.filterMap placed? ++ l :: b.filterMap placed? := by
    simp [placed?]
  rw [hsplit, List.nodup_append] at once
  obtain ⟨-, hb, hab⟩ := once
  have hmem : ∀ {cs : List Command}, .place l ∈ cs → l ∈ cs.filterMap placed? :=
    fun h => List.mem_filterMap.2 ⟨_, h, rfl⟩
  obtain hlt | rfl | hgt := Nat.lt_trichotomy j a.length
  · rw [List.getElem?_append_left hlt] at hj
    exact absurd rfl (hab l (hmem (List.mem_of_getElem? hj)) l (List.mem_cons_self ..))
  · rw [haddress, List.take_left]
  · rw [List.getElem?_append_right (by omega)] at hj
    obtain ⟨n, hn⟩ : ∃ n, j - a.length = n + 1 := ⟨j - a.length - 1, by omega⟩
    rw [hn, List.getElem?_cons_succ] at hj
    exact absurd (hmem (List.mem_of_getElem? hj)) (List.nodup_cons.1 hb).1

theorem take_bodyLines_initial (handle : String → UInt64) (output : Option Ty)
    (commands : List Command) (i : Nat) :
    bodyLines handle (commands.take i) <+: unitLines handle output commands := by
  refine List.IsPrefix.trans ⟨bodyLines handle (commands.drop i), ?_⟩ (prefix_append _ _)
  rw [bodyLines, bodyLines, ← List.flatMap_append, List.take_append_drop]
  rfl

theorem Stmt.eq_place (h : s.places l) : s = .place l := by
  cases s with
  | place l' => rw [of_decide_eq_true h]
  | _ => cases h

/-- Every statement has its command. -/
theorem Generated.checks_at {ctx : Context} {stmts : List Stmt} (h : Generated ctx stmts commands) {i : Nat}
    (hs : stmts[i]? = some s) : ∃ c, commands[i]? = some c ∧ s.Checks ctx c := by
  obtain ⟨hlen, hget⟩ := List.forall₂_iff_get.1 h.checks
  obtain ⟨hi, rfl⟩ := List.getElem?_eq_some_iff.1 hs
  exact ⟨_, List.getElem?_eq_getElem (hlen ▸ hi), hget i hi (hlen ▸ hi)⟩

/-- The statements of a body have been checked, and their accesses can be written. -/
structure Body.Laid (b : Body) (ctx : Context) (lim : Limits) (commands : List Command) : Prop where
  generated : Generated ctx b.stmts commands
  table : b.table = ctx.table
  output : b.output = ctx.output
  proper : ctx.table.Proper
  small : lim.Small
  fits : ∀ c ∈ commands, ∀ a ∈ c.accesses, a.Fits lim
  short : Line.words (unitLines b.literal b.output commands) < operandLimit

namespace Body

/-- The code of a body is at work in front of a statement. -/
def Before (exe : Executable) (b : Body) (commands : List Command) (i : Nat) :
    List Slot → World → Situation → Config → Prop :=
  Behind exe (labelAddress b.literal commands) (unitLines b.literal b.output commands)
    (bodyLines b.literal (commands.take i))

/-- A statement has led to where it leads. -/
def Reached (exe : Executable) (b : Body) (commands : List Command) (i : Nat) (locals : List Slot) :
    Course → World → Situation → Config → Prop
  | .on locals' => b.Before exe commands (i + 1) locals'
  | .goto j => b.Before exe commands j locals
  | .back v => fun w σ => σ.Back exe v w

/-- An environment for the statements of a body. -/
structure Suits (b : Body) (exe : Executable) (env : Env) : Prop where
  table : env.table = b.table
  literal : env.literal = b.literal
  call : Simulates exe env.call

theorem Suits.setLocals {b : Body} (suits : b.Suits exe env) (locals : List Slot) :
    b.Suits exe { env with locals } :=
  ⟨suits.table, suits.literal, suits.call⟩

variable {b : Body} {ctx : Context} {commands : List Command}

section

variable (laid : b.Laid ctx lim commands) (suits : b.Suits exe env)
include laid suits

variable {w : World} {i : Nat}

variable {t : Term} {e : Expr} {s : Stmt} {v : Variable} {c : Command} {l : Label}

/-- The code of a term in a unit. -/
theorem Laid.carries_term (fits : ∀ a ∈ t.accesses, a.Fits lim)
    (hall : front ++ t.lines b.literal <+: unitLines b.literal b.output commands) :
    Carries exe (Behind exe (labelAddress b.literal commands) (unitLines b.literal b.output commands)
        front env.locals w) (t.eval env w)
      fun v w => Behind exe (labelAddress b.literal commands) (unitLines b.literal b.output commands)
        (front ++ t.lines b.literal) (env.locals ++ [v]) w := by
  have carried : t.Carried exe (labelAddress b.literal commands)
      (unitLines b.literal b.output commands) env := t.carried suits.call laid.small laid.short fits
  have h := carried front [] w
  rw [suits.literal, List.append_nil] at h
  exact h hall

/-- A checked expression means what its term means. -/
theorem Laid.eval_eq {x : Typed} (checked : e.check ctx = .ok x) (fits : ∀ a ∈ x.term.accesses, a.Fits lim) :
    e.eval env = (fun v => ⟨v, x.type⟩) <$> x.term.eval env := by
  refine e.eval_of_check (suits.table.trans laid.table) laid.proper x checked fun index hindex => ?_
  have hfits : Access.Fits lim (.call index) := fits _ hindex
  have hsmall := laid.small.functions
  exact ⟨hfits.1, by have := hfits.2; omega⟩

omit laid suits in
theorem exec_of_assigned (shape : s.assigned? = some (v, e)) : b.exec env s = store env v e := by
  cases s <;> cases shape <;> rfl

/-- A term whose value is assigned. -/
theorem Laid.carries_assign (fits : ∀ a ∈ (Command.store v t).accesses, a.Fits lim)
    (hnext : bodyLines b.literal (commands.take (i + 1)) =
      bodyLines b.literal (commands.take i) ++ (Command.store v t).lines b.literal)
    (hall : bodyLines b.literal (commands.take (i + 1)) <+: unitLines b.literal b.output commands) :
    Carries exe (b.Before exe commands i env.locals w)
      ((do return Course.on (← env.assign v (← t.eval env)) : Eval Course) w)
      (b.Reached exe commands i env.locals) := by
  obtain ⟨ft, fv⟩ := List.forall_mem_append.1 fits
  have hv : v.Fits lim := fv (.store v) (List.mem_singleton.2 rfl)
  rw [Command.lines, ← append_assoc] at hnext
  rw [hnext] at hall
  refine (laid.carries_term suits ft ((prefix_append _ _).trans hall)).bind fun x w => ?_
  refine (Carries.store hv.nonneg (hv.lt_operandLimit laid.small) hall x).bind fun locals w => ?_
  refine .done (fun σ c h => h.length_le) fun σ c h => ?_
  rw [Reached, Before, hnext]
  exact h

omit suits in
/-- The label of a command is placed somewhere. -/
theorem Laid.exists_target (hc : c ∈ commands) (hl : c.label? = some l) :
    ∃ front' : List (Line Label), labelAddress b.literal commands l = words front' ∧
      words front' < operandLimit := by
  obtain ⟨x, y, hxy, haddress⟩ :=
    exists_labelAddress b.literal (place_mem_of_unplaced laid.generated.placed hc hl)
  have htake : commands.take x.length = x := by rw [hxy, List.take_left]
  have hle := words_le (take_bodyLines_initial b.literal b.output commands x.length)
  rw [htake] at hle
  exact ⟨_, haddress, Nat.lt_of_le_of_lt hle laid.short⟩

omit suits in
/-- A jump to a label leads in front of the statement that places it. -/
theorem Laid.carries_goto {locals cells : List Slot}
    (hjump : ∀ front', labelAddress b.literal commands l = words front' → words front' < operandLimit →
      Carries exe (Behind exe (labelAddress b.literal commands) (unitLines b.literal b.output commands) front cells w)
        (.ok () w) fun _ _ =>
          Behind exe (labelAddress b.literal commands) (unitLines b.literal b.output commands) front' locals w) :
    Carries exe (Behind exe (labelAddress b.literal commands) (unitLines b.literal b.output commands)
      front cells w) (b.goto l w) (b.Reached exe commands i locals) := by
  unfold goto
  cases hfound : b.stmts.findIdx? (·.places l) with
  | none => exact fun settled => by cases settled
  | some j =>
    have hs : b.stmts[j]? = some (.place l) := by
      obtain ⟨hlt, hplaces, -⟩ := List.findIdx?_eq_some_iff_getElem.1 hfound
      rw [List.getElem?_eq_getElem hlt, Stmt.eq_place hplaces]
    obtain ⟨c, hc, checks⟩ := laid.generated.checks_at hs
    have hplace : commands[j]? = some (.place l) := by
      cases checks with
      | place => exact hc
      | assign shape | stepInt shape | stepFloat shape => cases shape
    have haddress : labelAddress b.literal commands l = _ :=
      labelAddress_eq laid.generated.once hplace
    have hshort := Nat.lt_of_le_of_lt (words_le (take_bodyLines_initial b.literal b.output commands j))
      laid.short
    exact .first (hjump _ haddress hshort) (.done (fun σ c h => h.length_le) fun σ c h => h)

/-- A term on whose value a branch is taken. -/
theorem Laid.carries_branch (taken : Bool) (hc : c ∈ commands) (hl : c.label? = some l)
    (fits : ∀ a ∈ t.accesses, a.Fits lim)
    (hnext : bodyLines b.literal (commands.take (i + 1)) = bodyLines b.literal (commands.take i) ++
      (t.lines b.literal ++ [⟨.branch taken, .none, [.address l]⟩]))
    (hall : bodyLines b.literal (commands.take (i + 1)) <+: unitLines b.literal b.output commands) :
    Carries exe (b.Before exe commands i env.locals w)
      ((t.eval env >>= fun v => if v.toBool = taken then b.goto l else return .on env.locals) w)
      (b.Reached exe commands i env.locals) := by
  rw [← append_assoc] at hnext
  rw [hnext] at hall
  refine (laid.carries_term suits fits ((prefix_append _ _).trans hall)).bind fun v w => ?_
  by_cases hv : v.toBool = taken
  · rw [if_pos hv]
    refine laid.carries_goto fun front' haddress hshort => ?_
    exact .branch hall (congrArg UInt32.ofNat haddress) hshort v (by rw [if_pos hv])
  · rw [if_neg hv]
    obtain ⟨front', haddress, hshort⟩ := laid.exists_target hc hl
    exact .branch hall (congrArg UInt32.ofNat haddress) hshort v (by rw [Reached, Before, hnext, if_neg hv])

/-- The code of a statement does what the statement means. -/
theorem Laid.carries_exec (hc : commands[i]? = some c) (checks : s.Checks ctx c) (w : World) :
    Carries exe (b.Before exe commands i env.locals w) (b.exec env s w)
      (b.Reached exe commands i env.locals) := by
  have hfits := laid.fits c (List.mem_of_getElem? hc)
  have hnext : bodyLines b.literal (commands.take (i + 1)) =
      bodyLines b.literal (commands.take i) ++ c.lines b.literal := by
    simp [bodyLines, List.take_add_one, hc]
  have hall := take_bodyLines_initial b.literal b.output commands (i + 1)
  cases checks with
  | @assign _ v e x shape here checked fits =>
    obtain ⟨fx, -⟩ := List.forall_mem_append.1 hfits
    rw [Typed.accesses_as] at fx
    have hexec : b.exec env s = (do return .on (← env.assign v (← (x.as v.type).eval env))) := by
      rw [exec_of_assigned shape, store, laid.eval_eq suits checked fx, Typed.eval_as]
      simp only [map_eq_pure_bind, bind_assoc, pure_bind]
    rw [hexec]
    exact laid.carries_assign suits hfits hnext hall
  | @stepInt _ v onInt onFloat shape here kind =>
    have hexec : b.exec env s =
        (do return .on (← env.assign v (← (Term.unary onInt v.kind (.load v)).eval env))) := by
      cases s <;> cases shape <;>
        simp [exec, step, kind, Variable.kind, ofTy, Kind.ofTyKind, Term.eval, UnaryCode.on?,
          UnaryCode.onInt, Tagged.int, int]
    rw [hexec]
    exact laid.carries_assign suits hfits hnext hall
  | @stepFloat _ v onInt onFloat shape here kind =>
    have hexec : b.exec env s = (do return .on (← env.assign v
        (← (Term.binary onFloat v.kind (.load v) (.float 0x3ff0000000000000)).eval env))) := by
      have hone : (⟨0x3ff0000000000000⟩ : Slot).toFloat = 1 := rfl
      cases s <;> cases shape <;>
        simp [exec, step, kind, Variable.kind, ofTy, Kind.ofTyKind, Term.eval, BinaryCode.on?,
          BinaryCode.onFloat, Tagged.float, Kind.float, int, hone]
    rw [hexec]
    exact laid.carries_assign suits hfits hnext hall
  | @eval e x checked =>
    rw [Command.lines, ← append_assoc] at hnext
    rw [exec, laid.eval_eq suits checked hfits, map_eq_pure_bind, bind_assoc]
    rw [hnext] at hall
    refine (laid.carries_term suits hfits ((prefix_append _ _).trans hall)).bind fun x w => ?_
    exact Carries.drop hall x (by rw [Reached, Before, hnext])
  | retTop top =>
    have hexec : b.exec env (.ret none) = Eval.halt := by
      simp only [exec, laid.output, top]
    rw [hnext] at hall
    rw [hexec]
    exact halt hall
  | retVoid output kind =>
    have hexec : b.exec env (.ret none) = return .back .zero := by
      simp only [exec, laid.output, output]
    rw [hnext] at hall
    rw [hexec]
    exact Carries.retNothing hall rfl
  | @retValue out e x output kind checked fits =>
    rw [Command.lines, ← append_assoc] at hnext
    rw [hnext] at hall
    have fx := hfits
    rw [Command.accesses, Typed.accesses_as] at fx
    have hexec : b.exec env (.ret (some e)) = (do return .back (← (x.as out).eval env)) := by
      simp only [exec, laid.output, output]
      rw [laid.eval_eq suits checked fx, Typed.eval_as]
      simp only [map_eq_pure_bind, bind_assoc, pure_bind]
    rw [hexec]
    refine (laid.carries_term suits hfits ((prefix_append _ _).trans hall)).bind fun v w => ?_
    exact Carries.retValue (fun h => kind (Kind.ofTy_eq_none.1 h)) hall v rfl
  | @jump l =>
    rw [hnext] at hall
    rw [exec]
    refine laid.carries_goto fun front' haddress hshort => ?_
    exact jump hall (congrArg UInt32.ofNat haddress) hshort rfl
  | @branchTrue e l x checked kind =>
    rw [exec, laid.eval_eq suits checked hfits, map_eq_pure_bind, bind_assoc]
    exact laid.carries_branch suits true (List.mem_of_getElem? hc) rfl hfits hnext hall
  | @branchFalse e l x checked kind =>
    have hexec : b.exec env (.branchFalse e l) = x.term.eval env >>= fun v =>
        if v.toBool = false then b.goto l else return .on env.locals := by
      rw [exec, laid.eval_eq suits checked hfits, map_eq_pure_bind, bind_assoc]
      refine bind_congr fun v => ?_
      rw [pure_bind]
      cases v.toBool <;> rfl
    rw [hexec]
    exact laid.carries_branch suits false (List.mem_of_getElem? hc) rfl hfits hnext hall
  | place =>
    rw [Command.lines, List.append_nil] at hnext
    refine .done (fun σ c h => h.length_le) fun σ c h => ?_
    rw [Reached, Before, hnext]
    exact h
  | halt =>
    rw [hnext] at hall
    exact halt hall

omit suits in
/-- Behind the last statement the unit returns zero. -/
theorem Laid.carries_end (hi : b.stmts.length ≤ i) (locals : List Slot) (w : World) :
    Carries exe (b.Before exe commands i locals w) (.ok .zero w) fun v w σ => σ.Back exe v w := by
  have hlen := laid.generated.checks.length_eq
  rw [Before, List.take_of_length_le (by omega), unitLines]
  cases b.output with
  | none =>
    rw [epilogueLines, List.append_nil]
    exact .fallOff rfl
  | some out =>
    simp only [epilogueLines]
    split
    · exact .retNothing List.prefix_rfl rfl
    · next hvoid =>
      have hk : ofTy out ≠ .none := fun h => hvoid (Kind.ofTy_eq_none.1 h)
      have hret : ∀ (op : Opcode) (ls : List (Line Label)),
          ls ++ [⟨op, ofTy out, []⟩] ++ [⟨.ret, ofTy out, []⟩] =
            ls ++ [⟨op, ofTy out, []⟩, ⟨.ret, ofTy out, []⟩] := by simp
      split
      · rw [← hret]
        refine .first (push (pushes_null _) (prefix_append _ _) rfl) ?_
        exact .retValue hk List.prefix_rfl .zero rfl
      · rw [← hret]
        refine .first (push (pushes_zero _) (prefix_append _ _) rfl) ?_
        exact .retValue hk List.prefix_rfl .zero rfl

/-- The code of a unit runs its statements. -/
theorem Laid.carries_run (fuel : Nat) (i : Nat) (w : World) :
    Carries exe (b.Before exe commands i env.locals w) (b.run fuel env i w)
      fun v w σ => σ.Back exe v w := by
  induction fuel generalizing i env w with
  | zero => exact fun settled => by cases settled
  | succ fuel ih =>
    rw [run]
    cases hs : b.stmts[i]? with
    | none => exact laid.carries_end (List.getElem?_eq_none_iff.1 hs) env.locals w
    | some s =>
      obtain ⟨c, hc, checks⟩ := laid.generated.checks_at hs
      refine (laid.carries_exec suits hc checks w).bind fun course w => ?_
      cases course with
      | on locals => exact ih (suits.setLocals locals) (i + 1) w
      | goto j => exact ih suits j w
      | back v => exact .done (fun σ c h => h.length_le) fun σ c h => h

end

end Body

end Stackwork
