import Stackwork.Proofs.Lang.Nesting

/-!
# Lowering keeps the meaning of nests

The flat form of a nest does what the nest does. Both directions are by induction on the nest,
with the positions to which its ends lead as parameters: behind the nest, and the two targets of
the loop around it. For a loop, one round of the nest is related to the statements from the top
of the loop to where they come back to it; the statements left to run bound the rounds. What
the rest of the unit does is fixed once, as the outcome `final` of the whole run.
-/
namespace Stackwork

open Eval Stackwork.EStateM

/-- An outcome of a run that has come to its end. -/
def Settled {α : Type} (r : EStateM.Result Stop World α) : Prop := ∀ w, r ≠ .error .unfinished w

/-- The statement that branches on a condition. -/
def Stmt.branch : Bool → Expr → Label → Stmt
  | true => .branchTrue
  | false => .branchFalse

namespace Body

/-- Run at most so many statements from a position on, up to the end of the unit. -/
def follow (b : Body) : Nat → Env → Nat → Eval Exit
  | 0, _, _ => Eval.stop .unfinished
  | n + 1, env, i =>
    match b.stmts[i]? with
    | none => return .on env.locals
    | some s => do
      match ← b.exec env s with
      | .on locals => b.follow n { env with locals } (i + 1)
      | .goto j => b.follow n env j
      | .back v => return .back v

end Body

/-- What a unit returns; behind its end it is zero. -/
def Exit.result : Exit → Slot
  | .back v => v
  | _ => .zero

/-- A run is what is followed up to the end, without the locals. -/
theorem Body.run_eq_follow (b : Body) (n : Nat) (env : Env) (i : Nat) :
    b.run n env i = Exit.result <$> b.follow n env i := by
  induction n generalizing env i with
  | zero => rfl
  | succ n ih =>
    rw [run, follow]
    cases b.stmts[i]? with
    | none => rfl
    | some s =>
      simp only [map_bind]
      refine bind_congr fun course => ?_
      cases course with
      | on locals | goto j => exact ih _ _
      | back v => rfl

section

variable {α β : Type} {final : EStateM.Result Stop World Exit}

/-- An evaluation ends well in `Q`, or it ends as the whole run does. -/
def Eval.Meets (final : EStateM.Result Stop World Exit) (x : Eval α) (Q : α → World → Prop) (w : World) :
    Prop :=
  match x w with
  | .ok a w' => Q a w'
  | .error e w' => final = .error e w'

namespace Eval

variable {x : Eval α} {f : α → Eval β} {w : World}

variable {Q Q' : α → World → Prop}

theorem meets_pure {a : α} : (pure a : Eval α).Meets final Q w ↔ Q a w := .rfl

theorem meets_bind {Q : β → World → Prop} :
    (x >>= f).Meets final Q w ↔ x.Meets final (fun a => (f a).Meets final Q) w := by
  unfold Meets
  cases h : x w with
  | ok a w' => rw [bind_of_ok h]
  | error e w' => rw [bind_of_error h]

theorem Meets.mono_of_ok (h : x.Meets final Q w) (hQ : ∀ a w', x w = .ok a w' → Q a w' → Q' a w') :
    x.Meets final Q' w := by
  unfold Meets at h ⊢
  split
  · next heq =>
    rw [heq] at h
    exact hQ _ _ heq h
  · next heq =>
    rw [heq] at h
    exact h

theorem Meets.mono (h : x.Meets final Q w) (hQ : ∀ a w', Q a w' → Q' a w') : x.Meets final Q' w :=
  h.mono_of_ok fun a w' _ => hQ a w'

theorem meets_eq {x : Eval Exit} : x.Meets final (fun e w' => final = .ok e w') w ↔ x w = final := by
  unfold Meets
  cases h : x w <;> exact eq_comm

/-- An evaluation that is the beginning of the whole run, with a bound for the rest of it. -/
theorem exists_of_meets {f : Nat → α → Eval Exit} (h : x.Meets final (fun a w' => ∃ k, f k a w' = final) w) :
    ∃ k, (x >>= f k) w = final := by
  unfold Meets at h
  split at h
  · next heq =>
    obtain ⟨k, hk⟩ := h
    exact ⟨k, by rw [bind_of_ok heq, hk]⟩
  · next heq => exact ⟨0, by rw [bind_of_error heq, h]⟩

end Eval

/-- Where the ends of a part of a nest lead. -/
structure Goals where
  next : List Slot → World → Prop
  leave : List Slot → World → Prop
  again : List Slot → World → Prop

/-- A part of a nest has come to its end. To go back to the caller ends the whole run. -/
def Exit.At (final : EStateM.Result Stop World Exit) (q : Goals) : Exit → World → Prop
  | .on locals, w => q.next locals w
  | .leave locals, w => q.leave locals w
  | .again locals, w => q.again locals w
  | .back v, w => final = .ok (.back v) w

/-- The run ends as the nest does. -/
def Goals.whole (final : EStateM.Result Stop World Exit) : Goals where
  next l w := final = .ok (.on l) w
  leave l w := final = .ok (.leave l) w
  again l w := final = .ok (.again l) w

def Round.At (final : EStateM.Result Stop World Exit) (more : List Slot → World → Prop) (q : Goals) :
    Round → World → Prop
  | .more locals, w => more locals w
  | .ended e, w => e.At final q w

namespace Eval

variable {q : Goals} {w : World} {more : List Slot → World → Prop}

variable {x : Eval Exit}

theorem meets_whole : x.Meets final (Exit.At final (.whole final)) w ↔ x w = final := by
  rw [← meets_eq]
  constructor <;> exact fun h => h.mono fun e _ h => by cases e <;> exact h

theorem meets_thenOn {f : List Slot → Eval Exit} : (x.thenOn f).Meets final (Exit.At final q) w ↔
      x.Meets final (Exit.At final { q with next := fun l => (f l).Meets final (Exit.At final q) }) w := by
  rw [thenOn, meets_bind]
  constructor <;> exact fun h => h.mono fun e _ h => by cases e <;> exact h

theorem meets_thenRound {f : List Slot → Eval Round} : (x.thenRound f).Meets final (Round.At final more q) w ↔
      x.Meets final (Exit.At final
        { next := fun l => (f l).Meets final (Round.At final more q)
          leave := q.next
          again := fun l => (f l).Meets final (Round.At final more q) }) w := by
  rw [thenRound, meets_bind]
  constructor <;> exact fun h => h.mono fun e _ h => by cases e <;> exact h

theorem meets_thenMore :
    x.thenMore.Meets final (Round.At final more q) w ↔ x.Meets final (Exit.At final { q with next := more }) w := by
  rw [thenMore, meets_bind]
  constructor <;> exact fun h => h.mono fun e _ h => by cases e <;> exact h

theorem meets_rounds_succ {round : List Slot → Eval Round} {n : Nat} {l : List Slot} :
    (rounds round (n + 1) l).Meets final (Exit.At final q) w ↔
      (round l).Meets final
        (Round.At final (fun l => (rounds round n l).Meets final (Exit.At final q)) q) w := by
  rw [rounds, meets_bind]
  constructor <;> exact fun h => h.mono fun e _ h => by cases e <;> exact h

end Eval
end

namespace Body

variable {b : Body} {n i j : Nat} {env : Env} {w : World} {s : Stmt} {c : Expr} {l : Label}

/-- A unit has some statements from position `i` up to position `j`, and their labels are placed
nowhere before them. -/
structure Spans (b : Body) (i : Nat) (stmts : List Stmt) (j : Nat) : Prop where
  stmt : ∀ {k s}, stmts[k]? = some s → b.stmts[i + k]? = some s
  label : ∀ {k l}, stmts[k]? = some (.place l) → b.stmts.findIdx? (·.places l) = some (i + k)
  stop : i + stmts.length = j

namespace Spans

variable {xs ys : List Stmt}

theorem split (h : b.Spans i (xs ++ ys) j) : ∃ mid, b.Spans i xs mid ∧ b.Spans mid ys j := by
  have left {k : Nat} {s} (hk : xs[k]? = some s) : (xs ++ ys)[k]? = some s := by
    rw [List.getElem?_append_left (List.getElem?_eq_some_iff.1 hk).1, hk]
  have right {k : Nat} {s} (hk : ys[k]? = some s) : (xs ++ ys)[xs.length + k]? = some s := by
    rw [List.getElem?_append_right (Nat.le_add_right _ _), Nat.add_sub_cancel_left, hk]
  refine ⟨i + xs.length, ⟨fun hk => h.stmt (left hk), fun hk => h.label (left hk), rfl⟩, ?_, ?_, ?_⟩
  · intro k s hk
    rw [Nat.add_assoc]
    exact h.stmt (right hk)
  · intro k l hk
    rw [Nat.add_assoc]
    exact h.label (right hk)
  · rw [Nat.add_assoc, ← List.length_append, h.stop]

theorem nil (h : b.Spans i [] j) : i = j := h.stop

theorem head (h : b.Spans i (s :: ys) j) : b.stmts[i]? = some s := h.stmt (k := 0) rfl

theorem tail (h : b.Spans i (s :: ys) j) : b.Spans (i + 1) ys j := by
  obtain ⟨mid, hs, hys⟩ := (show b.Spans i ([s] ++ ys) j from h).split
  cases hs.stop
  exact hys

theorem placed (h : b.Spans i (.place l :: ys) j) : b.stmts.findIdx? (·.places l) = some i :=
  h.label (k := 0) rfl

end Spans

theorem follow_place (hs : b.stmts[i]? = some (.place l)) :
    b.follow (n + 1) env i = b.follow n env (i + 1) := by
  rw [follow, hs]
  rfl

theorem follow_jump (hs : b.stmts[i]? = some (.jump l)) (hl : b.stmts.findIdx? (·.places l) = some j) :
    b.follow (n + 1) env i = b.follow n env j := by
  rw [follow, hs]
  simp only [exec, goto, hl]
  rfl

theorem follow_branch {t : Bool} (hs : b.stmts[i]? = some (.branch t c l))
    (hl : b.stmts.findIdx? (·.places l) = some j) : b.follow (n + 1) env i =
      condition env (some c) >>= fun v => b.follow n env (if v = t then j else i + 1) := by
  rw [follow, hs]
  cases t <;> simp only [Stmt.branch, exec, goto, hl, condition, bind_assoc, pure_bind] <;>
    refine bind_congr fun x => ?_ <;> cases x.value.toBool <;> rfl

/-- Plain statements do not look at the other statements of the unit. -/
theorem exec_plain {b' : Body} (hs : s.isPlain) (ho : b'.output = b.output) : b'.exec env s = b.exec env s := by
  cases s with
  | ret value =>
    unfold exec
    simp only [ho]
  | jump | branchTrue | branchFalse | place => cases hs
  | _ => rfl

/-- An evaluation that never leads to a label. -/
def Straight (x : Eval Course) : Prop := ∀ w j w', x w ≠ .ok (.goto j) w'

theorem Straight.bind {α : Type} {x : Eval α} {f : α → Eval Course} (h : ∀ a, Straight (f a)) :
    Straight (x >>= f) := by
  intro w j w' heq
  cases hx : x w with
  | ok a w₁ =>
    rw [bind_of_ok hx] at heq
    exact h a w₁ j w' heq
  | error e w₁ =>
    rw [bind_of_error hx] at heq
    cases heq

theorem straight_on (locals : List Slot) : Straight (pure (.on locals)) := by
  rintro w j w' ⟨⟩

theorem straight_back (v : Slot) : Straight (pure (.back v)) := by
  rintro w j w' ⟨⟩

theorem straight_of_isPlain (hs : s.isPlain) : Straight (b.exec env s) := by
  have store (v : Variable) (e : Expr) : Straight (store env v e) := .bind fun _ => .bind straight_on
  have halt : Straight halt := by rintro w j w' ⟨⟩
  cases s with
  | missing => rintro w j w' ⟨⟩
  | store v e => exact store v e
  | combine v op e => exact store v _
  | increment v | decrement v => exact .bind fun _ => .bind straight_on
  | eval e => exact .bind fun _ => straight_on _
  | ret value =>
    unfold exec
    dsimp only
    split
    · exact halt
    · exact straight_back _
    · exact .bind fun _ => straight_back _
  | halt => exact halt
  | jump | branchTrue | branchFalse | place => cases hs

end Body

section

variable {unit : Body} {final : EStateM.Result Stop World Exit} {env : Env} {n m i j : Nat}
  {locals : List Slot} {w : World} {s : Stmt} {c : Expr} {l : Label}

namespace Body

/-- At most `n` statements from position `i` on make the rest of the run. -/
def Within (unit : Body) (final : EStateM.Result Stop World Exit) (env : Env) (n i : Nat) (locals : List Slot)
    (w : World) : Prop :=
  ∃ k ≤ n, unit.follow k { env with locals } i w = final

theorem Within.mono (h : unit.Within final env m i locals w) (hmn : m ≤ n) :
    unit.Within final env n i locals w :=
  have ⟨k, hk, hrun⟩ := h
  ⟨k, hk.trans hmn, hrun⟩

section

variable (h : unit.Within final env n i locals w)
include h

section

variable (settled : Settled final)
include settled

/-- A run that has come to its end began with some statements left. -/
theorem Within.succ :
    ∃ k < n, unit.follow (k + 1) { env with locals } i w = final := by
  obtain ⟨k, hk, hrun⟩ := h
  cases k with
  | zero => exact absurd hrun.symm (settled w)
  | succ k => exact ⟨k, hk, hrun⟩

theorem Within.place (hs : unit.stmts[i]? = some (.place l)) : ∃ m < n, unit.Within final env m (i + 1) locals w := by
  obtain ⟨k, hk, hrun⟩ := h.succ settled
  exact ⟨k, hk, k, le_rfl, follow_place hs ▸ hrun⟩

theorem Within.pass (hs : unit.stmts[i]? = some (.place l)) : unit.Within final env n (i + 1) locals w := by
  obtain ⟨m, hm, hrest⟩ := h.place settled hs
  exact hrest.mono hm.le

theorem Within.jump (hs : unit.stmts[i]? = some (.jump l))
    (hl : unit.stmts.findIdx? (·.places l) = some j) :
    unit.Within final env n j locals w := by
  obtain ⟨k, hk, hrun⟩ := h.succ settled
  exact ⟨k, hk.le, follow_jump hs hl ▸ hrun⟩

theorem Within.branch {t : Bool} (hs : unit.stmts[i]? = some (.branch t c l))
    (hl : unit.stmts.findIdx? (·.places l) = some j) :
    (condition { env with locals } (some c)).Meets final
      (fun v => unit.Within final env n (if v = t then j else i + 1) locals) w := by
  obtain ⟨k, hk, hrun⟩ := h.succ settled
  rw [follow_branch hs hl, ← meets_eq, meets_bind] at hrun
  exact hrun.mono fun v w' h => ⟨k, hk.le, meets_eq.1 h⟩

theorem Within.branchUnless {c : Option Expr} {stop : Nat}
    (spans : unit.Spans i (branchUnless c l) stop) (hl : unit.stmts.findIdx? (·.places l) = some j) :
    (condition { env with locals } c).Meets final
      (fun v => unit.Within final env n (if v = false then j else stop) locals) w := by
  cases c with
  | none =>
    cases spans.stop
    exact h
  | some c =>
    cases spans.tail.nil
    exact h.branch (t := false) settled spans.head hl

end

end

/-- The statements from position `i` on make the rest of the run. -/
def Arrives (unit : Body) (final : EStateM.Result Stop World Exit) (env : Env) (i : Nat) (locals : List Slot)
    (w : World) : Prop :=
  ∃ k, unit.follow k { env with locals } i w = final

theorem Arrives.place (hs : unit.stmts[i]? = some (.place l)) (h : unit.Arrives final env (i + 1) locals w) :
    unit.Arrives final env i locals w := by
  obtain ⟨k, hrun⟩ := h
  exact ⟨k + 1, by rw [follow_place hs, hrun]⟩

theorem Arrives.jump (hs : unit.stmts[i]? = some (.jump l)) (hl : unit.stmts.findIdx? (·.places l) = some j)
    (h : unit.Arrives final env j locals w) : unit.Arrives final env i locals w := by
  obtain ⟨k, hrun⟩ := h
  exact ⟨k + 1, by rw [follow_jump hs hl, hrun]⟩

theorem Arrives.branch {t : Bool} (hs : unit.stmts[i]? = some (.branch t c l))
    (hl : unit.stmts.findIdx? (·.places l) = some j)
    (h : (condition { env with locals } (some c)).Meets final
      (fun v => unit.Arrives final env (if v = t then j else i + 1) locals) w) :
    unit.Arrives final env i locals w := by
  obtain ⟨k, hrun⟩ := exists_of_meets h
  exact ⟨k + 1, by rw [follow_branch hs hl, ← hrun]⟩

theorem Arrives.branchUnless {c : Option Expr} {stop : Nat} (spans : unit.Spans i (branchUnless c l) stop)
    (hl : unit.stmts.findIdx? (·.places l) = some j)
    (h : (condition { env with locals } c).Meets final
      (fun v => unit.Arrives final env (if v = false then j else stop) locals) w) :
    unit.Arrives final env i locals w := by
  cases c with
  | none =>
    cases spans.stop
    exact h
  | some c =>
    cases spans.tail.nil
    exact .branch (t := false) spans.head hl h

end Body

variable {round : List Slot → Eval Round}

/-- Rounds that run through the statements from `top` on, with fewer of them left after each. -/
theorem Eval.meets_rounds (settled : Settled final) (env : Env) {q : Goals} {top N : Nat}
    (step : ∀ k ≤ n, ∀ l w, unit.Within final env k top l w →
      (round l).Meets final (Round.At final (fun l w => ∃ m < k, unit.Within final env m top l w) q) w)
    (hN : n ≤ N) (h : unit.Within final env n top locals w) :
    (rounds round N locals).Meets final (Exit.At final q) w := by
  induction N generalizing n locals w with
  | zero =>
    obtain ⟨k, hk, -⟩ := h.succ settled
    omega
  | succ N ih =>
    rw [meets_rounds_succ]
    refine (step n le_rfl locals w h).mono fun r w' hr => ?_
    cases r with
    | more l =>
      obtain ⟨m, hm, hrest⟩ := hr
      exact ih (fun k hk => step k (hk.trans hm.le)) (by omega) hrest
    | ended e => exact hr

/-- Rounds that the statements from `top` on run through. -/
theorem Eval.arrives_of_rounds (settled : Settled final) (env : Env) {q : Goals} {top N : Nat}
    (step : ∀ l w, (round l).Meets final (Round.At final (unit.Arrives final env top) q) w →
      unit.Arrives final env top l w)
    (h : (rounds round N locals).Meets final (Exit.At final q) w) : unit.Arrives final env top locals w := by
  induction N generalizing locals w with
  | zero => exact absurd h (settled w)
  | succ N ih =>
    refine step locals w ((meets_rounds_succ.1 h).mono fun r w' hr => ?_)
    cases r with
    | more l => exact ih hr
    | ended e => exact hr

/-- The targets of the loop around a nest, if it may use them, with what holds of the positions
where they are placed. -/
def Body.Aims (unit : Body) (inside : Bool) (loop : Option LoopTargets) (leave again : Nat → Prop) : Prop :=
  inside = true → ∃ targets, loop = some targets ∧
    (∃ j, unit.stmts.findIdx? (·.places targets.leave) = some j ∧ leave j) ∧
    ∃ j, unit.stmts.findIdx? (·.places targets.again) = some j ∧ again j

theorem Body.Aims.imp {inside : Bool} {loop : Option LoopTargets} {leave again leave' again' : Nat → Prop}
    (h : unit.Aims inside loop leave again) (hleave : ∀ j, leave j → leave' j) (hagain : ∀ j, again j → again' j) :
    unit.Aims inside loop leave' again' := fun hin =>
  have ⟨targets, ht, ⟨j, hj, hl⟩, j', hj', ha⟩ := h hin
  ⟨targets, ht, ⟨j, hj, hleave j hl⟩, j', hj', hagain j' ha⟩

variable {body : Body} {N next : Nat} {inside : Bool} {loop : Option LoopTargets} {q : Goals}

/-- Where the ends of a nest lead, at most `n` statements of the run are left for its goals. -/
structure Body.Reaches (unit : Body) (final : EStateM.Result Stop World Exit) (env : Env) (n stop : Nat)
    (inside : Bool) (loop : Option LoopTargets) (q : Goals) : Prop where
  next : ∀ l w, unit.Within final env n stop l w → q.next l w
  aims : unit.Aims inside loop (fun j => ∀ l w, unit.Within final env n j l w → q.leave l w)
    fun j => ∀ l w, unit.Within final env n j l w → q.again l w

/-- From the goals of a nest, the run goes on where its ends lead. -/
structure Body.Resumes (unit : Body) (final : EStateM.Result Stop World Exit) (env : Env) (stop : Nat)
    (inside : Bool) (loop : Option LoopTargets) (q : Goals) : Prop where
  next : ∀ l w, q.next l w → unit.Arrives final env stop l w
  aims : unit.Aims inside loop (fun j => ∀ l w, q.leave l w → unit.Arrives final env j l w)
    fun j => ∀ l w, q.again l w → unit.Arrives final env j l w

namespace Nest

open Eval (meets_bind meets_thenOn meets_thenRound meets_thenMore)

/-- What the statements of a nest do, the nest does, and what the nest does, its statements do. -/
def Mirrors (unit : Body) (final : EStateM.Result Stop World Exit) (body : Body) (x : Nest) : Prop :=
  ∀ {inside loop next i stop} (env : Env), x.Fine inside → unit.Spans i (x.flat loop next) stop →
    (∀ {n N q w}, n ≤ N → unit.Reaches final env n stop inside loop q →
      unit.Within final env n i env.locals w → (x.exec body N env).Meets final (Exit.At final q) w) ∧
    ∀ {N q w}, unit.Resumes final env stop inside loop q →
      (x.exec body N env).Meets final (Exit.At final q) w → unit.Arrives final env i env.locals w

theorem Mirrors.option {o : Option Nest} (h : ∀ x, o = some x → Mirrors unit final body x) (env : Env)
    (fine : FineOption inside o) (spans : unit.Spans i (flatOption loop next o) j) :
    (∀ {n N q w}, n ≤ N → unit.Reaches final env n j inside loop q → unit.Within final env n i env.locals w →
      (execOption body N o env).Meets final (Exit.At final q) w) ∧
    ∀ {N q w}, unit.Resumes final env j inside loop q →
      (execOption body N o env).Meets final (Exit.At final q) w → unit.Arrives final env i env.locals w := by
  cases o with
  | none =>
    cases spans.stop
    exact ⟨fun _ goals hrun => goals.next _ _ hrun, fun goals hrun => goals.next _ _ hrun⟩
  | some x => exact h x rfl env fine spans

theorem mirrors_cond (settled : Settled final) {yes : Nest} {no : Option Nest} (ihyes : Mirrors unit final body yes)
    (ihno : ∀ x, no = some x → Mirrors unit final body x) : Mirrors unit final body (.cond c yes no) := by
  intro inside loop next i stop env fine spans
  simp only [exec, meets_bind]
  cases no with
  | none =>
    obtain ⟨last, front, place⟩ := spans.split
    cases place.tail.nil
    have ihyes := ihyes env fine.1 front.tail
    constructor
    · intro n N q w hN goals h
      have ended (l w) (h : unit.Within final env n last l w) : q.next l w :=
        goals.next l w (h.pass settled place.head)
      refine (h.branch (t := false) settled front.head place.placed).mono fun v w' hv => ?_
      cases v with
      | true => exact ihyes.1 hN ⟨ended, goals.aims⟩ hv
      | false => exact ended _ _ hv
    · intro N q w goals h
      have ended (l w) (h : q.next l w) : unit.Arrives final env last l w := (goals.next l w h).place place.head
      refine .branch (t := false) front.head place.placed (h.mono fun v w' hv => ?_)
      cases v with
      | true => exact ihyes.2 ⟨ended, goals.aims⟩ hv
      | false => exact ended _ _ hv
  | some no =>
    obtain ⟨last, spans, place⟩ := spans.split
    obtain ⟨other, spans, spansNo⟩ := spans.split
    obtain ⟨mid, front, jump⟩ := spans.split
    cases place.tail.nil
    cases jump.tail.tail.nil
    have ihyes := ihyes env fine.1 front.tail
    have ihno := ihno no rfl env fine.2 spansNo
    constructor
    · intro n N q w hN goals h
      have ended (l w) (h : unit.Within final env n last l w) : q.next l w :=
        goals.next l w (h.pass settled place.head)
      refine (h.branch (t := false) settled front.head jump.tail.placed).mono fun v w' hv => ?_
      cases v with
      | true => exact ihyes.1 hN ⟨fun l w h => ended l w (h.jump settled jump.head place.placed), goals.aims⟩ hv
      | false => exact ihno.1 hN ⟨ended, goals.aims⟩ (hv.pass settled jump.tail.head)
    · intro N q w goals h
      have ended (l w) (h : q.next l w) : unit.Arrives final env last l w := (goals.next l w h).place place.head
      refine .branch (t := false) front.head jump.tail.placed (h.mono fun v w' hv => ?_)
      cases v with
      | true => exact ihyes.2 ⟨fun l w h => (ended l w h).jump jump.head place.placed, goals.aims⟩ hv
      | false => exact .place jump.tail.head (ihno.2 ⟨ended, goals.aims⟩ hv)

variable {x : Nest}

section

variable (settled : Settled final)
include settled

theorem mirrors_whileLoop (ih : Mirrors unit final body x) :
    Mirrors unit final body (.whileLoop c x) := by
  intro inside loop next i stop env fine spans
  obtain ⟨last, front, jump⟩ := spans.split
  obtain ⟨start, top, spansBody⟩ := front.split
  cases top.tail.tail.nil
  cases jump.tail.tail.nil
  have ih (l) := ih { env with locals := l } fine spansBody
  constructor
  · intro n N q w hN goals h
    have ended {m} (hm : m ≤ n) (l w) (h : unit.Within final env m (last + 1) l w) : q.next l w :=
      goals.next l w ((h.pass settled jump.tail.head).mono hm)
    refine meets_rounds settled env (fun k hk l w h => ?_) hN h
    obtain ⟨m, hm, h⟩ := h.place settled top.head
    refine meets_bind.2 ((h.branch (t := false) settled top.tail.head jump.tail.placed).mono fun v w' hv => ?_)
    cases v with
    | true =>
      refine meets_thenRound.2 ((ih l).1 (by omega : m ≤ N) ⟨fun l w h => ?_, fun _ => ⟨_, rfl, ?_, ?_⟩⟩ hv)
      · exact ⟨m, hm, h.jump settled jump.head top.placed⟩
      · exact ⟨last + 1, jump.tail.placed, ended (by omega)⟩
      · exact ⟨i, top.placed, fun l w h => ⟨m, hm, h⟩⟩
    | false => exact ended (by omega) l w' hv
  · intro N q w goals h
    have ended (l w) (h : q.next l w) : unit.Arrives final env (last + 1) l w :=
      (goals.next l w h).place jump.tail.head
    refine arrives_of_rounds settled env (fun l w h => ?_) h
    refine .place top.head (.branch (t := false) top.tail.head jump.tail.placed
      ((meets_bind.1 h).mono fun v w' hv => ?_))
    cases v with
    | true =>
      refine (ih l).2 ⟨fun l w h => ?_, fun _ => ⟨_, rfl, ?_, ?_⟩⟩ (meets_thenRound.1 hv)
      · exact .jump jump.head top.placed h
      · exact ⟨last + 1, jump.tail.placed, ended⟩
      · exact ⟨i, top.placed, fun l w h => h⟩
    | false => exact ended l w' hv

theorem mirrors_doLoop (ih : Mirrors unit final body x) :
    Mirrors unit final body (.doLoop x c) := by
  intro inside loop next i stop env fine spans
  obtain ⟨mid, top, test⟩ := spans.split
  cases test.tail.tail.tail.nil
  have ih (l) := ih { env with locals := l } fine top.tail
  constructor
  · intro n N q w hN goals h
    have ended {m} (hm : m ≤ n) (l w) (h : unit.Within final env m (mid + 1 + 1) l w) : q.next l w :=
      goals.next l w ((h.pass settled test.tail.tail.head).mono hm)
    refine meets_rounds settled env (fun k hk l w h => ?_) hN h
    obtain ⟨m, hm, h⟩ := h.place settled top.head
    -- the end of the body leads to the condition, and so does the next round
    have again (l w) (h : unit.Within final env m mid l w) :
        Eval.Meets final (do
          if ← condition { env with locals := l } (some c) then return .more l else return .ended (.on l))
          (Round.At final (fun l w => ∃ m < k, unit.Within final env m i l w) q) w := by
      have h := h.pass settled test.head
      refine meets_bind.2 ((h.branch (t := true) settled test.tail.head top.placed).mono fun v w' hv => ?_)
      cases v with
      | true => exact ⟨m, hm, hv⟩
      | false => exact ended (by omega) l w' hv
    exact meets_thenRound.2 ((ih l).1 (by omega : m ≤ N)
      ⟨again, fun _ => ⟨_, rfl, ⟨_, test.tail.tail.placed, ended (by omega)⟩, mid, test.placed, again⟩⟩ h)
  · intro N q w goals h
    have ended (l w) (h : q.next l w) : unit.Arrives final env (mid + 1 + 1) l w :=
      (goals.next l w h).place test.tail.tail.head
    refine arrives_of_rounds settled env (fun l w h => .place top.head ?_) h
    have again (l w) (h : Eval.Meets final (do
        if ← condition { env with locals := l } (some c) then return .more l else return .ended (.on l))
        (Round.At final (unit.Arrives final env i) q) w) : unit.Arrives final env mid l w := by
      refine .place test.head (.branch (t := true) test.tail.head top.placed ((meets_bind.1 h).mono fun v w' hv => ?_))
      cases v with
      | true => exact hv
      | false => exact ended l w' hv
    exact (ih l).2 ⟨again, fun _ => ⟨_, rfl, ⟨_, test.tail.tail.placed, ended⟩, mid, test.placed, again⟩⟩
      (meets_thenRound.1 h)

theorem mirrors_forLoop {first last : Option Nest} {c : Option Expr}
    (ihfirst : ∀ y, first = some y → Mirrors unit final body y)
    (ihlast : ∀ y, last = some y → Mirrors unit final body y) (ih : Mirrors unit final body x) :
    Mirrors unit final body (.forLoop first c last x) := by
  intro inside loop next i stop env fine spans
  obtain ⟨back, spans, jump⟩ := spans.split
  obtain ⟨mid, spans, turn⟩ := spans.split
  obtain ⟨start, spans, spansBody⟩ := spans.split
  obtain ⟨top, spansFirst, head⟩ := spans.split
  cases jump.tail.tail.nil
  have ihfirst := Mirrors.option ihfirst env fine.1 spansFirst
  have ihlast (l) := Mirrors.option ihlast { env with locals := l } fine.2.1 turn.tail
  have ih (l) := ih { env with locals := l } fine.2.2 spansBody
  simp only [exec, meets_thenOn]
  constructor
  · intro n N q w hN goals h
    have ended {m} (hm : m ≤ n) (l w) (h : unit.Within final env m (back + 1) l w) : q.next l w :=
      goals.next l w ((h.pass settled jump.tail.head).mono hm)
    refine ihfirst.1 hN ⟨fun l w h => ?_, goals.aims⟩ h
    refine meets_rounds settled env (fun k hk l w h => ?_) hN h
    obtain ⟨m, hm, h⟩ := h.place settled head.head
    -- the last part keeps the targets of the loop around
    have outer : unit.Aims inside loop (fun j => ∀ l w, unit.Within final env m j l w → q.leave l w)
        fun j => ∀ l w, unit.Within final env m j l w → q.again l w :=
      goals.aims.imp (fun j hj l w h => hj l w (h.mono (by omega))) fun j hj l w h => hj l w (h.mono (by omega))
    have again (l w) (h : unit.Within final env m mid l w) :
        (execOption body N last { env with locals := l }).thenMore.Meets final
          (Round.At final (fun l w => ∃ m < k, unit.Within final env m top l w) q) w := by
      refine meets_thenMore.2 ((ihlast l).1 (by omega : m ≤ N) ⟨fun l w h => ⟨m, hm, ?_⟩, outer⟩
        (h.pass settled turn.head))
      exact h.jump settled jump.head head.placed
    refine meets_bind.2 ((h.branchUnless settled head.tail jump.tail.placed).mono fun v w' hv => ?_)
    cases v with
    | true =>
      exact meets_thenRound.2 ((ih l).1 (by omega : m ≤ N)
        ⟨again, fun _ => ⟨_, rfl, ⟨back + 1, jump.tail.placed, ended (by omega)⟩, mid, turn.placed, again⟩⟩ hv)
    | false => exact ended (by omega) l w' hv
  · intro N q w goals h
    have ended (l w) (h : q.next l w) : unit.Arrives final env (back + 1) l w :=
      (goals.next l w h).place jump.tail.head
    refine ihfirst.2 ?_ h
    refine ⟨fun l w h => ?_, goals.aims⟩
    refine arrives_of_rounds settled env (fun l w h => .place head.head ?_) h
    have again (l w) (h : (execOption body N last { env with locals := l }).thenMore.Meets final
        (Round.At final (unit.Arrives final env top) q) w) : unit.Arrives final env mid l w := by
      refine .place turn.head ((ihlast l).2 ?_ (meets_thenMore.1 h))
      exact ⟨fun l w h => .jump jump.head head.placed h, goals.aims⟩
    refine .branchUnless head.tail jump.tail.placed ((meets_bind.1 h).mono fun v w' hv => ?_)
    cases v with
    | true =>
      exact (ih l).2 ⟨again, fun _ => ⟨_, rfl, ⟨back + 1, jump.tail.placed, ended⟩, mid, turn.placed, again⟩⟩
        (meets_thenRound.1 hv)
    | false => exact ended l w' hv

theorem mirrors_plain (ho : body.output = unit.output) (s : Stmt) :
    Mirrors unit final body (.plain s) := by
  intro inside loop next i stop env fine spans
  cases spans.stop
  simp only [exec, meets_bind, Body.exec_plain fine ho]
  constructor
  · intro n N q w hN goals h
    obtain ⟨k, hk, hrun⟩ := h.succ settled
    rw [Body.follow, spans.head, ← meets_eq] at hrun
    refine (meets_bind.1 hrun).mono_of_ok fun course w' hcourse hrest => ?_
    cases course with
    | on locals => exact goals.next _ _ ⟨k, hk.le, meets_eq.1 hrest⟩
    | goto j => exact absurd hcourse (Body.straight_of_isPlain fine _ _ _)
    | back v => exact hrest
  · intro N q w goals h
    obtain ⟨k, hrun⟩ := exists_of_meets (f := fun k course => match course with
      | .on locals => unit.follow k { env with locals } (i + 1)
      | .goto j => unit.follow k env j
      | .back v => return .back v) (h.mono_of_ok fun course w' hcourse hrest => by
        cases course with
        | on locals => exact goals.next _ _ hrest
        | goto j => exact absurd hcourse (Body.straight_of_isPlain fine _ _ _)
        | back v => exact ⟨0, hrest.symm⟩)
    refine ⟨k + 1, ?_⟩
    rw [Body.follow, spans.head, ← hrun]

theorem mirrors (ho : body.output = unit.output) (x : Nest) :
    Mirrors unit final body x := by
  induction x using Nest.induct with
  | skip =>
    intro inside loop next i stop env fine spans
    cases spans.stop
    exact ⟨fun _ goals h => goals.next _ _ h, fun goals h => goals.next _ _ h⟩
  | seq x y ihx ihy =>
    intro inside loop next i stop env fine spans
    obtain ⟨mid, spansx, spansy⟩ := spans.split
    have ihx := ihx env fine.1 spansx
    have ihy (l) := ihy { env with locals := l } fine.2 spansy
    simp only [exec, meets_thenOn]
    refine ⟨fun hN goals h => ihx.1 hN ?_ h, fun goals h => ihx.2 ?_ h⟩
    · exact ⟨fun l w hl => (ihy l).1 hN ⟨goals.next, goals.aims⟩ hl, goals.aims⟩
    · exact ⟨fun l w hl => (ihy l).2 ⟨goals.next, goals.aims⟩ hl, goals.aims⟩
  | plain s => exact mirrors_plain settled ho s
  | nested x ih => exact fun env => ih env
  | cond c yes no ihyes ihno => exact mirrors_cond settled ihyes ihno
  | whileLoop c x ih => exact mirrors_whileLoop settled ih
  | doLoop x c ih => exact mirrors_doLoop settled ih
  | forLoop first c last x ihfirst ihlast ih => exact mirrors_forLoop settled ihfirst ihlast ih
  | leave =>
    intro inside loop next i stop env fine spans
    refine ⟨fun hN goals h => ?_, fun goals h => ?_⟩ <;>
      obtain ⟨targets, rfl, ⟨j, hj, hleave⟩, -⟩ := goals.aims fine
    · exact hleave _ _ (h.jump settled spans.head hj)
    · exact .jump spans.head hj (hleave _ _ h)
  | again =>
    intro inside loop next i stop env fine spans
    refine ⟨fun hN goals h => ?_, fun goals h => ?_⟩ <;>
      obtain ⟨targets, rfl, -, j, hj, hagain⟩ := goals.aims fine
    · exact hagain _ _ (h.jump settled spans.head hj)
    · exact .jump spans.head hj (hagain _ _ h)

/-- A unit comes to an end through the statements of a nest just as the nest does, with whatever
`Q` tells of the rest of the run. -/
theorem arrives_iff (ho : body.output = unit.output) (fine : x.Fine false)
    (spans : unit.Spans i (x.flat loop next) j) (env : Env) {Q : Nat → List Slot → World → Prop}
    (reaches : ∀ n l w, unit.Within final env n j l w → Q n l w)
    (resumes : ∀ n l w, Q n l w → unit.Arrives final env j l w) : unit.Arrives final env i env.locals w ↔
      ∃ n, (x.exec body n env).Meets final (Exit.At final { Goals.whole final with next := Q n }) w := by
  constructor
  · rintro ⟨n, hrun⟩
    exact ⟨n, (mirrors settled ho x env fine spans).1 le_rfl ⟨reaches n, nofun⟩ ⟨n, le_rfl, hrun⟩⟩
  · rintro ⟨n, h⟩
    exact (mirrors settled ho x env fine spans).2 ⟨resumes n, nofun⟩ h

end

end Nest

/-- More statements may be allowed. -/
theorem Body.follow_mono (settled : Settled final) (h : unit.follow n env i w = final) (hnm : n ≤ m) :
    unit.follow m env i w = final := by
  induction n generalizing m env i w with
  | zero => exact absurd h.symm (settled w)
  | succ n ih =>
    obtain ⟨m, rfl⟩ : ∃ m', m = m' + 1 := ⟨m - 1, by omega⟩
    have hnm : n ≤ m := by omega
    rw [follow] at h ⊢
    cases hs : unit.stmts[i]? with
    | none => simpa only [hs] using h
    | some s =>
      simp only [hs] at h ⊢
      rw [← meets_eq, meets_bind] at h ⊢
      refine h.mono fun course w' hrest => ?_
      cases course with
      | on locals | goto j => exact meets_eq.2 (ih (meets_eq.1 hrest) hnm)
      | back v => exact hrest

end

/-- Two bounded evaluations come to the same ends. -/
def Eval.Agree {α : Type} (x y : Nat → Eval α) : Prop :=
  ∀ w r, Settled r → ((∃ n, x n w = r) ↔ ∃ n, y n w = r)

theorem Eval.Agree.map {α β : Type} {x y : Nat → Eval α} (h : Agree x y) (f : α → β) :
    Agree (fun n => f <$> x n) (fun n => f <$> y n) := by
  have transfer {x y : Nat → Eval α} (h : ∀ w r, Settled r → (∃ n, x n w = r) → ∃ n, y n w = r) (w : World)
      (r) (settled : Settled r) : (∃ n, (x n >>= pure ∘ f) w = r) → ∃ n, (y n >>= pure ∘ f) w = r := by
    rintro ⟨n, rfl⟩
    cases hx : x n w with
    | ok a w' =>
      obtain ⟨m, hy⟩ := h w (.ok a w') nofun ⟨n, hx⟩
      exact ⟨m, by rw [bind_of_ok hx, bind_of_ok hy]⟩
    | error e w' =>
      rw [bind_of_error hx] at settled ⊢
      obtain ⟨m, hy⟩ := h w (.error e w') (fun _ heq => settled w' (by cases heq; rfl)) ⟨n, hx⟩
      exact ⟨m, bind_of_error hy⟩
  exact fun w r settled => ⟨transfer (fun w r hr => (h w r hr).1) w r settled,
    transfer (fun w r hr => (h w r hr).2) w r settled⟩

namespace Nest

variable {x : Nest} {unit : Body} {loop : Option LoopTargets} {next i j : Nat}

/-- The statements of a nest, with more statements behind them. -/
theorem agree_thenOn (fine : x.Fine false) (spans : unit.Spans i (x.flat loop next) j) (body : Body)
    (ho : body.output = unit.output) (env : Env) :
    Eval.Agree (fun n => unit.follow n env i)
      fun n => (x.exec body n env).thenOn fun locals => unit.follow n { env with locals } j := by
  intro w final settled
  simp only [← meets_whole (x := thenOn _ _), meets_thenOn]
  exact arrives_iff settled ho fine spans env
    (fun n l w ⟨k, hk, hrun⟩ => meets_whole.2 (Body.follow_mono settled hrun hk))
    fun n l w h => ⟨n, meets_whole.1 h⟩

/-- The statements of a nest at the end of a unit. -/
theorem agree_exec (fine : x.Fine false) (spans : unit.Spans i (x.flat loop next) j)
    (hj : unit.stmts[j]? = none) (body : Body) (ho : body.output = unit.output) (env : Env) :
    Eval.Agree (fun n => unit.follow n env i) fun n => x.exec body n env := by
  intro w final settled
  have hend (n l w) : unit.follow (n + 1) { env with locals := l } j w = .ok (.on l) w := by
    rw [Body.follow, hj]
    rfl
  simp only [← meets_whole (x := x.exec body _ env)]
  refine arrives_iff settled ho fine spans env (fun n l w h => ?_) fun n l w h => ⟨1, (hend 0 l w).trans h.symm⟩
  obtain ⟨k, -, hrun⟩ := h.succ settled
  exact hrun.symm.trans (hend k l w)

end Nest

theorem placedIn_of_places {stmts : List Stmt} {s : Stmt} {l : Label} (hs : s ∈ stmts) (h : s.places l) :
    l.uid ∈ placedIn stmts := by
  cases s with
  | place l' =>
    cases of_decide_eq_true h
    exact List.mem_filterMap.2 ⟨_, hs, rfl⟩
  | _ => cases h

/-- A label is found where it is placed, if it is not placed before. -/
theorem findIdx?_place {front rest : List Stmt} {l : Label} (h : l.uid ∉ placedIn front) :
    (front ++ .place l :: rest).findIdx? (·.places l) = some front.length := by
  have hnone : front.findIdx? (·.places l) = none :=
    List.findIdx?_eq_none_iff.2 fun s hs => Bool.eq_false_iff.2 fun hp => h (placedIn_of_places hs hp)
  rw [List.findIdx?_append, hnone, List.findIdx?_cons, Stmt.places, if_pos (decide_eq_true rfl)]
  simp

/-- A nest that stands in a unit behind older labels. -/
theorem Nest.spans_flat {x : Nest} {inside : Bool} (fine : x.Fine inside) {loop : Option LoopTargets} {next : Nat}
    {unit : Body} {front back : List Stmt} (hstmts : unit.stmts = front ++ x.flat loop next ++ back)
    (fresh : ∀ k ∈ placedIn front, k < next) :
    unit.Spans front.length (x.flat loop next) (front.length + (x.flat loop next).length) := by
  have perm := placedIn_flat x fine loop next
  generalize x.flat loop next = stmts at *
  have stmt {k : Nat} {s} (hk : stmts[k]? = some s) : unit.stmts[front.length + k]? = some s := by
    rw [hstmts, List.append_assoc, List.getElem?_append_right (Nat.le_add_right _ _), Nat.add_sub_cancel_left,
      List.getElem?_append_left (List.getElem?_eq_some_iff.1 hk).1, hk]
  refine ⟨stmt, fun {k l} hk => ?_, rfl⟩
  obtain ⟨hlt, hget⟩ := List.getElem?_eq_some_iff.1 hk
  have cut : stmts = stmts.take k ++ .place l :: stmts.drop (k + 1) := by
    rw [← hget, List.getElem_cons_drop, List.take_append_drop]
  have placed : placedIn stmts = placedIn (stmts.take k) ++ l.uid :: placedIn (stmts.drop (k + 1)) := by
    rw [cut, placedIn_append, placedIn_place, ← cut]
  have old : l.uid ∉ placedIn front := by
    intro hmem
    have := List.mem_range'_1.1 (perm.subset (placed ▸ List.mem_append_right _ List.mem_cons_self))
    exact absurd (fresh _ hmem) (by omega)
  have once : l.uid ∉ placedIn (stmts.take k) := by
    have := perm.nodup_iff.2 List.nodup_range'
    rw [placed, List.nodup_append] at this
    exact fun hmem => this.2.2 _ hmem _ List.mem_cons_self rfl
  have := @findIdx?_place (front ++ stmts.take k) (stmts.drop (k + 1) ++ back) l (by simp [old, once])
  rw [hstmts, cut]
  simpa [hlt.le] using this

/-- The flat statements that blocks append for a nest do what the nest does, from every state and
whatever stands behind them, and each of the labels they take is placed once. -/
theorem Nest.lower_keeps_meaning {x : Nest} (fine : x.Fine false) {b : Block} {w : Workspace} {front : List Stmt}
    (hfront : b.unit.stream? w = some front) (fresh : ∀ k ∈ placedIn front, k < w.nextLabel) :
    ∃ stmts taken, b.unit.stream? (x.lower b w).2 = some (front ++ stmts) ∧
      (x.lower b w).2.nextLabel = w.nextLabel + taken ∧
      (placedIn stmts).Perm (List.range' w.nextLabel taken) ∧
      ∀ (unit : Body) (env : Env),
        (unit.stmts = front ++ stmts →
          Eval.Agree (fun n => unit.follow n env front.length)
            (fun n => x.exec { unit with stmts := [] } n env) ∧
          Eval.Agree (fun n => unit.run n env front.length)
            (fun n => Exit.result <$> x.exec { unit with stmts := [] } n env)) ∧
        ∀ back, unit.stmts = front ++ stmts ++ back →
          Eval.Agree (fun n => unit.follow n env front.length)
            (fun n => (x.exec { unit with stmts := [] } n env).thenOn fun locals =>
              unit.follow n { env with locals } (front ++ stmts).length) := by
  have grows := x.appends_lower b.loop b w rfl
  refine ⟨x.flat b.loop w.nextLabel, x.labels, grows.stream hfront, grows.next, placedIn_flat x fine _ _,
    fun unit env => ⟨fun hstmts => ?_, fun back hstmts => ?_⟩⟩
  · have spans := spans_flat fine (by rw [hstmts, List.append_nil]) fresh
    have hend : unit.stmts[front.length + (x.flat b.loop w.nextLabel).length]? = none := by
      rw [hstmts, List.getElem?_eq_none_iff, List.length_append]
    have agree := agree_exec fine spans hend { unit with stmts := [] } rfl env
    simp only [Body.run_eq_follow]
    exact ⟨agree, agree.map Exit.result⟩
  · rw [List.length_append]
    exact agree_thenOn fine (spans_flat fine hstmts fresh) { unit with stmts := [] } rfl env

namespace Nest.Summing

def table : TyTable := .startingAt 0

def counter : Variable := { name := "i", type := table.int, binding := .local, index := 0 }

def total : Variable := { name := "total", type := table.int, binding := .local, index := 1 }

def is (n : Int32) : Expr := .binary (.plain .eq) (.var counter) (.int n)

/-- A loop without a condition inside another one. It skips one number, and its last part leaves the
loop around it. -/
def nest : Nest :=
  .whileLoop (.bool true) (.forLoop (some (.plain (.store counter (.int 0)))) none
    (some (.seq (.plain (.increment counter)) (.cond (is 3) .leave none)))
    (.seq (.cond (is 1) .again none) (.plain (.combine total (.plain .add) (.var counter)))))

def workspace : Workspace := (({} : Workspace).newProgram "main" ⟨0⟩ []).2

def block : Block := workspace.topBlock ⟨0⟩

def env : Env where
  table := table
  literal _ := 0
  call _ _ := Eval.stop .undefined
  locals := [.zero, .zero]

def body : Body where
  table := table
  literal _ := 0
  output := none
  stmts := []

def world : World := ⟨#[], #[], false⟩

/-- Whether a nest has come to its end with the given locals. -/
def endsWith (locals : List Slot) : EStateM.Result Stop World Exit → Bool
  | .ok (.on locals') _ => locals' = locals
  | _ => false

theorem exists_of_endsWith {locals : List Slot} {r : EStateM.Result Stop World Exit} (h : endsWith locals r) :
    ∃ w, r = .ok (.on locals) w := by
  unfold endsWith at h
  split at h
  · next w => exact ⟨w, by rw [of_decide_eq_true h]⟩
  · cases h

/-- The numbers below three are added up, without the one that is skipped. -/
theorem exec_nest : ∃ w, nest.exec body 4 env world = .ok (.on [.ofInt 3, .ofInt 2]) w :=
  exists_of_endsWith (by decide +kernel)

end Nest.Summing

theorem Nest.lower_keeps_meaning_summing :
    Summing.nest.Fine false ∧ Summing.block.unit.stream? Summing.workspace = some [] ∧
      ∃ stmts, Summing.block.unit.stream? (Summing.nest.lower Summing.block Summing.workspace).2 = some stmts ∧
        ∃ n w, { Summing.body with stmts }.follow n Summing.env 0 Summing.world =
          .ok (.on [.ofInt 3, .ofInt 2]) w := by
  have fine : Summing.nest.Fine false := by
    simp [Summing.nest, Fine, FineOption, Stmt.isPlain]
  obtain ⟨stmts, taken, hstmts, -, -, h⟩ := lower_keeps_meaning fine
    (show Summing.block.unit.stream? Summing.workspace = some [] from rfl) nofun
  obtain ⟨w, run⟩ := Summing.exec_nest
  have agree := ((h { Summing.body with stmts } Summing.env).1 rfl).1
  obtain ⟨n, hn⟩ := (agree Summing.world (.ok _ w) nofun).2 ⟨4, run⟩
  exact ⟨fine, rfl, stmts, hstmts, n, w, hn⟩

end Stackwork
