import Stackwork.Lang.Emit
import Stackwork.Proofs.Lang.Checking
import Stackwork.Proofs.Lang.Trees

/-!
# What programs refer to

The variables, functions, constants and texts that statements name, in the order in which
they are evaluated, and what of it checked commands reach for by number. Checking changes
neither: the accesses of a command are those of the statement it came from.
-/
namespace Stackwork

open List Term

/-- Something reached for by number. -/
inductive Access where
  | load (v : Variable)
  | store (v : Variable)
  | call (index : Int)
  | text (s : String)

namespace Access

/-- The variable that is read. -/
def loaded? : Access → Option Variable
  | load v => some v
  | _ => none

/-- The text that is pushed. -/
def text? : Access → Option String
  | text s => some s
  | _ => none

end Access

mutual
/-- The accesses of a term, first to last. -/
def Term.accesses : Term → List Access
  | .int _ | .float _ => []
  | .text s => [.text s]
  | .load v => [.load v]
  | .unary _ _ x => x.accesses
  | .binary _ _ x y | .both x y | .either x y => x.accesses ++ y.accesses
  | .select _ c a b => c.accesses ++ a.accesses ++ b.accesses
  | .call index args => accessesOf args ++ [.call index]
  | .callValue f args => accessesOf args ++ f.accesses

/-- The accesses of several terms. -/
def accessesOf : List Term → List Access
  | [] => []
  | t :: ts => t.accesses ++ accessesOf ts
end

theorem mem_accessesOf {a : Access} {ts : List Term} : a ∈ accessesOf ts ↔ ∃ t ∈ ts, a ∈ t.accesses := by
  induction ts with
  | nil => simp [accessesOf]
  | cons t ts ih => simp [accessesOf, ih]

namespace Term

variable {ts : List Term}

theorem loadsOf_eq (h : ∀ t ∈ ts, t.loads = t.accesses.filterMap Access.loaded?) :
    loadsOf ts = (accessesOf ts).filterMap Access.loaded? := by
  induction ts with
  | nil => rfl
  | cons t ts ih =>
    obtain ⟨ht, hts⟩ := forall_mem_cons.1 h
    rw [loadsOf, accessesOf, filterMap_append, ht, ih hts]

theorem loads_eq (t : Term) : t.loads = t.accesses.filterMap Access.loaded? := by
  induction t using induct with
  | int | float | text | load => rfl
  | unary op k x ihx => rw [loads, accesses, ihx]
  | binary op k x y ihx ihy | both x y ihx ihy | either x y ihx ihy =>
    rw [loads, accesses, filterMap_append, ihx, ihy]
  | select k c a b ihc iha ihb =>
    rw [loads, accesses, filterMap_append, filterMap_append, ihc, iha, ihb]
  | call index args ih =>
    rw [loads, accesses, filterMap_append, loadsOf_eq ih]
    exact (append_nil _).symm
  | callValue f args ihf ih => rw [loads, accesses, filterMap_append, loadsOf_eq ih, ihf]

theorem textsOf_eq (h : ∀ t ∈ ts, t.texts = t.accesses.filterMap Access.text?) :
    textsOf ts = (accessesOf ts).filterMap Access.text? := by
  induction ts with
  | nil => rfl
  | cons t ts ih =>
    obtain ⟨ht, hts⟩ := forall_mem_cons.1 h
    rw [textsOf, accessesOf, filterMap_append, ht, ih hts]

theorem texts_eq (t : Term) : t.texts = t.accesses.filterMap Access.text? := by
  induction t using induct with
  | int | float | text | load => rfl
  | unary op k x ihx => rw [texts, accesses, ihx]
  | binary op k x y ihx ihy | both x y ihx ihy | either x y ihx ihy =>
    rw [texts, accesses, filterMap_append, ihx, ihy]
  | select k c a b ihc iha ihb =>
    rw [texts, accesses, filterMap_append, filterMap_append, ihc, iha, ihb]
  | call index args ih =>
    rw [texts, accesses, filterMap_append, textsOf_eq ih]
    exact (append_nil _).symm
  | callValue f args ihf ih => rw [texts, accesses, filterMap_append, textsOf_eq ih, ihf]

/-- Terms write nothing. -/
theorem store_not_mem_accesses (v : Variable) (t : Term) : .store v ∉ t.accesses := by
  induction t using induct with
  | call index args ih | callValue f args ihf ih => simp_all [accesses, mem_accessesOf]
  | _ => simp_all [accesses]

end Term

namespace Command

/-- The accesses of a command, first to last. -/
def accesses : Command → List Access
  | store v x => x.accesses ++ [.store v]
  | drop x | branchTrue x _ | branchFalse x _ | ret _ (some x) => x.accesses
  | _ => []

variable {c : Command} {v : Variable}

theorem mem_texts {s : String} : s ∈ c.texts ↔ .text s ∈ c.accesses := by
  have hterm (x : Term) : s ∈ x.texts ↔ .text s ∈ x.accesses := by
    rw [x.texts_eq, mem_filterMap]
    constructor
    · rintro ⟨a, ha, hs⟩
      cases a with
      | text s' =>
        cases hs
        exact ha
      | _ => cases hs
    · exact fun h => ⟨_, h, rfl⟩
  cases c with
  | store v x => simp [texts, accesses, hterm]
  | drop x | branchTrue x l | branchFalse x l => exact hterm x
  | ret k value =>
    cases value with
    | none => simp [texts, accesses]
    | some x => exact hterm x
  | jump l | place l | halt => simp [texts, accesses]

theorem loads_eq (c : Command) : c.loads = c.accesses.filterMap Access.loaded? := by
  cases c with
  | store v x => simp [loads, accesses, x.loads_eq, Access.loaded?]
  | drop x | branchTrue x l | branchFalse x l => exact x.loads_eq
  | ret k value =>
    cases value with
    | none => rfl
    | some x => exact x.loads_eq
  | jump l | place l | halt => rfl

/-- Only an assignment writes, and only its variable. -/
theorem eq_of_store_mem (h : .store v ∈ c.accesses) : ∃ x, c = .store v x := by
  cases c with
  | store w x =>
    simp only [accesses, mem_append, mem_singleton, Access.store.injEq] at h
    rcases h with h | rfl
    · exact absurd h (x.store_not_mem_accesses v)
    · exact ⟨x, rfl⟩
  | drop x | branchTrue x l | branchFalse x l => exact absurd h (x.store_not_mem_accesses v)
  | ret k value =>
    cases value with
    | none => cases h
    | some x => exact absurd h (x.store_not_mem_accesses v)
  | jump l | place l | halt => cases h

/-- When the instructions of a command are defined, what it reads or writes has a machine
kind. -/
theorem kind_of_undefined (h : c.undefined? = none) (hv : .load v ∈ c.accesses ∨ .store v ∈ c.accesses) :
    v.kind ≠ .none := by
  unfold undefined? at h
  cases hfind : c.loads.find? (fun v => v.kind = .none) with
  | some w => simp [hfind] at h
  | none =>
    rw [hfind] at h
    rcases hv with hv | hv
    · have hmem : v ∈ c.loads := by
        rw [c.loads_eq]
        exact mem_filterMap.2 ⟨_, hv, rfl⟩
      simpa using find?_eq_none.1 hfind v hmem
    · obtain ⟨x, rfl⟩ := eq_of_store_mem hv
      simp only at h
      split at h
      · cases h
      · assumption

end Command

/-- Something a statement names. -/
inductive Ref where
  | read (v : Variable)
  | write (v : Variable)
  | const (c : Constant)
  /-- A function as a value. -/
  | func (f : Callable)
  /-- A function that is called by its name. -/
  | call (f : Callable)
  | text (s : String)

/-- How what is named is reached for; constants and function values are numbers in the code. -/
def Ref.access? : Ref → Option Access
  | read v => some (.load v)
  | write v => some (.store v)
  | call f => some (.call f.index)
  | text s => some (.text s)
  | const _ | func _ => none

mutual
/-- What an expression names, in the order of evaluation. -/
def Expr.refs : Expr → List Ref
  | .missing | .int _ | .float _ | .bool _ => []
  | .text s => [.text s]
  | .var v => [.read v]
  | .const c => [.const c]
  | .func f => [.func f]
  | .unary _ x => x.refs
  | .binary _ x y => x.refs ++ y.refs
  | .ternary c a b => c.refs ++ a.refs ++ b.refs
  | .call (.func g) args => refsOf args ++ [.call g]
  | .call callee args => refsOf args ++ callee.refs

/-- What several expressions name. -/
def refsOf : List Expr → List Ref
  | [] => []
  | e :: es => e.refs ++ refsOf es
end

/-- What a statement names, in the order of evaluation. -/
def Stmt.refs : Stmt → List Ref
  | .store v e => e.refs ++ [.write v]
  | .combine v _ e => .read v :: e.refs ++ [.write v]
  | .increment v | .decrement v => [.read v, .write v]
  | .eval e | .ret (some e) | .branchTrue e _ | .branchFalse e _ => e.refs
  | .missing | .ret none | .jump _ | .place _ | .halt => []

@[simp] theorem accesses_unaryTerm (op : UnaryOp) (x : Typed) :
    (unaryTerm op x).accesses = x.term.accesses := by
  cases op with
  | neg | bitNot | logNot => rfl
  | toBool | toInt | toFloat =>
    simp only [unaryTerm]
    split <;> rfl

@[simp] theorem Typed.accesses_as (x : Typed) (t : Ty) : (x.as t).accesses = x.term.accesses := by
  unfold Typed.as
  split <;> rfl

@[simp] theorem accesses_binaryTerm (op : BinaryOp) (t : Ty) (x y : Typed) :
    (binaryTerm op t x y).accesses = x.term.accesses ++ y.term.accesses := by
  cases op with
  | plain op => simp [binaryTerm, accesses]
  | logAnd | logOr => rfl

variable {ctx : Context}

theorem Arguments.accessesOf_eq {args : List Expr} {inputs : List Ty} {terms : List Term}
    (h : Arguments ctx args inputs terms)
    (ih : ∀ e ∈ args, ∀ x, e.check ctx = .ok x → x.term.accesses = e.refs.filterMap Ref.access?) :
    accessesOf terms = (refsOf args).filterMap Ref.access? := by
  induction h with
  | nil => rfl
  | cons checked _ _ ihrest =>
    obtain ⟨ha, hargs⟩ := forall_mem_cons.1 ih
    rw [accessesOf, refsOf, filterMap_append, Typed.accesses_as, ha _ checked, ihrest hargs]

/-- A checked expression reaches for what the expression names. -/
theorem Expr.accesses_of_check (e : Expr) :
    ∀ x, e.check ctx = .ok x → x.term.accesses = e.refs.filterMap Ref.access? := by
  induction e using Expr.induct with
  | missing => intro x h; cases h
  | int | float | bool | text | func => intro x h; cases h; rfl
  | const c =>
    intro x h
    cases h
    unfold constantTerm
    split <;> rfl
  | var v =>
    intro x h
    obtain ⟨-, rfl⟩ := check_var_eq_ok.1 h
    rfl
  | unary op e ih =>
    intro x h
    obtain ⟨a, t, ha, -, rfl⟩ := check_unary_eq_ok.1 h
    rw [accesses_unaryTerm, ih a ha, refs]
  | binary op e f ihe ihf =>
    intro x h
    obtain ⟨a, b, t, ha, hb, -, rfl⟩ := check_binary_eq_ok.1 h
    rw [accesses_binaryTerm, ihe a ha, ihf b hb, refs, filterMap_append]
  | ternary c e f ihc ihe ihf =>
    intro x h
    obtain ⟨d, a, b, t, hd, -, ha, hb, -, -, rfl⟩ := check_ternary_eq_ok.1 h
    simp only [accesses, Typed.accesses_as, refs, filterMap_append, ihc d hd, ihe a ha, ihf b hb]
  | call callee args ihcallee ihargs =>
    intro x h
    obtain ⟨f, id, output, inputs, terms, hf, -, hargs, rfl⟩ := check_call_eq_ok.1 h
    have hterms := hargs.accessesOf_eq ihargs
    have hcallee := ihcallee f hf
    cases callee with
    | func g => simp [callTerm, accesses, refs, hterms, Ref.access?]
    | _ =>
      rw [refs, filterMap_append, ← hterms, ← hcallee]
      · rfl
      · intro g hg; cases hg

/-- A checked statement reaches for what the statement names. -/
theorem Stmt.Checks.accesses_eq {s : Stmt} {c : Command} (h : s.Checks ctx c) :
    c.accesses = s.refs.filterMap Ref.access? := by
  cases h with
  | @assign s v e x shape _ checked =>
    have hterm := Expr.accesses_of_check e x checked
    cases s with
    | store | combine =>
      cases shape
      simp_all [Command.accesses, refs, Ref.access?, Expr.refs]
    | _ => cases shape
  | @stepInt s v onInt onFloat shape | @stepFloat s v onInt onFloat shape =>
    cases s with
    | increment | decrement => cases shape; rfl
    | _ => cases shape
  | @eval e x checked => exact Expr.accesses_of_check e x checked
  | retTop | retVoid | jump | place | halt => rfl
  | @retValue out e x _ _ checked =>
    have hterm := Expr.accesses_of_check e x checked
    simpa [Command.accesses, refs] using hterm
  | @branchTrue e l x checked | @branchFalse e l x checked =>
    exact Expr.accesses_of_check e x checked

end Stackwork
