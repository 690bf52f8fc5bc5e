import Stackwork.Proofs.Lang.Scoping

/-!
# Lexical scoping

Scopes are opened and names are declared in them, in any order. A name can be declared once in a
scope; a second declaration is refused and changes nothing. Looking a name up finds its first
declaration in the nearest scope, going outward, that has one. A dotted name goes outward for its
first part only.
-/
namespace Stackwork.Forest

open List

/-- A request to a forest. -/
inductive Request where
  | new (parent : Option ScopeId) (name : String)
  | declare (s : ScopeId) (name : String) (e : Entry)

/-- The forest after a request. -/
def Request.apply (f : Forest) : Request → Forest
  | new parent name => (f.new parent name).2
  | declare s name e =>
    match f.declare s name e with
    | .ok f' => f'
    | .error _ => f

/-- The scopes that a request names are there. -/
def Request.Inside (f : Forest) : Request → Prop
  | new parent _ => ∀ p ∈ parent, p.index < f.scopes.size
  | declare s _ _ => s.index < f.scopes.size

/-- The forest after a series of requests, the latest first. -/
def after : List Request → Forest
  | [] => {}
  | r :: older => r.apply (after older)

/-- Every request of a series names scopes that are there. -/
def Orderly : List Request → Prop
  | [] => True
  | r :: older => r.Inside (after older) ∧ Orderly older

/-- One of the requests declared a name in a scope, with success. -/
def Succeeds (rs : List Request) (s : ScopeId) (name : String) (e : Entry) : Prop :=
  ∃ older f', .declare s name e :: older <:+ rs ∧ (after older).declare s name e = .ok f'

/-- The first successful declaration of a name in a scope. -/
def First (rs : List Request) (s : ScopeId) (name : String) (e : Entry) : Prop :=
  ∃ older f', .declare s name e :: older <:+ rs ∧ (after older).declare s name e = .ok f' ∧
    ∀ e', ¬ Succeeds older s name e'

variable {f : Forest} {rs older : List Request} {r : Request} {s : ScopeId} {name : String} {e : Entry}

theorem get_new (parent : Option ScopeId) (name : String) (s : ScopeId) :
    (f.new parent name).2.get s = if s.index = f.scopes.size then
      { chain := s :: (parent.map fun p => (f.get p).chain).getD [], name } else f.get s := by
  change (f.scopes.push _).getD s.index default = _
  rw [Array.getD_eq_getD_getElem?, Array.getElem?_push]
  split
  · next h =>
    cases s
    subst h
    rfl
  · rw [← Array.getD_eq_getD_getElem?]
    rfl

theorem lookupLocal_new (parent : Option ScopeId) (n : String) :
    (f.new parent n).2.lookupLocal s name = f.lookupLocal s name := by
  unfold lookupLocal
  rw [get_new]
  split
  · next h =>
    have unused : f.get s = default := by
      unfold get
      rw [Array.getD_eq_getD_getElem?, Array.getElem?_eq_none (Nat.le_of_eq h.symm)]
      rfl
    rw [unused]
    rfl
  · rfl

/-- A scope finds a name where it was declared, and what it found before. -/
theorem lookupLocal_declare {f' : Forest} {s' : ScopeId} {name' : String} {e' : Entry}
    (h : f.declare s' name' e' = .ok f') (inside : s'.index < f.scopes.size) :
    f'.lookupLocal s name = some e ↔
      f.lookupLocal s name = some e ∨ s' = s ∧ name' = name ∧ e' = e := by
  constructor
  · intro found
    by_cases same : s' = s ∧ name' = name
    · obtain ⟨rfl, rfl⟩ := same
      rw [lookupLocal_of_declare h inside] at found
      exact .inr ⟨rfl, rfl, Option.some.inj found⟩
    · left
      unfold lookupLocal at found ⊢
      rw [get_of_declare h] at found
      split at found
      · next hs =>
        have other : name ≠ name' := fun hn => same ⟨hs.1.symm, hn.symm⟩
        rw [hs.1]
        rw [lookup_append, lookup_cons, beq_false_of_ne other] at found
        simpa using found
      · exact found
  · rintro (found | ⟨rfl, rfl, rfl⟩)
    · exact lookupLocal_mono h found
    · exact lookupLocal_of_declare h inside

theorem declare_error_iff :
    (∃ err, f.declare s name e = .error err) ↔ ∃ earlier, f.lookupLocal s name = some earlier := by
  unfold declare
  split
  · next earlier h => exact ⟨fun _ => ⟨earlier, h⟩, fun _ => ⟨_, rfl⟩⟩
  · next h => exact ⟨fun ⟨_, he⟩ => (by cases he), fun ⟨_, he⟩ => (by rw [h] at he; cases he)⟩

theorem Orderly.of_suffix (h : Orderly rs) (suffix : older <:+ rs) : Orderly older := by
  induction rs with
  | nil => rwa [suffix_nil.1 suffix]
  | cons r rs ih =>
    obtain rfl | suffix := suffix_cons_iff.1 suffix
    · exact h
    · exact ih h.2 suffix

theorem succeeds_cons : Succeeds (r :: rs) s name e ↔
    Succeeds rs s name e ∨ r = .declare s name e ∧ ∃ f', (after rs).declare s name e = .ok f' := by
  constructor
  · rintro ⟨older, f', suffix, h⟩
    obtain heq | suffix := suffix_cons_iff.1 suffix
    · cases heq
      exact .inr ⟨rfl, f', h⟩
    · exact .inl ⟨older, f', suffix, h⟩
  · rintro (⟨older, f', suffix, h⟩ | ⟨rfl, f', h⟩)
    · exact ⟨older, f', suffix.trans (suffix_cons _ _), h⟩
    · exact ⟨rs, f', suffix_rfl, h⟩

/-- A scope finds what was declared in it with success. -/
theorem lookupLocal_after (orderly : Orderly rs) :
    (after rs).lookupLocal s name = some e ↔ Succeeds rs s name e := by
  induction rs generalizing s name e with
  | nil =>
    refine ⟨fun h => (by cases h), fun ⟨_, _, suffix, _⟩ => ?_⟩
    cases suffix_nil.1 suffix
  | cons r rs ih =>
    rw [succeeds_cons, ← ih orderly.2]
    cases r with
    | new parent n => simp [after, Request.apply, lookupLocal_new]
    | declare s' name' e' =>
      cases h : (after rs).declare s' name' e' with
      | ok f' =>
        have hafter : after (.declare s' name' e' :: rs) = f' := by simp [after, Request.apply, h]
        rw [hafter, lookupLocal_declare h orderly.1]
        constructor
        · rintro (found | ⟨rfl, rfl, rfl⟩)
          · exact .inl found
          · exact .inr ⟨rfl, f', h⟩
        · rintro (found | ⟨heq, -⟩)
          · exact .inl found
          · cases heq
            exact .inr ⟨rfl, rfl, rfl⟩
      | error err =>
        have hafter : after (.declare s' name' e' :: rs) = after rs := by simp [after, Request.apply, h]
        rw [hafter]
        refine ⟨.inl, fun found => found.resolve_right ?_⟩
        rintro ⟨heq, f', hok⟩
        cases heq
        rw [h] at hok
        cases hok

theorem first_iff (orderly : Orderly rs) : First rs s name e ↔ Succeeds rs s name e := by
  refine ⟨fun ⟨older, f', suffix, h, _⟩ => ⟨older, f', suffix, h⟩, fun ⟨older, f', suffix, h⟩ =>
    ⟨older, f', suffix, h, fun e' earlier => ?_⟩⟩
  -- what has succeeded before would be found, and the declaration refused
  have found := (lookupLocal_after (orderly.of_suffix suffix).2).2 earlier
  rw [unused_of_declare h] at found
  cases found

/-- What a request leaves of a scope that is there: the way outward. -/
theorem chain_apply (r : Request) (inside : s.index < f.scopes.size) :
    s.index < (r.apply f).scopes.size ∧ ((r.apply f).get s).chain = (f.get s).chain := by
  cases r with
  | new parent n =>
    simp only [Request.apply]
    rw [get_new, if_neg (Nat.ne_of_lt inside)]
    exact ⟨by simpa [new] using Nat.lt_succ_of_lt inside, rfl⟩
  | declare s' name' e' =>
    simp only [Request.apply]
    split
    · next f' h =>
      rw [size_of_declare h, get_of_declare h]
      refine ⟨inside, ?_⟩
      split
      · next hs => rw [hs.1]
      · rfl
    · exact ⟨inside, rfl⟩

theorem chain_of_suffix (suffix : older <:+ rs) (inside : s.index < (after older).scopes.size) :
    ((after rs).get s).chain = ((after older).get s).chain := by
  suffices s.index < (after rs).scopes.size ∧ ((after rs).get s).chain = ((after older).get s).chain from this.2
  induction rs with
  | nil =>
    rw [suffix_nil.1 suffix] at inside ⊢
    exact ⟨inside, rfl⟩
  | cons r rs ih =>
    obtain rfl | suffix := suffix_cons_iff.1 suffix
    · exact ⟨inside, rfl⟩
    · obtain ⟨still, same⟩ := ih suffix
      obtain ⟨still, same'⟩ := chain_apply r still
      exact ⟨still, same'.trans same⟩

/-- A scope keeps the way outward that it was opened with. -/
theorem chain_of_opened (orderly : Orderly rs) {parent : Option ScopeId}
    (opened : .new parent name :: older <:+ rs) :
    ((after rs).get ((after older).new parent name).1).chain =
      ((after older).new parent name).1 :: (parent.map fun p => ((after rs).get p).chain).getD [] := by
  have inside : (after (.new parent name :: older)).scopes.size = (after older).scopes.size + 1 := by
    simp [after, Request.apply, new]
  rw [chain_of_suffix opened (by rw [inside]; exact Nat.lt_succ_self _), after, Request.apply, get_new]
  rw [if_pos (show ((after older).new parent name).1.index = (after older).scopes.size from rfl)]
  cases parent with
  | none => rfl
  | some p =>
    have there := (orderly.of_suffix opened).1 p rfl
    simp only [Option.map_some, Option.getD_some]
    rw [chain_of_suffix ((suffix_cons _ _).trans opened) there]

/-- Each further name of a dotted one is looked up in the members of what was found so far. -/
theorem follow_concat (e : Entry) (names : List String) (last : String) :
    f.follow e (names ++ [last]) =
      ((f.follow e names).bind Entry.members?).bind fun m => f.lookupLocal m last := by
  induction names generalizing e with
  | nil => cases h : e.members? with
    | none => simp [follow, h]
    | some m => cases hm : f.lookupLocal m last <;> simp [follow, h, hm]
  | cons name names ih =>
    cases h : e.members? with
    | none => simp [follow, h]
    | some m => cases hm : f.lookupLocal m name <;> simp [follow, h, hm, ih]

theorem lookupPath_concat (s : ScopeId) (first : String) (names : List String) (last : String) :
    f.lookupPath s (first :: names ++ [last]) =
      ((f.lookupPath s (first :: names)).bind Entry.members?).bind fun m => f.lookupLocal m last := by
  cases h : f.lookup s first with
  | none => simp [lookupPath, h]
  | some e => simpa [lookupPath, h] using follow_concat e names last

/-- How scopes treat names after a series of requests. -/
structure LexicallyScoped (rs : List Request) : Prop where
  /-- A declaration fails if one of that name, of whatever kind, has succeeded in the scope. -/
  refused_iff : ∀ s name e, (∃ err, (after rs).declare s name e = .error err) ↔ ∃ e', Succeeds rs s name e'
  /-- Then it is a duplicate of the first one, and all scopes stay as they are. -/
  refused : ∀ s name e err, (after rs).declare s name e = .error err →
    err.problem.cause = .duplicate ∧ after (.declare s name e :: rs) = after rs ∧
      ∃ earlier, First rs s name earlier ∧
        err = ⟨(after rs).fullName s, .redeclared e.kind name earlier.kind⟩
  local_iff : ∀ s name e, (after rs).lookupLocal s name = some e ↔ First rs s name e
  /-- The way outward from a scope leads on from the scope that it was opened in. -/
  outward : ∀ parent name older, .new parent name :: older <:+ rs →
    ((after rs).get ((after older).new parent name).1).chain =
      ((after older).new parent name).1 :: (parent.map fun p => ((after rs).get p).chain).getD []
  /-- The nearest scope on it decides. -/
  found_iff : ∀ s name e, (after rs).lookup s name = some e ↔ ∃ near c far,
    ((after rs).get s).chain = near ++ c :: far ∧ First rs c name e ∧ ∀ d ∈ near, ∀ e', ¬ Succeeds rs d name e'
  missing_iff : ∀ s name, (after rs).lookup s name = none ↔
    ∀ c ∈ ((after rs).get s).chain, ∀ e, ¬ Succeeds rs c name e
  /-- The first part of a dotted name goes outward, and the others stay in member scopes. -/
  path_nil : ∀ s, (after rs).lookupPath s [] = none
  path_one : ∀ s name, (after rs).lookupPath s [name] = (after rs).lookup s name
  path_concat : ∀ s first names last, (after rs).lookupPath s (first :: names ++ [last]) =
    (((after rs).lookupPath s (first :: names)).bind Entry.members?).bind fun m => (after rs).lookupLocal m last

/-- Every forest that requests have led to is lexically scoped. -/
theorem lexicallyScoped_after (orderly : Orderly rs) : LexicallyScoped rs := by
  have unbound (c : ScopeId) (name : String) :
      (after rs).lookupLocal c name = none ↔ ∀ e, ¬ Succeeds rs c name e := by
    simp only [← lookupLocal_after orderly, Option.eq_none_iff_forall_ne_some]
  refine ⟨fun s name e => ?_, fun s name e err h => ?_, fun s name e => ?_,
    fun parent name older => chain_of_opened orderly, fun s name e => ?_, fun s name => ?_, fun s => rfl,
    fun s name => ?_, lookupPath_concat⟩
  · simp only [declare_error_iff, lookupLocal_after orderly]
  · obtain ⟨earlier, found⟩ := declare_error_iff.1 ⟨err, h⟩
    have same : after (.declare s name e :: rs) = after rs := by simp [after, Request.apply, h]
    rw [declare, found] at h
    cases h
    exact ⟨rfl, same, earlier, (first_iff orderly).2 ((lookupLocal_after orderly).1 found), rfl⟩
  · rw [lookupLocal_after orderly, first_iff orderly]
  · rw [lookup, List.findSome?_eq_some_iff]
    simp only [unbound, lookupLocal_after orderly, first_iff orderly]
  · rw [lookup, List.findSome?_eq_none_iff]
    simp only [unbound]
  · cases h : (after rs).lookup s name <;> simp [lookupPath, h, follow]

namespace Shadowing

/-- A global `x`, and another `x` in a scope that is entered under its name `inner`. -/
def requests : List Request :=
  [.declare ⟨1⟩ "x" (.variable { name := "x", type := .prim 2 .int, binding := .global, index := 1 }),
    .declare ⟨0⟩ "inner" (.scope ⟨1⟩),
    .declare ⟨0⟩ "x" (.variable { name := "x", type := .prim 2 .int, binding := .global, index := 0 }),
    .new (some ⟨0⟩) "inner", .new none ""]

theorem orderly : Orderly requests :=
  ⟨Nat.one_lt_two, Nat.zero_lt_two, Nat.zero_lt_two, fun _ h => (by cases h; exact Nat.zero_lt_one),
    fun _ h => (by cases h), trivial⟩

end Shadowing

theorem lexicallyScoped_after_shadowing :
    Orderly Shadowing.requests ∧ LexicallyScoped Shadowing.requests :=
  ⟨Shadowing.orderly, lexicallyScoped_after Shadowing.orderly⟩

end Stackwork.Forest
