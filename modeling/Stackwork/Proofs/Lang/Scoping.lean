import Stackwork.Lang.Scope

/-!
# Entries of scopes

What declaring a name does to a forest of scopes: the scope finds the name from then on, and
whatever any scope found before, it still finds.
-/
namespace Stackwork.Forest

variable {f f' : Forest} {s : ScopeId} {name : String} {e : Entry}

section

variable (h : f.declare s name e = .ok f')
include h

theorem unused_of_declare : f.lookupLocal s name = none := by
  unfold declare at h
  split at h
  · cases h
  · assumption

theorem size_of_declare : f'.scopes.size = f.scopes.size := by
  unfold declare at h
  split at h
  · cases h
  · cases h
    exact Array.size_modify

/-- A declaration that succeeds puts an entry behind those of the scope. -/
theorem get_of_declare (s' : ScopeId) : f'.get s' = if s' = s ∧ s.index < f.scopes.size then
      { f.get s with entries := (f.get s).entries ++ [(name, e)] } else f.get s' := by
  unfold declare at h
  split at h
  · cases h
  · cases h
    unfold get
    simp only [Array.getD_eq_getD_getElem?, Array.getElem?_modify]
    by_cases hs : s' = s
    · subst hs
      by_cases inside : s'.index < f.scopes.size
      · rw [if_pos rfl, if_pos ⟨rfl, inside⟩, Array.getElem?_eq_getElem inside]
        rfl
      · rw [if_pos rfl, if_neg fun h => inside h.2, Array.getElem?_eq_none (Nat.not_lt.1 inside)]
        rfl
    · have hindex : s.index ≠ s'.index := fun h => hs (by cases s; cases s'; cases h; rfl)
      rw [if_neg hindex, if_neg fun h => hs h.1]

/-- What a scope finds is found there after any declaration too. -/
theorem lookupLocal_mono {s' : ScopeId} {n : String} {e' : Entry}
    (found : f.lookupLocal s' n = some e') : f'.lookupLocal s' n = some e' := by
  unfold lookupLocal at found ⊢
  rw [get_of_declare h]
  split
  · next hs =>
    rw [hs.1] at found
    rw [List.lookup_append, found]
    rfl
  · exact found

/-- A declared name is found where it was declared. -/
theorem lookupLocal_of_declare (inside : s.index < f.scopes.size) :
    f'.lookupLocal s name = some e := by
  have unused := unused_of_declare h
  unfold lookupLocal at unused ⊢
  rw [get_of_declare h, if_pos ⟨rfl, inside⟩, List.lookup_append, unused, List.lookup_cons_self]
  rfl

end

end Stackwork.Forest
