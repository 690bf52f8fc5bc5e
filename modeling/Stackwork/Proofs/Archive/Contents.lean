import Mathlib.Data.List.Forall2
import Stackwork.Archive.Load
import Stackwork.Proofs.Failing
import Stackwork.Proofs.Image.Reading
import Stackwork.Proofs.Module.Flatten

/-!
# What an archive contains

An archive is changed by storing and deleting modules. A request that fails leaves everything as it
was. Under a name there is the row that was stored last, and rows that a request does not name stay.
-/
namespace Stackwork

open List
open Stackwork.Except (bind_eq_ok)

namespace Image

variable {g : Graph} {m : Module} {x : ModuleRecord}

/-- The image of a module is that of its record. -/
theorem encode_eq_ok {bytes : List UInt8} : encode g m = .ok bytes ↔ ∃ x, record g m = .ok x ∧ x.image = bytes := by
  simp only [encode, bind_eq_ok, ModuleRecord.image, pure, Except.pure, Except.ok.injEq]

/-- Imports are written by name. -/
theorem imports_of_record (h : record g m = .ok x) : x.imports = m.imports.map fun i => (g.get i).name := by
  simp only [record, bind_eq_ok, pure, Except.pure, Except.ok.injEq] at h
  obtain ⟨_, -, rfl⟩ := h
  rfl

/-- The name and the identifier are written as they are. -/
theorem name_of_record (h : record g m = .ok x) : x.name = m.name ∧ x.id = m.id.bytes := by
  simp only [record, bind_eq_ok, pure, Except.pure, Except.ok.injEq] at h
  obtain ⟨_, -, rfl⟩ := h
  exact ⟨rfl, rfl⟩

end Image

namespace Archive

/-- A change of an archive. -/
inductive Request where
  | put (g : Graph) (m : ModuleId)
  | delete (name : String)

/-- The names that a request stores or deletes. -/
def Request.names : Request → List String
  | .put g m => (g.flatten [m]).map fun i => (g.get i).name
  | .delete name => [name]

/-- The archive behind a request; one that fails changes nothing. -/
def Request.apply (a : Archive) : Request → Archive
  | .put g m =>
    match a.put g m with
    | .ok (_, a') => a'
    | .error _ => a
  | .delete name => (a.delete? name).getD a

/-- The archive behind a row of requests. -/
def replay (a : Archive) (requests : List Request) : Archive := requests.foldl Request.apply a

variable {a : Archive} {g : Graph} {m : ModuleId} {rows : List Row} {r : Row} {name : String}

theorem rowOf_eq_ok {m : Module} :
    rowOf g m = .ok r ↔ ∃ x, Image.record g m = .ok x ∧ r = ⟨m.name, .of x.image, m.id, x.image⟩ := by
  simp only [rowOf, bind_eq_ok, Image.encode_eq_ok, pure, Except.pure, Except.ok.injEq]
  constructor
  · rintro ⟨_, ⟨x, hx, rfl⟩, rfl⟩
    exact ⟨x, hx, rfl⟩
  · rintro ⟨x, hx, rfl⟩
    exact ⟨_, ⟨x, hx, rfl⟩, rfl⟩

/-- The rows of the listed modules. -/
def RowsOf (g : Graph) (order : List ModuleId) (rows : List Row) : Prop :=
  List.Forall₂ (fun i r => rowOf g (g.get i) = .ok r) order rows

theorem RowsOf.getLast?_eq {before : List ModuleId} (h : RowsOf g (before ++ [m]) rows) :
    ∃ own, rowOf g (g.get m) = .ok own ∧ rows.getLast? = some own := by
  induction before generalizing rows with
  | nil =>
    cases h with
    | cons hown hnil =>
      cases hnil
      exact ⟨_, hown, rfl⟩
  | cons i before ih =>
    cases h with
    | cons _ hrest =>
      obtain ⟨own, hown, hlast⟩ := ih hrest
      exact ⟨own, hown, by rw [getLast?_cons, hlast]; rfl⟩

variable {h : Hash} {a' : Archive}

/-- Modules are stored a row each; the digest is that of the last row. -/
theorem store_eq_ok {order : List ModuleId} {h' : Hash} : store g order h a = .ok (h', a') ↔
    ∃ rows, RowsOf g order rows ∧ h' = (rows.getLast?.map (·.hash)).getD h ∧ a' = rows.foldl insert a := by
  have hlast (h : Hash) (r : Row) (rows : List Row) :
      ((r :: rows).getLast?.map (·.hash)).getD h = (rows.getLast?.map (·.hash)).getD r.hash := by
    rw [getLast?_cons]
    cases rows.getLast? <;> rfl
  induction order generalizing h a with
  | nil =>
    simp only [RowsOf, forall₂_nil_left_iff, exists_eq_left, store, Except.ok.injEq, Prod.mk.injEq]
    exact and_congr eq_comm eq_comm
  | cons i order ih =>
    simp only [store, bind_eq_ok, ih, RowsOf, forall₂_cons_left_iff]
    constructor
    · rintro ⟨r, hr, rows, hrows, rfl, rfl⟩
      exact ⟨r :: rows, ⟨r, rows, hr, hrows, rfl⟩, (hlast h r rows).symm, rfl⟩
    · rintro ⟨_, ⟨r, rows, hr, hrows, rfl⟩, rfl, rfl⟩
      exact ⟨r, hr, rows, hrows, hlast h r rows, rfl⟩

/-- What is stored: a row for each module, in dependency order. The last one is the module itself, so
the digest is that of its own image. -/
theorem put_eq_ok : a.put g m = .ok (h, a') ↔
    ∃ rows own, RowsOf g (g.flatten [m]) rows ∧ rowOf g (g.get m) = .ok own ∧ h = own.hash ∧
      a' = rows.foldl insert a := by
  obtain ⟨before, hflatten⟩ := g.flatten_root m
  rw [put, store_eq_ok]
  constructor
  · rintro ⟨rows, hrows, rfl, rfl⟩
    obtain ⟨own, hown, hlast⟩ := RowsOf.getLast?_eq (hflatten ▸ hrows)
    exact ⟨rows, own, hrows, hown, by rw [hlast]; rfl, rfl⟩
  · rintro ⟨rows, own, hrows, hown, rfl, rfl⟩
    obtain ⟨own', hown', hlast⟩ := RowsOf.getLast?_eq (hflatten ▸ hrows)
    cases hown.symm.trans hown'
    exact ⟨rows, hrows, by rw [hlast]; rfl, rfl⟩

namespace RowsOf

variable {order : List ModuleId}

theorem names_eq (h : RowsOf g order rows) : rows.map (·.name) = order.map fun i => (g.get i).name := by
  induction h with
  | nil => rfl
  | cons hr _ ih =>
    obtain ⟨x, -, rfl⟩ := rowOf_eq_ok.1 hr
    rw [map_cons, map_cons, ih]

theorem exists_of_forall (h : ∀ i ∈ order, ∃ r, rowOf g (g.get i) = .ok r) : ∃ rows, RowsOf g order rows := by
  induction order with
  | nil => exact ⟨[], .nil⟩
  | cons i order ih =>
    obtain ⟨hi, hrest⟩ := forall_mem_cons.1 h
    obtain ⟨r, hr⟩ := hi
    obtain ⟨rows, hrows⟩ := ih hrest
    exact ⟨r :: rows, .cons hr hrows⟩

theorem exists_of_mem (h : RowsOf g order rows) (hr : r ∈ rows) : ∃ i ∈ order, rowOf g (g.get i) = .ok r := by
  induction h with
  | nil => cases hr
  | @cons i _ _ _ hi _ ih =>
    rcases mem_cons.1 hr with rfl | hr
    · exact ⟨i, mem_cons_self, hi⟩
    · obtain ⟨j, hj, hr⟩ := ih hr
      exact ⟨j, mem_cons_of_mem _ hj, hr⟩

theorem mem_of_mem (h : RowsOf g order rows) {i : ModuleId} (hi : i ∈ order) :
    ∃ r ∈ rows, rowOf g (g.get i) = .ok r := by
  induction h with
  | nil => cases hi
  | @cons _ r _ _ hr _ ih =>
    rcases mem_cons.1 hi with rfl | hi
    · exact ⟨r, mem_cons_self, hr⟩
    · obtain ⟨r', hr', hrow⟩ := ih hi
      exact ⟨r', mem_cons_of_mem _ hr', hrow⟩

end RowsOf

/-! ### Rows that are stored one after the other -/

theorem mem_insert {r' : Row} : r' ∈ (a.insert r).rows ↔ r' = r ∨ r' ∈ a.rows ∧ r'.name ≠ r.name := by
  simp [insert, or_comm]

variable {other : String}

theorem find?_filter_ne (h : name ≠ other) :
    (rows.filter (·.name ≠ other)).find? (·.name = name) = rows.find? (·.name = name) := by
  rw [find?_filter]
  congr 1
  funext x
  by_cases hx : x.name = name
  · simp [hx, h]
  · simp [hx]

theorem find?_insert : (a.insert r).find? name = if r.name = name then some r else a.find? name := by
  rw [find?, insert, find?_append]
  split
  · next hname =>
    have hnone : (a.rows.filter (·.name ≠ r.name)).find? (·.name = name) = none := by
      rw [find?_eq_none]
      intro x hx
      simpa [hname] using (mem_filter.1 hx).2
    rw [hnone, Option.none_or, find?_cons_of_pos (by simpa using hname)]
  · next hname =>
    rw [find?_filter_ne (Ne.symm hname), find?_cons_of_neg (by simpa using hname), find?_nil, Option.or_none,
      find?]

/-- A row is one of those stored, or it was there before and its name is not among them. -/
theorem mem_foldl_insert (h : r ∈ (rows.foldl insert a).rows) :
    r ∈ rows ∨ r ∈ a.rows ∧ r.name ∉ rows.map (·.name) := by
  induction rows generalizing a with
  | nil => exact .inr ⟨h, by simp⟩
  | cons r' rows ih =>
    rcases ih h with hr | ⟨hr, hname⟩
    · exact .inl (mem_cons_of_mem _ hr)
    · rcases mem_insert.1 hr with rfl | ⟨hr, hne⟩
      · exact .inl mem_cons_self
      · exact .inr ⟨hr, by simp [hne, hname]⟩

theorem find?_foldl_insert_of_notMem (h : name ∉ rows.map (·.name)) :
    (rows.foldl insert a).find? name = a.find? name := by
  induction rows generalizing a with
  | nil => rfl
  | cons r rows ih =>
    rw [map_cons, mem_cons, not_or] at h
    rw [foldl_cons, ih h.2, find?_insert, if_neg (Ne.symm h.1)]

theorem find?_foldl_insert_of_mem (nodup : (rows.map (·.name)).Nodup) (h : r ∈ rows) :
    (rows.foldl insert a).find? r.name = some r := by
  induction rows generalizing a with
  | nil => cases h
  | cons r' rows ih =>
    rw [map_cons, nodup_cons] at nodup
    rw [foldl_cons]
    rcases mem_cons.1 h with rfl | h
    · rw [find?_foldl_insert_of_notMem nodup.1, find?_insert, if_pos rfl]
    · exact ih nodup.2 h

theorem find?_delete {a' : Archive} (h : a.delete? name = some a') (hne : other ≠ name) :
    a'.find? other = a.find? other := by
  unfold delete? at h
  split at h
  · cases h
    exact find?_filter_ne hne
  · cases h

/-- What is stored under a name stays there until a request names it. -/
theorem find?_replay {requests : List Request} (h : ∀ q ∈ requests, name ∉ q.names) :
    (a.replay requests).find? name = a.find? name := by
  induction requests generalizing a with
  | nil => rfl
  | cons q requests ih =>
    obtain ⟨hq, hrest⟩ := forall_mem_cons.1 h
    rw [replay, foldl_cons, ← replay, ih hrest]
    cases q with
    | put g m =>
      simp only [Request.apply]
      split
      · next hput =>
        obtain ⟨rows, own, hrows, -, -, rfl⟩ := put_eq_ok.1 hput
        exact find?_foldl_insert_of_notMem (hrows.names_eq ▸ hq)
      · rfl
    | delete other =>
      rw [Request.apply]
      cases hdelete : a.delete? other with
      | none => rfl
      | some a' => exact find?_delete hdelete (by simpa [Request.names] using hq)

/-- Every row has the digest of its image. -/
def Digested (a : Archive) : Prop := ∀ r ∈ a.rows, r.hash = .of r.image

theorem Digested.foldl_insert (h : a.Digested) {order : List ModuleId} (hrows : RowsOf g order rows) :
    (rows.foldl insert a).Digested := by
  intro r hr
  rcases mem_foldl_insert hr with hr | ⟨hr, -⟩
  · obtain ⟨i, -, hrow⟩ := hrows.exists_of_mem hr
    obtain ⟨x, -, rfl⟩ := rowOf_eq_ok.1 hrow
    rfl
  · exact h r hr

theorem Digested.replay (h : a.Digested) (requests : List Request) : (a.replay requests).Digested := by
  induction requests generalizing a with
  | nil => exact h
  | cons q requests ih =>
    refine ih (a := q.apply a) ?_
    cases q with
    | put g m =>
      simp only [Request.apply]
      split
      · next hput =>
        obtain ⟨rows, own, hrows, -, -, rfl⟩ := put_eq_ok.1 hput
        exact h.foldl_insert hrows
      · exact h
    | delete name =>
      rw [Request.apply, delete?]
      split
      · exact fun r hr => h r (mem_filter.1 hr).1
      · exact h

end Archive
end Stackwork
