import Mathlib.Data.List.Nodup
import Stackwork.Archive.Connection
import Stackwork.Proofs.Archive.Contents
import Stackwork.Proofs.Module.Order

/-!
# What holds of every archive

Archives are reached through connections, and changed by storing and deleting modules. However
these requests follow each other, and whether they succeed or not, names stay unique and every
row tells what its image says. Listing, asking for a digest and loading by digest then agree with
each other. Storing a module leaves the rows of everything it needs, of modules with one name
that of the last in dependency order, and all older rows under other names.

`Storage.after` is the storage behind a row of requests, and `Storage.upheld_after` the invariant.
-/
namespace Stackwork

open List
open Array (getD_eq_getD_getElem?)

/-! ### The modules that a module needs -/

namespace Graph

variable {g : Graph} {b b' ms out : List ModuleId}

/-- A walk comes only to modules that are needed. -/
theorem Walks.reachable (h : g.Walks b ms b' out) :
    ∀ i ∈ out, ∃ m ∈ ms, Relation.ReflTransGen g.Imports m i := by
  induction h with
  | nil => simp
  | seen _ _ ih =>
    intro i hi
    obtain ⟨m, hm, hreach⟩ := ih i hi
    exact ⟨m, mem_cons_of_mem _ hm, hreach⟩
  | @fresh _ _ _ ms _ _ m _ _ _ ih₁ ih₂ =>
    intro i hi
    rcases mem_append.1 hi with hi | hi
    · obtain ⟨j, hj, hreach⟩ := ih₁ i hi
      exact ⟨m, mem_cons_self, .head hj hreach⟩
    · rcases mem_cons.1 hi with rfl | hi
      · exact ⟨i, mem_cons_self, .refl⟩
      · obtain ⟨j, hj, hreach⟩ := ih₂ i hi
        exact ⟨j, mem_cons_of_mem _ hj, hreach⟩

/-- The dependency order lists exactly the modules that are needed, the root included. -/
theorem mem_flatten_iff {m i : ModuleId} :
    i ∈ g.flatten [m] ↔ Relation.ReflTransGen g.Imports m i := by
  obtain ⟨b, hw⟩ := g.walks_flatten [m]
  constructor
  · intro hi
    obtain ⟨_, hroot, hreach⟩ := hw.reachable i hi
    rwa [mem_singleton.1 hroot] at hreach
  · intro hreach
    have listed {j : ModuleId} (hj : j ∈ b) : j ∈ g.flatten [m] := by simpa using hw.mem_begun.1 hj
    induction hreach with
    | refl => exact listed (hw.roots_subset mem_cons_self)
    | tail _ hstep ih => exact listed (hw.imports_subset _ ih hstep)

end Graph

namespace Archive

/-- A row has the digest of its image, and the image is that of a module with the name and the
identifier of the row. Whoever can read the image finds both in it. -/
structure Faithful (r : Row) : Prop where
  digest : r.hash = .of r.image
  image : ∃ g m, Image.encode g m = .ok r.image ∧ m.name = r.name ∧ m.id = r.id
  read (short : r.image.length < Cbor.wordLimit) {x : Image.ModuleRecord}
    (h : Image.readRecord r.image = .ok x) : x.name = r.name ∧ x.uuid = .ok r.id

/-- No name twice, and every row is faithful. -/
structure Consistent (a : Archive) : Prop where
  names : (a.rows.map (·.name)).Nodup
  rows : ∀ r ∈ a.rows, Faithful r

variable {a a' : Archive} {g : Graph} {m : ModuleId} {rows : List Row} {r : Row} {name : String}

theorem faithful_of_rowOf {m : Module} (h : rowOf g m = .ok r) : Faithful r := by
  obtain ⟨x, hx, rfl⟩ := rowOf_eq_ok.1 h
  obtain ⟨hname, hid⟩ := Image.name_of_record hx
  refine ⟨rfl, ⟨g, m, Image.encode_eq_ok.2 ⟨x, hx, rfl⟩, rfl, rfl⟩, fun short y hy => ?_⟩
  have heading := Image.heading_of_readRecord short hy
  exact ⟨heading.name.trans hname, Image.uuid_eq (heading.id.trans hid)⟩

theorem Consistent.empty : Consistent {} := ⟨nodup_nil, fun r hr => by cases hr⟩

theorem Consistent.filter (h : a.Consistent) (p : Row → Bool) : Consistent ⟨a.rows.filter p⟩ where
  names := (filter_sublist.map _).nodup h.names
  rows r hr := h.rows r (mem_filter.1 hr).1

theorem Consistent.insert (h : a.Consistent) (hr : Faithful r) : (a.insert r).Consistent where
  names := by
    have hrest := (h.filter (·.name ≠ r.name)).names
    rw [Archive.insert, map_append, map_singleton]
    refine nodup_append.2 ⟨hrest, by simp, ?_⟩
    rintro _ hn _ hname rfl
    obtain ⟨r', hr', hn⟩ := mem_map.1 hn
    have hne : r'.name ≠ r.name := by simpa using (mem_filter.1 hr').2
    exact hne (hn.trans (mem_singleton.1 hname))
  rows r' hr' := by
    rcases mem_insert.1 hr' with rfl | ⟨hold, -⟩
    · exact hr
    · exact h.rows r' hold

theorem Consistent.foldl_insert (h : a.Consistent) (hrows : ∀ r ∈ rows, Faithful r) :
    (rows.foldl Archive.insert a).Consistent := by
  induction rows generalizing a with
  | nil => exact h
  | cons r rows ih =>
    obtain ⟨hr, hrest⟩ := forall_mem_cons.1 hrows
    exact ih (h.insert hr) hrest

variable {digest : Hash} {order : List ModuleId}

theorem Consistent.put (h : a.Consistent) (hput : a.put g m = .ok (digest, a')) : a'.Consistent := by
  obtain ⟨rows, -, hrows, -, -, rfl⟩ := put_eq_ok.1 hput
  refine h.foldl_insert fun r hr => ?_
  obtain ⟨i, -, hrow⟩ := hrows.exists_of_mem hr
  exact faithful_of_rowOf hrow

theorem Consistent.delete? (h : a.Consistent) (hdelete : a.delete? name = some a') :
    a'.Consistent := by
  unfold Archive.delete? at hdelete
  split at hdelete <;> cases hdelete
  exact h.filter _

/-! ### What a put leaves -/

/-- A listed module with no other of its name behind it. -/
def Latest (g : Graph) (order : List ModuleId) (i : ModuleId) : Prop :=
  ∃ before after, order = before ++ i :: after ∧ ∀ j ∈ after, (g.get j).name ≠ (g.get i).name

theorem latest_cons {i j : ModuleId} : Latest g (j :: order) i ↔
      (i = j ∧ ∀ k ∈ order, (g.get k).name ≠ (g.get i).name) ∨ Latest g order i := by
  constructor
  · rintro ⟨before, after, horder, hafter⟩
    cases before with
    | nil =>
      obtain ⟨rfl, rfl⟩ := cons.inj horder
      exact .inl ⟨rfl, hafter⟩
    | cons k before =>
      obtain ⟨-, rfl⟩ := cons.inj horder
      exact .inr ⟨before, after, rfl, hafter⟩
  · rintro (⟨rfl, hafter⟩ | ⟨before, after, rfl, hafter⟩)
    · exact ⟨[], order, rfl, hafter⟩
    · exact ⟨j :: before, after, rfl, hafter⟩

/-- Of the listed modules with a name, one is the latest. -/
theorem exists_latest (h : ∃ i ∈ order, (g.get i).name = name) : ∃ j, Latest g order j ∧ (g.get j).name = name := by
  induction order with
  | nil =>
    obtain ⟨i, hi, -⟩ := h
    cases hi
  | cons k order ih =>
    by_cases hlater : ∃ i ∈ order, (g.get i).name = name
    · obtain ⟨j, hj, hname⟩ := ih hlater
      exact ⟨j, latest_cons.2 (.inr hj), hname⟩
    · obtain ⟨i, hi, hname⟩ := h
      rcases mem_cons.1 hi with rfl | hi
      · have hlast : ∀ j ∈ order, (g.get j).name ≠ (g.get i).name :=
          fun j hj heq => hlater ⟨j, hj, heq.trans hname⟩
        exact ⟨i, latest_cons.2 (.inl ⟨rfl, hlast⟩), hname⟩
      · exact absurd ⟨i, hi, hname⟩ hlater

theorem Latest.mem {i : ModuleId} (h : Latest g order i) : i ∈ order := by
  obtain ⟨before, after, rfl, -⟩ := h
  simp

/-- Behind a put there are the rows of the latest modules, and those from before under other names. -/
theorem mem_stored_iff (hrows : RowsOf g order rows) :
    r ∈ (rows.foldl insert a).rows ↔ (∃ i, Latest g order i ∧ rowOf g (g.get i) = .ok r) ∨
      r ∈ a.rows ∧ ∀ i ∈ order, (g.get i).name ≠ r.name := by
  induction hrows generalizing a with
  | nil => simp [Latest]
  | @cons i₀ r₀ order rows hr₀ _ ih =>
    obtain ⟨x, -, hr₀'⟩ := rowOf_eq_ok.1 hr₀
    have hname : r₀.name = (g.get i₀).name := congrArg Row.name hr₀'
    rw [foldl_cons, ih, mem_insert]
    simp only [latest_cons, forall_mem_cons]
    constructor
    · rintro (⟨i, hi, hrow⟩ | ⟨rfl | ⟨hold, hne⟩, hrest⟩)
      · exact .inl ⟨i, .inr hi, hrow⟩
      · exact .inl ⟨i₀, .inl ⟨rfl, hname ▸ hrest⟩, hr₀⟩
      · exact .inr ⟨hold, hname ▸ hne.symm, hrest⟩
    · rintro (⟨i, ⟨rfl, hlast⟩ | hi, hrow⟩ | ⟨hold, hne, hrest⟩)
      · cases hr₀.symm.trans hrow
        exact .inr ⟨.inl rfl, hname ▸ hlast⟩
      · exact .inl ⟨i, hi, hrow⟩
      · exact .inr ⟨.inr ⟨hold, hname ▸ hne.symm⟩, hrest⟩

/-- What a put has done: the rows of everything that the module needs, the latest winning where
names repeat, in place of older rows; and the digest of the module's own image. -/
structure Stored (a : Archive) (g : Graph) (m : ModuleId) (digest : Hash) (a' : Archive) : Prop where
  digest : ∃ image, Image.encode g (g.get m) = .ok image ∧ digest = .of image
  rows (r : Row) : r ∈ a'.rows ↔ (∃ i, Latest g (g.flatten [m]) i ∧ rowOf g (g.get i) = .ok r) ∨
    r ∈ a.rows ∧ ∀ i, Relation.ReflTransGen g.Imports m i → (g.get i).name ≠ r.name
  needed {i : ModuleId} (h : Relation.ReflTransGen g.Imports m i) :
    ∃ r ∈ a'.rows, r.name = (g.get i).name

theorem stored_of_put (h : a.put g m = .ok (digest, a')) : a.Stored g m digest a' := by
  obtain ⟨rows, own, hrows, hown, rfl, rfl⟩ := put_eq_ok.1 h
  refine ⟨?_, fun r => ?_, fun {i} hi => ?_⟩
  · obtain ⟨x, hx, rfl⟩ := rowOf_eq_ok.1 hown
    exact ⟨_, Image.encode_eq_ok.2 ⟨x, hx, rfl⟩, rfl⟩
  · simp only [mem_stored_iff hrows, Graph.mem_flatten_iff]
  · obtain ⟨j, hlatest, hname⟩ := exists_latest ⟨i, Graph.mem_flatten_iff.2 hi, rfl⟩
    obtain ⟨r, -, hrow⟩ := hrows.mem_of_mem hlatest.mem
    obtain ⟨x, -, rfl⟩ := rowOf_eq_ok.1 hrow
    exact ⟨_, (mem_stored_iff hrows).2 (.inl ⟨j, hlatest, hrow⟩), hname⟩

/-- A put goes well exactly when everything that the module needs can be written. -/
theorem put_succeeds_iff : (∃ digest a', a.put g m = .ok (digest, a')) ↔
    ∀ i, Relation.ReflTransGen g.Imports m i → ∃ image, Image.encode g (g.get i) = .ok image := by
  simp only [put_eq_ok, ← Graph.mem_flatten_iff]
  constructor
  · rintro ⟨_, _, rows, own, hrows, -⟩ i hi
    obtain ⟨r, -, hrow⟩ := hrows.mem_of_mem hi
    obtain ⟨x, hx, -⟩ := rowOf_eq_ok.1 hrow
    exact ⟨_, Image.encode_eq_ok.2 ⟨x, hx, rfl⟩⟩
  · intro h
    have hrow (i : ModuleId) (hi : i ∈ g.flatten [m]) : ∃ r, rowOf g (g.get i) = .ok r := by
      obtain ⟨image, himage⟩ := h i hi
      obtain ⟨x, hx, -⟩ := Image.encode_eq_ok.1 himage
      exact ⟨_, rowOf_eq_ok.2 ⟨x, hx, rfl⟩⟩
    obtain ⟨own, hown⟩ := hrow m (Graph.mem_flatten_iff.2 .refl)
    obtain ⟨rows, hrows⟩ := RowsOf.exists_of_forall hrow
    exact ⟨_, _, rows, own, hrows, hown, rfl, rfl⟩

theorem mem_delete? (h : a.delete? name = some a') : r ∈ a'.rows ↔ r ∈ a.rows ∧ r.name ≠ name := by
  unfold Archive.delete? at h
  split at h <;> cases h
  simp

theorem delete?_succeeds_iff : (∃ a', a.delete? name = some a') ↔ ∃ r ∈ a.rows, r.name = name := by
  have hfind : (a.find? name).isSome ↔ ∃ r ∈ a.rows, r.name = name := by
    simp only [find?, find?_isSome, decide_eq_true_eq]
  rw [← hfind, Archive.delete?]
  cases a.find? name <;> simp

/-! ### Listing and looking up -/

theorem perm_list (a : Archive) : a.list.Perm a.rows := mergeSort_perm _ _

theorem Consistent.sorted (h : a.Consistent) : a.list.Pairwise fun r r' => r.name < r'.name := by
  have hle : a.list.Pairwise fun r r' => r.name ≤ r'.name := by
    have hsorted : a.list.Pairwise fun r r' => decide (r.name ≤ r'.name) = true := by
      refine pairwise_mergeSort (fun r r' r'' h h' => ?_) (fun r r' => ?_) a.rows
      · simp only [decide_eq_true_eq] at h h' ⊢
        exact String.le_trans h h'
      · simpa using String.le_total r.name r'.name
    exact hsorted.imp fun h => of_decide_eq_true h
  have hne : a.list.Pairwise fun r r' => r.name ≠ r'.name := by
    have hnodup : (a.list.map (·.name)).Nodup := (a.perm_list.map _).nodup_iff.2 h.names
    exact pairwise_map.1 hnodup
  exact (hle.and hne).imp fun h => Std.lt_of_le_of_ne h.1 h.2

/-- A digest is there exactly when a listed row has it. -/
theorem has_iff : a.has digest = true ↔ ∃ r ∈ a.list, r.hash = digest := by
  simp only [a.perm_list.mem_iff, has, findHash?, find?_isSome, decide_eq_true_eq]

end Archive

/-! ### Storages -/

namespace Storage

/-- The archive that a connection leads to, whether it can still be used or not. -/
def behind (s : Storage) (c : ConnectionId) : Archive := s.archives.getD (s.connection c).archive {}

/-- What changes a storage. -/
inductive Change where
  | connect (file : Option String) (cancelled : Bool)
  | close (c : ConnectionId)
  | put (c : ConnectionId) (cancelled : Bool) (g : Graph) (m : ModuleId)
  | delete (c : ConnectionId) (cancelled : Bool) (name : String)

/-- The storage behind a change, if it succeeds. -/
def Change.result? (s : Storage) : Change → Option Storage
  | connect file cancelled => (s.connect file cancelled).toOption.map (·.2)
  | close c => some (s.close c)
  | put c cancelled g m =>
    (s.put c cancelled g m).toOption.bind fun answer => answer.toOption.map (·.2)
  | delete c cancelled name => (s.delete c cancelled name).toOption

/-- The storage behind a change; one that fails leaves everything as it was. -/
def Change.apply (s : Storage) (q : Change) : Storage := (q.result? s).getD s

/-- The storage behind a row of changes, from an empty one on. -/
def after (changes : List Change) : Storage := changes.foldl Change.apply {}

/-- Every archive is consistent, and connections and files lead to archives. -/
structure Upheld (s : Storage) : Prop where
  archives (i : Nat) : (s.archives.getD i {}).Consistent
  connections (c : ConnectionId) :
    (s.connection c).closed = false → (s.connection c).archive < s.archives.size
  files : ∀ f ∈ s.files, f.2 < s.archives.size

variable {s s' : Storage} {c c' : ConnectionId} {cancelled : Bool} {doing : String} {a : Archive}

theorem eq_ok_of_toOption {ε α : Type} {x : Except ε α} {y : α} (h : x.toOption = some y) :
    x = .ok y := by
  cases x with
  | error e => cases h
  | ok y' =>
    cases h
    rfl

theorem archive_eq_ok : s.archive c cancelled doing = .ok a ↔
    (s.connection c).closed = false ∧ cancelled = false ∧ a = s.behind c := by
  unfold archive
  simp only
  split
  · next h => simp [h]
  · next h =>
    split
    · next h' => simp [h']
    · next h' => simp [h, h', behind, eq_comm]

theorem put_eq_ok {g : Graph} {m : ModuleId} {digest : Hash} :
    s.put c cancelled g m = .ok (.ok (digest, s')) ↔
      (s.connection c).closed = false ∧ cancelled = false ∧
        ∃ a', (s.behind c).put g m = .ok (digest, a') ∧ s' = s.setArchive c a' := by
  simp only [put, Except.bind_eq_ok, archive_eq_ok, pure, Except.pure, Except.ok.injEq]
  constructor
  · rintro ⟨_, ⟨hopen, hgiven, rfl⟩, h⟩
    cases hput : (s.behind c).put g m with
    | error e =>
      rw [hput] at h
      cases h
    | ok p =>
      rw [hput] at h
      cases h
      exact ⟨hopen, hgiven, p.2, rfl, rfl⟩
  · rintro ⟨hopen, hgiven, a', hput, rfl⟩
    exact ⟨_, ⟨hopen, hgiven, rfl⟩, by rw [hput]; rfl⟩

theorem delete_eq_ok {name : String} :
    s.delete c cancelled name = .ok s' ↔ (s.connection c).closed = false ∧ cancelled = false ∧
      ∃ a', (s.behind c).delete? name = some a' ∧ s' = s.setArchive c a' := by
  simp only [delete, Except.bind_eq_ok, archive_eq_ok]
  constructor
  · rintro ⟨_, ⟨hopen, hgiven, rfl⟩, h⟩
    cases hdelete : (s.behind c).delete? name with
    | none =>
      rw [hdelete] at h
      cases h
    | some a' =>
      rw [hdelete] at h
      cases h
      exact ⟨hopen, hgiven, a', rfl, rfl⟩
  · rintro ⟨hopen, hgiven, a', hdelete, rfl⟩
    exact ⟨_, ⟨hopen, hgiven, rfl⟩, by rw [hdelete]; rfl⟩

theorem getD_setIfInBounds (xs : Array Archive) (i j : Nat) (a : Archive) :
    (xs.setIfInBounds i a).getD j {} = if i = j ∧ i < xs.size then a else xs.getD j {} := by
  simp only [getD_eq_getD_getElem?, Array.getElem?_setIfInBounds]
  by_cases hij : i = j
  · subst hij
    by_cases hi : i < xs.size
    · simp [hi]
    · simp [hi]
  · simp [hij]

theorem behind_setArchive (h : s.Upheld) (hopen : (s.connection c).closed = false) (a : Archive)
    (c' : ConnectionId) : (s.setArchive c a).behind c' =
      if (s.connection c).archive = (s.connection c').archive then a else s.behind c' := by
  change (s.archives.setIfInBounds (s.connection c).archive a).getD (s.connection c').archive {} = _
  simp only [getD_setIfInBounds, h.connections c hopen, and_true]
  rfl

namespace Upheld

theorem empty : Upheld {} where
  archives _ := .empty
  connections _ h := by simp [connection] at h
  files _ h := by cases h

theorem setArchive (h : s.Upheld) (ha : a.Consistent) : (s.setArchive c a).Upheld where
  archives i := by
    rw [Storage.setArchive, getD_setIfInBounds]
    split
    · exact ha
    · exact h.archives i
  connections c' hopen := by
    rw [Storage.setArchive, Array.size_setIfInBounds]
    exact h.connections c' hopen
  files f hf := by
    rw [Storage.setArchive, Array.size_setIfInBounds]
    exact h.files f hf

theorem close (h : s.Upheld) (c : ConnectionId) : (s.close c).Upheld where
  archives := h.archives
  connections c' hopen := by
    have hold : (s.close c).connection c' = s.connection c' := by
      simp only [connection, Storage.close, getD_eq_getD_getElem?, Array.getElem?_modify] at hopen ⊢
      split
      · next hc =>
        rw [if_pos hc] at hopen
        cases hget : s.connections[c'.index]? with
        | none => rfl
        | some conn => simp [hget] at hopen
      · rfl
    rw [hold] at hopen ⊢
    exact h.connections c' hopen
  files := h.files

theorem addConnection (h : s.Upheld) {k : Nat} (hk : k < s.archives.size) :
    Upheld { s with connections := s.connections.push ⟨k, false⟩ } where
  archives := h.archives
  connections c hopen := by
    simp only [connection, getD_eq_getD_getElem?, Array.getElem?_push] at hopen ⊢
    split at hopen
    · next hc =>
      rw [if_pos hc]
      exact hk
    · next hc =>
      rw [if_neg hc]
      have hold := h.connections c
      simp only [connection, getD_eq_getD_getElem?] at hold
      exact hold hopen
  files := h.files

theorem addArchive (h : s.Upheld) (file : Option String) :
    Upheld { s with archives := s.archives.push {}
                    files := file.toList.map (·, s.archives.size) ++ s.files } where
  archives i := by
    have hi := h.archives i
    simp only [getD_eq_getD_getElem?, Array.getElem?_push] at hi ⊢
    split
    · exact .empty
    · exact hi
  connections c hopen := by
    rw [Array.size_push]
    exact Nat.lt_succ_of_lt (h.connections c hopen)
  files f hf := by
    rw [Array.size_push]
    rcases mem_append.1 hf with hf | hf
    · obtain ⟨_, -, rfl⟩ := mem_map.1 hf
      exact Nat.lt_succ_self _
    · exact Nat.lt_succ_of_lt (h.files f hf)

theorem connect {file : Option String} (h : s.Upheld) {given : ConnectionId}
    (hconnect : s.connect file cancelled = .ok (given, s')) : s'.Upheld := by
  unfold Storage.connect at hconnect
  split at hconnect
  · cases hconnect
  cases hknown : file.bind fun f => s.files.lookup f with
  | some known =>
    simp only [hknown] at hconnect
    cases hconnect
    obtain ⟨f, -, hlookup⟩ := Option.bind_eq_some_iff.1 hknown
    obtain ⟨_, _, hfiles, -⟩ := lookup_eq_some_iff.1 hlookup
    exact h.addConnection (h.files (f, known) (by simp [hfiles]))
  | none =>
    simp only [hknown] at hconnect
    cases hconnect
    exact (h.addArchive file).addConnection (by simp)

theorem apply (h : s.Upheld) (q : Change) : (q.apply s).Upheld := by
  rw [Change.apply]
  cases hresult : q.result? s with
  | none => exact h
  | some s' =>
    cases q with
    | connect file cancelled =>
      obtain ⟨⟨given, _⟩, hconnect, rfl⟩ := Option.map_eq_some_iff.1 hresult
      exact h.connect (eq_ok_of_toOption hconnect)
    | close c =>
      cases hresult
      exact h.close c
    | put c cancelled g m =>
      obtain ⟨answer, hput, hanswer⟩ := Option.bind_eq_some_iff.1 hresult
      obtain ⟨⟨digest, _⟩, hpair, rfl⟩ := Option.map_eq_some_iff.1 hanswer
      cases eq_ok_of_toOption hpair
      obtain ⟨-, -, a', hstored, rfl⟩ := put_eq_ok.1 (eq_ok_of_toOption hput)
      exact h.setArchive ((h.archives _).put hstored)
    | delete c cancelled name =>
      obtain ⟨-, -, a', hdeleted, rfl⟩ := delete_eq_ok.1 (eq_ok_of_toOption hresult)
      exact h.setArchive ((h.archives _).delete? hdeleted)

end Upheld

/-- The invariant holds behind every row of changes. -/
theorem upheld_after (changes : List Change) : (after changes).Upheld := by
  have hall {s : Storage} (h : s.Upheld) : (changes.foldl Change.apply s).Upheld := by
    induction changes generalizing s with
    | nil => exact h
    | cons q changes ih => exact ih (h.apply q)
  exact hall .empty

/-- What is learnt of an archive through an open connection: its rows by name, and whether a digest is
there, which is also whether loading by the digest finds an image. -/
structure Shows (s : Storage) (c : ConnectionId) (a : Archive) : Prop where
  list : s.list c false = .ok a.list
  sorted : a.list.Pairwise fun r r' => r.name < r'.name
  perm : a.list.Perm a.rows
  names : a.names.Pairwise (· < ·)
  named (name : String) : name ∈ a.names ↔ ∃ r ∈ a.rows, r.name = name
  has (digest : Hash) : s.has c false digest = .ok (a.has digest)
  listed (digest : Hash) : a.has digest = true ↔ ∃ r ∈ a.list, r.hash = digest
  missing (digest : Hash) (w : Workspace) (options : Image.Options) :
    (w.getModuleByHash s c false digest options).1 = .error (.notFound digest.render) ↔
      a.has digest = false

theorem shows_of_open (h : s.Upheld) (hopen : (s.connection c).closed = false) :
    s.Shows c (s.behind c) := by
  have harchive (doing : String) : s.archive c false doing = .ok (s.behind c) :=
    archive_eq_ok.2 ⟨hopen, rfl, rfl⟩
  have hsorted := (h.archives (s.connection c).archive).sorted
  refine ⟨?_, hsorted, (s.behind c).perm_list, pairwise_map.2 hsorted, fun name => ?_,
    fun digest => ?_, fun digest => Archive.has_iff, fun digest w options => ?_⟩
  · rw [Storage.list, harchive]
    rfl
  · simp only [Archive.names, mem_map, (s.behind c).perm_list.mem_iff]
  · rw [Storage.has, harchive]
    rfl
  · rw [Workspace.getModuleByHash, harchive]
    simp only [Archive.getByHash?, Workspace.loader, Archive.has]
    cases (s.behind c).findHash? digest with
    | none => simp
    | some row =>
      simp only [Option.map_some, Option.isSome_some, Bool.true_eq_false, iff_false]
      -- An image was found, so whatever goes wrong from here on is told of the loading.
      generalize (Archive.loadImage _ _ row.image _).1 = answer
      cases answer <;> exact fun hmissing => by cases hmissing

/-- The rows behind other archives' connections stay. -/
def Elsewhere (s : Storage) (c : ConnectionId) (s' : Storage) : Prop :=
  ∀ c', (s.connection c).archive ≠ (s.connection c').archive → s'.behind c' = s.behind c'

theorem behind_of_setArchive (h : s.Upheld) (hopen : (s.connection c).closed = false)
    (a : Archive) :
    (s.setArchive c a).behind c = a ∧ s.Elsewhere c (s.setArchive c a) :=
  ⟨by rw [behind_setArchive h hopen, if_pos rfl],
    fun c' hne => by rw [behind_setArchive h hopen, if_neg hne]⟩

/-- What holds of the archive behind a connection: it is consistent, and shown as it is while the
connection is open. A put that succeeds stores everything that the module needs; it succeeds when the
connection can be used and every image can be written. A deletion takes the row of a name away, and
succeeds when there is one. What fails changes nothing. -/
structure Orderly (s : Storage) (c : ConnectionId) : Prop where
  consistent : (s.behind c).Consistent
  shows (hopen : (s.connection c).closed = false) : s.Shows c (s.behind c)
  stored {cancelled : Bool} {g : Graph} {m : ModuleId} {digest : Hash} {s' : Storage}
    (h : s.put c cancelled g m = .ok (.ok (digest, s'))) :
    (s.behind c).Stored g m digest (s'.behind c) ∧ s.Elsewhere c s'
  stores_iff (cancelled : Bool) (g : Graph) (m : ModuleId) :
    (∃ digest s', s.put c cancelled g m = .ok (.ok (digest, s'))) ↔
      (s.connection c).closed = false ∧ cancelled = false ∧
        ∀ i, Relation.ReflTransGen g.Imports m i → ∃ image, Image.encode g (g.get i) = .ok image
  deleted {cancelled : Bool} {name : String} {s' : Storage} (h : s.delete c cancelled name = .ok s') :
    (∀ r, r ∈ (s'.behind c).rows ↔ r ∈ (s.behind c).rows ∧ r.name ≠ name) ∧ s.Elsewhere c s'
  deletes_iff (cancelled : Bool) (name : String) : (∃ s', s.delete c cancelled name = .ok s') ↔
    (s.connection c).closed = false ∧ cancelled = false ∧ ∃ r ∈ (s.behind c).rows, r.name = name
  failed {q : Change} (h : q.result? s = none) : q.apply s = s

/-- However requests to store and to delete follow each other, successful or not and through whatever
connections, every archive is in order. -/
theorem orderly_after (changes : List Change) (c : ConnectionId) : (after changes).Orderly c := by
  have hupheld := upheld_after changes
  refine ⟨hupheld.archives _, shows_of_open hupheld, fun hput => ?_, fun cancelled g m => ?_,
    fun hdelete => ?_, fun cancelled name => ?_, fun hfails => ?_⟩
  · obtain ⟨hopen, -, a', hstored, rfl⟩ := put_eq_ok.1 hput
    obtain ⟨hbehind, helse⟩ := behind_of_setArchive hupheld hopen a'
    exact ⟨hbehind.symm ▸ Archive.stored_of_put hstored, helse⟩
  · rw [← Archive.put_succeeds_iff (a := (after changes).behind c)]
    constructor
    · rintro ⟨digest, s', hput⟩
      obtain ⟨hopen, hgiven, a', hstored, -⟩ := put_eq_ok.1 hput
      exact ⟨hopen, hgiven, digest, a', hstored⟩
    · rintro ⟨hopen, hgiven, digest, a', hstored⟩
      exact ⟨digest, _, put_eq_ok.2 ⟨hopen, hgiven, a', hstored, rfl⟩⟩
  · obtain ⟨hopen, -, a', hdeleted, rfl⟩ := delete_eq_ok.1 hdelete
    obtain ⟨hbehind, helse⟩ := behind_of_setArchive hupheld hopen a'
    refine ⟨fun r => ?_, helse⟩
    rw [hbehind]
    exact Archive.mem_delete? hdeleted
  · rw [← Archive.delete?_succeeds_iff]
    constructor
    · rintro ⟨s', hdelete⟩
      obtain ⟨hopen, hgiven, a', hdeleted, -⟩ := delete_eq_ok.1 hdelete
      exact ⟨hopen, hgiven, a', hdeleted⟩
    · rintro ⟨hopen, hgiven, a', hdeleted⟩
      exact ⟨_, delete_eq_ok.2 ⟨hopen, hgiven, a', hdeleted, rfl⟩⟩
  · rw [Change.apply, hfails]
    rfl

-- Of two modules with one name that import each other the root is written last, and stays.
example : ((after [.connect none false,
      .put ⟨0⟩ false ⟨#[{ name := "a", strings := ["root"], imports := [⟨1⟩] },
        { name := "a", imports := [⟨0⟩] }]⟩ ⟨0⟩,
      .put ⟨0⟩ true ⟨#[{ name := "b" }]⟩ ⟨0⟩, .delete ⟨0⟩ false "b"]).behind ⟨0⟩).rows.map
        (fun r => (r.name, (Image.readRecord r.image).toOption.map (·.strings))) =
    [("a", some ["root"])] := by
  decide +kernel

end Storage
end Stackwork
