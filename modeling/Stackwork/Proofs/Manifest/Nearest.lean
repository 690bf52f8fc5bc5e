import Stackwork.Manifest.Search

/-!
# The nearest manifest

The search for a manifest loads what is in the nearest folder, from the start upward, that has an
entry with the name of one. Whatever is further up plays no part, even if that entry cannot be read.
-/
namespace Stackwork

namespace Path

/-- A part of a path that cleaning keeps in its place. -/
def Kept (part : String) : Prop := '/' ∉ part.toList ∧ part ≠ "" ∧ part ≠ "." ∧ part ≠ ".."

variable {done ps : List String}

theorem not_mem_parts {p part : String} (h : part ∈ parts p) : '/' ∉ part.toList := by
  have pieces (cs : List Char) : ∀ piece ∈ cs.splitOn '/', '/' ∉ piece := by
    induction cs with
    | nil => simp
    | cons c cs ih =>
      rw [List.splitOn_cons_eq_if_modifyHead]
      split
      · simpa using ih
      · next hc =>
        intro piece hpiece
        cases hs : cs.splitOn '/' with
        | nil => exact absurd hs (List.splitOn_ne_nil _ _)
        | cons first rest =>
          simp only [hs, List.modifyHead_cons, List.mem_cons] at hpiece ih
          obtain rfl | hpiece := hpiece
          · have hne : '/' ≠ c := fun h => hc (beq_iff_eq.2 h.symm)
            simpa [hne] using ih first (.inl rfl)
          · exact ih piece (.inr hpiece)
  obtain ⟨piece, hpiece, rfl⟩ := List.mem_map.1 h
  simpa using pieces _ piece hpiece

/-- Cleaning a path from the root leaves only parts that it keeps. -/
theorem kept_of_mem_cleanParts (hdone : ∀ part ∈ done, Kept part) (hps : ∀ part ∈ ps, '/' ∉ part.toList) :
    ∀ part ∈ cleanParts true done ps, Kept part := by
  induction ps generalizing done with
  | nil => exact hdone
  | cons part ps ih =>
    obtain ⟨hpart, hps⟩ := List.forall_mem_cons.1 hps
    unfold cleanParts
    split
    · exact ih hdone hps
    · next hempty =>
      obtain ⟨hempty, hdot⟩ := not_or.1 hempty
      split
      · split
        · exact ih (List.forall_mem_nil _) hps
        · exact absurd rfl (hdone ".." List.mem_cons_self).2.2.2
        · exact ih (List.forall_mem_cons.1 hdone).2 hps
      · next hup => exact ih (List.forall_mem_cons.2 ⟨⟨hpart, hempty, hdot, hup⟩, hdone⟩) hps

theorem cleanParts_of_kept (h : ∀ part ∈ ps, Kept part) : cleanParts true done ps = ps.reverse ++ done := by
  induction ps generalizing done with
  | nil => rfl
  | cons part ps ih =>
    obtain ⟨⟨-, hempty, hdot, hup⟩, h⟩ := List.forall_mem_cons.1 h
    rw [cleanParts.eq_def]
    simp only
    rw [if_neg (not_or.2 ⟨hempty, hdot⟩), if_neg hup, ih h]
    simp

end Path

namespace Folder

variable {f : Folder}

theorem kept_ofPath (p : String) : ∀ name ∈ (ofPath p).names, Path.Kept name :=
  Path.kept_of_mem_cleanParts (List.forall_mem_nil _) fun _ => Path.not_mem_parts

theorem kept_resolve (here : Folder) (p : String) : ∀ name ∈ (here.resolve p).names, Path.Kept name := by
  unfold resolve
  split <;> exact kept_ofPath _

theorem render_ofPath {p : String} (h : Path.isAbsolute p) : (ofPath p).render = Path.clean p := by
  simp [Path.clean, h, ofPath, render]

/-- The path of a folder leads to it. -/
theorem ofPath_render (h : ∀ name ∈ f.names, Path.Kept name) : ofPath f.render = f := by
  obtain ⟨names⟩ := f
  have hkept : ∀ name ∈ names.reverse, Path.Kept name := fun name hname => h name (List.mem_reverse.1 hname)
  have hparts : Path.parts (render ⟨names⟩) = "" :: if names = [] then [""] else names.reverse := by
    unfold Path.parts render
    rw [String.toList_append, String.toList_intercalate]
    split
    · next hnil =>
      rw [hnil]
      rfl
    · next hne =>
      have hjoin : "/".toList ++ "/".toList.intercalate (names.reverse.map String.toList) =
          ['/'].intercalate ([] :: names.reverse.map String.toList) := by
        cases hnames : names.reverse with
        | nil => exact absurd (List.reverse_eq_nil_iff.1 hnames) hne
        | cons name rest => simp [List.intercalate]
      rw [hjoin, List.splitOn_intercalate]
      · simp
      · intro part hpart
        obtain rfl | hpart := List.mem_cons.1 hpart
        · exact List.not_mem_nil
        · obtain ⟨name, hname, rfl⟩ := List.mem_map.1 hpart
          exact (hkept name hname).1
      · exact List.cons_ne_nil _ _
  have hempty (done ps : List String) : Path.cleanParts true done ("" :: ps) = Path.cleanParts true done ps := by
    rw [Path.cleanParts.eq_def]
    exact if_pos (.inl rfl)
  refine congrArg Folder.mk ?_
  rw [hparts, hempty]
  split
  · next hnil => rw [hempty, hnil]; rfl
  · rw [Path.cleanParts_of_kept hkept, List.reverse_reverse, List.append_nil]

end Folder

namespace Manifest

variable {t : Tree} {f g : Folder}

/-- A folder has an entry with the name of a manifest. -/
def HasManifest (t : Tree) (f : Folder) : Prop :=
  (t.entry? (f.entry "ymsl.toml")).isSome ∨ (t.entry? (f.entry "ymsl.yaml")).isSome

/-- The nearest folder from `f` upward that has an entry with the name of a manifest. -/
structure Nearest (t : Tree) (f g : Folder) : Prop where
  above : g.names <:+ f.names
  has : HasManifest t g
  nearest : ∀ h : Folder, h.names <:+ f.names → HasManifest t h → h.names <:+ g.names

/-- What an entry of a folder amounts to as a manifest in a format. -/
def ofEntry (f : Folder) (format : Format) : TreeEntry → Except LoadError Manifest
  | .file text =>
    match parse format text with
    | .ok m => .ok { m with dir := f.render }
    | .error _ => .error (.malformed (f.entry format.fileName).render)
  | .folder => .error (.unreadable (f.entry format.fileName).render)

theorem formatIn?_isSome : (formatIn? t f).isSome ↔ HasManifest t f := by
  simp [formatIn?, HasManifest, Format.fileName]

theorem Nearest.unique {g' : Folder} (h : Nearest t f g) (h' : Nearest t f g') : g' = g := by
  have below := h.nearest g' h'.above h'.has
  have hnames := below.eq_of_length (Nat.le_antisymm below.length_le (h'.nearest g h.above h.has).length_le)
  cases g
  cases g'
  exact congrArg Folder.mk hnames

/-- The search ends with the nearest manifest, or at the root: a folder without a manifest leaves the
search to the folder around it. -/
theorem findFrom_cases (t : Tree) (f : Folder) :
    (∃ g, Nearest t f g ∧ findFrom t f = some (load t g.render)) ∨
      (∀ h : Folder, h.names <:+ f.names → ¬ HasManifest t h) ∧ findFrom t f = none := by
  fun_induction findFrom t f with
  | case1 f has => exact .inl ⟨f, ⟨List.suffix_rfl, formatIn?_isSome.1 has, fun h above _ => above⟩, rfl⟩
  | case2 f has top =>
    obtain ⟨names⟩ := f
    cases names with
    | nil =>
      refine .inr ⟨fun h above hh => has (formatIn?_isSome.2 ?_), rfl⟩
      rwa [show h = ⟨[]⟩ from congrArg Folder.mk (List.suffix_nil.1 above)] at hh
    | cons name outer => simp [Folder.outer] at top
  | case3 f has below ih =>
    obtain ⟨names⟩ := f
    cases names with
    | nil => exact absurd rfl below
    | cons name outer =>
      have higher {h : Folder} (above : h.names <:+ name :: outer) (hh : HasManifest t h) :
          h.names <:+ outer := by
        obtain heq | above := List.suffix_cons_iff.1 above
        · exact absurd (show HasManifest t ⟨name :: outer⟩ from heq ▸ hh) (mt formatIn?_isSome.2 has)
        · exact above
      obtain ⟨g, nearest, hg⟩ | ⟨none, hnone⟩ := ih
      · exact .inl ⟨g, ⟨nearest.above.trans (List.suffix_cons _ _), nearest.has,
          fun h above hh => nearest.nearest h (higher above hh) hh⟩, hg⟩
      · exact .inr ⟨fun h above hh => none h (higher above hh) hh, hnone⟩

/-- Loading reads the entry of the preferred name. -/
theorem load_eq_ofEntry (kept : ∀ name ∈ f.names, Path.Kept name) {format : Format} {e : TreeEntry}
    (preferred : formatIn? t f = some format) (entry : t.entry? (f.entry format.fileName) = some e) :
    load t f.render = ofEntry f format e := by
  rw [load, Folder.ofPath_render kept, loadFrom, preferred]
  simp only [entry]
  cases e <;> rfl

theorem dir_of_load (kept : ∀ name ∈ f.names, Path.Kept name) {m : Manifest} (h : load t f.render = .ok m) :
    m.dir = f.render := by
  rw [load, Folder.ofPath_render kept, loadFrom] at h
  split at h
  · cases h
  · simp only at h
    split at h
    · split at h <;> cases h
      rfl
    · cases h

end Manifest
end Stackwork
