import Stackwork.Proofs.Lang.Numbering

/-!
# The types of a workspace

A workspace has one registry for the types of all its programs. Requests add to it and never
take anything out, so if every request is given types that the registry knows at the time, then
the registry knows the types of all declarations, and the primitives of all programs, ever after.
-/
namespace Stackwork

open List Array

namespace Registry

namespace Advances

variable {r r' : Registry}

theorem made (h : r.Advances r') (made : r.Made) : r'.Made := by
  cases h with
  | same => exact made
  | newTable => exact made.newTable
  | intern t s known => exact made.intern t s known
  | enumOf t name members => exact made.enumOf t name members

theorem knows (h : r.Advances r') {t : Ty} (ht : r.Knows t) : r'.Knows t := by
  cases h with
  | same => exact ht
  | newTable => exact ht.newTable
  | intern id s => exact ht.intern id s
  | enumOf id name members => exact ht.register id _

end Advances

variable {t : TableId}

/-- What a table is asked for is known, if there is such a table. -/
theorem knows_fst_intern (r : Registry) (ht : t.index < r.tables.size) (s : Shape) :
    (r.intern t s).2.Knows (r.intern t s).1 :=
  ⟨_, table_mem (by rwa [(r.keeps_intern t s).size]), mem_intern_self ht s⟩

theorem Sound.knows_prim {r : Registry} (sound : r.Sound) (ht : t.index < r.tables.size) (q : Prim) :
    r.Knows ((r.table t).prim q) :=
  ⟨_, table_mem ht, sound.prims _ (table_mem ht) q⟩

end Registry

variable {T T' : Ty → Prop}

theorem FunctionDecl.Wf.mono {key : UnitKey} {d : FunctionDecl} (h : d.Wf T key) (hT : ∀ t, T t → T' t) :
    d.Wf T' key where
  type := hT _ h.type
  signature := h.signature
  locals hbody := by
    obtain ⟨hlocals, hparams⟩ := h.locals hbody
    exact ⟨hlocals.mono hT, hparams⟩

theorem Program.Wf.mono {g : Graph} {key : Nat} {prog : Program} (h : prog.Wf T g key) (hT : ∀ t, T t → T' t) :
    prog.Wf T' g key :=
  { h with
    globalType := fun v hv => hT _ (h.globalType v hv)
    bodies := fun i d hd => (h.bodies i d hd).mono hT }

namespace Workspace

variable {w : Workspace} {p : ProgramId}

theorem types_declareFunction (scope : ScopeId) (name : String) (output : Ty) (params : List (String × Ty)) :
    (w.declareFunction p scope name output params).2.types =
      (w.types.intern (w.program p).table (.function output (params.map (·.2)))).2 :=
  (changes_declareFunction (T := fun _ => True) scope name output params fun _ _ => trivial).types_eq

theorem types_declareBuiltin (scope : ScopeId) (name : String) (output : Ty) (inputs : List Ty)
    (builtin : Builtin) : (w.declareBuiltin p scope name output inputs builtin).2.types =
      (w.types.intern (w.program p).table (.function output inputs)).2 :=
  (changes_declareBuiltin (T := fun _ => True) scope name output inputs builtin fun _ _ => trivial).types_eq

variable {r : Request} {sources : List (Option Source)}

/-- What a request does to the registry. -/
theorem Request.Registered.advances (h : r.Registered w) (admissible : r.Admissible w) :
    w.types.Advances (r.apply w).types := by
  obtain ⟨types, modules, effect⟩ := Request.exists_effect (T := fun _ => True) admissible fun _ _ => trivial
  rw [effect.changes.types_eq]
  exact effect.advances h

/-- What a request brings into programs is known afterwards. -/
theorem Request.Registered.knows_types (h : r.Registered w) (admissible : r.Admissible w) (made : w.types.Made) :
    ∀ t ∈ r.types w, (r.apply w).types.Knows t := by
  have advances := h.advances admissible
  cases r with
  | newTable =>
    intro t ht
    exact ⟨TyTable.startingAt w.types.next, mem_push_self, ht⟩
  | newProgram name table imports =>
    intro t ht
    obtain ⟨q, -, rfl⟩ := mem_map.1 ht
    exact advances.knows (made.sound.knows_prim h q)
  | declareGlobal p scope name t | declareVar b name t =>
    exact forall_mem_singleton.2 (advances.knows h)
  | declareFunction p scope name output params =>
    refine forall_mem_cons.2 ⟨?_, fun t ht => advances.knows (h.2.2 t ht)⟩
    rw [apply, types_declareFunction]
    exact w.types.knows_fst_intern h.1 _
  | declareBuiltin p scope name output inputs builtin =>
    refine forall_mem_singleton.2 ?_
    rw [apply, types_declareBuiltin]
    exact w.types.knows_fst_intern h.1 _
  | _ => exact fun t ht => by cases ht

/-- More types are fine. -/
theorem Wf.mono {T T' : Ty → Prop} (h : w.Wf T sources) (hT : ∀ t, T t → T' t) : w.Wf T' sources where
  closed := h.closed
  tables := h.tables
  programs i prog hprog := by
    obtain ⟨wf, prims⟩ := h.programs i prog hprog
    exact ⟨wf.mono hT, fun q => hT _ (prims q)⟩
  length := h.length
  sources i s hs := by
    have swf := h.sources i s hs
    exact ⟨swf.program.mono hT, swf.table, swf.becomes, swf.earlier⟩

/-- The registry came about by requests, and it knows the types of the workspace. -/
structure Registered (w : Workspace) (sources : List (Option Source)) : Prop where
  made : w.types.Made
  wf : w.Wf w.types.Knows sources
  prims : ∀ s, some s ∈ sources → ∀ q, w.types.Knows (s.table.prim q)

/-- A request that is given known types keeps the registry in step with the workspace. -/
theorem Registered.apply (h : w.Registered sources) (admissible : r.Admissible w) (ok : r.Registered w) :
    (r.apply w).Registered (sources ++ r.sources w) := by
  have advances := ok.advances admissible
  refine ⟨advances.made h.made, ?_, fun s hs q => ?_⟩
  · exact (h.wf.mono fun t => advances.knows).apply admissible (ok.knows_types admissible h.made)
  · rcases mem_append.1 hs with hs | hs
    · exact advances.knows (h.prims s hs q)
    · cases r with
      | compile p id =>
        simp only [Request.sources] at hs
        split at hs
        · obtain rfl : s = ⟨p, w.program p, w.tableOf p⟩ := by simpa using hs
          have hp : w.programs[p.index]? = some w.programs[p.index] := getElem?_eq_getElem ok
          have := (h.wf.programs _ _ hp).2 q
          rw [← program_eq hp] at this
          exact advances.knows this
        · cases hs
      | addModules ms => simp [Request.sources] at hs
      | _ => cases hs

/-- Whatever requests with known types lead to. -/
theorem Built.registered (h : Built (fun w r => r.Admissible w ∧ r.Registered w) w sources) :
    w.Registered sources := by
  induction h with
  | start => exact ⟨.empty, wf_empty, nofun⟩
  | next _ r ok ih => exact ih.apply ok.1 ok.2

end Workspace
end Stackwork
