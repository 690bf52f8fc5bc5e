import Mathlib
import Stackwork.Proofs.Lang.Addressing
import Stackwork.Proofs.Lang.Numbering
import Stackwork.Proofs.Machine.Loading

/-!
# References resolve

A program refers to its own declarations and to those of its imports. Declarations are
numbered when they are made, the numbers go into the code as operands, linking counts once
more, and loading makes the literals the first objects. All four agree: a compiled program
links with consistent imports, the result loads wherever there is room for its globals, and
each instruction addresses exactly what the statement it came from names.
-/
namespace Stackwork

open Executable Machine Line Command Variable

/-- How code that refers to a function knows it. -/
structure Signature where
  name : String
  type : Ty
  index : Int

def Callable.signature (f : Callable) : Signature := ⟨f.name, f.type, f.index⟩

def Routine.signature (r : Routine) : Signature := ⟨r.name, r.type, r.index⟩

def FunctionDecl.signature (d : FunctionDecl) : Signature := ⟨d.name, d.type, d.index⟩

/-- The globals and functions that code may refer to. -/
structure Surroundings where
  globals : List Variable
  functions : List Signature

/-- What a program and its imports offer. -/
def Program.surroundings (imports : List Module) (prog : Program) : Surroundings where
  globals := imports.flatMap (·.globals) ++ prog.globals.toList
  functions := (imports.flatMap (·.routines)).map (·.signature) ++
    prog.functions.toList.map (·.signature)

/-- A reference to something that is there. -/
def Ref.Known (env : Surroundings) (locals : List Variable) : Ref → Prop
  | read v | write v => if v.isGlobal then v ∈ env.globals else v ∈ locals
  | func f | call f => f.signature ∈ env.functions
  | const _ | text _ => True

/-- A program whose statements refer to its own declarations and those of its imports. -/
structure Program.Known (imports : List Module) (prog : Program) : Prop where
  functions : ∀ d ∈ prog.functions, ∀ {scope params locals stmts},
    d.body = .source scope params locals stmts → ∀ s ∈ stmts, ∀ r ∈ s.refs,
      r.Known (prog.surroundings imports) locals.toList
  init : ∀ s ∈ prog.init, ∀ r ∈ s.refs, r.Known (prog.surroundings imports) []

/-- A module whose codes and frames can be addressed by operands. -/
structure Module.Compact (m : Module) : Prop where
  locals : ∀ r ∈ m.routines, r.locals.length < operandLimit
  code : ∀ r ∈ m.routines, ∀ code ∈ r.code?, code.size < operandLimit
  init : ∀ code ∈ m.init, code.size < operandLimit

/-- Modules whose common tables can be addressed by operands. -/
structure Module.SmallTables (ms : List Module) : Prop where
  functions : (ms.flatMap (·.routines)).length < operandLimit
  globals : (ms.flatMap (·.globals)).length < operandLimit
  strings : (ms.flatMap (·.strings)).length < operandLimit

/-- What is named sits under its number: a global in the heap layout, a local in the frame, a
function in the function table. -/
def Ref.Resolves (exe : Executable) (locals : List Variable) : Ref → Prop
  | read v | write v =>
    0 ≤ v.index ∧
      (if v.isGlobal then exe.modules.flatMap (·.globals) else locals)[v.index.toNat]? = some v
  | func f | call f => ∃ r, Machine.at? exe.routines f.index = some r ∧ r.signature = f.signature
  | const _ | text _ => True

/-- What the instruction of a reference addresses, if it has one of its own. -/
def Ref.addressing? (handle : String → UInt64) (r : Ref) : Option Addressing :=
  r.access?.map (·.addressing handle)

/-- A code that jumps to instructions only and addresses exactly what statements name. -/
structure Faithful (exe : Executable) (locals : List Variable) (stmts : List Stmt) (code : Code) :
    Prop where
  aligned : code.Aligned
  addressed : ∃ handle : String → UInt64,
    code.addressings = (stmts.flatMap Stmt.refs).filterMap (Ref.addressing? handle) ∧
      ∀ s, .text s ∈ stmts.flatMap Stmt.refs → ∀ m m' : Machine, m.load exe = .ok m' →
        m'.object (handle s) = .text s
  resolves : ∀ r ∈ stmts.flatMap Stmt.refs, r.Resolves exe locals

/-- Modules that are laid out and offer what code refers to. -/
structure Offers (ms : List Module) (env : Surroundings) : Prop where
  laidOut : LaidOut {} ms
  globals : ∀ v ∈ env.globals, v ∈ ms.flatMap (·.globals)
  functions : ∀ f ∈ env.functions, f ∈ (ms.flatMap (·.routines)).map (·.signature)

section

variable {ms : List Module} {env : Surroundings} {locals : List Variable}

variable {r : Ref}

theorem Offers.resolves (h : Offers ms env) (numbered : Numbered index 0 locals) (name : String)
    (known : r.Known env locals) : r.Resolves (.ofModules name ms) locals := by
  have hvar (v : Variable) (known : (Ref.read v).Known env locals) :
      (Ref.read v).Resolves (.ofModules name ms) locals := by
    simp only [Ref.Known] at known
    simp only [Ref.Resolves]
    split
    · next hg =>
      rw [if_pos hg] at known
      exact h.laidOut.globals.getElem?_of_mem (h.globals v known)
    · next hg =>
      rw [if_neg hg] at known
      exact numbered.getElem?_of_mem known
  have hfun (f : Callable) (known : (Ref.call f).Known env locals) :
      (Ref.call f).Resolves (.ofModules name ms) locals := by
    obtain ⟨r, hr, hsig⟩ := List.mem_map.1 (h.functions _ known)
    obtain ⟨nonneg, hget⟩ := h.laidOut.routines.getElem?_of_mem hr
    have hindex : r.index = f.index := congrArg Signature.index hsig
    refine ⟨r, ?_, hsig⟩
    rw [hindex] at nonneg hget
    simp [at?, nonneg, ofModules, hget]
  cases r with
  | read v | write v => exact hvar v known
  | func f | call f => exact hfun f known
  | const | text => trivial

/-- What resolves is in range of the tables. -/
theorem Ref.Resolves.fits {name : String} (h : r.Resolves (.ofModules name ms) locals) {a : Access}
    (ha : r.access? = some a) (kind : ∀ v, a = .load v ∨ a = .store v → v.kind ≠ .none) :
    a.Fits (Module.limits ms locals.length) := by
  have hvar (v : Variable) (hk : v.kind ≠ .none)
      (h : (Ref.read v).Resolves (.ofModules name ms) locals) :
      v.Fits (Module.limits ms locals.length) := by
    obtain ⟨nonneg, hget⟩ := h
    obtain ⟨hlt, -⟩ := List.getElem?_eq_some_iff.1 hget
    refine ⟨hk, nonneg, ?_⟩
    split at hlt
    · next hg =>
      simp only [hg, if_true, Module.limits]
      simp only [ofModules] at hlt
      omega
    · next hg =>
      simp only [hg, Bool.false_eq_true, if_false, Module.limits]
      omega
  cases r with
  | read v =>
    cases ha
    exact hvar v (kind v (.inl rfl)) h
  | write v =>
    cases ha
    exact hvar v (kind v (.inr rfl)) h
  | call f =>
    cases ha
    obtain ⟨r, hr, -⟩ := h
    simp only [at?] at hr
    split at hr
    · next nonneg =>
      obtain ⟨hlt, -⟩ := Array.getElem?_eq_some_iff.1 hr
      simp only [ofModules, List.size_toArray] at hlt
      refine ⟨nonneg, ?_⟩
      simp only [Module.limits]
      omega
    · cases hr
  | text s =>
    cases ha
    trivial
  | const | func => cases ha

end

variable {ctx : Context} {stmts : List Stmt} {commands : List Command}

/-- The accesses of a unit are those of its references. -/
theorem Generated.accesses_eq (h : Generated ctx stmts commands) :
    commands.flatMap accesses = (stmts.flatMap Stmt.refs).filterMap Ref.access? := by
  have hall := h.checks
  clear h
  induction hall with
  | nil => rfl
  | cons hc _ ih =>
    rw [List.flatMap_cons, List.flatMap_cons, List.filterMap_append, hc.accesses_eq, ih]

/-- The commands of a unit consist of operations that exist. -/
theorem Generated.all_defined (h : Generated ctx stmts commands) (proper : ctx.table.Proper) :
    ∀ c ∈ commands, c.Defined := by
  have hall := h.checks
  clear h
  induction hall with
  | nil => simp
  | cons hc _ ih => exact List.forall_mem_cons.2 ⟨hc.defined proper, ih⟩

theorem Pool.toNat_handle {p : Pool} {n : Nat} (base : p.base = n)
    (small : n + p.texts.length < operandLimit) {s : String} (hs : s ∈ p.texts) :
    (p.handle s).toNat = n + p.texts.idxOf s + 1 := by
  have hidx : p.texts.idxOf s < p.texts.length := List.idxOf_lt_length_of_mem hs
  have hnat : (p.base + (p.texts.idxOf s) + 1).toNat = n + p.texts.idxOf s + 1 := by
    omega
  have hlt : n + p.texts.idxOf s + 1 < UInt64.size := by
    simp only [operandLimit, UInt64.size] at small ⊢
    omega
  rw [handle, hnat, UInt64.toNat_ofNat']
  exact Nat.mod_eq_of_lt hlt

section

variable {ms : List Module} {m : Module}

theorem LaidOut.base_pool (h : LaidOut {} (ms ++ [m])) :
    m.pool.base = (ms.flatMap (·.strings)).length := by
  have hbases := h.inPlace.bases
  rw [Layout.addAll_eq] at hbases
  rw [Module.pool, hbases]
  simp

variable {s : String}

theorem LaidOut.toNat_handle (h : LaidOut {} (ms ++ [m])) (small : Module.SmallTables (ms ++ [m]))
    (hs : s ∈ m.strings) : (m.pool.handle s).toNat = (ms.flatMap (·.strings)).length + m.strings.idxOf s + 1 := by
  refine Pool.toNat_handle h.base_pool ?_ hs
  have := small.strings
  simpa [Module.pool] using this

/-- A literal of the last module is the object behind its handle. -/
theorem LaidOut.object_handle (h : LaidOut {} (ms ++ [m])) (small : Module.SmallTables (ms ++ [m]))
    (hs : s ∈ m.strings) {name : String} {mach loaded : Machine}
    (load : mach.load (.ofModules name (ms ++ [m])) = .ok loaded) :
    loaded.object (m.pool.handle s) = .text s := by
  have hhandle := h.toNat_handle small hs
  have hobjects : loaded.objects =
      ((ms.flatMap (·.strings) ++ m.strings).map HostObject.text).toArray := by
    obtain ⟨-, rfl⟩ := load_eq_ok.1 load
    simp [install, ofModules]
  have hne : m.pool.handle s ≠ 0 := by
    intro h0
    rw [h0] at hhandle
    simp at hhandle
  have hget : m.strings[m.strings.idxOf s]? = some s := by
    rw [List.getElem?_eq_getElem (List.idxOf_lt_length_of_mem hs), List.getElem_idxOf]
  have hall : (ms.flatMap (·.strings) ++ m.strings)[
      (ms.flatMap (·.strings)).length + m.strings.idxOf s]? = some s := by
    rw [List.getElem?_append_right (Nat.le_add_right _ _), Nat.add_sub_cancel_left, hget]
  rw [object, if_neg hne, hhandle, hobjects, Array.getD_eq_getD_getElem?,
    List.getElem?_toArray, List.getElem?_map, Nat.add_sub_cancel, hall]
  rfl

theorem Generated.tangible (gen : Generated ctx stmts commands) :
    ∀ c ∈ commands, ∀ a ∈ c.accesses, Tangible a := by
  intro c hc a ha v hv
  refine kind_of_undefined (gen.defined c hc) ?_
  rcases hv with rfl | rfl
  · exact .inl ha
  · exact .inr ha

variable {env : Surroundings} {locals : List Variable}

theorem Offers.resolves_stmts (offers : Offers ms env) (numbered : Numbered index 0 locals) (name : String)
    (known : ∀ s ∈ stmts, ∀ r ∈ s.refs, r.Known env locals) :
    ∀ r ∈ stmts.flatMap Stmt.refs, r.Resolves (.ofModules name ms) locals := by
  intro r hr
  obtain ⟨s, hs, hr⟩ := List.mem_flatMap.1 hr
  exact offers.resolves numbered name (known s hs r hr)

/-- The accesses of a unit are within the limits of modules that have what the unit refers to. -/
theorem Generated.fits {name : String} (gen : Generated ctx stmts commands)
    (resolves : ∀ r ∈ stmts.flatMap Stmt.refs, r.Resolves (.ofModules name ms) locals) :
    ∀ c ∈ commands, ∀ a ∈ c.accesses, a.Fits (Module.limits ms locals.length) := by
  intro c hc a ha
  have hmem : a ∈ (stmts.flatMap Stmt.refs).filterMap Ref.access? :=
    gen.accesses_eq ▸ List.mem_flatMap.2 ⟨c, hc, ha⟩
  obtain ⟨r, hr, hra⟩ := List.mem_filterMap.1 hmem
  exact (resolves r hr).fits hra (gen.tangible c hc a ha)

/-- The code of a unit is verified, and it addresses what the statements name. -/
theorem UnitCode.faithful {code : Code} (unit : UnitCode m.pool ctx stmts code)
    (proper : ctx.table.Proper) (offers : Offers (ms ++ [m]) env)
    (small : Module.SmallTables (ms ++ [m])) (numbered : Numbered index 0 locals)
    (frame : locals.length < operandLimit) (size : code.size < operandLimit)
    (known : ∀ s ∈ stmts, ∀ r ∈ s.refs, r.Known env locals) (name : String) :
    code.verify (Module.limits (ms ++ [m]) locals.length) = .ok () ∧
      Faithful (.ofModules name (ms ++ [m])) locals stmts code := by
  obtain ⟨commands, -, gen, texts, rfl⟩ := unit
  rw [ofList_assemble] at size ⊢
  rw [size_code] at size
  have limits : (Module.limits (ms ++ [m]) locals.length).Small :=
    ⟨Nat.le_of_lt small.functions, Nat.le_of_lt small.globals, Nat.le_of_lt frame⟩
  have resolves := offers.resolves_stmts numbered name known
  have fits := gen.fits resolves
  have reachable : ∀ c ∈ commands, ∀ a ∈ c.accesses,
      a.Reachable (Module.limits (ms ++ [m]) locals.length) m.pool.handle := by
    refine fun c hc a ha => ⟨fits c hc a ha, ?_⟩
    rintro s rfl h0
    have := offers.laidOut.toNat_handle small (texts c hc s (mem_texts.2 ha))
    rw [h0] at this
    simp at this
  have sound := each_sound_unitLines limits m.pool.handle ctx.output (gen.all_defined proper) fits gen.placed
  have formed := formed_of_each (fun _ _ hl => hl.toFormed) sound
  refine ⟨verify_code size sound, aligned_code size (each_mono sound fun _ _ _ hl => hl.toLanding),
    ⟨m.pool.handle, ?_, ?_⟩, resolves⟩
  · rw [addressings_code formed (plain_unitLines _ _ _)]
    change addressed _ = _
    rw [unitLines, addressed_append, addressed_bodyLines limits reachable,
      addressed_epilogueLines, List.append_nil, gen.accesses_eq, List.map_filterMap]
    rfl
  · intro s hs mach loaded load
    have hmem : Access.text s ∈ commands.flatMap accesses :=
      gen.accesses_eq ▸ List.mem_filterMap.2 ⟨_, hs, rfl⟩
    obtain ⟨c, hc, hs⟩ := List.mem_flatMap.1 hmem
    exact offers.laidOut.object_handle small (texts c hc s (mem_texts.2 hs)) load

end
theorem FunctionDecl.Becomes.signature_eq {pool : Pool} {tt : TyTable} {key : UnitKey}
    {d : FunctionDecl} {r : Routine} (h : d.Becomes pool tt key r) : r.signature = d.signature := by
  cases h <;> rfl

namespace Program.Becomes

variable {prog : Program} {p : ProgramId} {tt : TyTable} {m : Module}

/-- Every routine comes from a declaration. -/
theorem exists_decl (h : prog.Becomes p tt m) {i : Nat} {r : Routine} (hr : m.routines[i]? = some r) :
    ∃ d, prog.functions[i]? = some d ∧ d.Becomes m.pool tt ⟨p.index, i⟩ r := by
  obtain ⟨hi, -⟩ := List.getElem?_eq_some_iff.1 hr
  rw [h.size] at hi
  have hd : prog.functions[i]? = some prog.functions[i] := Array.getElem?_eq_getElem hi
  obtain ⟨r', hr', hb⟩ := h.routine i _ hd
  obtain rfl : r' = r := Option.some.inj (hr'.symm.trans hr)
  exact ⟨_, hd, hb⟩

theorem map_signature (h : prog.Becomes p tt m) :
    m.routines.map (·.signature) = prog.functions.toList.map (·.signature) := by
  refine List.ext_getElem? fun i => ?_
  rw [List.getElem?_map, List.getElem?_map, Array.getElem?_toList]
  cases hd : prog.functions[i]? with
  | some d =>
    obtain ⟨r, hr, hb⟩ := h.routine i d hd
    simp [hr, hb.signature_eq]
  | none =>
    have : m.routines[i]? = none := by
      rw [List.getElem?_eq_none_iff, h.size]
      exact Array.getElem?_eq_none_iff.1 hd
    simp [this]

end Program.Becomes

variable {g : Graph} {m : Module}

/-- A new module comes behind what its imports need, which stays as it was. -/
theorem Graph.Closed.map_get_flatten_add {imports : List ModuleId} (closed : g.Closed)
    (himports : m.imports = imports) (inside : ∀ i ∈ imports, i.index < g.size) :
    ((g.add m).2.flatten [⟨g.size⟩]).map (g.add m).2.get = (g.flatten imports).map g.get ++ [m] := by
  have ext := g.extends_add m
  have hof : (g.add m).2.importsOf ⟨g.size⟩ = imports := by
    rw [importsOf, get?_add, if_pos rfl]
    exact himports
  have hflat := flatten_new (m := ⟨g.size⟩) ext closed rfl (hof ▸ inside)
  obtain ⟨-, hinside⟩ := flatten_of_extends ext closed inside
  rw [hflat, hof, List.map_append, List.map_singleton, get_add]
  congr 1
  exact List.map_congr_left fun i hi => get_of_lt_add (hinside i hi)

theorem Graph.link_of_map_flatten {root : ModuleId} {ms : List Module} (hmods : (g.flatten [root]).map g.get = ms)
    (hget : g.get root = m) (laidOut : LaidOut {} ms) : g.link root = .ok (.ofModules m.name ms) := by
  rw [link, hmods, hget]
  exact foldlM_addModule_new.2 ⟨laidOut, rfl⟩

section

variable {T : Ty → Prop} {g : Graph} {prog : Program} {p : ProgramId} {tt : TyTable} {m : Module}
  {ms : List Module}

/-- A compiled program starts where its imports end. -/
theorem Program.Becomes.inPlace (h : prog.Becomes p tt m) (wf : prog.Wf T g p.index)
    (himports : ms = (g.flatten prog.imports).map g.get) : m.InPlace (Layout.addAll {} ms) := by
  have hlayout : prog.layout = Layout.addAll {} ms := by
    rw [wf.layout, g.layoutOf_eq, himports]
  refine ⟨h.bases.trans hlayout, ?_, ?_, ?_⟩
  · intro i r hr
    obtain ⟨d, hd, hb⟩ := h.exists_decl hr
    have hindex : r.index = d.index := congrArg Signature.index hb.signature_eq
    rw [hindex, ← hlayout]
    exact wf.functions i d (by rw [Array.getElem?_toList]; exact hd)
  · intro v hv
    rw [h.globals] at hv
    exact wf.global v (Array.mem_toList_iff.1 hv)
  · rw [h.globals, ← hlayout]
    exact wf.globals

/-- A compiled program and its imports offer what the program may refer to. -/
theorem Program.Becomes.offers (h : prog.Becomes p tt m) (wf : prog.Wf T g p.index)
    (himports : ms = (g.flatten prog.imports).map g.get) (laidOut : LaidOut {} ms) :
    Offers (ms ++ [m]) (prog.surroundings ms) where
  laidOut := LaidOut.append_iff.2 ⟨laidOut, h.inPlace wf himports, trivial⟩
  globals v hv := by
    simpa [Program.surroundings, h.globals] using hv
  functions f hf := by
    rw [Program.surroundings, ← h.map_signature] at hf
    simpa using hf

end

/-- A function is in the table under its number, and its code is faithful to its statements. -/
def FunctionDecl.Linked (exe : Executable) (d : FunctionDecl) : Prop :=
  match d.body with
  | .host builtin => Machine.at? exe.routines d.index = some ⟨d.name, d.type, d.index, .host builtin⟩
  | .source _ _ locals stmts =>
    ∃ code, Machine.at? exe.routines d.index =
        some ⟨d.name, d.type, d.index, .compiled (some code) (Workspace.frameKinds locals)⟩ ∧
      Faithful exe locals.toList stmts.toList code

/-- A program is part of an executable: globals have slots of their own, functions are in the
table, and the top level is the last code to run. -/
structure Program.Linked (exe : Executable) (prog : Program) : Prop where
  globals : Numbered Variable.index 0 (exe.modules.flatMap (·.globals))
  kinds : exe.globals = (exe.modules.flatMap (·.globals)).map (·.kind)
  functions : ∀ d ∈ prog.functions, d.Linked exe
  init : prog.init = #[] ∨ ∃ code, exe.inits.getLast? = some code ∧
    Faithful exe [] prog.init.toList code

section

variable {T : Ty → Prop} {g : Graph} {prog : Program} {p : ProgramId} {tt : TyTable} {m : Module}
  {ms : List Module}

/-- What holds of one function of a compiled program. -/
theorem FunctionDecl.Becomes.verified_linked {d : FunctionDecl} {key : UnitKey} {r : Routine}
    (h : d.Becomes m.pool tt key r) (wf : d.Wf T key) (proper : tt.Proper) {env : Surroundings}
    (offers : Offers (ms ++ [m]) env) (small : Module.SmallTables (ms ++ [m]))
    (known : ∀ {scope params locals stmts}, d.body = .source scope params locals stmts →
      ∀ s ∈ stmts, ∀ r ∈ s.refs, r.Known env locals.toList)
    (frame : r.locals.length < operandLimit) (size : ∀ code ∈ r.code?, code.size < operandLimit)
    (mem : r ∈ m.routines) (name : String) :
    r.Verified (Module.limits (ms ++ [m])) ∧ d.Linked (.ofModules name (ms ++ [m])) := by
  have hindex : r.index = d.index := congrArg Signature.index h.signature_eq
  have hall : r ∈ (ms ++ [m]).flatMap (·.routines) := List.mem_flatMap.2 ⟨m, by simp, mem⟩
  obtain ⟨nonneg, hget⟩ := offers.laidOut.routines.getElem?_of_mem hall
  have hat : at? (ofModules name (ms ++ [m])).routines d.index = some r := by
    rw [hindex] at nonneg hget
    simp only [at?, nonneg, if_true, ofModules, List.getElem?_toArray]
    exact hget
  cases h with
  | host body =>
    refine ⟨trivial, ?_⟩
    simp only [FunctionDecl.Linked, body]
    exact hat
  | @source scope params locals stmts code body unit =>
    have hlen : (Workspace.frameKinds locals).length = locals.toList.length := by
      simp [Workspace.frameKinds]
    obtain ⟨hverify, hfaithful⟩ := unit.faithful proper offers small (wf.locals body).1.numbered
      (hlen ▸ frame) (size code rfl) (fun s hs => known body s (Array.mem_toList_iff.1 hs)) name
    refine ⟨?_, ?_⟩
    · simp only [Routine.Verified, hlen]
      exact hverify
    · simp only [FunctionDecl.Linked, body]
      exact ⟨code, hat, hfaithful⟩

/-- A compiled program is consistent with consistent imports, and it is part of what they link
to. -/
theorem Program.Becomes.consistent_linked (h : prog.Becomes p tt m) (wf : prog.Wf T g p.index)
    (proper : tt.Proper) (himports : ms = (g.flatten prog.imports).map g.get)
    (consistent : Module.Consistent ms) (known : prog.Known ms)
    (small : Module.SmallTables (ms ++ [m])) (compact : m.Compact) (name : String) :
    Module.Consistent (ms ++ [m]) ∧ prog.Linked (.ofModules name (ms ++ [m])) := by
  have offers := h.offers wf himports consistent.laidOut
  have routine {i : Nat} {d : FunctionDecl} {r : Routine} (hd : prog.functions[i]? = some d)
      (hr : m.routines[i]? = some r) (hb : d.Becomes m.pool tt ⟨p.index, i⟩ r) :
      r.Verified (Module.limits (ms ++ [m])) ∧ d.Linked (.ofModules name (ms ++ [m])) :=
    hb.verified_linked (wf.bodies i d hd) proper offers small
      (known.functions d (Array.mem_of_getElem? hd)) (compact.locals r (List.mem_of_getElem? hr))
      (compact.code r (List.mem_of_getElem? hr)) (List.mem_of_getElem? hr) name
  have top {code : Code} (hcode : m.init = some code)
      (hunit : UnitCode m.pool ⟨tt, none, none⟩ prog.init.toList code) :=
    hunit.faithful proper offers small (.nil : Numbered index 0 []) (by decide)
      (compact.init code hcode) (fun s hs => known.init s (Array.mem_toList_iff.1 hs)) name
  have within (k : Nat) : (Module.limits ms k).Within (Module.limits (ms ++ [m]) k) :=
    ⟨by simp [Module.limits], by simp [Module.limits], Nat.le_refl _⟩
  constructor
  · refine ⟨offers.laidOut, List.forall_mem_append.2 ⟨fun m' hm' => ?_, ?_⟩⟩
    · have hv := consistent.verified m' hm'
      refine ⟨fun r hr => ?_, fun code hcode => Code.verify_mono (within 0) (hv.init code hcode)⟩
      have := hv.routines r hr
      unfold Routine.Verified at this ⊢
      split <;> simp_all only
      exact Code.verify_mono (within _) this
    · refine List.forall_mem_singleton.2 ⟨fun r hr => ?_, fun code hcode => ?_⟩
      · obtain ⟨i, hi⟩ := List.mem_iff_getElem?.1 hr
        obtain ⟨d, hd, hb⟩ := h.exists_decl hi
        exact (routine hd hi hb).1
      · rcases h.init with ⟨-, hnone⟩ | ⟨-, code', hcode', hunit⟩
        · rw [hnone] at hcode
          cases hcode
        · rw [hcode'] at hcode
          cases hcode
          exact (top hcode' hunit).1
  · refine ⟨offers.laidOut.globals, ?_, fun d hd => ?_, ?_⟩
    · simp [ofModules, List.map_flatMap]
    · obtain ⟨i, hi⟩ := Array.mem_iff_getElem?.1 hd
      obtain ⟨r, hr, hb⟩ := h.routine i d hi
      exact (routine hi hr hb).2
    · rcases h.init with ⟨hempty, -⟩ | ⟨-, code, hcode, hunit⟩
      · exact .inl hempty
      · refine .inr ⟨code, ?_, (top hcode hunit).2⟩
        simp [ofModules, hcode]

end

namespace Workspace

/-- A compiled program links with consistent imports, the result loads on every machine with
room for its globals, and it addresses what the program names. -/
theorem loads_of_compile {w w' : Workspace} {sources : List (Option Source)} {p : ProgramId}
    {id : Uuid} {mid : ModuleId} (built : Built (fun w r => r.Admissible w) w sources)
    (compiled : w.compile p id = (.ok mid, w'))
    (consistent : Module.Consistent
      ((w.modules.flatten (w.program p).imports).map w.modules.get))
    (known : (w.program p).Known ((w.modules.flatten (w.program p).imports).map w.modules.get))
    (small : Module.SmallTables ((w'.modules.flatten [mid]).map w'.modules.get))
    (compact : (w'.modules.get mid).Compact) :
    ∃ exe, w'.modules.link mid = .ok exe ∧ (w.program p).Linked exe ∧
      ∀ m : Machine, exe.globals.length ≤ m.heap.size → ∃ loaded, m.load exe = .ok loaded := by
  have wf := built.wf fun _ _ ok => ok
  obtain ⟨-, m, hm, rfl, rfl⟩ := becomes_of_compile compiled
  have hmods := wf.closed.map_get_flatten_add hm.imports (wf.program p).imports
  have hget : (w.modules.add m).2.get ⟨w.modules.size⟩ = m := w.modules.get_add m
  change (((w.modules.add m).2.get ⟨w.modules.size⟩).Compact) at compact
  change Module.SmallTables
    (((w.modules.add m).2.flatten [⟨w.modules.size⟩]).map (w.modules.add m).2.get) at small
  rw [hget] at compact
  rw [hmods] at small
  obtain ⟨hconsistent, hlinked⟩ := hm.consistent_linked (wf.program p) (wf.tables _) rfl consistent
    known small compact m.name
  refine ⟨_, Graph.link_of_map_flatten hmods hget hconsistent.laidOut, hlinked, fun mach room => ?_⟩
  exact ⟨mach.install _, by rw [Machine.load, hconsistent.check _ room]; rfl⟩

namespace Counting

def int : Ty := .prim 2 .int

def string : Ty := .prim 4 .string

def count : Variable := ⟨"count", int, .global, 0, none⟩

def step : Variable := ⟨"step", int, .local, 0, some ⟨0, 0⟩⟩

def greeting : Variable := ⟨"greeting", string, .global, 1, none⟩

def advance : Callable := ⟨"advance", .function 5 int [int], 0, .imported⟩

def again : Label := ⟨0, "again"⟩

/-- The top level of the program `main`. -/
def top : List Stmt :=
  [.store greeting (.text "hello"), .place again, .eval (.call (.func advance) [.int 3]),
    .branchTrue (.binary (.plain .lt) (.var count) (.int 10)) again]

/-- A program declares a counter, and another one, which imports it, runs it up in a loop. -/
def requests : List Request :=
  [.newTable, .newProgram "counter" ⟨0⟩ [], .declareGlobal ⟨0⟩ ⟨0⟩ "count" int,
    .declareFunction ⟨0⟩ ⟨0⟩ "advance" int [("step", int)],
    .append { unit := .body ⟨0, 0⟩, scope := some ⟨1⟩ }
      [.combine count (.plain .add) (.var step), .ret (some (.var count))],
    .compile ⟨0⟩ .zero, .newProgram "main" ⟨0⟩ [⟨0⟩], .declareGlobal ⟨1⟩ ⟨2⟩ "greeting" string,
    .append { unit := .top ⟨1⟩, scope := some ⟨2⟩ } top]

/-- The workspace before `main` is compiled. -/
def workspace : Workspace := requests.foldl Request.apply {}

/-- The module of the counter. -/
def counter : Module where
  name := "counter"
  routines := [⟨"advance", .function 5 int [int], 0,
    .compiled (some (.ofList [272, 0, 274, 0, 304, 273, 0, 272, 0, 354, 259, 354])) [.int]⟩]
  globals := [count]

theorem built : Built (fun w r => r.Admissible w) workspace (sourcesOf {} requests) := by
  refine Built.start.foldl ⟨trivial, ?_, trivial, trivial, trivial, trivial, ?_, trivial, trivial,
    trivial⟩
  · intro i hi
    cases hi
  · exact List.forall_mem_singleton.2 (by decide)

theorem consistent_counter : Module.Consistent [counter] := by
  refine ⟨⟨⟨rfl, Numbered.cons_iff.2 ⟨rfl, .nil⟩, List.forall_mem_singleton.2 rfl,
    Numbered.cons_iff.2 ⟨rfl, .nil⟩⟩, trivial⟩, List.forall_mem_singleton.2 ⟨?_, fun _ h => by cases h⟩⟩
  refine List.forall_mem_singleton.2 ?_
  cbv

theorem known_main : (workspace.program ⟨1⟩).Known [counter] := by
  have hfunctions : (workspace.program ⟨1⟩).functions = #[] := rfl
  have hinit : (workspace.program ⟨1⟩).init = top.toArray := rfl
  have henv : (workspace.program ⟨1⟩).surroundings [counter] =
      ⟨[count, greeting], [advance.signature]⟩ := rfl
  refine ⟨fun d hd => by simp [hfunctions] at hd, ?_⟩
  rw [hinit, henv]
  simp [top, Stmt.refs, Expr.refs, refsOf, Ref.Known, isGlobal, count, greeting]

end Counting

theorem loads_of_compile_counting :
    (Counting.workspace.compile ⟨1⟩ .zero).1 = .ok ⟨1⟩ ∧
      ∃ exe, (Counting.workspace.compile ⟨1⟩ .zero).2.modules.link ⟨1⟩ = .ok exe ∧
        (Counting.workspace.program ⟨1⟩).Linked exe ∧
          ∀ m : Machine, exe.globals.length ≤ m.heap.size → ∃ loaded, m.load exe = .ok loaded := by
  have compiled : (Counting.workspace.compile ⟨1⟩ .zero).1 = .ok ⟨1⟩ := rfl
  have himports : (Counting.workspace.modules.flatten (Counting.workspace.program ⟨1⟩).imports).map
      Counting.workspace.modules.get = [Counting.counter] := rfl
  refine ⟨compiled, loads_of_compile Counting.built (Prod.ext compiled rfl) ?_ ?_ ?_ ?_⟩
  · rw [himports]
    exact Counting.consistent_counter
  · rw [himports]
    exact Counting.known_main
  · exact ⟨by decide, by decide, by decide⟩
  · refine ⟨fun r hr => (by cases hr), fun r hr => (by cases hr), fun code hcode => ?_⟩
    cases hcode
    decide

end Workspace
end Stackwork
