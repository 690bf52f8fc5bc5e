import Stackwork.Proofs.Lang.Certification
import Stackwork.Proofs.Lang.Provenance

/-!
# Whole programs with stack maps

A root that is linked with everything it needs, all of it compiled from programs: every routine
and every top level has the stack map of the body it came from. What the statements refer to has
its slot or its number and the type by which the statements know it, so the whole program is
certified.
-/
namespace Stackwork

open Machine (at?)

/-- A piece of code at work, with the body that it was compiled from and its locals. -/
inductive WholeProgram.Works (P : WholeProgram) (exe : Executable) :
    Activation → Body → List Variable → Prop where
  | routine {i : Int} {r : Routine} {f : Definition} {scope : ScopeId} {params : Nat}
      {locals : Array Variable} {stmts : Array Stmt} (found : at? exe.routines i = some r)
      (definition : at? P.functions i = some (some f)) (body : f.decl.body = .source scope params locals stmts) :
      Works P exe (.routine r) (f.body stmts) locals.toList
  | block {i : Nat} {code : Code} {b : Body} (init : exe.inits[i]? = some code)
      (top : P.tops[i]? = some (some b)) : Works P exe (.block i code) b []

namespace WholeProgram

/-- The kinds of the globals of laid out modules are those of their types. -/
theorem globals_ofModules (name : String) (ms : List Module) :
    (Executable.ofModules name ms).globals = ((ms.flatMap (·.globals)).map (·.type)).map Kind.ofTy := by
  simp only [Executable.ofModules, List.map_flatMap, List.map_map]
  rfl

/-- The number of a routine survives being pushed as a value. -/
theorem at?_toInt_ofInt {rs : Array Routine} {i : Int} {r : Routine} (found : at? rs i = some r)
    (small : i < operandLimit) : at? rs (Slot.ofInt (Int32.ofInt i)).toInt.toInt = some r := by
  obtain ⟨n, hn, -⟩ := Machine.exists_of_at? found
  have := toInt_ofInt_operand (i := i) (by omega) small
  rw [Int32.toInt32_toUInt32, ← Slot.toInt_ofInt (Int32.ofInt i)] at this
  rwa [this]

/-- The stack maps of a program, and which slots are values of a type. Where functions are looked
at strictly, a value of a function type is zero or the number of a function of that type. -/
def stage (P : WholeProgram) (name : String) (ms : List Module) (strict : Prop) : Stage where
  exe := .ofModules name ms
  globals := (ms.flatMap (·.globals)).map (·.type)
  kinds := globals_ofModules name ms
  Lays a u := ∃ b locals ctx commands, P.Works (.ofModules name ms) a b locals ∧
    Body.Laid b ctx (Module.limits ms locals.length) commands ∧ a.code? = some u.code ∧
      u = (b.listing commands (locals.map (·.type))).stackMap
  Holds t v := strict → t.kind = .function → v.toInt.toInt = 0 ∨
    ∃ r, at? (Executable.ofModules name ms).routines v.toInt.toInt = some r ∧ r.type = t
  plain _ ht _ hf := absurd hf ht
  zero _ _ _ := .inl rfl
  function {_ r} found small _ _ := .inr ⟨r, at?_toInt_ofInt found small, rfl⟩

end WholeProgram

/-- Lists of types that are told apart by their numbers. -/
theorem Ty.Distinct.eq_of_ids {T : Ty → Prop} (distinct : Distinct T) {ss ts : List Ty}
    (hs : ∀ s ∈ ss, T s) (ht : ∀ t ∈ ts, T t) (h : ss.map Ty.id = ts.map Ty.id) : ss = ts := by
  induction ss generalizing ts with
  | nil => simpa using h
  | cons s ss ih =>
    cases ts with
    | nil => cases h
    | cons t ts =>
      obtain ⟨hs, hss⟩ := List.forall_mem_cons.1 hs
      obtain ⟨ht, hts⟩ := List.forall_mem_cons.1 ht
      obtain ⟨hid, hids⟩ := List.cons.inj h
      rw [distinct hs ht hid, ih hss hts hids]

namespace Workspace

/-- A root that is linked with everything it needs, all of it compiled from programs with types
in `T` and with constants that hold values of their types. -/
structure Typed (T : Ty → Prop) (w : Workspace) (sources : List (Option Source)) (root : ModuleId)
    (ms : List Module) : Prop where
  traced : w.Traced T sources root ms
  sourced : ∀ i ∈ w.modules.flatten [root], ∃ s, sources[i.index]? = some (some s)
  governs : ∀ i ∈ w.modules.flatten [root], ∀ s, sources[i.index]? = some (some s) → s.table.Governs T
  consts : ∀ i ∈ w.modules.flatten [root], ∀ s, sources[i.index]? = some (some s) →
    ∀ st ∈ s.program.stmts, ∀ c, .const c ∈ st.refs → T c.type ∧ c.type.kind.Holds c.value

/-- What is known of a body of the program: it belongs to a source, and what it refers to is
there. -/
structure Typed.BodyOf (T : Ty → Prop) (ms : List Module) (s : Source) (b : Body)
    (locals : List Variable) : Prop where
  table : b.table = s.table
  stmts : ∀ st ∈ b.stmts, st ∈ s.program.stmts
  output : ∀ t ∈ b.output, T t
  resolves : ∀ st ∈ b.stmts, ∀ r ∈ st.refs, r.Resolves (.ofModules "" ms) locals
  small : locals.length < operandLimit
  types : ∀ v ∈ locals, T v.type

namespace Typed

variable {T : Ty → Prop} {w : Workspace} {sources : List (Option Source)} {root : ModuleId}
  {ms : List Module} (h : w.Typed T sources root ms)
include h

theorem exists_module {m : Module} (hm : m ∈ ms) :
    ∃ i ∈ w.modules.flatten [root], ∃ s, sources[i.index]? = some (some s) ∧ m = w.modules.get i ∧
      m.CompiledFrom T ms s := by
  rw [← h.traced.modules] at hm
  obtain ⟨i, hi, rfl⟩ := List.mem_map.1 hm
  obtain ⟨s, hs⟩ := h.sourced i hi
  exact ⟨i, hi, s, hs, rfl, h.traced.compiled i hi s hs⟩

theorem globalType {v : Variable} (hv : v ∈ ms.flatMap (·.globals)) : T v.type := by
  obtain ⟨m, hm, hv⟩ := List.mem_flatMap.1 hv
  obtain ⟨_, -, _, -, -, compiled⟩ := h.exists_module hm
  exact compiled.globalType v hv

/-- Routines have function types among those of the program. -/
theorem routineType {r : Routine} (hr : r ∈ ms.flatMap (·.routines)) :
    T r.type ∧ ∃ id out ins, r.type = .function id out ins := by
  obtain ⟨m, hm, hr⟩ := List.mem_flatMap.1 hr
  obtain ⟨_, -, s, -, -, compiled⟩ := h.exists_module hm
  obtain ⟨j, hj⟩ := List.mem_iff_getElem?.1 hr
  obtain ⟨d, hd, becomes⟩ := compiled.becomes.exists_decl hj
  have htype : r.type = d.type := congrArg Signature.type becomes.signature_eq
  obtain ⟨ht, hsig, -⟩ := compiled.bodies j d hd
  rw [htype]
  exact ⟨ht, hsig⟩

variable {i : Int} {b : Body} {a : Activation} {locals : List Variable} {name : String}

/-- No function is left open, and each comes from a source. -/
theorem exists_function {d : Option Definition} (hd : at? (w.whole sources root).functions i = some d) :
    ∃ f, d = some f ∧ ∃ k ∈ w.modules.flatten [root], ∃ s, ∃ j : Nat, sources[k.index]? = some (some s) ∧
      s.program.functions[j]? = some f.decl ∧ f.table = s.table ∧
        (w.modules.get k).CompiledFrom T ms s := by
  obtain ⟨n, -, hn⟩ := Machine.exists_of_at? hd
  have hmem := List.mem_of_getElem? ((Array.getElem?_toList ..).trans hn)
  obtain ⟨k, hk, hmem⟩ := List.mem_flatMap.1 hmem
  obtain ⟨s, hs⟩ := h.sourced k hk
  rw [List.getD_eq_getElem?_getD, hs] at hmem
  obtain ⟨decl, hdecl, rfl⟩ := List.mem_map.1 hmem
  obtain ⟨j, hj⟩ := List.mem_iff_getElem?.1 hdecl
  exact ⟨_, rfl, k, hk, s, j, hs, (Array.getElem?_toList ..).symm.trans hj, rfl, h.traced.compiled k hk s hs⟩

/-- No top level is left open, and each comes from a source. -/
theorem exists_top {i : Nat} {b : Option Body} (hb : (w.whole sources root).tops[i]? = some b) :
    ∃ k ∈ w.modules.flatten [root], ∃ s, sources[k.index]? = some (some s) ∧
      b = some ⟨s.table, (w.modules.get k).pool.handle, none, s.program.init.toList⟩ ∧
        (w.modules.get k).CompiledFrom T ms s := by
  obtain ⟨k, hk, hmem⟩ := List.mem_filterMap.1 (List.mem_of_getElem? hb)
  obtain ⟨s, hs⟩ := h.sourced k hk
  rw [List.getD_eq_getElem?_getD, hs] at hmem
  refine ⟨k, hk, s, hs, ?_, h.traced.compiled k hk s hs⟩
  simp only [Option.getD_some, top?] at hmem
  split at hmem <;> cases hmem
  rfl

/-- Every piece of code at work belongs to a source. -/
theorem exists_bodyOf (works : (w.whole sources root).Works (.ofModules name ms) a b locals) :
    ∃ k ∈ w.modules.flatten [root], ∃ s, sources[k.index]? = some (some s) ∧
      BodyOf T ms s b locals := by
  cases works with
  | @routine i r f scope params locals stmts found definition body =>
    obtain ⟨_, ⟨⟩, k, hk, s, j, hs, hj, htable, compiled⟩ := h.exists_function definition
    obtain ⟨imports, offers, known⟩ := compiled.imports
    have wf := compiled.bodies j f.decl hj
    obtain ⟨hlocals, -, -⟩ := wf.locals body
    obtain ⟨r', hr', becomes⟩ := compiled.becomes.routine j f.decl hj
    have hmem := Array.mem_of_getElem? hj
    have governs := h.governs k hk s hs
    refine ⟨k, hk, s, hs, htable, fun st hst => ?_, fun t ht => ?_, fun st hst r hr => ?_, ?_, ?_⟩
    · refine List.mem_append_left _ (List.mem_flatMap.2 ⟨f.decl, Array.mem_toList_iff.2 hmem, ?_⟩)
      rw [FunctionDecl.stmts, body]
      exact hst
    · obtain ⟨id, out, ins, hsig⟩ := wf.signature
      have hout : f.decl.type.output? = some t := ht
      rw [hsig] at hout
      cases hout
      exact governs.output (hsig ▸ wf.type)
    · exact offers.resolves hlocals.numbered "" (known.functions _ hmem body st
        (Array.mem_toList_iff.1 hst) r hr)
    · have hframe := compiled.compact.locals r' (List.mem_of_getElem? hr')
      cases becomes with
      | host body' => cases body.symm.trans body'
      | source body' =>
        cases body.symm.trans body'
        simpa [Routine.locals, frameKinds] using hframe
    · exact fun v hv => hlocals.type v (Array.mem_toList_iff.1 hv)
  | @block i code b init top =>
    obtain ⟨k, hk, s, hs, ⟨⟩, compiled⟩ := h.exists_top top
    obtain ⟨imports, offers, known⟩ := compiled.imports
    refine ⟨k, hk, s, hs, rfl, fun st hst => List.mem_append_right _ hst, fun t ht => ?_, fun st hst r hr => ?_,
      by decide, List.forall_mem_nil _⟩
    · cases ht
    exact offers.resolves .nil "" (known.init st (Array.mem_toList_iff.1 hst) r hr)

/-- What a body refers to has its place in the program. -/
theorem sits (name : String) (strict : Prop) {k : ModuleId} (hk : k ∈ w.modules.flatten [root]) {s : Source}
    (hs : sources[k.index]? = some (some s)) (body : BodyOf T ms s b locals) : ∀ st ∈ b.stmts, ∀ r ∈ st.refs,
      r.Sits ((w.whole sources root).stage name ms strict) T (locals.map (·.type)) := by
  intro st hst r hr
  have resolves := body.resolves st hst r hr
  have small := h.traced.small
  have hvar (v : Variable) (resolves : (Ref.read v).Resolves (.ofModules "" ms) locals) :
      (Ref.read v).Sits ((w.whole sources root).stage name ms strict) T (locals.map (·.type)) := by
    obtain ⟨nonneg, hget⟩ := resolves
    obtain ⟨hlt, -⟩ := List.getElem?_eq_some_iff.1 hget
    have hmem := List.mem_of_getElem? hget
    simp only [Executable.ofModules] at hget hlt hmem
    split at hlt
    · next hg =>
      rw [if_pos hg] at hget hmem
      have := small.globals
      refine ⟨h.globalType hmem, nonneg, by omega, ?_⟩
      rw [if_pos hg, WholeProgram.stage, List.getElem?_map, hget]
      rfl
    · next hg =>
      rw [if_neg hg] at hget hmem
      have := body.small
      refine ⟨body.types v hmem, nonneg, by omega, ?_⟩
      rw [if_neg hg, List.getElem?_map, hget]
      rfl
  have hfun (f : Callable) (resolves : (Ref.call f).Resolves (.ofModules "" ms) locals) :
      (Ref.call f).Sits ((w.whole sources root).stage name ms strict) T (locals.map (·.type)) := by
    obtain ⟨r, hr, hsig⟩ := resolves
    have htype : r.type = f.type := congrArg Signature.type hsig
    obtain ⟨n, hn, hget⟩ := Machine.exists_of_at? hr
    have hget' : (ms.flatMap (·.routines))[n]? = some r := by simpa [Executable.ofModules] using hget
    obtain ⟨hT, id, out, ins, hfunction⟩ := h.routineType (List.mem_of_getElem? hget')
    obtain ⟨hlt, -⟩ := List.getElem?_eq_some_iff.1 hget'
    have := small.functions
    refine ⟨htype ▸ hT, by omega, by rw [← htype, hfunction]; rfl, r, hr, htype⟩
  cases r with
  | read v | write v => exact hvar v resolves
  | func f | call f => exact hfun f resolves
  | const c => exact h.consts k hk s hs st (body.stmts st hst) c hr
  | text => trivial

/-- Every piece of code at work is the code of its body. -/
theorem realized (works : (w.whole sources root).Works (.ofModules name ms) a b locals) :
    a.frameSize = locals.length ∧
      ∃ code, a.code? = some code ∧ b.Realized (Module.limits ms locals.length) code := by
  cases works with
  | @routine i r f scope params locals stmts found definition body =>
    obtain ⟨r', hr', realized⟩ := h.traced.routine_of_function name definition
    cases found.symm.trans hr'
    obtain ⟨-, code, hbody, hrealized⟩ := realized.source body
    refine ⟨?_, code, ?_, hrealized⟩
    · simp [Activation.frameSize, Routine.frameSize, hbody, frameKinds]
    · rw [Activation.code?, Routine.code?, hbody]
  | @block i code b init top =>
    obtain ⟨-, hget⟩ := List.forall₂_iff_get.1 h.traced.tops_match
    obtain ⟨hi, htop⟩ := List.getElem?_eq_some_iff.1 top
    have init : (ms.flatMap (·.init.toList))[i]? = some code := init
    obtain ⟨hi', hcode⟩ := List.getElem?_eq_some_iff.1 init
    have hcode : (ms.flatMap (·.init.toList)).get ⟨i, hi'⟩ = code := hcode
    exact ⟨rfl, code, rfl, hcode ▸ hget i hi hi' b htop⟩

/-- Every piece of code at work has a stack map. -/
theorem exists_lays (strict : Prop) (works : (w.whole sources root).Works (.ofModules name ms) a b locals) :
    ∃ commands, ((w.whole sources root).stage name ms strict).Lays a
      (b.listing commands (locals.map (·.type))).stackMap := by
  obtain ⟨-, code, hcode, ctx, commands, laid, rfl⟩ := h.realized works
  refine ⟨commands, b, locals, ctx, commands, works, laid, hcode.trans ?_, rfl⟩
  exact congrArg some laid.code_listing.symm

/-- The function behind a routine that is not of the host. -/
theorem exists_works {r : Routine} (hr : at? (Executable.ofModules name ms).routines i = some r)
    (code : r.isBuiltin = false) :
    ∃ b locals, (w.whole sources root).Works (.ofModules name ms) (.routine r) b locals ∧
      r.locals = locals.map (·.kind) ∧ r.type.inputs <+: locals.map (·.type) ∧
        b.output = r.type.output? := by
  rcases Machine.at?_of_forall₂ h.traced.functions_match (i := i) with ⟨-, hnone⟩ | ⟨d, r', hd, hr', hrel⟩
  · cases hr.symm.trans hnone
  · cases hr.symm.trans hr'
    obtain ⟨f, rfl, k, hk, s, j, hs, hj, -, compiled⟩ := h.exists_function hd
    have realized := hrel f rfl
    have wf := compiled.bodies j f.decl hj
    have htype : r.type = f.decl.type := congrArg Signature.type realized.signature
    cases hbody : f.decl.body with
    | host builtin =>
      rw [Routine.isBuiltin, realized.host hbody] at code
      cases code
    | source scope params locals stmts =>
      obtain ⟨-, target, hcompiled, -⟩ := realized.source hbody
      obtain ⟨hlocals, hparams, hids⟩ := wf.locals hbody
      refine ⟨f.body stmts, locals.toList, .routine hr hd hbody, ?_, ?_, by rw [htype]; rfl⟩
      · rw [Routine.locals, hcompiled]
        rfl
      · obtain ⟨id, out, ins, hsig⟩ := wf.signature
        have governs := h.governs k hk s hs
        have hinputs : (locals.toList.take params).map (·.type) = f.decl.type.inputs := by
          refine governs.distinct.eq_of_ids (fun t ht => ?_) ?_ (by rw [List.map_map]; exact hids)
          · obtain ⟨v, hv, rfl⟩ := List.mem_map.1 ht
            exact hlocals.type v (Array.mem_toList_iff.1 (List.mem_of_mem_take hv))
          · rw [hsig]
            exact governs.inputs (hsig ▸ wf.type)
        rw [htype, ← hinputs]
        exact (List.take_prefix ..).map _

/-- The program is certified. -/
theorem certified (name : String) (strict : Prop) :
    ((w.whole sources root).stage name ms strict).Certified where
  start := by
    rintro a u ⟨b, locals, ctx, commands, works, laid, -, rfl⟩
    obtain ⟨k, hk, s, hs, body⟩ := h.exists_bodyOf works
    have governs := laid.table ▸ body.table ▸ h.governs k hk s hs
    exact laid.at_zero governs body.output (h.sits name strict hk hs body)
  admits := by
    rintro a u ⟨b, locals, ctx, commands, works, laid, -, rfl⟩ p ts here
    obtain ⟨k, hk, s, hs, body⟩ := h.exists_bodyOf works
    have governs := laid.table ▸ body.table ▸ h.governs k hk s hs
    exact laid.admits governs body.output (h.sits name strict hk hs body) here
  code := by
    rintro a u ⟨b, locals, ctx, commands, works, laid, hcode, rfl⟩
    exact hcode
  frame := by
    rintro a u ⟨b, locals, ctx, commands, works, laid, -, rfl⟩
    rw [(h.realized works).1]
    exact (List.length_map ..).symm
  signature := by
    intro i r hr
    obtain ⟨n, -, hget⟩ := Machine.exists_of_at? hr
    exact (h.routineType (List.mem_of_getElem? ((Array.getElem?_toList ..).trans hget))).2
  routine := by
    intro i r hr code
    obtain ⟨b, locals, works, hlocals, hinputs, houtput⟩ := h.exists_works hr code
    obtain ⟨commands, lays⟩ := h.exists_lays strict works
    refine ⟨_, lays, ?_, hinputs, houtput⟩
    rw [hlocals, Listing.stackMap, Body.listing, List.map_map]
    rfl
  block := by
    intro i code init
    have init' : (ms.flatMap (·.init.toList))[i]? = some code := init
    obtain ⟨hi, -⟩ := List.getElem?_eq_some_iff.1 init'
    rw [← h.traced.tops_match.length_eq] at hi
    have htop := List.getElem?_eq_getElem hi
    obtain ⟨k, -, s, -, hb, -⟩ := h.exists_top htop
    obtain ⟨commands, lays⟩ := h.exists_lays strict (.block init (htop.trans (congrArg some hb)))
    exact ⟨_, lays, rfl, rfl⟩

end Typed
end Workspace
end Stackwork
