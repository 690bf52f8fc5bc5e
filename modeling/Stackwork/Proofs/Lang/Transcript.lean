import Mathlib.Data.List.Basic
import Stackwork.Proofs.Lang.Emission

/-!
# Emission and assembly agree

What has been emitted so far is told by the commands so far: their literals and their items, the labels in the
order of their first use, and the places of labels. So emission finds a label placed twice when checking does, the
first label that is never placed is the same one, and at the end the builder fills in the addresses that the
assembly has.
-/
namespace Stackwork

open List Command Option

namespace Emission

variable {e e' : Emission}

/-- What has been emitted so far, from a pool on. Only labels of the unit may be without an address. -/
structure Tells (e : Emission) (start : Pool) (texts : List String) (row : (String → UInt64) → List (Item Label))
    (uses : List Label) (places : (String → UInt64) → List (Label × Nat)) : Prop where
  pool : e.pool = start.internAll texts
  items : ∀ q, e.pool.Within q → e.Stands 0 e.builder.items (row q.handle)
  order : ∀ P : Label → Bool, (e.labels.map Prod.fst).find? P = uses.find? P
  one : ∀ a ∈ e.labels, ∀ b ∈ e.labels, a.1 = b.1 ↔ a.2 = b.2
  inside : ∀ a ∈ e.labels, a.2.index < e.builder.labels.size
  address : ∀ q, e.pool.Within q → ∀ a ∈ e.labels, (e.builder.label a.2).address = (places q.handle).lookup a.1
  used : ∀ handle, ∀ p ∈ places handle, p.1 ∈ uses
  settled : ∀ own, e.Open own → own ∈ e.labels.map Prod.snd

section

variable {start : Pool} {texts texts' : List String} {row row' : (String → UInt64) → List (Item Label)}
  {uses : List Label} {places : (String → UInt64) → List (Label × Nat)} {l : Label}

variable {own : BuilderLabel}

theorem Extends.address_eq (ext : e'.Extends e) (inside : own.index < e.builder.labels.size)
    (opens : e.Open own → e'.Open own) : (e'.builder.label own).address = (e.builder.label own).address := by
  cases h : (e.builder.label own).address with
  | none => exact (opens ⟨inside, h⟩).2
  | some a => exact ext.address own a h

/-- A piece of code more. -/
theorem Tells.add (h : e.Tells start texts row uses places) (adds : Adds e e' texts' row') :
    e'.Tells start (texts ++ texts') (fun handle => row handle ++ row' handle) uses places where
  pool := by rw [adds.pool, h.pool, internAll_append]
  items q hq := by
    obtain ⟨added, hadded, stands⟩ := adds.items
    rw [hadded]
    exact (adds.ext.stands (h.items q (adds.within.trans hq))).append (stands q hq) (Nat.zero_add _).symm
  order P := adds.labels ▸ h.order P
  one := adds.labels ▸ h.one
  inside a ha := Nat.lt_of_lt_of_le (h.inside a (adds.labels ▸ ha)) adds.ext.size_le
  address q hq a ha := by
    rw [adds.labels] at ha
    rw [← h.address q (adds.within.trans hq) a ha]
    exact adds.ext.address_eq (h.inside a ha) (adds.opens a.2).2
  used := h.used
  settled own hopen := adds.labels ▸ h.settled own ((adds.opens own).1 hopen)

/-- The labels in use are those that have a label of the builder. -/
theorem Tells.mem_uses (h : e.Tells start texts row uses places) : l ∈ uses ↔ l ∈ e.labels.map Prod.fst := by
  have hfind {ls : List Label} : l ∈ ls ↔ (ls.find? (· == l)).isSome := by
    simp [find?_isSome]
  rw [hfind, hfind, h.order]

theorem Tells.lookup_eq_none (h : e.Tells start texts row uses places) (new : l ∉ uses) (handle : String → UInt64) :
    (places handle).lookup l = none := by
  refine lookup_eq_none_iff.2 fun p hp => ?_
  rw [bne_iff_ne]
  rintro rfl
  exact new (h.used handle p hp)

theorem mem_of_lookup (h : e.labels.lookup l = some own) : (l, own) ∈ e.labels := by
  obtain ⟨before, after, hsplit, -⟩ := lookup_eq_some_iff.1 h
  rw [hsplit]
  exact mem_append_right _ mem_cons_self

/-- A label that is used again adds nothing to the order of first uses. -/
theorem find?_append_of_mem (P : Label → Bool) (hl : l ∈ uses) : (uses ++ [l]).find? P = uses.find? P := by
  rw [find?_append]
  cases h : uses.find? P with
  | some l' => rfl
  | none => simp [find?_eq_none.1 h l hl]

section

variable (h : e.Tells start texts row uses places)
include h

/-- The first use of a label. -/
theorem Tells.newLabel (new : l ∉ uses) :
    { (e.newLabel l.name).2 with labels := e.labels ++ [(l, (e.newLabel l.name).1)] : Emission }.Tells start texts row
      (uses ++ [l]) places := by
  let own := (e.newLabel l.name).1
  have hnew : ∀ a ∈ e.labels, a.1 ≠ l := fun a ha heq => new (h.mem_uses.2 (heq ▸ mem_map_of_mem ha))
  have hne : ∀ a ∈ e.labels, a.2 ≠ own := fun a ha heq =>
    Nat.ne_of_lt (h.inside a ha) (congrArg BuilderLabel.index heq)
  have hopen := (open_newLabel e l.name own).2 (.inr rfl)
  have hsize := (extends_newLabel e l.name).size_le
  have ext : { (e.newLabel l.name).2 with labels := e.labels ++ [(l, own)] : Emission }.Extends e :=
    ⟨prefix_append _ _, hsize, (extends_newLabel e l.name).address⟩
  refine ⟨h.pool, fun q hq => ext.stands (h.items q hq), fun P => ?_, ?_, ?_, fun q hq => ?_, fun handle p hp => ?_,
    fun o ho => ?_⟩
  · rw [map_append, find?_append, find?_append, h.order P]
    rfl
  · intro a ha b hb
    rcases mem_append.1 ha with ha | ha <;> rcases mem_append.1 hb with hb | hb
    · exact h.one a ha b hb
    · rw [mem_singleton.1 hb]
      exact iff_of_false (hnew a ha) (hne a ha)
    · rw [mem_singleton.1 ha]
      exact iff_of_false (hnew b hb).symm (hne b hb).symm
    · rw [mem_singleton.1 ha, mem_singleton.1 hb]
      exact iff_of_true rfl rfl
  · intro a ha
    rcases mem_append.1 ha with ha | ha
    · exact Nat.lt_of_lt_of_le (h.inside a ha) hsize
    · rw [mem_singleton.1 ha]
      exact hopen.1
  · intro a ha
    rcases mem_append.1 ha with ha | ha
    · exact (address_newLabel e l.name a.2).trans (h.address q hq a ha)
    · rw [mem_singleton.1 ha, h.lookup_eq_none new]
      exact hopen.2
  · exact mem_append_left _ (h.used handle p hp)
  · rw [map_append]
    rcases (open_newLabel e l.name o).1 ho with ho | rfl
    · exact mem_append_left _ (h.settled o ho)
    · exact mem_append_right _ mem_cons_self

/-- One use more of a label, which has a label of the builder then. -/
theorem Tells.label (l : Label) :
    (e.label l).2.Tells start texts row (uses ++ [l]) places ∧ (l, (e.label l).1) ∈ (e.label l).2.labels := by
  unfold Emission.label
  cases hlookup : e.labels.lookup l with
  | some own =>
    have hmem := mem_of_lookup hlookup
    have huse : l ∈ uses := h.mem_uses.2 (mem_map_of_mem hmem)
    refine ⟨{ h with order := fun P => ?_, used := fun handle p hp => ?_ }, hmem⟩
    · exact (h.order P).trans (find?_append_of_mem P huse).symm
    · exact mem_append_left _ (h.used handle p hp)
  | none =>
    refine ⟨h.newLabel fun huse => ?_, mem_append_right _ mem_cons_self⟩
    obtain ⟨a, ha, rfl⟩ := mem_map.1 (h.mem_uses.1 huse)
    simpa using lookup_eq_none_iff.1 hlookup a ha

/-- A jump to a label in use. -/
theorem Tells.jump (known : (l, own) ∈ e.labels) (op : Opcode) :
    (e.append [.instr op .none, .address own]).Tells start texts
      (fun handle => row handle ++ [.instr op .none, .address l]) uses places := by
  have stands : (e.append [.instr op .none, .address own]).Stands e.builder.size
      [.instr op .none, .address own] [.instr op .none, .address l] := ⟨.word _, .address known, trivial⟩
  have tells := h.add (adds_append stands)
  rwa [append_nil] at tells

theorem Tells.open_of_lookup (known : (l, own) ∈ e.labels)
    (new : (places e.pool.handle).lookup l = none) : e.Open own :=
  ⟨h.inside _ known, (h.address e.pool (.refl _) _ known).trans new⟩

/-- The place of a label in use, where the row has got to. -/
theorem Tells.place (known : (l, own) ∈ e.labels)
    (new : ∀ handle, (places handle).lookup l = none) : (e.placeNow own).Tells start texts row uses
      fun handle => places handle ++ [(l, (row handle).length)] := by
  have hopen := h.open_of_lookup known (new _)
  have ext := extends_placeNow hopen
  refine ⟨h.pool, fun q hq => ext.stands (h.items q hq), h.order, h.one, ?_, fun q hq a ha => ?_, ?_, fun o ho => ?_⟩
  · exact fun a ha => Nat.lt_of_lt_of_le (h.inside a ha) ext.size_le
  · have hlength := (h.items q hq).length_eq
    rw [address_placeNow hopen, lookup_append, ← h.address q hq a ha]
    by_cases heq : a.1 = l
    · rw [if_pos ((h.one a ha _ known).1 heq), h.address q hq a ha, heq, new]
      simp [← hlength, Builder.size]
    · rw [if_neg fun hown => heq ((h.one a ha _ known).2 hown)]
      simp [lookup_cons, beq_false_of_ne heq]
  · intro handle p hp
    rcases mem_append.1 hp with hp | hp
    · exact h.used handle p hp
    · rw [mem_singleton.1 hp]
      exact h.mem_uses.2 (mem_map_of_mem known)
  · exact h.settled o ((open_placeNow hopen o).1 ho).1

end

end

/-- What has been emitted so far are these commands. -/
def Records (e : Emission) (start : Pool) (done : List Command) : Prop :=
  e.Tells start (done.flatMap Command.texts) (fun handle => done.flatMap (·.items handle))
    (done.filterMap Command.label?) fun handle => placements handle 0 done

end Emission

theorem placements_append (handle : String → UInt64) (pos : Nat) (a b : List Command) :
    placements handle pos (a ++ b) =
      placements handle pos a ++ placements handle (pos + (a.flatMap (·.items handle)).length) b := by
  induction a generalizing pos with
  | nil => rfl
  | cons c a ih =>
    rw [cons_append, flatMap_cons, length_append, ← Nat.add_assoc]
    cases c with
    | place l => exact congrArg ((l, pos) :: ·) (ih _)
    | _ => exact ih _

theorem placements_singleton (handle : String → UInt64) (pos : Nat) (c : Command) :
    placements handle pos [c] = c.placed?.toList.map (·, pos) := by
  cases c <;> rfl

theorem map_fst_placements (handle : String → UInt64) (pos : Nat) (commands : List Command) :
    (placements handle pos commands).map Prod.fst = commands.filterMap placed? := by
  induction commands generalizing pos with
  | nil => rfl
  | cons c commands ih =>
    cases c with
    | place l => exact congrArg (l :: ·) (ih _)
    | _ => exact ih _

namespace Emission

variable {start : Pool} {done : List Command} {c : Command} {e e' : Emission}

theorem Records.append (h : e'.Tells start (done.flatMap texts ++ c.texts)
    (fun handle => done.flatMap (·.items handle) ++ c.items handle) (done.filterMap label? ++ c.label?.toList)
    fun handle => placements handle 0 done ++
      c.placed?.toList.map (·, (done.flatMap (·.items handle)).length)) : e'.Records start (done ++ [c]) := by
  have hlabel : [c].filterMap label? = c.label?.toList := by
    rw [filterMap_cons]
    cases c.label? <;> rfl
  simp only [Records, flatMap_append, flatMap_singleton, filterMap_append, hlabel, placements_append,
    placements_singleton, Nat.zero_add]
  exact h

theorem kind_of_loads (kinds : c.undefined? = none) : ∀ v ∈ c.loads, v.kind ≠ .none := by
  intro v hv
  rw [c.loads_eq] at hv
  obtain ⟨a, ha, heq⟩ := mem_filterMap.1 hv
  cases a with
  | load w =>
    cases heq
    exact kind_of_undefined kinds (.inl ha)
  | _ => cases heq

/-- A command without a label is a piece of code. -/
theorem emits_command (c : Command) (defined : c.Defined) (kinds : c.undefined? = none) (label : c.label? = none) :
    Emits c.emit c.texts fun handle => c.items handle := by
  have hloads := kind_of_loads kinds
  cases c with
  | store v x =>
    have hv := kind_of_undefined kinds (.inr (mem_append_right _ mem_cons_self))
    exact (x.emits defined hloads).code (emits_indexed (Variable.kinds_storeCode hv) v.index)
  | drop x => exact (x.emits defined hloads).code (emits_instr rfl)
  | ret k value =>
    cases value with
    | none => exact emits_instr defined
    | some x => exact (x.emits defined.2 hloads).code (emits_instr defined.1)
  | halt => exact emits_instr rfl
  | jump | branchTrue | branchFalse | place => cases label

section

variable {texts : List String} {row : (String → UInt64) → List (Item Label)} {uses : List Label}
  {places : (String → UInt64) → List (Label × Nat)}

theorem Tells.jumpTo (h : e.Tells start texts row uses places) (op : Opcode) (jumps : op.isJump) (l : Label) :
    ∃ e', (e.label l).2.jump op (e.label l).1 = .ok e' ∧
      e'.Tells start texts (fun handle => row handle ++ [.instr op .none, .address l]) (uses ++ [l]) places := by
  obtain ⟨tells, known⟩ := h.label l
  exact ⟨_, jump_eq jumps _ _, tells.jump known op⟩

theorem Tells.branch (h : e.Tells start texts row uses places) {x : Term} (defined : x.Defined)
    (kinds : ∀ v ∈ x.loads, v.kind ≠ .none) (op : Opcode) (jumps : op.isJump) (l : Label) :
    ∃ e', (x.emit e >>= fun e => (e.label l).2.jump op (e.label l).1) = .ok e' ∧
      e'.Tells start (texts ++ x.texts)
        (fun handle => row handle ++ (x.items handle ++ [.instr op .none, .address l])) (uses ++ [l]) places := by
  obtain ⟨e₁, h₁, adds⟩ := x.emits defined kinds e
  obtain ⟨e₂, h₂, tells⟩ := (h.add adds).jumpTo op jumps l
  simp only [append_assoc] at tells
  exact ⟨e₂, Except.bind_eq_ok.2 ⟨e₁, h₁, h₂⟩, tells⟩

end

variable {l : Label}

theorem lookup_placements (handle : String → UInt64) :
    (placements handle 0 done).lookup l = none ↔ l ∉ done.filterMap placed? := by
  rw [lookup_eq_none_iff, ← map_fst_placements handle 0 done, List.mem_map]
  constructor
  · rintro h ⟨p, hp, rfl⟩
    exact bne_iff_ne.1 (h p hp) rfl
  · intro h p hp
    rw [bne_iff_ne]
    rintro rfl
    exact h ⟨p, hp, rfl⟩

/-- One command more is emitted, unless it places a label for the second time. -/
theorem Records.emit (h : e.Records start done) (defined : c.Defined) (kinds : c.undefined? = none)
    (new : ∀ l ∈ c.placed?, l ∉ done.filterMap placed?) :
    ∃ e', c.emit e = .ok e' ∧ e'.Records start (done ++ [c]) := by
  have hloads := kind_of_loads kinds
  cases c with
  | jump l =>
    obtain ⟨e', he', tells⟩ := Tells.jumpTo h .jump rfl l
    refine ⟨e', he', .append ?_⟩
    simpa [label?, placed?, texts, items] using tells
  | branchTrue x l =>
    obtain ⟨e', he', tells⟩ := Tells.branch h defined hloads .branchTrue rfl l
    refine ⟨e', he', .append ?_⟩
    simpa [label?, placed?, texts, items] using tells
  | branchFalse x l =>
    obtain ⟨e', he', tells⟩ := Tells.branch h defined hloads .branchFalse rfl l
    refine ⟨e', he', .append ?_⟩
    simpa [label?, placed?, texts, items] using tells
  | place l =>
    obtain ⟨tells, known⟩ := Tells.label h l
    have hnone (handle : String → UInt64) : (placements handle 0 done).lookup l = none :=
      (lookup_placements handle).2 (new l rfl)
    refine ⟨_, place_eq (tells.open_of_lookup known (hnone _)).2, .append ?_⟩
    simpa [label?, placed?, texts, items] using tells.place known hnone
  | store | drop | ret | halt =>
    obtain ⟨e', he', adds⟩ := emits_command _ defined kinds rfl e
    refine ⟨e', he', .append ?_⟩
    simpa [label?, placed?] using Tells.add h adds

/-- Emission knows which labels have been placed. -/
theorem Records.hasPlaced_iff (h : e.Records start done) : e.hasPlaced l ↔ l ∈ done.filterMap placed? := by
  have hlookup : (placements e.pool.handle 0 done).lookup l = none ↔ l ∉ done.filterMap placed? :=
    lookup_placements e.pool.handle
  unfold hasPlaced
  cases hown : e.labels.lookup l with
  | none =>
    refine iff_of_false Bool.false_ne_true (hlookup.1 (Tells.lookup_eq_none h (fun huse => ?_) _))
    obtain ⟨a, ha, rfl⟩ := mem_map.1 ((Tells.mem_uses h).1 huse)
    simpa using lookup_eq_none_iff.1 hown a ha
  | some own =>
    rw [any_some, Tells.address h e.pool (.refl _) _ (mem_of_lookup hown), ← not_iff_not, ← hlookup]
    exact not_isSome_iff_eq_none

variable {ctx : Context} {s : Stmt} {stmts : List Stmt}

/-! One statement more to emit. -/

theorem stmts_cons_error {p : Problem} (h : s.check ctx = .error p) (e : Emission) :
    Emission.stmts ctx (s :: stmts) e = .error (.problem p) := by
  rw [Emission.stmts, h]
  rfl

theorem stmts_cons_twice (h : s.check ctx = .ok (.place l)) (placed : e.hasPlaced l) :
    Emission.stmts ctx (s :: stmts) e = .error (.problem (.placedTwice l.name)) := by
  simp only [Emission.stmts, h, Except.mapError, bind, Except.bind, placed?, placed, if_true]
  rfl

theorem stmts_cons_ok (h : s.check ctx = .ok c) (new : ∀ l ∈ c.placed?, ¬ e.hasPlaced l) (he : c.emit e = .ok e') :
    Emission.stmts ctx (s :: stmts) e = Emission.stmts ctx stmts e' := by
  simp only [Emission.stmts, h, Except.mapError, bind, Except.bind, he]
  cases hplaced : c.placed? with
  | none => rfl
  | some l =>
    have hnew : e.hasPlaced l = false := by simpa using new l hplaced
    simp only [hnew]
    rfl

/-- Statements are emitted as they are checked, up to the first problem. -/
theorem Records.emit_checked (h : e.Records start done) (proper : ctx.table.Proper) {placed : List Label}
    (hplaced : ∀ l, l ∈ placed ↔ l ∈ done.filterMap placed?)
    (kinds : ∀ s ∈ stmts, ∀ v ∈ s.vars, v.kind ≠ .none) :
    (∃ p, checkAll ctx placed stmts = .error (.problem p) ∧ Emission.stmts ctx stmts e = .error (.problem p)) ∨
      ∃ rest e', checkAll ctx placed stmts = .ok rest ∧ Emission.stmts ctx stmts e = .ok e' ∧
        e'.Records start (done ++ rest) := by
  induction stmts generalizing e done placed with
  | nil =>
    refine .inr ⟨[], e, rfl, rfl, ?_⟩
    rwa [append_nil]
  | cons s stmts ih =>
    obtain ⟨hkinds, kinds⟩ := forall_mem_cons.1 kinds
    cases hc : s.check ctx with
    | error p => exact .inl ⟨p, checkAll_cons_error hc, stmts_cons_error hc e⟩
    | ok c =>
      by_cases htwice : ∃ l ∈ c.placed?, l ∈ placed
      · obtain ⟨l, hl, hmem⟩ := htwice
        cases c with
        | place l' =>
          cases hl
          exact .inl ⟨_, checkAll_cons_twice hc hmem, stmts_cons_twice hc (h.hasPlaced_iff.2 ((hplaced l).1 hmem))⟩
        | _ => cases hl
      · have hnew : ∀ l ∈ c.placed?, l ∉ placed := fun l hl hmem => htwice ⟨l, hl, hmem⟩
        have checks := Stmt.checks_of_check hc
        obtain ⟨e', he', records⟩ := h.emit (checks.defined proper) (checks.undefined?_eq hkinds)
          fun l hl hmem => hnew l hl ((hplaced l).2 hmem)
        have hnext (l : Label) : l ∈ c.placed?.toList ++ placed ↔ l ∈ (done ++ [c]).filterMap placed? := by
          rw [filterMap_append, mem_append, mem_append, hplaced l, or_comm]
          simp
        rw [checkAll_cons_ok hc hnew (checks.undefined?_eq hkinds),
          stmts_cons_ok hc (fun l hl hmem => hnew l hl ((hplaced l).2 (h.hasPlaced_iff.1 hmem))) he']
        rcases ih records hnext kinds with ⟨p, hcheck, hemit⟩ | ⟨rest, e'', hcheck, hemit, records'⟩
        · exact .inl ⟨p, by rw [hcheck]; rfl, hemit⟩
        · refine .inr ⟨c :: rest, e'', by rw [hcheck]; rfl, hemit, ?_⟩
          rwa [append_assoc] at records'

/-- The first label without an address is the first that is never placed. -/
theorem Records.unplaced?_eq (h : e.Records start done) : e.unplaced? = Stackwork.unplaced? done := by
  have hsame : ∀ a ∈ e.labels, (e.builder.label a.2).address.isNone =
      !(done.filterMap placed?).contains a.1 := by
    intro a ha
    rw [Tells.address h e.pool (.refl _) a ha, Bool.eq_iff_iff, isNone_iff_eq_none, lookup_placements]
    simp
  calc e.unplaced?
      = (e.labels.find? ((fun l => !(done.filterMap placed?).contains l) ∘ Prod.fst)).map Prod.fst := by
        rw [unplaced?, ← head?_filter, ← head?_filter, filter_congr hsame]
        rfl
    _ = (done.filterMap label?).find? fun l => !(done.filterMap placed?).contains l := by
        rw [← find?_map, Tells.order h]
    _ = Stackwork.unplaced? done := rfl

/-- Without open labels the builder fills in every address. -/
theorem build_eq (closed : ∀ own, ¬ e.Open own) : e.builder.build =
    .ok (.ofList (Item.resolveFrom (fun own => (e.builder.label own).address.getD 0) 0 e.builder.items)) := by
  have hdangling : e.builder.dangling = [] := by
    refine filter_eq_nil_iff.2 fun own hown => ?_
    obtain ⟨i, hi, rfl⟩ := mem_map.1 hown
    intro h
    rw [Bool.and_eq_true, isNone_iff_eq_none] at h
    exact closed ⟨i⟩ ⟨mem_range.1 hi, h.1⟩
  rw [Builder.build, hdangling]

theorem records_nil (pool : Pool) : Records { pool } pool [] where
  pool := rfl
  items _ _ := trivial
  order _ := rfl
  one := forall_mem_nil _
  inside := forall_mem_nil _
  address _ _ := forall_mem_nil _
  used _ := forall_mem_nil _
  settled _ h := absurd h.1 (Nat.not_lt_zero _)

/-- The end of a unit whose labels are all placed. -/
theorem Records.finish (h : e.Records start done) (placed : Stackwork.unplaced? done = none) (output : Option Ty) :
    ∃ e', e.finish output = .ok e' ∧ e'.pool = start.internAll (done.flatMap texts) ∧
      e'.builder.build = .ok (.ofList (assemble e'.pool.handle output done)) := by
  obtain ⟨e', he', adds⟩ := emits_finish output e
  have tells := Tells.add h adds
  rw [append_nil] at tells
  have hfind := h.unplaced?_eq
  rw [placed, Emission.unplaced?, map_eq_none_iff, find?_eq_none] at hfind
  have closed (own : BuilderLabel) : ¬ e'.Open own := by
    intro hopen
    have hopen := (adds.opens own).1 hopen
    obtain ⟨a, ha, rfl⟩ := mem_map.1 (Tells.settled h own hopen)
    exact hfind a ha (isNone_iff_eq_none.2 hopen.2)
  refine ⟨e', he', tells.pool, ?_⟩
  rw [build_eq closed, Stands.resolveFrom_eq (fun l own hmem => ?_) (tells.items e'.pool (.refl _))]
  · rfl
  · rw [tells.address e'.pool (.refl _) _ hmem]

end Emission

/-- Generating a unit and emitting it through a builder have the same result: the same code and literals, or the same
problem. -/
theorem generate_eq_emission {ctx : Context} (proper : ctx.table.Proper) (pool : Pool) {stmts : List Stmt}
    (kinds : ∀ s ∈ stmts, ∀ v ∈ s.vars, v.kind ≠ .none) : ∃ r : Except Problem (Code × Pool),
      generate ctx pool stmts = r.mapError .problem ∧ Emission.unit ctx pool stmts = r.mapError .problem := by
  rcases (Emission.records_nil pool).emit_checked proper (fun _ => Iff.rfl) kinds with
    ⟨p, hcheck, hemit⟩ | ⟨commands, e, hcheck, hemit, records⟩
  · refine ⟨.error p, generate_of_error hcheck, ?_⟩
    rw [Emission.unit, hemit]
    rfl
  · rw [nil_append] at records
    have hunplaced := records.unplaced?_eq
    cases hplaced : unplaced? commands with
    | some l =>
      rw [hplaced] at hunplaced
      refine ⟨.error (.neverPlaced l.name), generate_of_unplaced hcheck hplaced, ?_⟩
      simp only [Emission.unit, hemit, bind, Except.bind, hunplaced]
      rfl
    | none =>
      rw [hplaced] at hunplaced
      obtain ⟨e', hfinish, hpool, hbuild⟩ := records.finish hplaced ctx.output
      rw [hpool] at hbuild
      refine ⟨.ok _, generate_of_placed hcheck hplaced, ?_⟩
      simp only [Emission.unit, hemit, bind, Except.bind, hunplaced, hfinish, Except.mapError, hbuild, hpool]
      rfl

end Stackwork
