import Mathlib.Data.List.Nodup
import Stackwork.Proofs.Lang.Folding
import Stackwork.Proofs.Lang.Scoping

/-!
# Values of enums

The members of an enum are numbered as its items say, an item without a value coming one
behind the item before it. The numbering knows no bound, and no number is given twice. What
a running program sees of a member is a 32-bit integer. The two are the same up to the
largest such integer; an item that is numbered beyond it comes round to the smallest one,
where another member may be already.
-/
namespace Stackwork

open List Stackwork.Except

/-- The number of an item without a value, behind the members so far. -/
def following (done : List EnumMember) : Int := (done.getLast?.map fun m => m.value + 1).getD 0

/-- The number of an item behind the members so far: the value it is written with, or the
next one. -/
def ItemValue (tt : TyTable) (done : List EnumMember) : Option Expr → Int → Prop
  | some e, v => ∃ x, e.fold tt = .ok x ∧ x.type.kind = .int ∧ v = x.value.toInt.toInt
  | none, v => v = following done

/-- Members that are numbered as some items say, without a name or a number given twice. -/
structure Enumerates (tt : TyTable) (items : List (String × Option Expr)) (members : List EnumMember) : Prop where
  names : members.map EnumMember.name = items.map Prod.fst
  distinctNames : (members.map EnumMember.name).Nodup
  distinctValues : (members.map EnumMember.value).Nodup
  values : ∀ i item m, items[i]? = some item → members[i]? = some m →
    ItemValue tt (members.take i) item.2 m.value
  atLeast : ∀ m ∈ members, -2147483648 ≤ m.value

namespace Enumerates

variable {tt : TyTable} {items : List (String × Option Expr)} {members : List EnumMember}

theorem nil : Enumerates tt [] [] where
  names := rfl
  distinctNames := nodup_nil
  distinctValues := nodup_nil
  values _ _ _ h := by cases h
  atLeast := forall_mem_nil _

theorem length_eq (h : Enumerates tt items members) : members.length = items.length := by
  simpa using congrArg length h.names

variable {value : Option Expr} {v : Int}

/-- Numbers only go up from a value that is written, or from zero. -/
theorem le_of_itemValue (h : Enumerates tt items members) (hv : ItemValue tt members value v) :
    -2147483648 ≤ v := by
  cases value with
  | some e =>
    obtain ⟨x, -, -, rfl⟩ := hv
    exact x.value.toInt.le_toInt
  | none =>
    obtain rfl : v = following members := hv
    unfold following
    cases hlast : members.getLast? with
    | none => decide
    | some m =>
      have := h.atLeast m (mem_of_getLast? hlast)
      simp only [Option.map_some, Option.getD_some]
      omega

/-- One more item. -/
theorem snoc (h : Enumerates tt items members) {name : String} (hv : ItemValue tt members value v)
    (newName : ∀ m ∈ members, m.name ≠ name) (newValue : ∀ m ∈ members, m.value ≠ v) :
    Enumerates tt (items ++ [(name, value)]) (members ++ [⟨name, v⟩]) where
  names := by rw [map_append, map_append, h.names, map_singleton, map_singleton]
  distinctNames := by
    rw [map_append, map_singleton, ← concat_eq_append]
    refine h.distinctNames.concat fun hname => ?_
    obtain ⟨m, hm, hname⟩ := mem_map.1 hname
    exact newName m hm hname
  distinctValues := by
    rw [map_append, map_singleton, ← concat_eq_append]
    refine h.distinctValues.concat fun hvalue => ?_
    obtain ⟨m, hm, hvalue⟩ := mem_map.1 hvalue
    exact newValue m hm hvalue
  values i item m hitem hm := by
    rcases Nat.lt_trichotomy i members.length with hi | rfl | hi
    · rw [getElem?_append_left hi] at hm
      rw [getElem?_append_left (h.length_eq ▸ hi)] at hitem
      rw [take_append_of_le_length (Nat.le_of_lt hi)]
      exact h.values i item m hitem hm
    · rw [getElem?_concat_length] at hm
      rw [h.length_eq, getElem?_concat_length] at hitem
      cases hm
      cases hitem
      rwa [take_left]
    · rw [getElem?_eq_none (by simpa using Nat.succ_le_of_lt hi)] at hm
      cases hm
  atLeast := forall_mem_append.2 ⟨h.atLeast, forall_mem_singleton.2 (h.le_of_itemValue hv)⟩

end Enumerates

namespace Workspace

variable {tt : TyTable} {enum name : String} {rest items : List (String × Option Expr)}
  {done members : List EnumMember}

variable {next : Int} {α : Type} {t : Ty} {s : ScopeId}

/-- A value that is written takes the place of the next number. -/
theorem enumMembers_written_eq_ok {e : Expr}
    (h : enumMembers tt enum ((name, some e) :: rest) next done = .ok members) :
    ∃ x, e.fold tt = .ok x ∧ x.type.kind = .int ∧
      enumMembers tt enum ((name, none) :: rest) x.value.toInt.toInt done = .ok members := by
  rw [enumMembers] at h
  obtain ⟨x, hx, h⟩ := bind_eq_ok.1 h
  refine ⟨x, mapError_eq_ok.1 hx, ?_⟩
  by_cases hint : x.type.kind = .int
  · rw [if_neg (not_not_intro hint)] at h
    rw [enumMembers]
    exact ⟨hint, h⟩
  · rw [if_pos hint] at h
    cases h

/-- An item without a value that is accepted has the next number and a name of its own. -/
theorem enumMembers_next_eq_ok (h : enumMembers tt enum ((name, none) :: rest) next done = .ok members) :
    (∀ m ∈ done, m.name ≠ name) ∧ (∀ m ∈ done, m.value ≠ next) ∧
      enumMembers tt enum rest (next + 1) (done ++ [⟨name, next⟩]) = .ok members := by
  rw [enumMembers] at h
  obtain ⟨next, hnext, h⟩ := bind_eq_ok.1 h
  cases hnext
  dsimp only at h
  split at h
  · cases h
  · next newName =>
    split at h
    · cases h
    · next newValue => exact ⟨by simpa using newName, by simpa using newValue, h⟩

/-- An item that is accepted has the number that is due and a name of its own. -/
theorem enumMembers_cons_eq_ok {value : Option Expr}
    (h : enumMembers tt enum ((name, value) :: rest) (following done) done = .ok members) :
    ∃ v, ItemValue tt done value v ∧ (∀ m ∈ done, m.name ≠ name) ∧ (∀ m ∈ done, m.value ≠ v) ∧
      enumMembers tt enum rest (v + 1) (done ++ [⟨name, v⟩]) = .ok members := by
  cases value with
  | none => exact ⟨following done, rfl, enumMembers_next_eq_ok h⟩
  | some e =>
    obtain ⟨x, hx, hint, h⟩ := enumMembers_written_eq_ok h
    exact ⟨_, ⟨x, hx, hint, rfl⟩, enumMembers_next_eq_ok h⟩

/-- The members of an enum are numbered as its items say. -/
theorem enumerates_of_enumMembers {seen : List (String × Option Expr)} (h : Enumerates tt seen done)
    (hok : enumMembers tt enum items (following done) done = .ok members) :
    Enumerates tt (seen ++ items) members := by
  induction items generalizing seen done with
  | nil =>
    rw [enumMembers] at hok
    cases hok
    rwa [append_nil]
  | cons item rest ih =>
    obtain ⟨name, value⟩ := item
    obtain ⟨v, hv, newName, newValue, hok⟩ := enumMembers_cons_eq_ok hok
    have hnext : v + 1 = following (done ++ [⟨name, v⟩]) := by
      rw [following, getLast?_concat]
      rfl
    rw [hnext] at hok
    have := ih (h.snoc hv newName newValue) hok
    rwa [append_assoc] at this

variable {w w' : Workspace} {p : ProgramId}

theorem commit_eq_ok {a : α} {x : Except CompileError (α × Workspace)} (h : w.commit p x = (.ok a, w')) :
    x = .ok (a, w') := by
  unfold commit at h
  split at h
  · cases h
    rfl
  · cases h

theorem program_modifyProgram (inside : p.index < w.programs.size) (f : Program → Program) :
    (w.modifyProgram p f).program p = f (w.program p) := by
  unfold program modifyProgram
  simp only [Array.getD_eq_getD_getElem?, Array.getElem?_modify, if_pos, Array.getElem?_eq_getElem inside]
  rfl

theorem enumConstant_eq_ok {members : ScopeId} {c : Constant}
    (henum : (w.program p).enums.lookup t.id = some members)
    (hfound : w.scopes.lookupLocal members name = some (.constant c)) : w.enumConstant p t name = .ok c := by
  unfold enumConstant
  simp only [henum, hfound]

theorem scopes_of_declare {e : Entry} (h : w.declare s name e = .ok w') :
    w.scopes.declare s name e = .ok w'.scopes ∧ w' = { w with scopes := w'.scopes } := by
  unfold declare at h
  cases hd : w.scopes.declare s name e with
  | error e' =>
    rw [hd] at h
    cases h
  | ok scopes =>
    rw [hd] at h
    cases h
    exact ⟨rfl, rfl⟩

/-- Names that are declared in a scope one after the other are all found there. -/
theorem lookupLocal_of_foldlM_declare {name : α → String} {entry : α → Entry} {xs : List α}
    (inside : s.index < w.scopes.scopes.size) (h : xs.foldlM (fun w x => w.declare s (name x) (entry x)) w = .ok w') :
    w' = { w with scopes := w'.scopes } ∧ (∀ x ∈ xs, w'.scopes.lookupLocal s (name x) = some (entry x)) ∧
      ∀ n e, w.scopes.lookupLocal s n = some e → w'.scopes.lookupLocal s n = some e := by
  induction xs generalizing w with
  | nil =>
    cases h
    exact ⟨rfl, forall_mem_nil _, fun _ _ h => h⟩
  | cons x xs ih =>
    obtain ⟨w₁, hdeclare, h⟩ := bind_eq_ok.1 h
    obtain ⟨hscopes, hw⟩ := scopes_of_declare hdeclare
    obtain ⟨hw', hfound, hkept⟩ := ih (Forest.size_of_declare hscopes ▸ inside) h
    refine ⟨?_, forall_mem_cons.2 ⟨?_, hfound⟩, fun n e hn => ?_⟩
    · rw [hw', hw]
    · exact hkept _ _ (Forest.lookupLocal_of_declare hscopes inside)
    · exact hkept n e (Forest.lookupLocal_mono hscopes hn)

/-- What a declaration of an enum that succeeds leads to: members that are numbered as the
items say, and a constant for each of them. -/
theorem enumerates_of_declareEnum {scope : ScopeId} (inside : p.index < w.programs.size)
    (h : w.declareEnum p scope name items = (.ok t, w')) :
    Enumerates (w.tableOf p) items t.members ∧ t.kind = .enum ∧
      ∀ m ∈ t.members, w'.enumConstant p t m.name = .ok (memberConstant t m) := by
  unfold declareEnum at h
  split at h
  · cases h
  · next members hmembers =>
    have henum : Enumerates (w.tableOf p) items members := enumerates_of_enumMembers .nil hmembers
    have h := commit_eq_ok h
    obtain ⟨w₁, hfold, h⟩ := bind_eq_ok.1 h
    obtain ⟨w₂, hdeclare, h⟩ := bind_eq_ok.1 h
    cases h
    refine ⟨henum, rfl, fun m hm => ?_⟩
    obtain ⟨hw₁, hfound, -⟩ := lookupLocal_of_foldlM_declare (by simp) hfold
    obtain ⟨hscopes, hw₂⟩ := scopes_of_declare hdeclare
    have hmember := Forest.lookupLocal_mono hscopes (hfound m hm)
    have hprograms : w₂.programs = w.programs := by rw [hw₂, hw₁]
    refine enumConstant_eq_ok ?_ hmember
    rw [program_modifyProgram (hprograms ▸ inside)]
    exact lookup_cons_self

end Workspace

/-- Up to the largest 32-bit integer a number is what it is at run time. -/
theorem toInt_ofInt_eq_iff {v : Int} (h : -2147483648 ≤ v) : (Int32.ofInt v).toInt = v ↔ v < 2147483648 :=
  ⟨fun heq => heq ▸ (Int32.ofInt v).toInt_lt, fun hlt => Int32.toInt_ofInt_of_le h hlt⟩

/-- Under a name that is given once, the type has the value of the member. -/
theorem Ty.memberValue?_of_mem {t : Ty} (distinct : (t.members.map EnumMember.name).Nodup) {m : EnumMember}
    (h : m ∈ t.members) : t.memberValue? m.name = some m.value := by
  have find (ms : List EnumMember) (distinct : (ms.map EnumMember.name).Nodup) (h : m ∈ ms) :
      ms.find? (fun x => x.name = m.name) = some m := by
    induction ms with
    | nil => cases h
    | cons a ms ih =>
      rw [map_cons, nodup_cons] at distinct
      rcases mem_cons.1 h with rfl | h
      · exact find?_cons_of_pos (by simp)
      · have hne : a.name ≠ m.name := fun heq => distinct.1 (heq ▸ mem_map_of_mem h)
        rw [find?_cons_of_neg (by simpa using hne)]
        exact ih distinct.2 h
  rw [memberValue?, find t.members distinct h]
  rfl

namespace Workspace

variable {t : Ty}

theorem yields_memberConstant (henum : t.kind = .enum) (m : EnumMember) :
    (constantTerm (memberConstant t m)).Yields (.int (Int32.ofInt m.value)) := by
  have holds : (memberConstant t m).type.kind.Holds (memberConstant t m).value := by
    change t.kind.Holds _
    rw [henum]
    exact ⟨_, rfl⟩
  have hkind : Kind.ofTy t = .int := by
    rw [Kind.ofTy, henum]
    rfl
  have := Constant.yields holds
  rwa [show (memberConstant t m).type = t from rfl, hkind] at this

/-- Two members are compared as what they are at run time. -/
theorem computes_equality (henum : t.kind = .enum) (ctx : Context) (m m' : EnumMember) :
    ∃ x, (Expr.binary (.plain .eq) (.const (memberConstant t m)) (.const (memberConstant t m'))).check ctx =
        .ok ⟨x, ctx.table.boolean⟩ ∧
      x.Computes (.ofBool (Int32.ofInt m.value == Int32.ofInt m'.value)) := by
  have htype : binaryType ctx.table (.plain .eq) t t = some ⟨ctx.table.boolean, t⟩ := by
    simp [binaryType, numericType, Ty.isNumeric, Ty.same, henum]
  have hwidens : widens t t = false := by simp [widens, henum]
  have hkind : Kind.ofTy t = .int := by
    rw [Kind.ofTy, henum]
    rfl
  refine ⟨_, Expr.check_binary_eq_ok.2 ⟨_, _, _, rfl, rfl, htype, rfl⟩, ?_⟩
  have hoperand (m : EnumMember) : Typed.as ⟨constantTerm (memberConstant t m), t⟩ t =
      constantTerm (memberConstant t m) := by
    rw [Typed.as, if_neg (by simp [hwidens])]
  have hyields : (binaryTerm (.plain .eq) t ⟨constantTerm (memberConstant t m), t⟩
      ⟨constantTerm (memberConstant t m'), t⟩).Yields
        ⟨.ofBool (Int32.ofInt m.value == Int32.ofInt m'.value), .int⟩ := by
    rw [binaryTerm, hoperand, hoperand, hkind]
    refine .binary (.inl rfl) (yields_memberConstant henum m) (yields_memberConstant henum m') ?_
    rw [BinaryCode.on?, if_pos rfl, Slot.toInt_ofInt, Slot.toInt_ofInt]
    rfl
  exact hyields.computes

/-- What a running program sees of a member: the constant under its name has an integer for
its value, and a reference to the constant pushes that integer. -/
def ShowsAs (w : Workspace) (p : ProgramId) (t : Ty) (name : String) (v : Int32) : Prop :=
  ∃ c, w.enumConstant p t name = .ok c ∧ c.name = name ∧ c.type = t ∧ c.value.toInt = v ∧
    ∀ ctx, ∃ x, (Expr.const c).check ctx = .ok ⟨x, t⟩ ∧ x.Computes (.ofInt v)

/-- The constants of two members are different at run time, and comparing them says so. -/
def Differ (w : Workspace) (p : ProgramId) (t : Ty) (name name' : String) : Prop :=
  ∃ c c', w.enumConstant p t name = .ok c ∧ w.enumConstant p t name' = .ok c' ∧
    c.value.toInt ≠ c'.value.toInt ∧
    ∀ ctx, ∃ x, (Expr.binary (.plain .eq) (.const c) (.const c')).check ctx = .ok ⟨x, ctx.table.boolean⟩ ∧
      x.Computes (.ofBool false)

/-- The members of a declared enum have names of their own and are numbered as the items say,
no number twice. The type knows a member by its number, a running program by that number
brought to 32 bits, which is the same for numbers up to the largest such integer. In an enum
that keeps to these, different members are different at run time. -/
theorem enum_members_numbered {w w' : Workspace} {p : ProgramId} {scope : ScopeId} {name : String}
    {items : List (String × Option Expr)} {t : Ty} (inside : p.index < w.programs.size)
    (declared : w.declareEnum p scope name items = (.ok t, w')) :
    t.members.map EnumMember.name = items.map Prod.fst ∧ (t.members.map EnumMember.name).Nodup ∧
    (t.members.map EnumMember.value).Nodup ∧
    (∀ i item, items[i]? = some item → ∃ m, t.members[i]? = some m ∧ m.name = item.1 ∧
      ItemValue (w.tableOf p) (t.members.take i) item.2 m.value ∧
      t.memberValue? item.1 = some m.value ∧ w'.ShowsAs p t item.1 (Int32.ofInt m.value) ∧
      ((Int32.ofInt m.value).toInt = m.value ↔ m.value < 2147483648)) ∧
    ((∀ m ∈ t.members, m.value < 2147483648) →
      ∀ m ∈ t.members, ∀ m' ∈ t.members, m ≠ m' → w'.Differ p t m.name m'.name) := by
  obtain ⟨enumerates, henum, constants⟩ := enumerates_of_declareEnum inside declared
  refine ⟨enumerates.names, enumerates.distinctNames, enumerates.distinctValues, ?_, ?_⟩
  · intro i item hitem
    obtain ⟨hi, -⟩ := List.getElem?_eq_some_iff.1 hitem
    obtain ⟨m, hm⟩ : ∃ m, t.members[i]? = some m :=
      ⟨_, List.getElem?_eq_getElem (enumerates.length_eq ▸ hi)⟩
    have hmem : m ∈ t.members := List.mem_of_getElem? hm
    have hname : m.name = item.1 := by
      have := congrArg (·[i]?) enumerates.names
      simpa [hm, hitem] using this
    refine ⟨m, hm, hname, enumerates.values i item m hitem hm, ?_, ?_, toInt_ofInt_eq_iff (enumerates.atLeast m hmem)⟩
    · rw [← hname]
      exact Ty.memberValue?_of_mem enumerates.distinctNames hmem
    · rw [← hname]
      exact ⟨_, constants m hmem, rfl, rfl, Slot.toInt_ofInt _,
        fun ctx => ⟨_, rfl, (yields_memberConstant henum m).computes⟩⟩
  · intro fits m hm m' hm' hne
    have hvalue : Int32.ofInt m.value ≠ Int32.ofInt m'.value := by
      intro heq
      have hint := congrArg Int32.toInt heq
      rw [(toInt_ofInt_eq_iff (enumerates.atLeast m hm)).2 (fits m hm),
        (toInt_ofInt_eq_iff (enumerates.atLeast m' hm')).2 (fits m' hm')] at hint
      exact hne (List.inj_on_of_nodup_map enumerates.distinctValues hm hm' hint)
    refine ⟨_, _, constants m hm, constants m' hm', ?_, fun ctx => ?_⟩
    · simpa [memberConstant] using hvalue
    · obtain ⟨x, hx, hcomputes⟩ := computes_equality henum ctx m m'
      rw [beq_false_of_ne hvalue] at hcomputes
      exact ⟨x, hx, hcomputes⟩

/-! ### An enum that reaches the limit, and one that passes it -/

namespace Levels

def workspace : Workspace := (({} : Workspace).newTable.2.newProgram "levels" ⟨0⟩ []).2

/-- `ground, roof = 2147483646, sky, cellar = -1` -/
def items : List (String × Option Expr) :=
  [("ground", none), ("roof", some (.int 2147483646)), ("sky", none), ("cellar", some (.unary .neg (.int 1)))]

def level : Ty :=
  .enum 5 "Level" [⟨"ground", 0⟩, ⟨"roof", 2147483646⟩, ⟨"sky", 2147483647⟩, ⟨"cellar", -1⟩]

theorem declared : workspace.declareEnum ⟨0⟩ ⟨0⟩ "Level" items =
    (.ok level, (workspace.declareEnum ⟨0⟩ ⟨0⟩ "Level" items).2) := rfl

/-- `pit = -2147483648, sky = 2147483647, beyond` -/
def beyond : List (String × Option Expr) :=
  [("pit", some (.int (-2147483648))), ("sky", some (.int 2147483647)), ("beyond", none)]

end Levels

theorem enum_members_numbered_levels :
    (Levels.workspace.declareEnum ⟨0⟩ ⟨0⟩ "Level" Levels.items).1 = .ok Levels.level ∧
      (Levels.workspace.declareEnum ⟨0⟩ ⟨0⟩ "Level" Levels.items).2.ShowsAs ⟨0⟩ Levels.level "sky" 2147483647 ∧
      (Levels.workspace.declareEnum ⟨0⟩ ⟨0⟩ "Level" Levels.items).2.Differ ⟨0⟩ Levels.level "ground" "cellar" := by
  obtain ⟨-, -, -, shows, differ⟩ :=
    enum_members_numbered (w := Levels.workspace) (p := ⟨0⟩) (by decide) Levels.declared
  refine ⟨rfl, ?_, ?_⟩
  · obtain ⟨m, hm, -, -, -, hshows, -⟩ := shows 2 _ rfl
    cases hm
    exact hshows
  · exact differ (by decide) ⟨"ground", 0⟩ (by decide) ⟨"cellar", -1⟩ (by decide) (by decide)

/-- An item that is numbered behind the largest integer is numbered beyond it, and at run time
it is the smallest integer and equal to another member. -/
theorem enum_member_comes_round :
    ∃ t w' c c', Levels.workspace.declareEnum ⟨0⟩ ⟨0⟩ "Level" Levels.beyond = (.ok t, w') ∧
      t.memberValue? "beyond" = some 2147483648 ∧ w'.enumConstant ⟨0⟩ t "beyond" = .ok c ∧
      w'.enumConstant ⟨0⟩ t "pit" = .ok c' ∧ c.value.toInt.toInt = -2147483648 ∧ c.value = c'.value :=
  ⟨_, _, _, _, rfl, rfl, rfl, rfl, rfl, rfl⟩

end Workspace
end Stackwork
