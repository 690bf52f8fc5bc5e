import Stackwork.Proofs.Lang.Lines
import Stackwork.Proofs.Machine.Calls

/-!
# Lines at work

What each line of generated code does wherever the code runs: it gets the machine behind
itself, with one slot pushed, some slots replaced by one, or a variable changed; jumps get it
to where they lead. Each fact is about one opcode, and the code around it does not matter.
-/
namespace Stackwork

open Machine Line

open Op (Takes)
open Machine (Live Tops execute)

variable {exe : Executable} {addressOf : Label → Nat}

/-- The branch that is taken on a condition. -/
def Opcode.branch : Bool → Opcode
  | true => .branchTrue
  | false => .branchFalse

/-- The code of some lines is at work behind the lines `front`. -/
def Behind (exe : Executable) (addressOf : Label → Nat) (all front : List (Line Label))
    (cells : List Slot) (world : World) : Situation → Config → Prop :=
  Situation.At exe (Line.code addressOf all) (Line.words front) cells world

namespace Line

variable {all front : List (Line Label)} {l : Line Label}

theorem instr?_of_initial (addressOf : Label → Nat) (hall : front ++ [l] <+: all) :
    (code addressOf all).instr? (words front) = some (Instr.make l.op l.kind) := by
  obtain ⟨back, rfl⟩ := hall
  rw [List.append_assoc]
  exact instr?_code addressOf front back l

variable {w : UInt32} {k : Kind}

theorem word?_of_initial (hall : front ++ [l] <+: all) {i : Nat}
    (hw : (l.operands addressOf (words front))[i]? = some w) :
    (code addressOf all).word? ((words front : Int) + 1 + i) = some w := by
  obtain ⟨back, rfl⟩ := hall
  rw [List.append_assoc]
  exact word?_code hw

theorem int?_of_initial (hall : front ++ [l] <+: all) (hw : l.operands addressOf (words front) = [w]) :
    (code addressOf all).int? ((words front : Int) + 1) = some w.toInt32 := by
  obtain ⟨back, rfl⟩ := hall
  rw [List.append_assoc]
  exact int?_code hw

variable {op : Opcode}

/-- A constant of two words is read back. -/
theorem double?_of_initial {v : UInt64} (addressOf : Label → Nat)
    (hall : front ++ [⟨op, k, Item.double v⟩] <+: all) :
    (code addressOf all).double? ((words front : Int) + 1) = some v := by
  have hlow : (code addressOf all).word? ((words front : Int) + 1 + (0 : Nat)) = some v.toUInt32 :=
    word?_of_initial hall rfl
  have hhigh : (code addressOf all).word? ((words front : Int) + 1 + (1 : Nat)) =
      some (v >>> 32).toUInt32 := word?_of_initial hall rfl
  rw [Int.natCast_zero, Int.add_zero] at hlow
  have hone : (words front : Int) + 1 + 1 = (words front : Int) + 1 + (1 : Nat) := rfl
  rw [Code.double?, hlow, hone, hhigh]
  exact congrArg some (joinWords_halves v)

theorem words_indexed (front : List (Line Label)) (op : Opcode) (k : Kind) (index : Int) :
    ((words front : Int) + 1 + 1) = (words (front ++ [.indexed op k index]) : Nat) := by
  simp [indexed, Int.add_assoc]

theorem int?_indexed {index : Int} (addressOf : Label → Nat) (hall : front ++ [.indexed op k index] <+: all)
    (nonneg : 0 ≤ index) (lt : index < operandLimit) :
    ∃ i : Int32, (code addressOf all).int? ((words front : Int) + 1) = some i ∧ i.toInt = index :=
  ⟨_, int?_of_initial hall rfl, toInt_ofInt_operand nonneg lt⟩

/-- The operand of a jump, for a target that can be written. -/
theorem int?_jump {i : Item Label} {target : Nat} (hall : front ++ [⟨op, .none, [i]⟩] <+: all)
    (hi : i.resolve addressOf (words front + 1) = UInt32.ofNat target) (small : target < operandLimit) :
    ∃ j : Int32, (code addressOf all).int? ((words front : Int) + 1) = some j ∧ j.toInt = target :=
  ⟨_, int?_of_initial hall (by simp [operands, Item.resolveFrom, hi]), toInt_ofNat_operand small⟩

end Line

variable {α : Type} {all front front' : List (Line Label)} {l : Line Label} {cells : List Slot}
  {w : World} {a : α} {good : α → World → Situation → Config → Prop}

variable {cells' : List Slot} {w' : World} {size : Nat} {pre : Machine → Prop} {pc : Int}

/-- A line that leads to a known position. -/
theorem Carries.of_execute (hall : front ++ [l] <+: all) (halted : w'.halted = w.halted) (need : Nat)
    (hx : ∀ σ : Situation, Takes σ.size (σ.below.length + need) (σ.Has exe cells w)
      (execute (code addressOf all) (words front + 1) σ.depth l.op l.kind)
      fun next m => next = .goto (words front' : Nat) ∧ σ.Has exe cells' w' m)
    (hgood : good a w' = Behind exe addressOf all front' cells' w') :
    Carries exe (Behind exe addressOf all front cells w) (.ok a w') good := by
  refine fun _ => ⟨need, ?_⟩
  rintro σ c ⟨running, m, result, rfl, hm⟩
  have fetch := instr?_of_initial addressOf hall
  have hstep : Takes σ.size (σ.below.length + need) (σ.Has exe cells w)
      (taskStep result (.loop (code addressOf all) (words front) σ.depth))
      fun p m => p = ([.loop (code addressOf all) (words front') σ.depth], result) ∧
        σ.Has exe cells' w' m :=
    takes_loop (fun _ h => h.halted_eq.trans running) (takes_dispatch fetch (hx σ)) (.pure fun m h => ⟨rfl, h⟩)
  refine .of_takes_eq hm hstep fun m' hm' => ?_
  rw [Eval.After, hgood]
  exact ⟨halted.trans running, m', _, rfl, hm'⟩

/-- A line that leads to a known position and needs no room. -/
theorem Carries.of_free (hall : front ++ [l] <+: all) (halted : w'.halted = w.halted)
    (hx : ∀ σ : Situation, Takes σ.size 0 (σ.Has exe cells w)
      (execute (code addressOf all) (words front + 1) σ.depth l.op l.kind)
      fun next m => next = .goto (words front' : Nat) ∧ σ.Has exe cells' w' m)
    (hgood : good a w' = Behind exe addressOf all front' cells' w') :
    Carries exe (Behind exe addressOf all front cells w) (.ok a w') good := by
  refine .of_execute hall halted 0 (fun σ => ?_) hgood
  exact (hx σ).relevel fun m h => iff_of_true (Nat.zero_le _) (h.lower.length_le : _ + 0 ≤ _)

/-- Something done before going on at a position. -/
theorem Op.Takes.goto {level : Nat} {mid : Machine → Prop} {x : Op Unit}
    (hx : Takes size level pre x fun _ => mid) {pc' : Int} (hpc : pc = pc') : Takes size level pre
      (x >>= fun _ => Pure.pure (Next.goto pc)) fun next m => next = .goto pc' ∧ mid m :=
  hx.andThen fun _ => .pure fun m h => ⟨by rw [hpc], h⟩

theorem Machine.takes_operand {code : Code} {i : Int32} {n : Int} (h : code.int? pc = some i)
    (hi : i.toInt = n) : Takes size 0 pre (operand code pc) fun a m => a = n ∧ pre m :=
  (Takes.require h).read (.pure fun _ hm => ⟨hi, hm⟩)

namespace Line

variable {all front next : List (Line Label)} {i : Item Label} {size depth : Nat} {cells : List Tagged}
  {o : Machine.Aside}

/-- What a line does when it is fetched: it takes the stack up to `level`, goes on behind the
lines `next`, and leaves the given cells. -/
def Effect (addressOf : Label → Nat) (all front : List (Line Label)) (depth : Nat) (l : Line Label)
    (size level : Nat) (cells : List Tagged) (o : Machine.Aside) (next : List (Line Label))
    (cells' : List Tagged) (o' : Machine.Aside) : Prop :=
  Takes size level (Tops size cells o)
    (execute (code addressOf all) (words front + 1) depth l.op l.kind)
    fun n m => n = .goto (words next : Nat) ∧ m.Tops size cells' o'

/-- A line that pushes a cell. -/
def PushesCell (l : Line Label) (t : Tagged) : Prop :=
  ∀ {addressOf : Label → Nat} {all front : List (Line Label)} (depth size : Nat) (cells : List Tagged)
    (o : Machine.Aside), front ++ [l] <+: all →
    l.Effect addressOf all front depth size (cells.length + 1) cells o (front ++ [l]) (cells ++ [t]) o

theorem pushesCell_pushInt (v : Int32) : (pushInt v).PushesCell (.int v) := by
  intro addressOf all front depth size cells o hall
  unfold pushInt at hall ⊢
  split
  · next h =>
    rw [h]
    exact (Machine.Cells.push _ _).goto (by simp)
  · split
    · next h =>
      rw [h]
      exact (Machine.Cells.push _ _).goto (by simp)
    · next hzero hone =>
      rw [if_neg hzero, if_neg hone] at hall
      have hw : (code addressOf all).word? ((words front : Int) + 1 + (0 : Nat)) =
          some v.toUInt32 := word?_of_initial hall rfl
      exact (Takes.require hw).read ((Machine.Cells.push _ _).goto (by simp; omega))

theorem pushesCell_pushFloat (bits : UInt64) : (pushFloat bits).PushesCell ⟨⟨bits⟩, .float⟩ := by
  intro addressOf all front depth size cells o hall
  unfold pushFloat at hall ⊢
  split
  · next h =>
    rw [h]
    exact (Machine.Cells.push _ _).goto (by simp)
  · split
    · next h =>
      rw [h]
      exact (Machine.Cells.push _ _).goto (by simp)
    · next hzero hone =>
      rw [if_neg hzero, if_neg hone] at hall
      have hv := double?_of_initial addressOf hall
      exact (Takes.require hv).read ((Machine.Cells.push _ _).goto (by simp [Item.double]; omega))

theorem pushesCell_pushObj (handle : UInt64) : (pushObj handle).PushesCell ⟨⟨handle⟩, .obj⟩ := by
  intro addressOf all front depth size cells o hall
  unfold pushObj at hall ⊢
  split
  · next h =>
    rw [h]
    exact (Machine.Cells.push _ _).goto (by simp)
  · next hzero =>
    rw [if_neg hzero] at hall
    have hv := double?_of_initial addressOf hall
    exact (Takes.require hv).read ((Machine.Cells.push _ _).goto (by simp [Item.double]; omega))

/-- A jump leads behind the lines in front of its target. -/
theorem effect_jump (hall : front ++ [⟨.jump, .none, [i]⟩] <+: all)
    (hi : i.resolve addressOf (words front + 1) = UInt32.ofNat (words next))
    (small : words next < operandLimit) :
    (⟨.jump, .none, [i]⟩ : Line Label).Effect addressOf all front depth size 0 cells o next cells o := by
  obtain ⟨j, hint, hj⟩ := int?_jump hall hi small
  exact (takes_operand hint hj).read (.pure fun m h => ⟨rfl, h⟩)

/-- A branch is taken on its condition. -/
theorem effect_branch {b : Bool} (hall : front ++ [⟨.branch b, .none, [i]⟩] <+: all)
    (hi : i.resolve addressOf (words front + 1) = UInt32.ofNat (words next))
    (small : words next < operandLimit) (x : Slot) :
    (⟨.branch b, .none, [i]⟩ : Line Label).Effect addressOf all front depth size 0
      (cells ++ [⟨x, .int⟩]) o (if x.toBool = b then next else front ++ [⟨.branch b, .none, [i]⟩]) cells o := by
  obtain ⟨j, hint, hj⟩ := int?_jump hall hi small
  cases b <;>
    refine (takes_operand hint hj).read ((Machine.Cells.popInt x).read (.pure fun m h => ⟨?_, h⟩)) <;>
    by_cases h : x.toInt = 0 <;> simp [Slot.toBool, h, Int.add_assoc]

end Line

/-- What a line does to cells it does to slots. -/
theorem Line.Effect.takes {size level depth : Nat} {cs cs' : List Tagged} {base : Int} {frames : Array Frame}
    (h : ∀ o, l.Effect addressOf all front depth size level cs o front' cs' o) :
    Takes size level (Live exe size (cs.map (·.slot)) base frames w)
      (execute (code addressOf all) (words front + 1) depth l.op l.kind)
      fun next m => next = .goto (words front' : Nat) ∧
        m.Live exe size (cs'.map (·.slot)) base frames w := by
  have h' (o : Machine.Aside) (_ : o.Plain exe base frames w) : Takes size level (Tops size cs o) _ _ := h o
  exact takes_of_cells cs ⟨by simp, rfl, rfl⟩ h' fun o a m ho h => ⟨h.1, h.2.holds ho ⟨by simp, rfl⟩⟩

/-- A line that removes cells of whatever kinds. -/
theorem Carries.of_effect (hall : front ++ [l] <+: all) (above : List Tagged)
    (hx : ∀ (size depth : Nat) (cs : List Tagged) (o : Machine.Aside),
      l.Effect addressOf all front depth size 0 (cs ++ above) o front' cs o)
    (hgood : good a w = Behind exe addressOf all front' cells w) :
    Carries exe (Behind exe addressOf all front (cells ++ above.map (·.slot)) w) (.ok a w) good := by
  refine .of_free hall rfl (fun σ => ?_) hgood
  simpa using Line.Effect.takes fun o => hx σ.size σ.depth (alike .none (σ.below ++ cells)) o

theorem Carries.push {t : Tagged} (hl : l.PushesCell t) (hall : front ++ [l] <+: all)
    (hgood : good a w = Behind exe addressOf all (front ++ [l]) (cells ++ [t.slot]) w) :
    Carries exe (Behind exe addressOf all front cells w) (.ok a w) good := by
  refine .of_execute hall rfl (cells.length + 1) (fun σ => ?_) hgood
  simpa [Nat.add_assoc] using
    Line.Effect.takes fun o => hl σ.depth σ.size (alike .none (σ.below ++ cells)) o hall

section

variable {α : Type} {all front : List (Line Label)} {w : World} {cells : List Slot}

variable {k : Kind} {a : α} {good : α → World → Situation → Config → Prop} {i : Item Label}
  {front' : List (Line Label)}

variable {v : Slot} {env : Env} {index : Int}

/-- A line that puts one slot in the place of others. -/
theorem Carries.replace {op : Opcode} (hall : front ++ [⟨op, k, []⟩] <+: all) {above : List Slot} {x : Op Unit}
    (hexec : ∀ code pc depth, execute code pc depth op k = x >>= fun _ => pure (.goto pc))
    (hx : ∀ (size : Nat) (cells : List Slot) (base : Int) (frames : Array Frame),
      Takes size 0 (Live exe size (cells ++ above) base frames w) x fun _ => Live exe size (cells ++ [v]) base frames w)
    (hgood : good a w = Behind exe addressOf all (front ++ [⟨op, k, []⟩]) (cells ++ [v]) w) :
    Carries exe (Behind exe addressOf all front (cells ++ above) w) (.ok a w) good := by
  refine .of_free hall rfl (fun σ => ?_) hgood
  rw [hexec, σ.has_append, σ.has_append]
  exact (hx σ.size (σ.below ++ cells) σ.below.length σ.frames).goto (by simp)

theorem Carries.unary {op : UnaryCode} (hall : front ++ [⟨.unary op, k, []⟩] <+: all) (x : Slot) :
    Carries exe (Behind exe addressOf all front (cells ++ [x]) w) (Eval.require (op.on? k x) w)
      fun t w => Behind exe addressOf all (front ++ [⟨.unary op, k, []⟩]) (cells ++ [t.slot]) w := by
  cases h : op.on? k x with
  | none => exact fun settled => by cases settled
  | some t =>
    exact Carries.replace hall (fun _ _ _ => rfl)
      (fun size cells base frames => takes_unary h) rfl

theorem Carries.binary {op : BinaryCode} (hall : front ++ [⟨.binary op, k, []⟩] <+: all) (x y : Slot) :
    Carries exe (Behind exe addressOf all front (cells ++ [x] ++ [y]) w)
      (Eval.require (op.on? k x y) w)
      fun t w => Behind exe addressOf all (front ++ [⟨.binary op, k, []⟩]) (cells ++ [t.slot]) w := by
  cases h : op.on? k x y with
  | none => exact fun settled => by cases settled
  | some t =>
    rw [List.append_assoc]
    refine Carries.replace hall (fun _ _ _ => rfl) (fun size cells base frames => ?_) rfl
    rw [← List.append_assoc]
    exact takes_binary h

theorem Carries.select (hall : front ++ [⟨.select, k, []⟩] <+: all) (c x y : Slot) :
    Carries exe (Behind exe addressOf all front (cells ++ [c] ++ [x] ++ [y]) w)
      (.ok (if c.toBool then x else y) w)
      fun v w => Behind exe addressOf all (front ++ [⟨.select, k, []⟩]) (cells ++ [v]) w := by
  rw [List.append_assoc, List.append_assoc]
  refine Carries.replace hall (fun _ _ _ => rfl) (fun size cells base frames => ?_) rfl
  rw [← List.append_assoc, ← List.append_assoc]
  exact takes_select k c x y

/-- A jump leads behind the lines in front of its target. -/
theorem Carries.jump (hall : front ++ [⟨.jump, .none, [i]⟩] <+: all)
    (hi : i.resolve addressOf (words front + 1) = UInt32.ofNat (words front'))
    (small : words front' < operandLimit)
    (hgood : good a w = Behind exe addressOf all front' cells w) :
    Carries exe (Behind exe addressOf all front cells w) (.ok a w) good := by
  rw [← List.append_nil cells]
  exact .of_effect hall [] (fun _ _ _ _ => by simpa using effect_jump hall hi small) hgood

/-- A branch leads behind the lines in front of its target, or behind itself. -/
theorem Carries.branch {b : Bool} (hall : front ++ [⟨.branch b, .none, [i]⟩] <+: all)
    (hi : i.resolve addressOf (words front + 1) = UInt32.ofNat (words front'))
    (small : words front' < operandLimit) (x : Slot)
    (hgood : good a w = Behind exe addressOf all
      (if x.toBool = b then front' else front ++ [⟨.branch b, .none, [i]⟩]) cells w) :
    Carries exe (Behind exe addressOf all front (cells ++ [x]) w) (.ok a w) good :=
  .of_effect hall [⟨x, .int⟩] (fun _ _ _ _ => effect_branch hall hi small x) hgood

theorem Carries.drop (hall : front ++ [⟨.pop, .none, []⟩] <+: all) (x : Slot)
    (hgood : good a w = Behind exe addressOf all (front ++ [⟨.pop, .none, []⟩]) cells w) :
    Carries exe (Behind exe addressOf all front (cells ++ [x]) w) (.ok a w) good := by
  refine .of_free hall rfl (fun σ => ?_) hgood
  rw [σ.has_append]
  refine Takes.goto (.modify fun m h => ?_) (by simp)
  have hsp : m.sp - 1 = (σ.below ++ cells).length := by
    rw [h.sp, List.length_append, List.length_singleton]
    omega
  exact hsp ▸ h.lower.setSp _

/-- A position in the cells above the base. -/
theorem Machine.at?_toArray {xs : List Slot} {i : Int} {x : Slot} (h : at? xs.toArray i = some x) :
    0 ≤ i ∧ xs[i.toNat]? = some x := by
  unfold at? at h
  split at h
  · next nonneg => exact ⟨nonneg, by simpa using h⟩
  · cases h

/-- Reading a variable whose number can be written. -/
theorem Carries.load {v : Variable} (nonneg : 0 ≤ v.index) (lt : v.index < operandLimit)
    (hall : front ++ [.indexed v.loadCode v.kind v.index] <+: all) :
    Carries exe (Behind exe addressOf all front (env.locals ++ cells) w) (env.read v w)
      fun x w => Behind exe addressOf all (front ++ [.indexed v.loadCode v.kind v.index])
        (env.locals ++ cells ++ [x]) w := by
  obtain ⟨j, hint, hj⟩ := int?_indexed addressOf hall nonneg lt
  have hnext := words_indexed front v.loadCode v.kind v.index
  cases hg : v.isGlobal with
  | true =>
    have hread : env.read v w = Eval.require (at? w.globals v.index) w := by
      simp only [Env.read, hg, if_true]
      rfl
    rw [hread]
    cases hx : at? w.globals v.index with
    | none => exact fun settled => by cases settled
    | some x =>
      refine .of_execute hall rfl ((env.locals ++ cells).length + 1) (fun σ => ?_) rfl
      simp only [indexed, Variable.loadCode, hg, if_true] at hnext ⊢
      rw [← Nat.add_assoc, ← List.length_append, σ.has_append _ _ [x]]
      exact (takes_operand hint hj).read ((takes_readHeap hx v.kind).read
        ((takes_push x v.kind).goto hnext))
  | false =>
    have hread : env.read v w = Eval.require (at? env.locals.toArray v.index) w := by
      simp only [Env.read, hg]
      rfl
    rw [hread]
    cases hx : at? env.locals.toArray v.index with
    | none => exact fun settled => by cases settled
    | some x =>
      obtain ⟨-, hlocal⟩ := at?_toArray hx
      obtain ⟨hlt, -⟩ := List.getElem?_eq_some_iff.1 hlocal
      refine .of_execute hall rfl ((env.locals ++ cells).length + 1) (fun σ => ?_) rfl
      simp only [indexed, Variable.loadCode, hg, Bool.false_eq_true, if_false] at hnext ⊢
      rw [← Nat.add_assoc, ← List.length_append, σ.has_append _ _ [x]]
      refine .get fun m h => (takes_operand hint hj).read ?_
      have hslot : m.base + v.index = (σ.below.length + v.index.toNat : Nat) := by
        rw [h.base]
        omega
      rw [hslot]
      refine (takes_readStack ?_ v.kind).read ((takes_push x v.kind).goto hnext)
      rw [List.getElem?_append_right (by omega), Nat.add_sub_cancel_left,
        List.getElem?_append_left hlt, hlocal]

/-- Writing a variable whose number can be written. -/
theorem Carries.store {v : Variable} (nonneg : 0 ≤ v.index) (lt : v.index < operandLimit)
    (hall : front ++ [.indexed v.storeCode v.kind v.index] <+: all) (x : Slot) :
    Carries exe (Behind exe addressOf all front (env.locals ++ [x]) w) (env.assign v x w)
      fun locals w => Behind exe addressOf all (front ++ [.indexed v.storeCode v.kind v.index])
        locals w := by
  obtain ⟨j, hint, hj⟩ := int?_indexed addressOf hall nonneg lt
  have hnext := words_indexed front v.storeCode v.kind v.index
  cases hg : v.isGlobal with
  | true =>
    simp only [Variable.storeCode, hg, if_true] at hall hnext ⊢
    cases hset : w.setGlobal? v.index x with
    | none =>
      have hassign : env.assign v x w = .error .undefined w := by
        simp only [Env.assign, hg, if_true]
        change EStateM.bind (Eval.require (w.setGlobal? v.index x)) _ w = _
        rw [hset]
        rfl
      rw [hassign]
      exact fun settled => by cases settled
    | some w' =>
      have hassign : env.assign v x w = .ok env.locals w' := by
        simp only [Env.assign, hg, if_true]
        change EStateM.bind (Eval.require (w.setGlobal? v.index x)) _ w = _
        rw [hset]
        rfl
      have hhalted : w'.halted = w.halted := by
        unfold World.setGlobal? at hset
        split at hset <;> cases hset
        rfl
      rw [hassign]
      refine .of_free hall hhalted (fun σ => ?_) rfl
      rw [σ.has_append]
      exact (takes_operand hint hj).read ((takes_pop x v.kind).read
        ((takes_writeHeap hset v.kind).goto hnext))
  | false =>
    simp only [Variable.storeCode, hg, Bool.false_eq_true, if_false] at hall hnext ⊢
    by_cases hlt : v.index < env.locals.length
    · have hassign : env.assign v x w = .ok (env.locals.set v.index.toNat x) w := by
        simp only [Env.assign, hg, Bool.false_eq_true, if_false, nonneg, hlt, and_self, if_true]
        rfl
      rw [hassign]
      refine .of_free hall rfl (fun σ => ?_) rfl
      rw [σ.has_append]
      refine .get fun m h => (takes_operand hint hj).read ((takes_pop x v.kind).read ?_)
      have hslot : m.base + v.index = (σ.below.length + v.index.toNat : Nat) := by
        rw [h.base]
        omega
      rw [hslot]
      have hcells : σ.below ++ env.locals.set v.index.toNat x =
          (σ.below ++ env.locals).set (σ.below.length + v.index.toNat) x := by
        rw [List.set_append_right _ _ (Nat.le_add_right _ _), Nat.add_sub_cancel_left]
      have hslot' : σ.below.length + v.index.toNat < (σ.below ++ env.locals).length := by
        rw [List.length_append]
        omega
      refine ((takes_overwrite hslot' x v.kind).goto hnext).mono (fun m h => h) ?_
      rintro next m' ⟨hgoto, h'⟩
      refine ⟨hgoto, ?_⟩
      rw [Situation.Has, hcells]
      simpa only [Live, List.length_set] using h'
    · have hassign : env.assign v x w = .error .undefined w := by
        simp only [Env.assign, hg, Bool.false_eq_true, if_false, nonneg, hlt, and_false]
        rfl
      rw [hassign]
      exact fun settled => by cases settled

/-- A line that calls a routine. -/
theorem Carries.calling (hall : front ++ [l] <+: all) {call : Int → List Slot → Eval Slot}
    (sim : Simulates exe call) {args start : List Slot}
    (hx : ∀ (σ : Situation) {level : Nat} {post : Next → Machine → Prop},
      Takes σ.size level (σ.Has exe (cells ++ args) w)
        (callRoutine (code addressOf all) (words (front ++ [l]) : Nat) index) post →
      Takes σ.size level (σ.Has exe start w)
        (execute (code addressOf all) (words front + 1) σ.depth l.op l.kind) post) :
    Carries exe (Behind exe addressOf all front start w) (call index args w)
      fun v w => Behind exe addressOf all (front ++ [l]) (cells ++ [v]) w := by
  intro settled
  obtain ⟨r, found, accepts, carries⟩ := sim index args w settled
  obtain ⟨inner, hinner⟩ := carries settled
  refine ⟨max (cells.length + r.frameSize) (cells.length + inner), ?_⟩
  rintro σ c ⟨running, m, result, rfl, hm⟩
  have fetch := instr?_of_initial addressOf hall
  have hopened : Config.Leads _ _ ⟨m, _, result⟩ _ :=
    Situation.leads_opened found accepts running hm fun h => takes_dispatch fetch (hx σ h)
  rw [← Nat.add_max_add_left, ← Nat.add_assoc, ← Nat.add_assoc, ← List.length_append]
  refine hopened.bind fun c' hc' => (hinner _ c' hc').mono fun c'' hafter => ?_
  cases hcall : call index args w with
  | ok v w' =>
    rw [hcall] at hafter
    exact Situation.Back.of_called hafter
  | error e w' =>
    rw [hcall] at hafter
    exact Situation.Out.of_called hafter

/-- A call of a routine by its number. -/
theorem Carries.call (hall : front ++ [.indexed .call .none index] <+: all) (nonneg : 0 ≤ index)
    (lt : index < operandLimit) {call : Int → List Slot → Eval Slot} (sim : Simulates exe call)
    (args : List Slot) : Carries exe (Behind exe addressOf all front (cells ++ args) w) (call index args w)
      fun v w => Behind exe addressOf all (front ++ [.indexed .call .none index]) (cells ++ [v]) w := by
  obtain ⟨j, hint, hj⟩ := int?_indexed addressOf hall nonneg lt
  refine .calling hall sim fun σ level post h => ?_
  rw [← words_indexed] at h
  exact (takes_operand hint hj).read h

/-- A call of the routine whose number is on top. -/
theorem Carries.callValue (hall : front ++ [⟨.callR, .none, []⟩] <+: all)
    {call : Int → List Slot → Eval Slot} (sim : Simulates exe call) (args : List Slot) (f : Slot) :
    Carries exe (Behind exe addressOf all front (cells ++ args ++ [f]) w) (call f.toInt.toInt args w)
      fun v w => Behind exe addressOf all (front ++ [⟨.callR, .none, []⟩]) (cells ++ [v]) w := by
  have hnext : ((words front : Int) + 1) = (words (front ++ [⟨.callR, .none, []⟩]) : Nat) := by simp
  refine .calling hall sim fun σ level post h => ?_
  rw [← hnext] at h
  rw [σ.has_append]
  exact (takes_popInt f).read h

/-- A return from the code, by a line or behind the last one. -/
theorem Carries.return (rest : List Slot)
    (hpop : ∀ σ : Situation, Takes σ.size 0 (σ.Has exe cells w) (popResult k)
      fun a m => a = v ∧ σ.Has exe rest w m)
    (hdispatch : ∀ (σ : Situation) {level : Nat} {post : Next → Machine → Prop},
      Takes σ.size level (σ.Has exe cells w) (returnFrom k σ.depth) post →
      Takes σ.size level (σ.Has exe cells w) (dispatch (code addressOf all) (words front) σ.depth) post)
    (hgood : good a w = Situation.Back exe v w) :
    Carries exe (Behind exe addressOf all front cells w) (.ok a w) good := by
  refine fun _ => ⟨1, ?_⟩
  rintro σ c ⟨running, m, result, rfl, hm⟩
  rw [Eval.After, hgood]
  exact Situation.leads_return running hm (hpop σ) (hdispatch σ)

/-- A line that returns what is on top. -/
theorem Carries.retValue (hk : k ≠ .none) (hall : front ++ [⟨.ret, k, []⟩] <+: all) (v : Slot)
    (hgood : good a w = Situation.Back exe v w) :
    Carries exe (Behind exe addressOf all front (cells ++ [v]) w) (.ok a w) good := by
  refine .return (k := k) cells (fun σ => ?_) (fun σ level post h => ?_) hgood
  · rw [popResult, if_neg hk, σ.has_append]
    exact takes_pop v k
  · exact takes_dispatch (instr?_of_initial addressOf hall) h

/-- A line that returns nothing. -/
theorem Carries.retNothing (hall : front ++ [⟨.ret, .none, []⟩] <+: all)
    (hgood : good a w = Situation.Back exe .zero w) :
    Carries exe (Behind exe addressOf all front cells w) (.ok a w) good := by
  refine .return (k := .none) cells (fun σ => .pure fun m h => ⟨rfl, h⟩) (fun σ level post h => ?_) hgood
  exact takes_dispatch (instr?_of_initial addressOf hall) h

/-- Behind the last line the code returns nothing. -/
theorem Carries.fallOff (hgood : good a w = Situation.Back exe .zero w) :
    Carries exe (Behind exe addressOf all all cells w) (.ok a w) good := by
  refine .return (k := .none) cells (fun σ => .pure fun m h => ⟨rfl, h⟩) (fun σ level post h => ?_) hgood
  unfold dispatch
  rw [if_neg (by simp)]
  exact h

/-- A line that halts the program. -/
theorem Carries.halt (hall : front ++ [⟨.halt, .none, []⟩] <+: all) :
    Carries exe (Behind exe addressOf all front cells w) (Eval.halt w) good := by
  refine fun _ => ⟨0, ?_⟩
  rintro σ c ⟨running, m, result, rfl, hm⟩
  have fetch := instr?_of_initial addressOf hall
  have hexec : Takes σ.size 0 (σ.Has exe cells w)
      (execute (code addressOf all) (words front + 1) σ.depth .halt .none) fun next m =>
        next = .leave ∧ m.Holds exe σ.size (σ.below ++ cells) (σ.below ++ cells).length
          σ.below.length (σ.outer.take σ.depth) { w with halted := true } := by
    refine (Takes.modify fun m h => ?_).after fun _ => .pure fun m h => ⟨rfl, h⟩
    obtain rfl := h.world
    rw [← σ.take_frames, ← h.frames]
    exact { h with tagged := h.tagged, frames := rfl, world := rfl }
  have hloop : Takes σ.size 0 (σ.Has exe cells w)
      (taskStep result (.loop (code addressOf all) (words front) σ.depth))
      fun p m => p = ([], result) ∧ m.Holds exe σ.size (σ.below ++ cells) (σ.below ++ cells).length
        σ.below.length (σ.outer.take σ.depth) { w with halted := true } :=
    takes_loop (fun _ h => h.halted_eq.trans running) (takes_dispatch fetch hexec) (.pure fun m h => ⟨rfl, h⟩)
  have hroom := hm.lower.length_le
  exact .of_takes_eq hm (hloop.relevel fun m _ => iff_of_true (Nat.zero_le _) hroom) fun m' hm' =>
    ⟨rfl, m', _, cells, _, _, rfl, hm'⟩

end
end Stackwork
