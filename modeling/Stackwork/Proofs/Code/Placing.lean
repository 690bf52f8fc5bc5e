import Mathlib.Logic.ExistsUnique
import Stackwork.Code.Builder
import Stackwork.Proofs.Code.Grammar

/-!
# Labels and their addresses

What comes of any calls on a builder, refused ones among them. Code can be built exactly when
each label in use has been placed. It then has in every place what was written there, and for
a label the size of the builder at the time it was placed, whether the reference came before
or after; and whatever is written later, the code stays at the front of what is built then.
-/
namespace Stackwork

open Array
open Item (resolveFrom resolve)

theorem getElem?_append_eq_some {α : Type} {xs ys : List α} {i : Nat} {y : α} :
    (xs ++ ys)[i]? = some y ↔ xs[i]? = some y ∨ ∃ j, ys[j]? = some y ∧ i = xs.length + j := by
  rw [List.getElem?_append]
  split
  · next h =>
    refine ⟨.inl, ?_⟩
    rintro (hi | ⟨j, -, rfl⟩)
    · exact hi
    · omega
  · next h =>
    refine ⟨fun hi => .inr ⟨_, hi, by omega⟩, ?_⟩
    rintro (hi | ⟨j, hj, rfl⟩)
    · exact absurd (List.getElem?_eq_some_iff.1 hi).1 h
    · rwa [Nat.add_sub_cancel_left]

namespace Item

variable {L : Type} (addressOf : L → Nat)

theorem getElem?_resolveFrom (pos : Nat) (items : List (Item L)) (i : Nat) :
    (resolveFrom addressOf pos items)[i]? = items[i]?.map (resolve addressOf (pos + i)) := by
  induction items generalizing pos i with
  | nil => rfl
  | cons item rest ih =>
    cases i with
    | zero => rfl
    | succ i =>
      rw [resolveFrom, List.getElem?_cons_succ, List.getElem?_cons_succ, ih, Nat.add_right_comm, Nat.add_assoc]

end Item

namespace Builder

/-- The address of a label, zero as long as there is none. -/
def addressOf (b : Builder) (l : BuilderLabel) : Nat := (b.label l).address.getD 0

/-- A label at the end of the items. -/
def settle (b : Builder) (l : BuilderLabel) : Builder :=
  { b with labels := b.labels.modify l.index ({ · with address := some b.size }) }

variable {b : Builder} {l : BuilderLabel}

theorem place_of_unplaced (h : (b.label l).address = none) : b.place l = .ok (b.settle l) :=
  if_neg (by rw [h]; exact Bool.false_ne_true)

theorem place_of_placed {a : Nat} (h : (b.label l).address = some a) :
    b.place l = .error (.alreadyPlaced (b.label l).name) := if_pos (by rw [h]; rfl)

theorem address_settle (known : l.index < b.labels.size) (m : BuilderLabel) :
    ((b.settle l).label m).address = if m = l then some b.size else (b.label m).address := by
  simp only [settle, label, getD_eq_getD_getElem?, getElem?_modify]
  by_cases heq : m = l
  · rw [if_pos heq, if_pos (heq ▸ rfl), heq, getElem?_eq_getElem known]
    rfl
  · rw [if_neg heq, if_neg fun h => heq (by cases m; cases l; exact congrArg _ h.symm)]

theorem address_newLabel (b : Builder) (name : String) (m : BuilderLabel) :
    ((b.newLabel name).2.label m).address = (b.label m).address := by
  simp only [newLabel, label, getD_eq_getD_getElem?, getElem?_push]
  split
  · next hm =>
    rw [hm, getElem?_eq_none (Nat.le_refl _)]
    rfl
  · rfl

/-- Building goes well when every label in use has an address. -/
theorem build_eq_ok_iff (known : ∀ l, .address l ∈ b.items → l.index < b.labels.size) {code : Code} :
    b.build = .ok code ↔ code = .ofList (resolveFrom b.addressOf 0 b.items) ∧
      ∀ l, .address l ∈ b.items → (b.label l).address ≠ none := by
  have hmem (l : BuilderLabel) : l ∈ b.dangling ↔ (b.label l).address = none ∧ .address l ∈ b.items := by
    simp only [dangling, List.mem_filter, List.mem_map, List.mem_range, Bool.and_eq_true,
      Option.isNone_iff_eq_none, refersTo, List.contains_iff_mem]
    exact and_iff_right_of_imp fun h => ⟨l.index, known l h.2, rfl⟩
  rw [build]
  cases hd : b.dangling with
  | nil =>
    have all (l : BuilderLabel) (hl : .address l ∈ b.items) : (b.label l).address ≠ none :=
      fun hnone => List.not_mem_nil (hd ▸ (hmem l).2 ⟨hnone, hl⟩)
    exact ⟨fun h => ⟨(Except.ok.inj h).symm, all⟩, fun h => congrArg Except.ok h.1.symm⟩
  | cons l rest =>
    obtain ⟨hnone, hl⟩ := (hmem l).1 (hd ▸ List.mem_cons_self)
    exact ⟨fun h => (by cases h), fun h => absurd hnone (h.2 l hl)⟩

/-- The calls on a builder. -/
inductive Call where
  | emit (op : UInt8) (k : Kind)
  | int (v : Int32)
  | double (v : UInt64)
  | pushInt (v : Int32)
  | pushFloat (bits : UInt64)
  | pushObj (handle : UInt64)
  | indexed (op : UInt8) (k : Kind) (index : Int)
  | newLabel (name : String)
  | place (l : BuilderLabel)
  | jump (op : UInt8) (l : BuilderLabel)
  | address (l : BuilderLabel)
deriving DecidableEq

namespace Call

def run (b : Builder) : Call → Except BuilderError Builder
  | emit op k => b.emit op k
  | int v => .ok (b.emitInt v)
  | double v => .ok (b.emitDouble v)
  | pushInt v => .ok (b.pushInt v)
  | pushFloat bits => .ok (b.pushFloat bits)
  | pushObj handle => .ok (b.pushObj handle)
  | indexed op k index => b.emitIndexed op k index
  | newLabel name => .ok (b.newLabel name).2
  | place l => b.place l
  | jump op l => b.emitJump op l
  | address l => .ok (b.emitAddress l)

/-- The label a call is about. -/
def label? : Call → Option BuilderLabel
  | place l | jump _ l | address l => some l
  | _ => none

/-- The words that a call adds, as long as it is not refused. -/
def items : Call → List (Item BuilderLabel)
  | emit op k => [.word (Instr.ofBytes op k).word]
  | int v => [.int v]
  | double v => Item.double v
  | pushInt v => Item.pushInt v
  | pushFloat bits => Item.pushFloat bits
  | pushObj handle => Item.pushObj handle
  | indexed op k index => [.word (Instr.ofBytes op k).word, .int (Int32.ofInt index)]
  | newLabel _ | place _ => []
  | jump op l => [.word (Instr.ofBytes op .none).word, .address l]
  | address l => [.address l]

/-- Calls that make sense behind earlier ones: for defined instructions and for jumps, and not for placing a label
once more. -/
def Allowed (earlier : List Call) : Call → Prop
  | emit op k | indexed op k _ => (Instr.ofBytes op k).valid
  | jump op _ => (Opcode.ofCode? op).any Opcode.isJump
  | place l => place l ∉ earlier
  | _ => True

end Call

/-- What a call leaves, whether it went through or was refused. -/
def step (b : Builder) (c : Call) : Builder := (c.run b).toOption.getD b

/-- What calls leave, the latest of them first. -/
def after : List Call → Builder
  | [] => {}
  | c :: earlier => (after earlier).step c

/-- The calls are about labels that were handed out before. -/
def Handed : List Call → Prop
  | [] => True
  | c :: earlier => Handed earlier ∧ ∀ l ∈ c.label?, l.index < (after earlier).labels.size

/-- What was written at a position. -/
def Written : List Call → Nat → Item BuilderLabel → Prop
  | [], _, _ => False
  | c :: earlier, pos, item => Written earlier pos item ∨
    c.Allowed earlier ∧ ∃ i, c.items[i]? = some item ∧ pos = (after earlier).size + i

/-- The size when a label was first placed. -/
def Placed : List Call → BuilderLabel → Nat → Prop
  | [], _, _ => False
  | c :: earlier, l, a => Placed earlier l a ∨ c = .place l ∧ .place l ∉ earlier ∧ a = (after earlier).size

variable {calls more : List Call} {pos : Nat} {item : Item BuilderLabel} {a : Nat}

theorem exists_placed_iff : (∃ a, Placed calls l a) ↔ .place l ∈ calls := by
  induction calls with
  | nil => simp [Placed]
  | cons c earlier ih =>
    simp only [Placed, exists_or, ih, List.mem_cons]
    by_cases h : .place l ∈ earlier <;> simp [h, eq_comm]

theorem Written.append (h : Written calls pos item) (more : List Call) : Written (more ++ calls) pos item := by
  induction more with
  | nil => exact h
  | cons c more ih => exact .inl ih

theorem Placed.append (h : Placed calls l a) (more : List Call) : Placed (more ++ calls) l a := by
  induction more with
  | nil => exact h
  | cons c more ih => exact .inl ih

/-- A call that makes sense adds its items behind those there are and gives no label an address but the one it
places, and any other call is refused. -/
theorem Call.run_spec (c : Call) (earlier : List Call) (known : ∀ l ∈ c.label?, l.index < b.labels.size)
    (unplaced : ∀ l, (b.label l).address = none ↔ .place l ∉ earlier) :
    (c.Allowed earlier ∧ ∃ b', c.run b = .ok b' ∧ b'.items = b.items ++ c.items ∧ b.labels.size ≤ b'.labels.size ∧
        ∀ l, (b'.label l).address = if c = .place l then some b.size else (b.label l).address) ∨
      ¬ c.Allowed earlier ∧ ∃ e, c.run b = .error e := by
  have wrote (hplace : ∀ l, c ≠ .place l) : b.labels.size ≤ (b.append c.items).labels.size ∧
      ∀ l, ((b.append c.items).label l).address = if c = .place l then some b.size else (b.label l).address :=
    ⟨Nat.le_refl _, fun l => (if_neg (hplace l)).symm⟩
  cases c with
  | int | double | pushInt | pushFloat | pushObj | address => exact .inl ⟨trivial, _, rfl, rfl, wrote (by simp)⟩
  | emit op k =>
    by_cases valid : (Instr.ofBytes op k).valid
    · exact .inl ⟨valid, _, if_pos valid, rfl, wrote (by simp)⟩
    · exact .inr ⟨valid, _, if_neg valid⟩
  | indexed op k index =>
    by_cases valid : (Instr.ofBytes op k).valid
    · refine .inl ⟨valid, b.append _, ?_, rfl, wrote (by simp)⟩
      rw [run, emitIndexed, Builder.emit, if_pos valid]
      exact congrArg (fun items => Except.ok { b with items }) (List.append_assoc ..)
    · refine .inr ⟨valid, .undefinedInstr (Instr.ofBytes op k) k, ?_⟩
      rw [run, emitIndexed, Builder.emit, if_neg valid]
      rfl
  | newLabel name =>
    refine .inl ⟨trivial, _, rfl, (List.append_nil _).symm, (size_push _).symm ▸ Nat.le_succ _, fun l => ?_⟩
    exact (b.address_newLabel name l).trans (if_neg (by simp)).symm
  | place l =>
    cases hl : (b.label l).address with
    | none =>
      refine .inl ⟨(unplaced l).1 hl, _, place_of_unplaced hl, (List.append_nil _).symm,
        Nat.le_of_eq (size_modify ..).symm, fun m => ?_⟩
      rw [address_settle (known l rfl)]
      simp [eq_comm]
    | some a =>
      refine .inr ⟨fun hnew => ?_, _, place_of_placed hl⟩
      rw [(unplaced l).2 hnew] at hl
      cases hl
  | jump op l =>
    cases hop : Opcode.ofCode? op with
    | none => exact .inr ⟨by simp [Allowed, hop], .notAJump _, by simp only [run, emitJump, hop]; rfl⟩
    | some o =>
      by_cases jumps : o.isJump
      · refine .inl ⟨by simp [Allowed, hop, jumps], _, ?_, rfl, wrote (by simp)⟩
        obtain rfl := Opcode.code_of_ofCode? hop
        simp only [run, emitJump, hop, jumps]
        rfl
      · exact .inr ⟨by simp [Allowed, hop, jumps], .notAJump (Instr.make o .none), by
          simp [run, emitJump, hop, jumps]⟩

/-- A call adds plain words and references to the label it is about. -/
theorem Call.word_or_address {c : Call} (h : item ∈ c.items) :
    (∃ w, item = .word w) ∨ ∃ l ∈ c.label?, item = .address l := by
  cases c <;> grind [items, label?, Item.pushInt, Item.pushFloat, Item.pushObj, Item.instr, Item.int, Item.double]

/-- What a builder has is told from the calls. -/
structure Tells (calls : List Call) (b : Builder) : Prop where
  items : ∀ pos item, b.items[pos]? = some item ↔ Written calls pos item
  address : ∀ l a, (b.label l).address = some a ↔ Placed calls l a
  le_size : ∀ l a, (b.label l).address = some a → a ≤ b.size
  known : ∀ l, .address l ∈ b.items → l.index < b.labels.size

theorem Tells.unplaced (h : Tells calls b) (l : BuilderLabel) : (b.label l).address = none ↔ .place l ∉ calls := by
  rw [← exists_placed_iff, Option.eq_none_iff_forall_ne_some, not_exists]
  exact forall_congr' fun a => not_congr (h.address l a)

theorem Handed.tells (h : Handed calls) : Tells calls (after calls) := by
  induction calls with
  | nil =>
    refine ⟨fun _ _ => ⟨fun h => ?_, False.elim⟩, fun _ _ => ⟨fun h => ?_, False.elim⟩, fun _ _ h => ?_, fun _ h => ?_⟩
    all_goals cases h
  | cons c earlier ih =>
    have told := ih h.1
    obtain ⟨allowed, b', hb', hitems, hlabels, haddress⟩ | ⟨refused, e, he⟩ := c.run_spec earlier h.2 told.unplaced
    · have hsize : b'.size = (after earlier).size + c.items.length := (congrArg _ hitems).trans List.length_append
      rw [after, step, hb']
      refine ⟨fun pos item => ?_, fun l a => ?_, fun l a ha => ?_, fun l hl => ?_⟩
      · rw [Written, ← told.items, and_iff_right allowed]
        exact (iff_of_eq (congrArg (·[pos]? = _) hitems)).trans getElem?_append_eq_some
      · rw [Placed, ← told.address]
        refine (iff_of_eq (congrArg (· = _) (haddress l))).trans ?_
        split
        · next hc =>
          subst hc
          simp [(told.unplaced l).2 allowed, show Call.place l ∉ earlier from allowed, eq_comm]
        · next hc => simp [hc]
      · refine Nat.le_trans ?_ (Nat.le.intro hsize.symm)
        have ha := (haddress l).symm.trans ha
        split at ha
        · exact Nat.le_of_eq (Option.some.inj ha).symm
        · exact told.le_size l a ha
      · refine Nat.lt_of_lt_of_le ?_ hlabels
        obtain hl | hl := List.mem_append.1 (hitems ▸ hl : .address l ∈ (after earlier).items ++ c.items)
        · exact told.known l hl
        · obtain ⟨w, hw⟩ | ⟨m, hm, heq⟩ := Call.word_or_address hl
          · cases hw
          · cases heq
            exact h.2 l hm
    · rw [after, step, he]
      refine ⟨fun pos item => ?_, fun l a => ?_, told.le_size, told.known⟩
      · rw [Written, or_iff_left fun h => refused h.1]
        exact told.items pos item
      · rw [Placed, or_iff_left]
        · exact told.address l a
        · rintro ⟨rfl, hnew, -⟩
          exact refused hnew

theorem Tells.exists_written (h : Tells calls b) (inside : pos < b.size) : ∃! item, Written calls pos item := by
  refine ⟨_, (h.items pos _).1 (List.getElem?_eq_getElem inside), fun item written => ?_⟩
  exact Option.some.inj (((h.items pos item).2 written).symm.trans (List.getElem?_eq_getElem inside))

theorem Tells.build_eq_ok_iff (h : Tells calls b) {code : Code} :
    b.build = .ok code ↔ code = .ofList (resolveFrom b.addressOf 0 b.items) ∧
      ∀ pos l, Written calls pos (.address l) → ∃ a, Placed calls l a := by
  rw [Builder.build_eq_ok_iff h.known, forall_comm]
  refine and_congr_right fun _ => forall_congr' fun l => ?_
  rw [List.mem_iff_getElem?, forall_exists_index]
  refine forall_congr' fun pos => imp_congr (h.items pos _) ?_
  exact Option.ne_none_iff_exists'.trans (exists_congr (h.address l))

theorem Tells.addressOf_of_placed (h : Tells calls b) (placed : Placed calls l a) : b.addressOf l = a := by
  rw [addressOf, (h.address l a).2 placed]
  rfl

theorem Tells.word_of_written (h : Tells calls b) (written : Written calls pos item) :
    (resolveFrom b.addressOf 0 b.items)[pos]? = some (item.resolve b.addressOf pos) := by
  rw [Item.getElem?_resolveFrom, (h.items pos item).2 written, Nat.zero_add]
  rfl

/-- Once no address is missing, later calls only add words. -/
theorem Tells.words_prefix (h : Tells calls b) (later : Tells (more ++ calls) b')
    (all : ∀ pos l, Written calls pos (.address l) → ∃ a, Placed calls l a) :
    resolveFrom b.addressOf 0 b.items <+: resolveFrom b'.addressOf 0 b'.items := by
  refine List.prefix_iff_getElem?.2 fun pos inside => ?_
  have hlength : (resolveFrom b.addressOf 0 b.items).length = b.size := Item.length_resolveFrom ..
  obtain ⟨item, written, -⟩ := h.exists_written (hlength ▸ inside)
  rw [later.word_of_written (written.append more), ← List.getElem?_eq_getElem inside, h.word_of_written written]
  cases item with
  | word w => rfl
  | ahead n => rfl
  | address l =>
    obtain ⟨a, placed⟩ := all pos l written
    rw [resolve, resolve, h.addressOf_of_placed placed, later.addressOf_of_placed (placed.append more)]

/-- What finished code has where an item was written. -/
def Shows (calls : List Call) (code : Code) (pos : Nat) : Item BuilderLabel → Prop
  | .word w => code.word? pos = some w
  | .address l => ∃ a, Placed calls l a ∧ (code.int? pos).map Int32.toInt = some (a : Int)
  | .ahead _ => False

theorem not_written_ahead (calls : List Call) {n : Nat} : ¬ Written calls pos (.ahead n) := by
  induction calls with
  | nil => exact id
  | cons c earlier ih =>
    rintro (written | ⟨-, i, hi, -⟩)
    · exact ih written
    · obtain ⟨w, hw⟩ | ⟨l, -, heq⟩ := Call.word_or_address (List.mem_of_getElem? hi)
      · cases hw
      · cases heq

theorem Tells.shows (h : Tells calls b) (short : b.size < operandLimit) (written : Written calls pos item)
    (all : ∀ pos l, Written calls pos (.address l) → ∃ a, Placed calls l a) :
    Shows calls (.ofList (resolveFrom b.addressOf 0 b.items)) pos item := by
  have hword : (Code.ofList (resolveFrom b.addressOf 0 b.items)).word? pos =
      some (item.resolve b.addressOf pos) := by
    rw [Code.word?, if_pos (Int.natCast_nonneg pos), Code.ofList, List.getElem?_toArray]
    exact h.word_of_written written
  cases item with
  | word w => exact hword
  | address l =>
    obtain ⟨a, placed⟩ := all pos l written
    refine ⟨a, placed, ?_⟩
    rw [Code.int?, hword, resolve, h.addressOf_of_placed placed]
    have hle := h.le_size l a ((h.address l a).2 placed)
    exact congrArg some (toInt_ofNat_operand (Nat.lt_of_le_of_lt hle short))
  | ahead n => exact absurd written (not_written_ahead calls)

/-- A label that is referred to before and after it is placed, with two calls that are refused. -/
def leap : List Call :=
  [.address ⟨0⟩, .place ⟨0⟩, .place ⟨0⟩, .emit 255 .none, .jump Opcode.jump.code ⟨0⟩, .newLabel "there"]

theorem handed_leap : Handed leap :=
  ⟨⟨⟨⟨⟨⟨trivial, by decide⟩, by decide⟩, by decide⟩, by decide⟩, by decide⟩, by decide⟩

end Builder
end Stackwork
