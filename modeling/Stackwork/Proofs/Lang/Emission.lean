import Stackwork.Proofs.Code.Placing
import Stackwork.Proofs.Lang.WellTyped

/-!
# Emission through a builder

Units once more, generated statement by statement: each statement is checked and then emitted at once,
instruction by instruction, through a builder that refuses what makes no sense. Connectives take labels of
the builder, and so do the labels of the unit when they are first used; references are filled in when the code
is built. The result is that of `generate`, with the same problem if there is one, and the builder has no
occasion to refuse anything.

The invariant relates items of the builder to items of the assembly: they stand for the same words at the same
positions, as far as labels have addresses by now.
-/
namespace Stackwork

open List
open Builder (emit)

/-- The code of a unit under construction: a builder, the literals so far, and the labels of the unit with
those of the builder, in the order of their first use. -/
structure Emission where
  builder : Builder := {}
  pool : Pool
  labels : List (Label × BuilderLabel) := []

namespace Emission

/-- Let the builder do something. -/
def via (e : Emission) (x : Builder → Except BuilderError Builder) : Except BuilderError Emission :=
  (x e.builder).map fun builder => { e with builder }

def instr (op : Opcode) (k : Kind) (e : Emission) : Except BuilderError Emission := e.via (·.emit op.code k)

def indexed (op : Opcode) (k : Kind) (index : Int) (e : Emission) : Except BuilderError Emission :=
  e.via (·.emitIndexed op.code k index)

def jump (op : Opcode) (l : BuilderLabel) (e : Emission) : Except BuilderError Emission := e.via (·.emitJump op.code l)

def place (l : BuilderLabel) (e : Emission) : Except BuilderError Emission := e.via (·.place l)

def pushInt (v : Int32) (e : Emission) : Except BuilderError Emission := .ok { e with builder := e.builder.pushInt v }

/-- Push a literal, which is added to the pool if it is new. -/
def pushText (s : String) (e : Emission) : Except BuilderError Emission :=
  let pool := e.pool.intern s
  .ok { e with builder := e.builder.pushObj (pool.handle s), pool }

/-- A new label of the builder. -/
def newLabel (name : String) (e : Emission) : BuilderLabel × Emission :=
  ((e.builder.newLabel name).1, { e with builder := (e.builder.newLabel name).2 })

/-- Evaluate `x`; if the branch is taken the result is `value`, else it is that of `y`. -/
def connectiveFrom (branch : Opcode) (value : Int32) (x y : Emission → Except BuilderError Emission)
    (short stop : BuilderLabel) (e : Emission) : Except BuilderError Emission := do
  let e ← x e
  let e ← e.jump branch short
  let e ← y e
  let e ← e.jump .jump stop
  let e ← e.place short
  let e ← e.pushInt value
  e.place stop

/-- A connective with labels of its own. -/
def connective (branch : Opcode) (value : Int32) (x y : Emission → Except BuilderError Emission) (e : Emission) :
    Except BuilderError Emission :=
  let short := e.newLabel "short"
  let stop := short.2.newLabel "end"
  connectiveFrom branch value x y short.1 stop.1 stop.2

/-- The label of the builder for a label of the unit, which is made when it is first asked for. -/
def label (l : Label) (e : Emission) : BuilderLabel × Emission :=
  match e.labels.lookup l with
  | some own => (own, e)
  | none =>
    let own := e.newLabel l.name
    (own.1, { own.2 with labels := e.labels ++ [(l, own.1)] })

/-- Whether a label of the unit has been placed. -/
def hasPlaced (l : Label) (e : Emission) : Bool :=
  (e.labels.lookup l).any fun own => (e.builder.label own).address.isSome

end Emission

mutual
/-- Emit a term. -/
def Term.emit : Term → Emission → Except BuilderError Emission
  | .int v => Emission.pushInt v
  | .float bits => fun e => .ok { e with builder := e.builder.pushFloat bits }
  | .text s => Emission.pushText s
  | .load v => Emission.indexed v.loadCode v.kind v.index
  | .unary op k x => fun e => x.emit e >>= Emission.instr (.unary op) k
  | .binary op k x y => fun e => x.emit e >>= y.emit >>= Emission.instr (.binary op) k
  | .both x y => Emission.connective .branchFalse 0 x.emit y.emit
  | .either x y => Emission.connective .branchTrue 1 x.emit y.emit
  | .select k c a b => fun e => c.emit e >>= a.emit >>= b.emit >>= Emission.instr .select k
  | .call index args => fun e => emitTerms args e >>= Emission.indexed .call .none index
  | .callValue f args => fun e => emitTerms args e >>= f.emit >>= Emission.instr .callR .none

/-- Emit several terms, one after the other. -/
def emitTerms : List Term → Emission → Except BuilderError Emission
  | [] => .ok
  | t :: ts => fun e => t.emit e >>= emitTerms ts
end

/-- Emit a command. -/
def Command.emit : Command → Emission → Except BuilderError Emission
  | .store v x => fun e => x.emit e >>= Emission.indexed v.storeCode v.kind v.index
  | .drop x => fun e => x.emit e >>= Emission.instr .pop .none
  | .ret k none => Emission.instr .ret k
  | .ret k (some x) => fun e => x.emit e >>= Emission.instr .ret k
  | .jump l => fun e => (e.label l).2.jump .jump (e.label l).1
  | .branchTrue x l => fun e => x.emit e >>= fun e => (e.label l).2.jump .branchTrue (e.label l).1
  | .branchFalse x l => fun e => x.emit e >>= fun e => (e.label l).2.jump .branchFalse (e.label l).1
  | .place l => fun e => (e.label l).2.place (e.label l).1
  | .halt => Emission.instr .halt .none

/-- Why emission of a unit ends early. -/
inductive EmissionFailure where
  | problem (p : Problem)
  /-- The builder refuses an operation. -/
  | refused (e : BuilderError)

namespace Emission

/-- Check and emit statements. -/
def stmts (ctx : Context) : List Stmt → Emission → Except EmissionFailure Emission
  | [], e => .ok e
  | s :: rest, e => do
    let c ← (s.check ctx).mapError .problem
    if let some l := c.placed? then
      if e.hasPlaced l then throw (.problem (.placedTwice l.name))
    let e ← (c.emit e).mapError .refused
    stmts ctx rest e

/-- The end of a function body: a function that should return a value returns zero. -/
def finish (output : Option Ty) (e : Emission) : Except BuilderError Emission :=
  match output with
  | none => .ok e
  | some out =>
    let k := Kind.ofTy out
    if out.kind = .void then e.instr .ret .none
    else if k = .obj then e.instr .pushNull k >>= instr .ret k
    else e.instr .pushZero k >>= instr .ret k

/-- The first label of the unit in use that is not placed. -/
def unplaced? (e : Emission) : Option Label :=
  (e.labels.find? fun a => (e.builder.label a.2).address.isNone).map Prod.fst

/-- Check and emit a unit. -/
def unit (ctx : Context) (pool : Pool) (stmts : List Stmt) : Except EmissionFailure (Code × Pool) := do
  let e ← Emission.stmts ctx stmts { pool }
  match e.unplaced? with
  | some l => throw (.problem (.neverPlaced l.name))
  | none =>
    let e ← (e.finish ctx.output).mapError .refused
    let code ← e.builder.build.mapError .refused
    return (code, e.pool)

/-- An item of the builder at a position stands for an item of the assembly. -/
inductive Matches (e : Emission) (pos : Nat) : Item BuilderLabel → Item Label → Prop where
  | word (w : UInt32) : Matches e pos (.word w) (.word w)
  | ahead {own : BuilderLabel} {n : Nat} (address : (e.builder.label own).address = some (pos + 1 + n)) :
      Matches e pos (.address own) (.ahead n)
  | address {own : BuilderLabel} {l : Label} (known : (l, own) ∈ e.labels) :
      Matches e pos (.address own) (.address l)

/-- A row of items from a position on stands for a row of items of the assembly. -/
def Stands (e : Emission) : Nat → List (Item BuilderLabel) → List (Item Label) → Prop
  | _, [], [] => True
  | pos, i :: is, j :: js => e.Matches pos i j ∧ e.Stands (pos + 1) is js
  | _, _, _ => False

/-- Labels keep their addresses, and new ones are behind the old ones. -/
structure Extends (e' e : Emission) : Prop where
  labels : e.labels <+: e'.labels
  size_le : e.builder.labels.size ≤ e'.builder.labels.size
  address : ∀ own a, (e.builder.label own).address = some a → (e'.builder.label own).address = some a

variable {e e' e₁ e₂ : Emission}

theorem Extends.trans (h₂ : e₂.Extends e₁) (h₁ : e₁.Extends e) : e₂.Extends e :=
  ⟨h₁.labels.trans h₂.labels, Nat.le_trans h₁.size_le h₂.size_le,
    fun own a h => h₂.address own a (h₁.address own a h)⟩

theorem Extends.matches (ext : e'.Extends e) {pos : Nat} {i : Item BuilderLabel} {j : Item Label}
    (h : e.Matches pos i j) : e'.Matches pos i j := by
  cases h with
  | word w => exact .word w
  | ahead address => exact .ahead (ext.address _ _ address)
  | address known => exact .address (ext.labels.subset known)

section

variable {pos : Nat} {is is' : List (Item BuilderLabel)} {js js' : List (Item Label)}

theorem Extends.stands (ext : e'.Extends e) (h : e.Stands pos is js) : e'.Stands pos is js := by
  induction is generalizing pos js with
  | nil =>
    cases js with
    | nil => trivial
    | cons j js => exact h.elim
  | cons i is ih =>
    cases js with
    | nil => exact h.elim
    | cons j js => exact ⟨ext.matches h.1, ih h.2⟩

theorem Stands.length_eq (h : e.Stands pos is js) : is.length = js.length := by
  induction is generalizing pos js with
  | nil =>
    cases js with
    | nil => rfl
    | cons j js => exact h.elim
  | cons i is ih =>
    cases js with
    | nil => exact h.elim
    | cons j js => rw [length_cons, length_cons, ih h.2]

theorem Stands.append {pos' : Nat} (h : e.Stands pos is js) (h' : e.Stands pos' is' js')
    (hpos : pos' = pos + is.length) : e.Stands pos (is ++ is') (js ++ js') := by
  induction is generalizing pos js with
  | nil =>
    cases js with
    | nil =>
      cases hpos
      exact h'
    | cons j js => exact h.elim
  | cons i is ih =>
    cases js with
    | nil => exact h.elim
    | cons j js =>
      rw [length_cons, ← Nat.add_assoc, Nat.add_right_comm] at hpos
      exact ⟨h.1, ih h.2 hpos⟩

theorem stands_pushInt (v : Int32) : e.Stands pos (Item.pushInt v) (Item.pushInt v) := by
  unfold Item.pushInt
  split
  · exact ⟨.word _, trivial⟩
  · split
    · exact ⟨.word _, trivial⟩
    · exact ⟨.word _, .word _, trivial⟩

theorem stands_pushFloat (bits : UInt64) : e.Stands pos (Item.pushFloat bits) (Item.pushFloat bits) := by
  unfold Item.pushFloat
  split
  · exact ⟨.word _, trivial⟩
  · split
    · exact ⟨.word _, trivial⟩
    · exact ⟨.word _, .word _, .word _, trivial⟩

theorem stands_pushObj (handle : UInt64) : e.Stands pos (Item.pushObj handle) (Item.pushObj handle) := by
  unfold Item.pushObj
  split
  · exact ⟨.word _, trivial⟩
  · exact ⟨.word _, .word _, .word _, trivial⟩

/-- Rows that stand for each other resolve to the same words, once the labels of the unit have their addresses. -/
theorem Stands.resolveFrom_eq {addressOf : Label → Nat}
    (addresses : ∀ l own, (l, own) ∈ e.labels → (e.builder.label own).address.getD 0 = addressOf l)
    (h : e.Stands pos is js) :
    Item.resolveFrom (fun own => (e.builder.label own).address.getD 0) pos is =
      Item.resolveFrom addressOf pos js := by
  induction is generalizing pos js with
  | nil =>
    cases js with
    | nil => rfl
    | cons j js => exact h.elim
  | cons i is ih =>
    cases js with
    | nil => exact h.elim
    | cons j js =>
      obtain ⟨hij, hrest⟩ := h
      rw [Item.resolveFrom, Item.resolveFrom, ih hrest]
      refine congrArg (· :: _) ?_
      cases hij with
      | word w => rfl
      | ahead address => rw [Item.resolve, Item.resolve, address, Option.getD_some]
      | address known => rw [Item.resolve, Item.resolve, addresses _ _ known]

end

/-! What the single operations do. -/

/-- An emission with items behind those it has. -/
def append (e : Emission) (items : List (Item BuilderLabel)) : Emission :=
  { e with builder := e.builder.append items }

/-- An emission with a label placed at its end. -/
def placeNow (e : Emission) (own : BuilderLabel) : Emission :=
  { e with builder :=
    { e.builder with labels := e.builder.labels.modify own.index ({ · with address := some e.builder.size }) } }

variable {op : Opcode} {own : BuilderLabel}

variable {k : Kind}

theorem instr_eq (h : op.kinds.contains k) (e : Emission) : e.instr op k = .ok (e.append [.instr op k]) := by
  have hvalid : (Instr.ofBytes op.code k).valid = true := Instr.valid_make.trans h
  simp only [instr, via, emit, hvalid, if_true]
  rfl

theorem indexed_eq (h : op.kinds.contains k) (index : Int) (e : Emission) :
    e.indexed op k index = .ok (e.append (Item.indexed op k index)) := by
  have hvalid : (Instr.ofBytes op.code k).valid = true := Instr.valid_make.trans h
  simp only [indexed, via, Builder.emitIndexed, emit, hvalid, if_true, Except.map, Builder.emitInt,
    Builder.append, append_assoc]
  rfl

theorem jump_eq (h : op.isJump) (own : BuilderLabel) (e : Emission) :
    e.jump op own = .ok (e.append [.instr op .none, .address own]) := by
  simp only [jump, via, Builder.emitJump, Opcode.ofCode?_code, h, if_true]
  rfl

theorem place_eq (h : (e.builder.label own).address = none) : e.place own = .ok (e.placeNow own) := by
  simp only [place, via, Builder.place, h, Option.isSome_none]
  rfl

/-- A label that the builder has handed out and that has no address so far. -/
def Open (e : Emission) (own : BuilderLabel) : Prop :=
  own.index < e.builder.labels.size ∧ (e.builder.label own).address = none

theorem lt_of_address {a : Nat} (h : (e.builder.label own).address = some a) :
    own.index < e.builder.labels.size := by
  by_contra hge
  rw [Builder.label, Array.getD_eq_getD_getElem?, Array.getElem?_eq_none (Nat.not_lt.1 hge)] at h
  cases h

theorem extends_append (e : Emission) (items : List (Item BuilderLabel)) : (e.append items).Extends e :=
  ⟨prefix_rfl, Nat.le_refl _, fun _ _ h => h⟩

theorem address_newLabel (e : Emission) (name : String) (own : BuilderLabel) :
    ((e.newLabel name).2.builder.label own).address = (e.builder.label own).address :=
  e.builder.address_newLabel name own

theorem size_newLabel (e : Emission) (name : String) :
    (e.newLabel name).2.builder.labels.size = e.builder.labels.size + 1 := Array.size_push _

theorem extends_newLabel (e : Emission) (name : String) : (e.newLabel name).2.Extends e where
  labels := prefix_rfl
  size_le := size_newLabel e name ▸ Nat.le_succ _
  address own _ h := (address_newLabel e name own).trans h

theorem not_open_newLabel (e : Emission) (name : String) : ¬ e.Open (e.newLabel name).1 :=
  fun h => Nat.lt_irrefl _ h.1

theorem open_newLabel (e : Emission) (name : String) (own : BuilderLabel) :
    (e.newLabel name).2.Open own ↔ e.Open own ∨ own = (e.newLabel name).1 := by
  unfold Open
  rw [size_newLabel, address_newLabel]
  constructor
  · rintro ⟨hlt, haddress⟩
    rcases Nat.lt_succ_iff_lt_or_eq.1 hlt with hlt | heq
    · exact .inl ⟨hlt, haddress⟩
    · exact .inr (by cases own; exact congrArg _ heq)
  · rintro (⟨hlt, haddress⟩ | rfl)
    · exact ⟨Nat.lt_succ_of_lt hlt, haddress⟩
    · refine ⟨Nat.lt_succ_self _, Option.eq_none_iff_forall_ne_some.2 fun a ha => ?_⟩
      exact Nat.lt_irrefl _ (lt_of_address ha)

theorem address_placeNow (h : e.Open own) (other : BuilderLabel) : ((e.placeNow own).builder.label other).address =
      if other = own then some e.builder.size else (e.builder.label other).address := Builder.address_settle h.1 other

theorem extends_placeNow (h : e.Open own) : (e.placeNow own).Extends e where
  labels := prefix_rfl
  size_le := Nat.le_of_eq (Array.size_modify ..).symm
  address other a ha := by
    rw [address_placeNow h, if_neg]
    · exact ha
    · rintro rfl
      rw [h.2] at ha
      cases ha

theorem open_placeNow (h : e.Open own) (other : BuilderLabel) :
    (e.placeNow own).Open other ↔ e.Open other ∧ other ≠ own := by
  unfold Open
  rw [address_placeNow h, show (e.placeNow own).builder.labels.size = e.builder.labels.size from Array.size_modify ..]
  by_cases heq : other = own
  · simp [heq]
  · simp [heq]

/-- What emitting a piece of code does. The labels without an address are those there were; behind the items there
are new ones that stand for the piece, for all pools that this one grows into. -/
structure Adds (e e' : Emission) (texts : List String) (row : (String → UInt64) → List (Item Label)) : Prop where
  ext : e'.Extends e
  labels : e'.labels = e.labels
  opens : ∀ own, e'.Open own ↔ e.Open own
  pool : e'.pool = e.pool.internAll texts
  items : ∃ added, e'.builder.items = e.builder.items ++ added ∧
    ∀ q, e'.pool.Within q → e'.Stands e.builder.size added (row q.handle)

section

variable {texts texts' : List String} {row row' : (String → UInt64) → List (Item Label)}

theorem internAll_append (p : Pool) (texts texts' : List String) :
    p.internAll (texts ++ texts') = (p.internAll texts).internAll texts' := foldl_append ..

theorem size_of_items {added : List (Item BuilderLabel)} (h : e'.builder.items = e.builder.items ++ added) :
    e'.builder.size = e.builder.size + added.length := by
  rw [Builder.size, h, length_append]
  rfl

theorem Adds.within (h : Adds e e' texts row) : e.pool.Within e'.pool := h.pool ▸ e.pool.within_internAll texts

theorem Adds.trans (h : Adds e e₁ texts row) (h' : Adds e₁ e₂ texts' row') :
    Adds e e₂ (texts ++ texts') fun handle => row handle ++ row' handle where
  ext := h'.ext.trans h.ext
  labels := h'.labels.trans h.labels
  opens own := (h'.opens own).trans (h.opens own)
  pool := by rw [h'.pool, h.pool, internAll_append]
  items := by
    obtain ⟨added, hadded, stands⟩ := h.items
    obtain ⟨added', hadded', stands'⟩ := h'.items
    refine ⟨added ++ added', by rw [hadded', hadded, append_assoc], fun q hq => ?_⟩
    have hfirst := h'.ext.stands (stands q (h'.within.trans hq))
    exact hfirst.append (stands' q hq) (size_of_items hadded)

/-- Items that are the same in the assembly need no label. -/
theorem adds_append {items : List (Item BuilderLabel)} {row : List (Item Label)}
    (stands : (e.append items).Stands e.builder.size items row) : Adds e (e.append items) [] fun _ => row where
  ext := extends_append e items
  labels := rfl
  opens _ := Iff.rfl
  pool := rfl
  items := ⟨items, rfl, fun _ _ => stands⟩

/-- An operation that succeeds everywhere and adds the same piece of code. -/
def Emits (x : Emission → Except BuilderError Emission) (texts : List String)
    (row : (String → UInt64) → List (Item Label)) : Prop :=
  ∀ e, ∃ e', x e = .ok e' ∧ Adds e e' texts row

variable {x y : Emission → Except BuilderError Emission}

theorem Emits.bind (hx : Emits x texts row) (hy : Emits y texts' row') :
    Emits (fun e => x e >>= y) (texts ++ texts') fun handle => row handle ++ row' handle := by
  intro e
  obtain ⟨e₁, h₁, adds₁⟩ := hx e
  obtain ⟨e₂, h₂, adds₂⟩ := hy e₁
  exact ⟨e₂, Except.bind_eq_ok.2 ⟨e₁, h₁, h₂⟩, adds₁.trans adds₂⟩

/-- Code without literals behind a piece of code. -/
theorem Emits.code (hx : Emits x texts row) (hy : Emits y [] row') :
    Emits (fun e => x e >>= y) texts fun handle => row handle ++ row' handle := by
  have h := hx.bind hy
  rwa [append_nil] at h

variable {k : Kind} {branch : Opcode} {value : Int32}

theorem emits_instr (h : op.kinds.contains k) : Emits (instr op k) [] fun _ => [.instr op k] :=
  fun e => ⟨_, instr_eq h e, adds_append ⟨.word _, trivial⟩⟩

theorem emits_indexed (h : op.kinds.contains k) (index : Int) :
    Emits (indexed op k index) [] fun _ => Item.indexed op k index :=
  fun e => ⟨_, indexed_eq h index e, adds_append ⟨.word _, .word _, trivial⟩⟩

theorem emits_pushInt (v : Int32) : Emits (pushInt v) [] fun _ => Item.pushInt v :=
  fun e => ⟨e.append (Item.pushInt v), rfl, adds_append (stands_pushInt v)⟩

theorem emits_pushText (s : String) : Emits (pushText s) [s] fun handle => Item.pushObj (handle s) := by
  intro e
  refine ⟨_, rfl, ⟨prefix_rfl, Nat.le_refl _, fun _ _ h => h⟩, rfl, fun _ => Iff.rfl, rfl, _, rfl, fun q hq => ?_⟩
  rw [hq.handle_eq (e.pool.mem_intern s)]
  exact stands_pushObj _

/-- The part of a connective behind its two labels, which are placed at its end. -/
theorem connective_from {short stop : BuilderLabel} (jumps : branch.isJump)
    (hvalue : (Item.pushInt value : List (Item BuilderLabel)).length = 1) (hx : Emits x texts row)
    (hy : Emits y texts' row') (hshort : e.Open short) (hstop : e.Open stop) (hne : stop ≠ short) :
    ∃ e', connectiveFrom branch value x y short stop e = .ok e' ∧ e'.Extends e ∧
      e'.labels = e.labels ∧ (∀ own, e'.Open own ↔ e.Open own ∧ own ≠ short ∧ own ≠ stop) ∧
        e'.pool = e.pool.internAll (texts ++ texts') ∧ ∃ added, e'.builder.items = e.builder.items ++ added ∧
          ∀ q, e'.pool.Within q → e'.Stands e.builder.size added
            (Stackwork.connective branch value (row q.handle) (row' q.handle)) := by
  obtain ⟨e₁, h₁, adds₁⟩ := hx e
  let e₂ := e₁.append [.instr branch .none, .address short]
  obtain ⟨e₃, h₃, adds₃⟩ := hy e₂
  let e₄ := e₃.append [.instr .jump .none, .address stop]
  have hopen₄ (own : BuilderLabel) : e₄.Open own ↔ e.Open own := (adds₃.opens own).trans (adds₁.opens own)
  have hshort₄ : e₄.Open short := (hopen₄ short).2 hshort
  let e₅ := e₄.placeNow short
  let e₆ := e₅.append (Item.pushInt value)
  have hopen₆ (own : BuilderLabel) : e₆.Open own ↔ e₄.Open own ∧ own ≠ short := open_placeNow hshort₄ own
  have hstop₆ : e₆.Open stop := (hopen₆ stop).2 ⟨(hopen₄ stop).2 hstop, hne⟩
  let e₇ := e₆.placeNow stop
  have ext₇ : e₇.Extends e₅ := (extends_placeNow hstop₆).trans (extends_append _ _)
  have ext₃ : e₇.Extends e₃ := ext₇.trans ((extends_placeNow hshort₄).trans (extends_append _ _))
  have ext₁ : e₇.Extends e₁ := ext₃.trans (adds₃.ext.trans (extends_append _ _))
  have hshort₇ : (e₇.builder.label short).address = some e₄.builder.size :=
    ext₇.address _ _ ((address_placeNow hshort₄ short).trans (if_pos rfl))
  have hstop₇ : (e₇.builder.label stop).address = some e₆.builder.size :=
    (address_placeNow hstop₆ stop).trans (if_pos rfl)
  refine ⟨e₇, ?run, ext₁.trans adds₁.ext, adds₃.labels.trans adds₁.labels, fun own => ?_, ?pool, ?_⟩
  case run =>
    refine Except.bind_eq_ok.2 ⟨e₁, h₁, Except.bind_eq_ok.2 ⟨e₂, jump_eq jumps _ _, ?_⟩⟩
    refine Except.bind_eq_ok.2 ⟨e₃, h₃, Except.bind_eq_ok.2 ⟨e₄, jump_eq rfl _ _, ?_⟩⟩
    exact Except.bind_eq_ok.2 ⟨e₅, place_eq hshort₄.2, Except.bind_eq_ok.2 ⟨e₆, rfl, place_eq hstop₆.2⟩⟩
  case pool => exact internAll_append _ _ _ ▸ adds₁.pool ▸ adds₃.pool
  · rw [open_placeNow hstop₆, hopen₆, hopen₄, and_assoc]
  · obtain ⟨left, hleft, standsLeft⟩ := adds₁.items
    obtain ⟨right, hright, standsRight⟩ := adds₃.items
    have hsize₁ := size_of_items hleft
    have hsize₂ : e₂.builder.size = e₁.builder.size + 2 := length_append
    have hsize₃ := size_of_items hright
    have hsize₄ : e₄.builder.size = e₃.builder.size + 2 := length_append
    have hsize₆ : e₆.builder.size = e₄.builder.size + 1 := hvalue ▸ length_append
    refine ⟨left ++ [.instr branch .none, .address short] ++ right ++ [.instr .jump .none, .address stop] ++
      Item.pushInt value, ?_, fun q hq => ?_⟩
    · change e₃.builder.items ++ _ ++ _ = _
      rw [hright, show e₂.builder.items = e₁.builder.items ++ [.instr branch .none, .address short] from rfl, hleft]
      simp only [append_assoc]
    -- the pieces one by one, each where it stands
    have hrow := standsRight q hq
    have hlength := hrow.length_eq
    have first := ext₁.stands (standsLeft q (adds₃.within.trans hq))
    have branches : e₇.Stands e₁.builder.size [.instr branch .none, .address short]
        [.instr branch .none, .ahead ((row' q.handle).length + 2)] :=
      ⟨.word _, .ahead (hshort₇.trans (congrArg some (by omega))), trivial⟩
    have leaves : e₇.Stands e₃.builder.size [.instr .jump .none, .address stop] [.instr .jump .none, .ahead 1] :=
      ⟨.word _, .ahead (hstop₇.trans (congrArg some (by omega))), trivial⟩
    have joined := (first.append branches hsize₁).append (ext₃.stands hrow)
      (by rw [length_append, ← Nat.add_assoc, ← hsize₁]; exact hsize₂)
    have joined := joined.append leaves (by rw [length_append, length_append, ← Nat.add_assoc,
      ← Nat.add_assoc, ← hsize₁, hsize₃, hsize₂]; rfl)
    have result : e₇.Stands e₄.builder.size (Item.pushInt value) (Item.pushInt value) := stands_pushInt value
    refine joined.append result ?_
    simp only [length_append, length_cons, length_nil]
    omega

/-- A connective puts its two labels in place itself. -/
theorem Emits.connective (jumps : branch.isJump)
    (hvalue : (Item.pushInt value : List (Item BuilderLabel)).length = 1) (hx : Emits x texts row)
    (hy : Emits y texts' row') : Emits (connective branch value x y) (texts ++ texts') fun handle =>
      Stackwork.connective branch value (row handle) (row' handle) := by
  intro e
  let e₁ := (e.newLabel "short").2
  let e₂ := (e₁.newLabel "end").2
  have hshort : e₁.Open (e.newLabel "short").1 := (open_newLabel e _ _).2 (.inr rfl)
  have hne : (e₁.newLabel "end").1 ≠ (e.newLabel "short").1 := fun h => not_open_newLabel e₁ "end" (h ▸ hshort)
  have hopen (own : BuilderLabel) : e₂.Open own ↔ e₁.Open own ∨ own = (e₁.newLabel "end").1 := open_newLabel e₁ _ own
  obtain ⟨e', hrun, ext, hlabels, hopens, hpool, hitems⟩ :=
    connective_from jumps hvalue hx hy ((hopen _).2 (.inl hshort)) ((hopen _).2 (.inr rfl)) hne
  refine ⟨e', hrun, ext.trans ((extends_newLabel _ _).trans (extends_newLabel _ _)), hlabels,
    fun own => ?_, hpool, hitems⟩
  rw [hopens, hopen, open_newLabel e]
  constructor
  · rintro ⟨(h | h) | h, hshort', hstop'⟩
    · exact h
    · exact absurd h hshort'
    · exact absurd h hstop'
  · intro h
    refine ⟨.inl (.inl h), ?_, ?_⟩
    · rintro rfl
      exact not_open_newLabel e _ h
    · rintro rfl
      exact not_open_newLabel e₁ _ ((open_newLabel e _ _).2 (.inl h))

end

end Emission

/-! Terms and commands. -/

variable {v : Variable} {ts : List Term}

theorem Variable.kinds_loadCode (h : v.kind ≠ .none) : v.loadCode.kinds.contains v.kind := by
  have hmem := Kind.ofTy_mem_of_ne_none h
  unfold Variable.loadCode
  split <;> exact hmem

theorem Variable.kinds_storeCode (h : v.kind ≠ .none) : v.storeCode.kinds.contains v.kind := by
  have hmem := Kind.ofTy_mem_of_ne_none h
  unfold Variable.storeCode
  split <;> exact hmem

open Emission

theorem emits_emitTerms (h : ∀ t ∈ ts, Emits t.emit t.texts fun handle => t.items handle) :
    Emits (emitTerms ts) (textsOf ts) fun handle => itemsOf handle ts := by
  induction ts with
  | nil =>
    intro e
    refine ⟨e, rfl, ⟨prefix_rfl, Nat.le_refl _, fun _ _ h => h⟩, rfl, fun _ => Iff.rfl, rfl, [], ?_,
      fun _ _ => trivial⟩
    exact (append_nil _).symm
  | cons t ts ih =>
    obtain ⟨ht, hts⟩ := forall_mem_cons.1 h
    exact ht.bind (ih hts)

theorem mem_loadsOf {P : Variable → Prop} (h : ∀ v ∈ loadsOf ts, P v) : ∀ t ∈ ts, ∀ v ∈ t.loads, P v := by
  induction ts with
  | nil => exact forall_mem_nil _
  | cons t ts ih =>
    obtain ⟨ht, hts⟩ := forall_mem_append.1 h
    exact forall_mem_cons.2 ⟨ht, ih hts⟩

/-- Emission of a term gives its assembly, if the operations exist and the variables have a machine kind. -/
theorem Term.emits (t : Term) : t.Defined → (∀ v ∈ t.loads, v.kind ≠ .none) →
    Emits t.emit t.texts fun handle => t.items handle := by
  induction t using Term.induct with
  | int v => exact fun _ _ => emits_pushInt v
  | float bits => exact fun _ _ e => ⟨_, rfl, adds_append (stands_pushFloat bits)⟩
  | text s => exact fun _ _ => emits_pushText s
  | load v =>
    intro _ kinds
    exact emits_indexed (Variable.kinds_loadCode (kinds v (mem_singleton.2 rfl))) v.index
  | unary op k x ih =>
    intro defined kinds
    exact (ih defined.2 kinds).code (emits_instr defined.1)
  | binary op k x y ihx ihy =>
    intro defined kinds
    obtain ⟨hx, hy⟩ := forall_mem_append.1 kinds
    exact ((ihx defined.2.1 hx).bind (ihy defined.2.2 hy)).code (emits_instr defined.1)
  | both x y ihx ihy | either x y ihx ihy =>
    intro defined kinds
    obtain ⟨hx, hy⟩ := forall_mem_append.1 kinds
    exact Emits.connective rfl rfl (ihx defined.1 hx) (ihy defined.2 hy)
  | select k c a b ihc iha ihb =>
    intro defined kinds
    obtain ⟨hca, hb⟩ := forall_mem_append.1 kinds
    obtain ⟨hc, ha⟩ := forall_mem_append.1 hca
    exact (((ihc defined.2.1 hc).bind (iha defined.2.2.1 ha)).bind (ihb defined.2.2.2 hb)).code (emits_instr defined.1)
  | call index args ih =>
    intro defined kinds
    have hargs := emits_emitTerms fun t ht => ih t ht (definedAll_iff.1 defined t ht) (mem_loadsOf kinds t ht)
    exact hargs.code (emits_indexed rfl index)
  | callValue f args ihf ih =>
    intro defined kinds
    obtain ⟨kargs, kf⟩ := forall_mem_append.1 kinds
    have hargs := emits_emitTerms fun t ht => ih t ht (definedAll_iff.1 defined.1 t ht) (mem_loadsOf kargs t ht)
    exact (hargs.bind (ihf defined.2 kf)).code (emits_instr rfl)

/-- Emission of the end of a unit gives its assembly. -/
theorem emits_finish (output : Option Ty) : Emits (finish output) [] fun _ => epilogue output := by
  unfold finish epilogue
  cases output with
  | none => exact emits_emitTerms (forall_mem_nil _)
  | some out =>
    simp only
    split
    · exact emits_instr rfl
    · next hvalue =>
      rcases Kind.ofTy_cases out with hk | hk | hk | hk
      · exact absurd (Kind.ofTy_eq_none.1 hk) hvalue
      · rw [hk]
        exact (emits_instr (k := .int) rfl).code (emits_instr rfl)
      · rw [hk]
        exact (emits_instr (k := .float) rfl).code (emits_instr rfl)
      · rw [hk]
        exact (emits_instr (k := .obj) rfl).code (emits_instr rfl)

end Stackwork
