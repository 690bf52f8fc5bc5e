import Stackwork.Lang.Generate
import Stackwork.Proofs.Code.Lines
import Stackwork.Proofs.Lang.Accesses
import Stackwork.Proofs.Lang.Operations

/-!
# Generated code as rows of instructions

The assembly of terms and commands, line by line. Every line of a checked program is an
instruction that exists for its kind, the short jumps of the connectives end behind their
term, and a label stands where some command begins. So the code of a unit is verified and
aligned as soon as the numbers that it reaches for are in range.
-/
namespace Stackwork

namespace Line

variable {L : Type}

/-- Push an integer. -/
def pushInt (v : Int32) : Line L :=
  if v = 0 then ⟨.pushZero, .int, []⟩
  else if v = 1 then ⟨.pushOne, .int, []⟩
  else ⟨.pushImm, .int, [.int v]⟩

/-- Push the float with the given bits. -/
def pushFloat (bits : UInt64) : Line L :=
  if bits = 0 then ⟨.pushZero, .float, []⟩
  else if bits = 0x3ff0000000000000 then ⟨.pushOne, .float, []⟩
  else ⟨.pushImm, .float, Item.double bits⟩

/-- Push an object handle. -/
def pushObj (handle : UInt64) : Line L :=
  if handle = 0 then ⟨.pushNull, .obj, []⟩ else ⟨.pushImm, .obj, Item.double handle⟩

/-- An instruction with a slot or function index. -/
def indexed (op : Opcode) (k : Kind) (index : Int) : Line L := ⟨op, k, [.int (Int32.ofInt index)]⟩

theorem items_pushInt (v : Int32) : (pushInt v : Line L).items = Item.pushInt v := by
  unfold pushInt Item.pushInt
  split
  · rfl
  · split <;> rfl

theorem items_pushFloat (bits : UInt64) : (pushFloat bits : Line L).items = Item.pushFloat bits := by
  unfold pushFloat Item.pushFloat
  split
  · rfl
  · split <;> rfl

theorem items_pushObj (handle : UInt64) : (pushObj handle : Line L).items = Item.pushObj handle := by
  unfold pushObj Item.pushObj
  split <;> rfl

theorem items_indexed (op : Opcode) (k : Kind) (index : Int) :
    (indexed op k index : Line L).items = Item.indexed op k index := rfl

end Line

/-- The lines of a connective. -/
def connectiveLines (branch : Opcode) (short : Int32) (x y : List (Line Label)) :
    List (Line Label) :=
  x ++ ⟨branch, .none, [.ahead (Line.words y + 2)]⟩ :: y ++
    [⟨.jump, .none, [.ahead 1]⟩, Line.pushInt short]

mutual
/-- The lines of a term. -/
def Term.lines (handle : String → UInt64) : Term → List (Line Label)
  | .int v => [.pushInt v]
  | .float bits => [.pushFloat bits]
  | .text s => [.pushObj (handle s)]
  | .load v => [.indexed v.loadCode v.kind v.index]
  | .unary op k x => x.lines handle ++ [⟨.unary op, k, []⟩]
  | .binary op k x y => x.lines handle ++ y.lines handle ++ [⟨.binary op, k, []⟩]
  | .both x y => connectiveLines .branchFalse 0 (x.lines handle) (y.lines handle)
  | .either x y => connectiveLines .branchTrue 1 (x.lines handle) (y.lines handle)
  | .select k c a b => c.lines handle ++ a.lines handle ++ b.lines handle ++ [⟨.select, k, []⟩]
  | .call index args => linesOf handle args ++ [.indexed .call .none index]
  | .callValue f args => linesOf handle args ++ f.lines handle ++ [⟨.callR, .none, []⟩]

/-- The lines of several terms, one after the other. -/
def linesOf (handle : String → UInt64) : List Term → List (Line Label)
  | [] => []
  | t :: ts => t.lines handle ++ linesOf handle ts
end

theorem row_connectiveLines (branch : Opcode) (short : Int32) (x y : List (Line Label)) :
    Line.row (connectiveLines branch short x y) =
      connective branch short (Line.row x) (Line.row y) := by
  simp only [connectiveLines, connective, Line.row_append, Line.row_cons, Line.row_nil,
    Line.items_pushInt, Line.words, List.append_assoc, List.append_nil, List.cons_append]
  simp [Line.items]

theorem row_linesOf {handle : String → UInt64} {ts : List Term}
    (h : ∀ t ∈ ts, Line.row (t.lines handle) = t.items handle) :
    Line.row (linesOf handle ts) = itemsOf handle ts := by
  induction ts with
  | nil => rfl
  | cons t ts ih =>
    obtain ⟨ht, hts⟩ := List.forall_mem_cons.1 h
    rw [linesOf, itemsOf, Line.row_append, ht, ih hts]

/-- The assembly of a term is that of its lines. -/
theorem Term.row_lines (handle : String → UInt64) (t : Term) :
    Line.row (t.lines handle) = t.items handle := by
  induction t using Term.induct with
  | int v => simp [lines, items, Line.items_pushInt]
  | float bits => simp [lines, items, Line.items_pushFloat]
  | text s => simp [lines, items, Line.items_pushObj]
  | load v => simp [lines, items, Line.items_indexed]
  | unary op k x ihx => simp [lines, items, ihx, Line.items]
  | binary op k x y ihx ihy => simp [lines, items, ihx, ihy, Line.items]
  | both x y ihx ihy | either x y ihx ihy => rw [lines, items, row_connectiveLines, ihx, ihy]
  | select k c a b ihc iha ihb => simp [lines, items, ihc, iha, ihb, Line.items]
  | call index args ih => simp [lines, items, row_linesOf ih, Line.items_indexed]
  | callValue f args ihf ih => simp [lines, items, row_linesOf ih, ihf, Line.items]

/-- Whether an opcode has no operand with a limit and jumps nowhere. -/
def Opcode.isFree : Opcode → Bool
  | .loadGlobal | .storeGlobal | .loadLocal | .storeLocal | .jump | .branchTrue | .branchFalse | .call
  | .jumpR | .branchTrueR | .branchFalseR => false
  | _ => true

/-- Limits whose numbers can all be written as operands. -/
structure Limits.Small (lim : Limits) : Prop where
  functions : lim.functions ≤ operandLimit
  globals : lim.globals ≤ operandLimit
  locals : lim.locals ≤ operandLimit

/-- A variable that instructions can reach: its type has a machine kind, and its slot is in
range. -/
structure Variable.Fits (lim : Limits) (v : Variable) : Prop where
  kind : v.kind ≠ .none
  nonneg : 0 ≤ v.index
  lt : v.index < if v.isGlobal then lim.globals else lim.locals

/-- An access with its number in range. -/
def Access.Fits (lim : Limits) : Access → Prop
  | load v | store v => v.Fits lim
  | call index => 0 ≤ index ∧ index < lim.functions
  | text _ => True

namespace Line

variable {L : Type} {lim : Limits} {addressOf : L → Nat} {all : List (Line L)} {pos : Nat}

/-- An instruction whose operand has no limit is sound when it is well formed. -/
theorem Formed.sound {l : Line L} (h : l.Formed) (free : l.op.isFree) : Sound lim addressOf all pos l := by
  refine ⟨⟨h, fun hj => ?_, ?_⟩, fun _ => ?_⟩
  · cases hop : l.op <;> simp_all [Opcode.isJump, Opcode.isFree]
  · cases hop : l.op <;> simp_all [Opcode.isComputedJump, Opcode.isFree]
  · have hb : lim.bound? (words all) l.op = none := by
      cases hop : l.op <;> simp_all [Limits.bound?, Opcode.isFree]
    simp [Limits.admits, hb]

variable {op : Opcode}

/-- An instruction with an index in range is sound. -/
theorem sound_indexed {k : Kind} {index : Int} {bound : Nat} (hk : op.kinds.contains k) (hj : op.isJump = false)
    (hb : lim.bound? (words all) op = some bound) (small : bound ≤ operandLimit) (nonneg : 0 ≤ index)
    (lt : index < bound) : Sound lim addressOf all pos (indexed op k index) where
  kinds := hk
  args := by
    have := Limits.operandWords_of_bound (Instr.op?_make op k) hb
    rw [Instr.operandWords_make] at this
    exact this.symm
  jump h := by rw [show op.isJump = true from h] at hj; cases hj
  written := by cases op <;> first | rfl | cases hb
  admitted _ := by
    have hlt : index < operandLimit := by omega
    simp only [Limits.admits, indexed, Instr.op?_make, Option.bind_some, hb, operands,
      Item.resolveFrom, Item.resolve, Item.int]
    rw [toInt_ofInt_operand nonneg hlt]
    simp [nonneg, lt]

/-- A jump lands when a line begins where it leads. -/
theorem landing_jump {i : Item L} {q : Nat} (hk : op.kinds.contains .none) (hj : op.isJump)
    (hi : i.resolve addressOf (pos + 1) = UInt32.ofNat q) (target : q ∈ boundaries 0 all) :
    Landing addressOf all pos ⟨op, .none, [i]⟩ where
  kinds := hk
  args := by
    cases op with
    | jump | branchTrue | branchFalse => rfl
    | _ => cases hj
  jump _ := ⟨q, target, by simp [operands, Item.resolveFrom, hi]⟩
  written := by
    cases op with
    | jump | branchTrue | branchFalse => rfl
    | _ => cases hj

end Line

namespace Variable

variable {lim : Limits} {v : Variable}

theorem Fits.mem_kinds (h : v.Fits lim) : [Kind.int, .float, .obj].contains v.kind :=
  Kind.ofTy_mem_of_ne_none h.kind

theorem Fits.lt_operandLimit (h : v.Fits lim) (small : lim.Small) : v.index < operandLimit := by
  have hlt := h.lt
  have hglobals := small.globals
  have hlocals := small.locals
  split at hlt <;> omega

variable {all : List (Line Label)}

variable {addressOf : Label → Nat} {pos : Nat}

theorem Fits.sound_load (h : v.Fits lim) (small : lim.Small) :
    Line.Sound lim addressOf all pos (.indexed v.loadCode v.kind v.index) := by
  have hlt := h.lt
  cases hg : v.isGlobal with
  | true =>
    simp only [loadCode, hg, if_true] at hlt ⊢
    exact Line.sound_indexed h.mem_kinds rfl rfl small.globals h.nonneg hlt
  | false =>
    simp only [loadCode, hg, Bool.false_eq_true, if_false] at hlt ⊢
    exact Line.sound_indexed h.mem_kinds rfl rfl small.locals h.nonneg hlt

theorem Fits.sound_store (h : v.Fits lim) (small : lim.Small) :
    Line.Sound lim addressOf all pos (.indexed v.storeCode v.kind v.index) := by
  have hlt := h.lt
  cases hg : v.isGlobal with
  | true =>
    simp only [storeCode, hg, if_true] at hlt ⊢
    exact Line.sound_indexed h.mem_kinds rfl rfl small.globals h.nonneg hlt
  | false =>
    simp only [storeCode, hg, Bool.false_eq_true, if_false] at hlt ⊢
    exact Line.sound_indexed h.mem_kinds rfl rfl small.locals h.nonneg hlt

end Variable

namespace Line

variable {P : Nat → Line Label → Prop} {addressOf : Label → Nat} {handle : String → UInt64}
  {all : List (Line Label)} {A : Access → Prop}

/-- A property of lines in their places that holds of the lines of terms and commands, if their accesses
have `A`. -/
structure Lawful (A : Access → Prop) (addressOf : Label → Nat) (all : List (Line Label))
    (P : Nat → Line Label → Prop) : Prop where
  free : ∀ {pos l}, l.Formed → l.op.isFree → P pos l
  load : ∀ {pos v}, A (.load v) → P pos (.indexed v.loadCode v.kind v.index)
  store : ∀ {pos v}, A (.store v) → P pos (.indexed v.storeCode v.kind v.index)
  call : ∀ {pos index}, A (.call index) → P pos (.indexed .call .none index)
  jump : ∀ {pos op i q}, op.kinds.contains .none → op.isJump → i.resolve addressOf (pos + 1) = UInt32.ofNat q →
    q ∈ boundaries 0 all → P pos ⟨op, .none, [i]⟩

theorem lawful_sound {lim : Limits} (small : lim.Small) :
    Lawful (Access.Fits lim) addressOf all (Sound lim addressOf all) where
  free h := h.sound
  load h := Variable.Fits.sound_load h small
  store h := Variable.Fits.sound_store h small
  call h := sound_indexed rfl rfl rfl small.functions h.1 h.2
  jump hk hj hi target :=
    ⟨landing_jump hk hj hi target, fun h => by rw [show Opcode.isJump _ = false from h] at hj; cases hj⟩

/-- What is read or written has a machine kind. -/
def Tangible (a : Access) : Prop := ∀ v, a = .load v ∨ a = .store v → v.kind ≠ .none

variable {pos : Nat} {x y : List (Line Label)}

variable {op : Opcode} {k : Kind}

theorem landing_indexed (index : Int) (hk : op.kinds.contains k) (hop : op.operand = .word) (hj : op.isJump = false) :
    Landing addressOf all pos (indexed op k index) where
  kinds := hk
  args := by simp [indexed, Opcode.width, hop]
  jump h := by rw [show op.isJump = true from h] at hj; cases hj
  written := by cases op <;> first | rfl | cases hop

theorem lawful_landing : Lawful Tangible addressOf all (Landing addressOf all) where
  free h hfree := (h.sound hfree : Sound ⟨0, 0, 0⟩ addressOf all _ _).toLanding
  load {_ v} h := by
    have hk : [Kind.int, .float, .obj].contains v.kind := Kind.ofTy_mem_of_ne_none (h v (.inl rfl))
    unfold Variable.loadCode
    split
    · exact landing_indexed _ hk rfl rfl
    · exact landing_indexed _ hk rfl rfl
  store {_ v} h := by
    have hk : [Kind.int, .float, .obj].contains v.kind := Kind.ofTy_mem_of_ne_none (h v (.inr rfl))
    unfold Variable.storeCode
    split
    · exact landing_indexed _ hk rfl rfl
    · exact landing_indexed _ hk rfl rfl
  call _ := landing_indexed _ rfl rfl rfl
  jump := landing_jump

section

variable (lawful : Lawful A addressOf all P)
include lawful

theorem Lawful.bare (hk : op.kinds.contains k) (free : op.isFree)
    (hop : op.operand = .none) : P pos ⟨op, k, []⟩ :=
  lawful.free ⟨hk, by simp [Opcode.width, hop]⟩ free

theorem Lawful.pushInt (v : Int32) : P pos (pushInt v) := by
  unfold Line.pushInt
  split
  · exact lawful.bare rfl rfl rfl
  · split
    · exact lawful.bare rfl rfl rfl
    · exact lawful.free ⟨rfl, rfl⟩ rfl

theorem Lawful.pushFloat (bits : UInt64) : P pos (pushFloat bits) := by
  unfold Line.pushFloat
  split
  · exact lawful.bare rfl rfl rfl
  · split
    · exact lawful.bare rfl rfl rfl
    · exact lawful.free ⟨rfl, rfl⟩ rfl

theorem Lawful.pushObj (handle : UInt64) : P pos (pushObj handle) := by
  unfold Line.pushObj
  split
  · exact lawful.bare rfl rfl rfl
  · exact lawful.free ⟨rfl, rfl⟩ rfl

end

/-- The lines `ls` have a property wherever they stand. -/
def Row (P : Nat → Line Label → Prop) (all : List (Line Label)) (ls : List (Line Label)) : Prop :=
  ∀ a b, all = a ++ ls ++ b → Each P (words a) ls

theorem Row.append (hx : Row P all x) (hy : Row P all y) : Row P all (x ++ y) := by
  intro a b hall
  refine each_append.2 ⟨hx a (y ++ b) (by simp [hall]), ?_⟩
  rw [← words_append]
  exact hy (a ++ x) b (by simp [hall])

theorem Row.single {l : Line Label} (h : ∀ pos, P pos l) : Row P all [l] :=
  fun _ _ _ => ⟨h _, trivial⟩

/-- The short jumps of a connective lead to lines of its own and to its end. -/
theorem Row.connective (lawful : Lawful A addressOf all P) {branch : Opcode} {short : Int32}
    (hk : branch.kinds.contains .none) (hj : branch.isJump) (hshort : (pushInt short : Line Label).args = [])
    (hx : Row P all x) (hy : Row P all y) : Row P all (connectiveLines branch short x y) := by
  intro a b hall
  have hbranch : P (words a + words x) ⟨branch, .none, [.ahead (words y + 2)]⟩ := by
    refine lawful.jump hk hj rfl (mem_boundaries.2
      ⟨a ++ x ++ ⟨branch, .none, [.ahead (words y + 2)]⟩ :: y ++ [⟨.jump, .none, [.ahead 1]⟩],
        Line.pushInt short :: b, by simp [hall, connectiveLines], ?_⟩)
    simp only [words_append, words_cons, words_nil, List.length_singleton]
    omega
  have hjump : P (words a + words x + (1 + 1 + words y)) ⟨.jump, .none, [.ahead 1]⟩ := by
    refine lawful.jump rfl rfl rfl (mem_boundaries.2
      ⟨a ++ connectiveLines branch short x y, b, hall, ?_⟩)
    simp only [connectiveLines, words_append, words_cons, words_nil, List.length_singleton, hshort,
      List.length_nil]
    omega
  have hxrow := hx a (⟨branch, .none, [.ahead (words y + 2)]⟩ :: y ++
    [⟨.jump, .none, [.ahead 1]⟩, pushInt short] ++ b) (by simp [hall, connectiveLines])
  have hyrow := hy (a ++ x ++ [⟨branch, .none, [.ahead (words y + 2)]⟩])
    ([⟨.jump, .none, [.ahead 1]⟩, pushInt short] ++ b) (by simp [hall, connectiveLines])
  rw [connectiveLines, List.append_assoc, List.cons_append]
  refine each_append.2 ⟨hxrow, hbranch, each_append.2 ⟨?_, ?_, lawful.pushInt _, trivial⟩⟩
  · simpa [Nat.add_assoc] using hyrow
  · simpa [Nat.add_assoc] using hjump

end Line

namespace Term

variable {P : Nat → Line Label → Prop} {addressOf : Label → Nat} {handle : String → UInt64}
  {all : List (Line Label)} {A : Access → Prop}

open Line (Row Lawful)

theorem row_of_linesOf {ts : List Term} (h : ∀ t ∈ ts, Row P all (t.lines handle)) :
    Row P all (linesOf handle ts) := by
  induction ts with
  | nil => exact fun _ _ _ => trivial
  | cons t ts ih =>
    obtain ⟨ht, hts⟩ := List.forall_mem_cons.1 h
    exact ht.append (ih hts)

/-- A term with defined operations has lawful lines wherever it stands, if its accesses are. -/
theorem row_of_lines (lawful : Lawful A addressOf all P) (t : Term) (defined : t.Defined)
    (fits : ∀ a ∈ t.accesses, A a) : Row P all (t.lines handle) := by
  induction t using Term.induct with
  | int v => exact .single fun _ => lawful.pushInt v
  | float bits => exact .single fun _ => lawful.pushFloat bits
  | text s => exact .single fun _ => lawful.pushObj _
  | load v => exact .single fun _ => lawful.load (fits (.load v) (List.mem_singleton.2 rfl))
  | unary op k x ihx =>
    exact (ihx defined.2 fits).append (.single fun _ => lawful.bare defined.1 rfl rfl)
  | binary op k x y ihx ihy =>
    obtain ⟨fx, fy⟩ := List.forall_mem_append.1 fits
    exact ((ihx defined.2.1 fx).append (ihy defined.2.2 fy)).append
      (.single fun _ => lawful.bare defined.1 rfl rfl)
  | both x y ihx ihy | either x y ihx ihy =>
    obtain ⟨fx, fy⟩ := List.forall_mem_append.1 fits
    exact Row.connective lawful rfl rfl rfl (ihx defined.1 fx) (ihy defined.2 fy)
  | select k c a b ihc iha ihb =>
    obtain ⟨fca, fb⟩ := List.forall_mem_append.1 fits
    obtain ⟨fc, fa⟩ := List.forall_mem_append.1 fca
    exact (((ihc defined.2.1 fc).append (iha defined.2.2.1 fa)).append
      (ihb defined.2.2.2 fb)).append (.single fun _ => lawful.bare defined.1 rfl rfl)
  | call index args ih =>
    obtain ⟨fargs, fcall⟩ := List.forall_mem_append.1 fits
    have hargs (t : Term) (ht : t ∈ args) : Row P all (t.lines handle) :=
      ih t ht (definedAll_iff.1 defined t ht) fun a ha => fargs a (mem_accessesOf.2 ⟨t, ht, ha⟩)
    exact (row_of_linesOf hargs).append (.single fun _ => lawful.call (fcall _ (List.mem_singleton.2 rfl)))
  | callValue f args ihf ih =>
    obtain ⟨fargs, ff⟩ := List.forall_mem_append.1 fits
    have hargs (t : Term) (ht : t ∈ args) : Row P all (t.lines handle) :=
      ih t ht (definedAll_iff.1 defined.1 t ht) fun a ha => fargs a (mem_accessesOf.2 ⟨t, ht, ha⟩)
    exact ((row_of_linesOf hargs).append (ihf defined.2 ff)).append
      (.single fun _ => lawful.bare rfl rfl rfl)

end Term

namespace Command

/-- The lines of a command. -/
def lines (handle : String → UInt64) : Command → List (Line Label)
  | store v x => x.lines handle ++ [.indexed v.storeCode v.kind v.index]
  | drop x => x.lines handle ++ [⟨.pop, .none, []⟩]
  | ret k none => [⟨.ret, k, []⟩]
  | ret k (some x) => x.lines handle ++ [⟨.ret, k, []⟩]
  | jump l => [⟨.jump, .none, [.address l]⟩]
  | branchTrue x l => x.lines handle ++ [⟨.branchTrue, .none, [.address l]⟩]
  | branchFalse x l => x.lines handle ++ [⟨.branchFalse, .none, [.address l]⟩]
  | place _ => []
  | halt => [⟨.halt, .none, []⟩]

theorem row_lines (handle : String → UInt64) (c : Command) :
    Line.row (c.lines handle) = c.items handle := by
  cases c with
  | store v x => simp [lines, items, Term.row_lines, Line.items_indexed]
  | drop x | branchTrue x l | branchFalse x l => simp [lines, items, Term.row_lines, Line.items]
  | ret k value => cases value <;> simp [lines, items, Term.row_lines, Line.items]
  | jump l | halt => simp [lines, items, Line.items]
  | place l => rfl

end Command

/-- The lines of the end of a unit. -/
def epilogueLines (output : Option Ty) : List (Line Label) :=
  match output with
  | none => []
  | some out =>
    let k := Kind.ofTy out
    if out.kind = .void then [⟨.ret, .none, []⟩]
    else if k = .obj then [⟨.pushNull, k, []⟩, ⟨.ret, k, []⟩]
    else [⟨.pushZero, k, []⟩, ⟨.ret, k, []⟩]

theorem row_epilogueLines (output : Option Ty) : Line.row (epilogueLines output) = epilogue output := by
  cases output with
  | none => rfl
  | some out =>
    simp only [epilogueLines, epilogue]
    split
    · rfl
    · split <;> rfl

/-- The lines of several commands. -/
def bodyLines (handle : String → UInt64) (commands : List Command) : List (Line Label) :=
  commands.flatMap (·.lines handle)

theorem row_bodyLines (handle : String → UInt64) (commands : List Command) :
    Line.row (bodyLines handle commands) = commands.flatMap (·.items handle) := by
  induction commands with
  | nil => rfl
  | cons c commands ih =>
    rw [bodyLines, List.flatMap_cons, Line.row_append, ← bodyLines, ih, Command.row_lines,
      List.flatMap_cons]

/-- The lines of a unit. -/
def unitLines (handle : String → UInt64) (output : Option Ty) (commands : List Command) :
    List (Line Label) :=
  bodyLines handle commands ++ epilogueLines output

/-- The position at which a unit places a label. -/
def labelAddress (handle : String → UInt64) (commands : List Command) (l : Label) : Nat :=
  ((placements handle 0 commands).lookup l).getD 0

theorem ofList_assemble (handle : String → UInt64) (output : Option Ty) (commands : List Command) :
    Code.ofList (assemble handle output commands) =
      Line.code (labelAddress handle commands) (unitLines handle output commands) := by
  rw [Line.code, unitLines, Line.row_append, row_bodyLines, row_epilogueLines]
  rfl

theorem placements_cons (handle : String → UInt64) (pos : Nat) (c : Command)
    (commands : List Command) : placements handle pos (c :: commands) =
      (match c with | .place l => [(l, pos)] | _ => []) ++
        placements handle (pos + Line.words (c.lines handle)) commands := by
  rw [Line.words, Command.row_lines]
  cases c <;> rfl

variable {handle : String → UInt64} {commands : List Command} {l : Label}

/-- A label is placed behind the lines of the commands in front of it. -/
theorem mem_placements {pos q : Nat} : (l, q) ∈ placements handle pos commands ↔
      ∃ a b, commands = a ++ .place l :: b ∧ q = pos + Line.words (bodyLines handle a) := by
  induction commands generalizing pos with
  | nil => simp [placements]
  | cons c commands ih =>
    rw [placements_cons, List.mem_append, ih]
    constructor
    · rintro (h | ⟨a, b, rfl, rfl⟩)
      · cases c with
        | place l' =>
          obtain ⟨rfl, rfl⟩ : l = l' ∧ q = pos := by simpa using h
          exact ⟨[], commands, rfl, rfl⟩
        | _ => cases h
      · exact ⟨c :: a, b, rfl, by simp [bodyLines, Nat.add_assoc]⟩
    · rintro ⟨a, b, hab, rfl⟩
      cases a with
      | nil =>
        obtain ⟨rfl, rfl⟩ := List.cons.inj hab
        exact .inl (by simp [bodyLines])
      | cons c' a =>
        obtain ⟨rfl, rfl⟩ := List.cons.inj hab
        exact .inr ⟨a, b, rfl, by simp [bodyLines, Nat.add_assoc]⟩

/-- The label of a unit is placed somewhere in it. -/
theorem exists_labelAddress (handle : String → UInt64) (placed : .place l ∈ commands) :
    ∃ a b, commands = a ++ .place l :: b ∧
      labelAddress handle commands l = Line.words (bodyLines handle a) := by
  obtain ⟨a, b, hab⟩ := List.append_of_mem placed
  have hmem : (l, 0 + Line.words (bodyLines handle a)) ∈ placements handle 0 commands :=
    mem_placements.2 ⟨a, b, hab, rfl⟩
  cases hlook : (placements handle 0 commands).lookup l with
  | none =>
    rw [List.lookup_eq_none_iff] at hlook
    exact absurd (hlook _ hmem) (by simp)
  | some q =>
    obtain ⟨l₁, l₂, heq, -⟩ := List.lookup_eq_some_iff.1 hlook
    have hq : (l, q) ∈ placements handle 0 commands := by simp [heq]
    obtain ⟨a', b', hab', rfl⟩ := mem_placements.1 hq
    exact ⟨a', b', hab', by simp [labelAddress, hlook]⟩

theorem labelAddress_mem_boundaries (output : Option Ty) (placed : .place l ∈ commands) :
    labelAddress handle commands l ∈ Line.boundaries 0 (unitLines handle output commands) := by
  obtain ⟨a, b, rfl, h⟩ := exists_labelAddress handle placed
  rw [h]
  exact Line.mem_boundaries.2 ⟨bodyLines handle a, bodyLines handle (.place l :: b) ++
    epilogueLines output, by simp [unitLines, bodyLines], by simp⟩

/-- In a unit without unplaced labels every label in use is placed. -/
theorem place_mem_of_unplaced (h : unplaced? commands = none) {c : Command} (hc : c ∈ commands)
    (hl : c.label? = some l) : .place l ∈ commands := by
  have hused : l ∈ commands.filterMap Command.label? := List.mem_filterMap.2 ⟨c, hc, hl⟩
  have := List.find?_eq_none.1 h l hused
  simp only [Bool.not_eq_eq_eq_not, Bool.not_true, Bool.not_eq_false, List.contains_eq_mem,
    decide_eq_true_eq, List.mem_filterMap] at this
  obtain ⟨c', hc', heq⟩ := this
  cases c' with
  | place l' =>
    cases heq
    exact hc'
  | _ => cases heq

section

variable {P : Nat → Line Label → Prop} {addressOf : Label → Nat} {all : List (Line Label)} {A : Access → Prop}

open Line (Row Lawful)

/-- A command with defined operations has lawful lines wherever it stands, if its accesses are and
its label is the beginning of a line. -/
theorem Command.row_of_lines (lawful : Lawful A addressOf all P) (handle : String → UInt64) {c : Command}
    (defined : c.Defined) (fits : ∀ a ∈ c.accesses, A a)
    (labels : ∀ l, c.label? = some l → addressOf l ∈ Line.boundaries 0 all) :
    Row P all (c.lines handle) := by
  cases c with
  | store v x =>
    obtain ⟨fx, fv⟩ := List.forall_mem_append.1 fits
    exact (x.row_of_lines lawful defined fx).append
      (.single fun _ => lawful.store (fv (.store v) (List.mem_singleton.2 rfl)))
  | drop x =>
    exact (x.row_of_lines lawful defined fits).append (.single fun _ => lawful.bare rfl rfl rfl)
  | ret k value =>
    cases value with
    | none => exact .single fun _ => lawful.bare defined rfl rfl
    | some x =>
      exact (x.row_of_lines lawful defined.2 fits).append
        (.single fun _ => lawful.bare defined.1 rfl rfl)
  | jump l => exact .single fun _ => lawful.jump rfl rfl rfl (labels l rfl)
  | branchTrue x l | branchFalse x l =>
    exact (x.row_of_lines lawful defined fits).append
      (.single fun _ => lawful.jump rfl rfl rfl (labels l rfl))
  | place l => exact fun _ _ _ => trivial
  | halt => exact .single fun _ => lawful.bare rfl rfl rfl

theorem row_of_bodyLines (h : ∀ c ∈ commands, Row P all (c.lines handle)) :
    Row P all (bodyLines handle commands) := by
  induction commands with
  | nil => exact fun _ _ _ => trivial
  | cons c commands ih =>
    obtain ⟨hc, hcs⟩ := List.forall_mem_cons.1 h
    exact hc.append (ih hcs)

/-- The end of a unit returns a zero that exists for the kind of the result. -/
theorem row_of_epilogueLines (lawful : Lawful A addressOf all P) (output : Option Ty) :
    Row P all (epilogueLines output) := by
  cases output with
  | none => exact fun _ _ _ => trivial
  | some out =>
    simp only [epilogueLines]
    split
    · exact .single fun _ => lawful.bare rfl rfl rfl
    · next hvoid =>
      split
      · next hobj =>
        rw [hobj]
        exact .append (x := [_]) (.single fun _ => lawful.bare rfl rfl rfl)
          (.single fun _ => lawful.bare rfl rfl rfl)
      · next hobj =>
        have hkind : Kind.ofTy out = .int ∨ Kind.ofTy out = .float := by
          rcases Kind.ofTy_cases out with hk | hk | hk | hk
          · exact absurd (Kind.ofTy_eq_none.1 hk) hvoid
          · exact .inl hk
          · exact .inr hk
          · exact absurd hk hobj
        rcases hkind with hk | hk <;> rw [hk] <;>
          exact .append (x := [_]) (.single fun _ => lawful.bare rfl rfl rfl)
            (.single fun _ => lawful.bare rfl rfl rfl)

end

/-- The lines of a unit are lawful when its commands have defined operations, its accesses are and its
labels are placed. -/
theorem each_unitLines {A : Access → Prop} {P : Nat → Line Label → Prop} {output : Option Ty}
    (lawful : Line.Lawful A (labelAddress handle commands) (unitLines handle output commands) P)
    (defined : ∀ c ∈ commands, c.Defined) (fits : ∀ c ∈ commands, ∀ a ∈ c.accesses, A a)
    (placed : unplaced? commands = none) : Line.Each P 0 (unitLines handle output commands) := by
  have hbody : Line.Row P (unitLines handle output commands) (bodyLines handle commands) := by
    refine row_of_bodyLines fun c hc => Command.row_of_lines lawful handle (defined c hc) (fits c hc) ?_
    intro l hl
    exact labelAddress_mem_boundaries output (place_mem_of_unplaced placed hc hl)
  exact hbody.append (row_of_epilogueLines lawful output) [] [] (by simp [unitLines])

/-- The lines of a unit are sound when its commands have defined operations and accesses in
range and its labels are placed. -/
theorem each_sound_unitLines {lim : Limits} (small : lim.Small) (handle : String → UInt64) (output : Option Ty)
    (defined : ∀ c ∈ commands, c.Defined) (fits : ∀ c ∈ commands, ∀ a ∈ c.accesses, a.Fits lim)
    (placed : unplaced? commands = none) :
    Line.Each (Line.Sound lim (labelAddress handle commands) (unitLines handle output commands)) 0
      (unitLines handle output commands) :=
  each_unitLines (Line.lawful_sound small) defined fits placed

end Stackwork
