import Stackwork.Proofs.Code.Boundary
import Stackwork.Proofs.Code.Encoding

/-!
# Rows of instructions

Assembly that is made of whole instructions. A line is an instruction with its operands;
the code that a row of lines becomes has its starts exactly where the lines begin, reads
back the instruction and the operands of each line, and is verified when every line is
well formed and its operand is in range. What an instruction addresses, a slot, a routine
or an object, is read off the code and off the lines in the same way.
-/
namespace Stackwork

open Instr Item Option
open List (cons_append)

/-- An instruction with its operands, before addresses are known. -/
structure Line (L : Type) where
  op : Opcode
  kind : Kind
  args : List (Item L) := []

namespace Line

variable {L : Type}

def items (l : Line L) : List (Item L) := .instr l.op l.kind :: l.args

/-- The assembly of several lines. -/
def row (ls : List (Line L)) : List (Item L) := ls.flatMap items

/-- The number of words of several lines. -/
def words (ls : List (Line L)) : Nat := (row ls).length

@[simp] theorem row_nil : row ([] : List (Line L)) = [] := rfl

@[simp] theorem row_cons (l : Line L) (ls : List (Line L)) : row (l :: ls) = l.items ++ row ls := rfl

@[simp] theorem row_append (a b : List (Line L)) : row (a ++ b) = row a ++ row b := by
  simp [row]

@[simp] theorem words_nil : words ([] : List (Line L)) = 0 := rfl

@[simp] theorem words_cons (l : Line L) (ls : List (Line L)) :
    words (l :: ls) = 1 + l.args.length + words ls := by
  simp only [words, row_cons, items, List.length_append, List.length_cons]
  omega

@[simp] theorem words_append (a b : List (Line L)) : words (a ++ b) = words a + words b := by
  simp [words]

/-- The instruction exists, and it has as many operands as it takes. -/
structure Formed (l : Line L) : Prop where
  kinds : l.op.kinds.contains l.kind
  args : l.args.length = l.op.width l.kind

/-- The positions at which lines begin, from `pos` on, and the one behind the last. -/
def boundaries : Nat → List (Line L) → List Nat
  | pos, [] => [pos]
  | pos, l :: ls => pos :: boundaries (pos + (1 + l.args.length)) ls

theorem mem_boundaries {pos p : Nat} {ls : List (Line L)} :
    p ∈ boundaries pos ls ↔ ∃ a b, ls = a ++ b ∧ p = pos + words a := by
  induction ls generalizing pos with
  | nil => simp [boundaries]
  | cons l ls ih =>
    rw [boundaries, List.mem_cons, ih]
    constructor
    · rintro (rfl | ⟨a, b, rfl, rfl⟩)
      · exact ⟨[], l :: ls, rfl, by simp⟩
      · exact ⟨l :: a, b, rfl, by simp [Nat.add_assoc]⟩
    · rintro ⟨a, b, hab, rfl⟩
      cases a with
      | nil => simp
      | cons l' a =>
        obtain ⟨rfl, rfl⟩ := List.cons.inj hab
        exact .inr ⟨a, b, rfl, by simp [Nat.add_assoc]⟩

end Line

namespace Code

theorem startsFrom_skip (pos : Nat) (ws rest : List UInt32) :
    startsFrom pos ws.length (ws ++ rest) = startsFrom (pos + ws.length) 0 rest := by
  induction ws generalizing pos with
  | nil => rfl
  | cons w ws ih =>
    rw [List.length_cons, cons_append, startsFrom, ih]
    congr 1
    omega

end Code

namespace Line

variable {L : Type} {addressOf : L → Nat}

theorem resolveFrom_items (addressOf : L → Nat) (pos : Nat) (l : Line L) :
    resolveFrom addressOf pos l.items =
      (make l.op l.kind).word :: resolveFrom addressOf (pos + 1) l.args := rfl

variable {ls a b : List (Line L)} {P : Nat → Line L → Prop} {pos : Nat}

/-- A reading of the code of some lines finds an instruction where a line begins. -/
theorem startsFrom_row (formed : ∀ l ∈ ls, l.Formed) (pos : Nat) :
    Code.startsFrom pos 0 (resolveFrom addressOf pos (row ls)) = boundaries pos ls := by
  induction ls generalizing pos with
  | nil => rfl
  | cons l ls ih =>
    obtain ⟨hl, hls⟩ := List.forall_mem_cons.1 formed
    rw [row_cons, resolveFrom_append, resolveFrom_items, cons_append, Code.startsFrom, boundaries]
    have hlen : (make l.op l.kind).operandWords =
        (resolveFrom addressOf (pos + 1) l.args).length := by simp [hl.args]
    change pos :: Code.startsFrom (pos + 1) (make l.op l.kind).operandWords _ = _
    rw [hlen, Code.startsFrom_skip, ← ih hls]
    simp [items, Nat.add_assoc, Nat.add_comm]

/-- Every line has a property, which may depend on where it begins. -/
def Each (P : Nat → Line L → Prop) : Nat → List (Line L) → Prop
  | _, [] => True
  | pos, l :: ls => P pos l ∧ Each P (pos + (1 + l.args.length)) ls

theorem each_append : Each P pos (a ++ b) ↔ Each P pos a ∧ Each P (pos + words a) b := by
  induction a generalizing pos with
  | nil => simp [Each]
  | cons l a ih => simp [Each, ih, and_assoc, Nat.add_assoc]

theorem each_iff : Each P pos ls ↔ ∀ a l b, ls = a ++ l :: b → P (pos + words a) l := by
  constructor
  · rintro h a l b rfl
    exact (each_append.1 h).2.1
  · intro h
    induction ls generalizing pos with
    | nil => trivial
    | cons l ls ih =>
      refine ⟨h [] l ls rfl, ih ?_⟩
      intro a l' b hab
      have := h (l :: a) l' b (by rw [hab]; rfl)
      simpa [Nat.add_assoc] using this

theorem each_mono {Q : Nat → Line L → Prop} (h : Each P pos ls) (himp : ∀ p l, l ∈ ls → P p l → Q p l) :
    Each Q pos ls := by
  rw [each_iff] at h ⊢
  rintro a l b rfl
  exact himp _ _ (by simp) (h a l b rfl)

/-- The operands of a line that begins at `pos`. -/
def operands (addressOf : L → Nat) (pos : Nat) (l : Line L) : List UInt32 :=
  Item.resolveFrom addressOf (pos + 1) l.args

/-- The code of some lines passes verification when each line is well formed and has its
operand in range. -/
theorem verifyFrom_row {lim : Limits} {size : Nat}
    (h : Each (fun p l => l.Formed ∧ lim.admits size (make l.op l.kind) (l.operands addressOf p)) pos ls) :
    verifyFrom lim size pos (resolveFrom addressOf pos (row ls)) = .ok () := by
  induction ls generalizing pos with
  | nil => simp [resolveFrom, verifyFrom]
  | cons l ls ih =>
    obtain ⟨⟨formed, admitted⟩, hls⟩ := h
    have hlen : (make l.op l.kind).operandWords = (l.operands addressOf pos).length := by
      simp [operands, formed.args]
    rw [row_cons, resolveFrom_append, resolveFrom_items, cons_append,
      verifyFrom_cons_eq_ok, hlen, ← operands, List.take_left, List.drop_left]
    refine ⟨by rw [valid_make]; exact formed.kinds, by simp, admitted, ?_⟩
    have := ih hls
    simpa [operands, items, Nat.add_assoc, Nat.add_comm, Nat.add_left_comm] using this

/-- The code that some lines become. -/
def code (addressOf : L → Nat) (ls : List (Line L)) : Code :=
  .ofList (Item.resolveFrom addressOf 0 (row ls))

@[simp] theorem toList_code (addressOf : L → Nat) (ls : List (Line L)) :
    (code addressOf ls).toList = resolveFrom addressOf 0 (row ls) := by
  simp [code, Code.ofList, Code.toList]

@[simp] theorem size_code (addressOf : L → Nat) (ls : List (Line L)) :
    (code addressOf ls).size = words ls := by
  simp [code, Code.ofList, Code.size, words]

variable {p : Nat} {l : Line L} {w : UInt32}

theorem start_code (formed : ∀ l ∈ ls, l.Formed) : (code addressOf ls).Start p ↔ p ∈ boundaries 0 ls := by
  rw [Code.start_iff_mem_starts, Code.starts, toList_code, startsFrom_row formed]

/-- The words of a code from the beginning of a line on. -/
theorem drop_code (addressOf : L → Nat) (a b : List (Line L)) (l : Line L) :
    (code addressOf (a ++ l :: b)).toList.drop (words a) =
      (make l.op l.kind).word :: l.operands addressOf (words a) ++
        resolveFrom addressOf (words a + (1 + l.args.length)) (row b) := by
  rw [toList_code, row_append, resolveFrom_append, List.drop_left' (by simp [words]),
    row_cons, resolveFrom_append, resolveFrom_items, Nat.zero_add]
  simp [operands, items, words, Nat.add_comm]

theorem instr?_code (addressOf : L → Nat) (a b : List (Line L)) (l : Line L) :
    (code addressOf (a ++ l :: b)).instr? (words a) = some (make l.op l.kind) :=
  Code.instr?_of_drop (drop_code addressOf a b l)

/-- The operands of a line follow its instruction. -/
theorem word?_code {i : Nat} (h : (l.operands addressOf (words a))[i]? = some w) :
    (code addressOf (a ++ l :: b)).word? ((words a : Int) + 1 + i) = some w := by
  have hdrop := drop_code addressOf a b l
  obtain ⟨hi, -⟩ := List.getElem?_eq_some_iff.1 h
  have hword : (code addressOf (a ++ l :: b)).toList[words a + (i + 1)]? = some w := by
    rw [← List.getElem?_drop, hdrop, cons_append, List.getElem?_cons_succ,
      List.getElem?_append_left hi, h]
  have hpos : (words a : Int) + 1 + i = (words a + (i + 1) : Nat) := by omega
  rw [hpos, Code.word?_natCast, ← Array.getElem?_toList]
  exact hword

/-- The operand of a line with one. -/
theorem int?_code (h : l.operands addressOf (words a) = [w]) :
    (code addressOf (a ++ l :: b)).int? ((words a : Int) + 1) = some w.toInt32 := by
  have hw : (code addressOf (a ++ l :: b)).word? ((words a : Int) + 1 + (0 : Nat)) = some w :=
    word?_code (by rw [h]; rfl)
  rw [Int.natCast_zero, Int.add_zero] at hw
  rw [Code.int?, hw]
  rfl

/-- A line is well formed, and if it jumps, the address is written in it and is the beginning of a
line or the end. -/
structure Landing (addressOf : L → Nat) (all : List (Line L)) (pos : Nat) (l : Line L) : Prop
    extends l.Formed where
  jump : l.op.isJump → ∃ q ∈ boundaries 0 all, l.operands addressOf pos = [UInt32.ofNat q]
  written : l.op.isComputedJump = false

/-- A line is well formed, a jump leads to the beginning of a line or to the end, and any
other operand is in range. -/
structure Sound (lim : Limits) (addressOf : L → Nat) (all : List (Line L)) (pos : Nat)
    (l : Line L) : Prop extends Landing addressOf all pos l where
  admitted : l.op.isJump = false →
    lim.admits (words all) (Instr.make l.op l.kind) (l.operands addressOf pos)

theorem formed_of_each (hP : ∀ p l, P p l → l.Formed) (h : Each P pos ls) : ∀ l ∈ ls, l.Formed := by
  intro l hl
  obtain ⟨a, b, rfl⟩ := List.append_of_mem hl
  exact hP _ l (each_append.1 h).2.1

theorem le_of_mem_boundaries {q : Nat} (h : q ∈ boundaries 0 ls) : q ≤ words ls := by
  obtain ⟨a, b, rfl, rfl⟩ := mem_boundaries.1 h
  simp

variable {lim : Limits} {ls : List (Line L)}

/-- Code of sound lines passes verification. -/
theorem verify_code (small : words ls < operandLimit) (h : Each (Sound lim addressOf ls) 0 ls) :
    (code addressOf ls).verify lim = .ok () := by
  rw [Code.verify, toList_code, size_code]
  refine verifyFrom_row (each_mono h fun p l _ hl => ⟨hl.toFormed, ?_⟩)
  cases hj : l.op.isJump with
  | false => exact hl.admitted hj
  | true =>
    obtain ⟨q, hq, hop⟩ := hl.jump hj
    have hle := le_of_mem_boundaries hq
    have hbound : lim.bound? (words ls) l.op = some (words ls + 1) := by
      cases hlop : l.op <;> simp_all [Opcode.isJump, Limits.bound?]
    simp only [Limits.admits, op?_make, bind_some, hbound, hop]
    rw [toInt_ofNat_operand (Nat.lt_of_le_of_lt hle small)]
    simp only [Bool.and_eq_true, decide_eq_true_eq]
    omega

/-- At a start that has an opcode, a line begins. -/
theorem exists_line_of_start (hP : ∀ p l, P p l → l.Formed) (h : Each P 0 ls) (hp : (code addressOf ls).Start p)
    {op : Opcode} (hop : (code addressOf ls).op? p = some op) :
    ∃ a l b, ls = a ++ l :: b ∧ p = words a ∧ op = l.op ∧ P (words a) l := by
  obtain ⟨a, b, rfl, rfl⟩ := mem_boundaries.1 ((start_code (formed_of_each hP h)).1 hp)
  rw [Nat.zero_add] at hop ⊢
  cases b with
  | nil =>
    obtain ⟨i, hi, -⟩ := bind_eq_some_iff.1 hop
    have := Code.lt_size hi
    rw [size_code, List.append_nil] at this
    omega
  | cons l b =>
    rw [Code.op?, instr?_code, bind_some, op?_make] at hop
    cases hop
    have hl := (each_append.1 h).2.1
    rw [Nat.zero_add] at hl
    exact ⟨a, l, b, rfl, rfl, rfl, hl⟩

/-- Code of lines that jump to lines is aligned. -/
theorem aligned_code (small : words ls < operandLimit) (h : Each (Landing addressOf ls) 0 ls) :
    (code addressOf ls).Aligned := by
  intro p hp v hv
  obtain ⟨op, hop, htarget⟩ := bind_eq_some_iff.1 hv
  obtain ⟨a, l, b, rfl, rfl, rfl, landing⟩ := exists_line_of_start (fun _ _ hl => hl.toFormed) h hp hop
  split at htarget
  · next hj =>
    obtain ⟨q, hq, hoperands⟩ := landing.jump hj
    rw [int?_code hoperands] at htarget
    cases htarget
    refine ⟨q, (start_code (formed_of_each (fun _ _ hl => hl.toFormed) h)).2 hq, ?_⟩
    exact toInt_ofNat_operand (Nat.lt_of_le_of_lt (le_of_mem_boundaries hq) small)
  · cases htarget

theorem straight_code (h : Each (Landing addressOf ls) 0 ls) : (code addressOf ls).Straight := by
  intro p hp op hop
  obtain ⟨a, l, b, -, -, rfl, landing⟩ := exists_line_of_start (fun _ _ hl => hl.toFormed) h hp hop
  exact landing.written

end Line

/-- What an instruction addresses by a number: a slot, a routine or an object. -/
structure Addressing where
  op : Opcode
  kind : Kind
  operand : Int
deriving DecidableEq

/-- What an instruction with the given operand words addresses, if anything. -/
def Addressing.of? (op : Opcode) (k : Kind) (operands : List UInt32) : Option Addressing :=
  match op, operands with
  | .loadGlobal, [w] | .storeGlobal, [w] | .loadLocal, [w] | .storeLocal, [w] | .call, [w] =>
    some ⟨op, k, w.toInt32.toInt⟩
  | .pushImm, [low, high] =>
    if k = .obj then some ⟨op, k, (Code.joinWords low high).toNat⟩ else none
  | _, _ => none

theorem Addressing.of?_of_isJump {op : Opcode} (h : op.isJump) (k : Kind) (operands : List UInt32) :
    Addressing.of? op k operands = none := by
  cases op with
  | jump | branchTrue | branchFalse => simp [of?]
  | _ => cases h

namespace Code

/-- What the instruction at a position addresses. -/
def addressing? (c : Code) (p : Nat) : Option Addressing :=
  (c.instr? p).bind fun i => i.op?.bind fun op =>
    Addressing.of? op i.kind ((c.toList.drop (p + 1)).take i.operandWords)

/-- Everything a code addresses, first to last. -/
def addressings (c : Code) : List Addressing := c.starts.filterMap c.addressing?

end Code

namespace Line

variable {L : Type} {addressOf : L → Nat}

/-- Only jumps have operands that depend on addresses of code. -/
def Plain (l : Line L) : Prop := l.op.isJump ∨ ∃ ws : List UInt32, l.args = ws.map .word

/-- What a line addresses. -/
def addressing? (l : Line L) : Option Addressing :=
  Addressing.of? l.op l.kind (l.operands (fun _ => 0) 0)

theorem resolveFrom_word (addressOf : L → Nat) (pos : Nat) (ws : List UInt32) :
    resolveFrom addressOf pos (ws.map .word) = ws := by
  induction ws generalizing pos with
  | nil => rfl
  | cons w ws ih => simp [resolveFrom, resolve, ih]

variable {l : Line L}

theorem Plain.addressing?_eq (h : l.Plain) (pos : Nat) :
    Addressing.of? l.op l.kind (l.operands addressOf pos) = l.addressing? := by
  rcases h with h | ⟨ws, h⟩
  · rw [addressing?, Addressing.of?_of_isJump h, Addressing.of?_of_isJump h]
  · rw [addressing?, operands, operands, h, resolveFrom_word, resolveFrom_word]

theorem addressing?_code {a b : List (Line L)} (formed : l.Formed) (plain : l.Plain) :
    (code addressOf (a ++ l :: b)).addressing? (words a) = l.addressing? := by
  have hlen : (make l.op l.kind).operandWords = (l.operands addressOf (words a)).length := by
    simp [operands, formed.args]
  rw [Code.addressing?, instr?_code, bind_some, op?_make, bind_some,
    kind_make, ← List.tail_drop, drop_code, cons_append, List.tail_cons, hlen,
    List.take_left, plain.addressing?_eq]

/-- The code of some lines addresses what the lines address. -/
theorem addressings_code {ls : List (Line L)} (formed : ∀ l ∈ ls, l.Formed)
    (plain : ∀ l ∈ ls, l.Plain) : (code addressOf ls).addressings = ls.filterMap addressing? := by
  have along (a b : List (Line L)) (hab : ls = a ++ b) :
      (boundaries (words a) b).filterMap (code addressOf ls).addressing? =
        b.filterMap addressing? := by
    induction b generalizing a with
    | nil =>
      have : (code addressOf ls).instr? (words a) = none := by
        cases h : (code addressOf ls).instr? (words a) with
        | none => rfl
        | some i =>
          have := Code.lt_size h
          rw [size_code, hab] at this
          simp at this
      simp [boundaries, Code.addressing?, this]
    | cons l b ih =>
      have hl : l ∈ ls := by simp [hab]
      have hrest := ih (a ++ [l]) (by simp [hab])
      rw [words_append, words_cons, words_nil, Nat.add_zero] at hrest
      have hhere : (code addressOf ls).addressing? (words a) = l.addressing? := by
        rw [hab]
        exact addressing?_code (formed l hl) (plain l hl)
      rw [boundaries, List.filterMap_cons, List.filterMap_cons, hrest, hhere]
  rw [Code.addressings, Code.starts, toList_code, startsFrom_row formed]
  exact along [] ls rfl

end Line
end Stackwork
