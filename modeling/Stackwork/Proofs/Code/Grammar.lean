import Stackwork.Proofs.Code.Boundary
import Stackwork.Proofs.Code.Encoding

/-!
# The grammar of code

A phrase is an opcode and a kind, written as one word, with its operand words behind it. It
is lawful when the opcode is defined for the kind, takes that many operands, and has its
operand in range; this is said here without any scanner. Verification accepts the rows of
lawful phrases and nothing else. A row of words can be read as phrases in one way only, and
where a code is refused, the refusal is about the first place at which no lawful phrase
stands.
-/
namespace Stackwork

open List
open Instr (make)

namespace Opcode

/-- A byte that is read as an opcode is the byte of that opcode. -/
theorem code_of_ofCode? {b : UInt8} {op : Opcode} (h : ofCode? b = some op) : op.code = b := by
  unfold ofCode? at h
  split at h <;> first
    | cases h
      next hb => exact UInt8.toNat_inj.1 hb.symm
    | cases h

end Opcode

namespace Instr

variable {i : Instr}

/-- A word with a clear upper half is made of its two low bytes. -/
theorem ofBytes_opByte_kind (h : i.word >>> 16 = 0) : ofBytes i.opByte i.kind = i := by
  obtain ⟨w⟩ := i
  simp only [ofBytes, opByte, kind, mk.injEq]
  apply UInt32.toBitVec_inj.1
  have high : w.toBitVec >>> 16 = 0 := by simpa using congrArg UInt32.toBitVec h
  simp only [UInt32.toBitVec_or, UInt8.toBitVec_toUInt32, UInt32.toBitVec_toUInt8,
    UInt32.toBitVec_shiftLeft, UInt32.toBitVec_shiftRight]
  ext j hj
  have := congrArg (·.getLsbD (j - 16)) high
  simp at this ⊢
  grind

/-- The valid words are those that are written for an opcode and one of its kinds. -/
theorem valid_iff : i.valid ↔ ∃ op k, k ∈ op.kinds ∧ i = make op k := by
  constructor
  · intro h
    obtain ⟨op, hop⟩ := exists_op_of_valid h
    simp only [valid, hop, Bool.and_eq_true, beq_iff_eq, contains_iff_mem] at h
    refine ⟨op, i.kind, h.2, ?_⟩
    rw [make, Opcode.code_of_ofCode? hop, ofBytes_opByte_kind h.1]
  · rintro ⟨op, k, hk, rfl⟩
    rw [valid_make]
    exact contains_iff_mem.2 hk

end Instr

/-- The range of an operand, in a code of `size` words. A jump may lead behind the last
word; what is pushed may be anything. -/
def Limits.InRange (lim : Limits) (size : Nat) : Opcode → Int → Prop
  | .jump, v | .branchTrue, v | .branchFalse, v => 0 ≤ v ∧ v ≤ size
  | .call, v => 0 ≤ v ∧ v < lim.functions
  | .loadGlobal, v | .storeGlobal, v => 0 ≤ v ∧ v < lim.globals
  | .loadLocal, v | .storeLocal, v => 0 ≤ v ∧ v < lim.locals
  | _, _ => True

theorem Limits.inRange_iff {lim : Limits} {size : Nat} {op : Opcode} {v : Int} :
    lim.InRange size op v ↔ ∀ bound, lim.bound? size op = some bound → 0 ≤ v ∧ v < bound := by
  cases op <;> simp [InRange, bound?] <;> omega

/-- An instruction with its operand words. -/
structure Phrase where
  op : Opcode
  kind : Kind
  operands : List UInt32
deriving DecidableEq

namespace Phrase

def instr (s : Phrase) : Instr := Instr.make s.op s.kind

def words (s : Phrase) : List UInt32 := s.instr.word :: s.operands

/-- The words of several phrases, one behind the other. -/
def text (ss : List Phrase) : List UInt32 := ss.flatMap words

@[simp] theorem text_nil : text [] = [] := rfl

@[simp] theorem text_cons (s : Phrase) (ss : List Phrase) : text (s :: ss) = s.words ++ text ss := rfl

@[simp] theorem length_words (s : Phrase) : s.words.length = 1 + s.operands.length := by
  simp [words, Nat.add_comm]

/-- The opcode is defined for the kind and has the operands it takes. -/
structure Shaped (s : Phrase) : Prop where
  kinds : s.kind ∈ s.op.kinds
  operands : s.operands.length = s.op.width s.kind

/-- The operand is in range too, read as a signed number. -/
structure Lawful (lim : Limits) (size : Nat) (s : Phrase) : Prop extends s.Shaped where
  inRange : ∀ w ∈ s.operands, lim.InRange size s.op w.toInt32.toInt

variable {s : Phrase} {ss ts : List Phrase}

theorem Shaped.valid (h : s.Shaped) : s.instr.valid :=
  Instr.valid_iff.2 ⟨s.op, s.kind, h.kinds, rfl⟩

theorem Shaped.operandWords (h : s.Shaped) : s.instr.operandWords = s.operands.length := by
  rw [instr, Instr.operandWords_make, h.operands]

/-- A word for an opcode and a kind of it, with enough words behind it, begins a phrase. -/
theorem exists_of_width_le {op : Opcode} {k : Kind} (hk : k ∈ op.kinds) {tail : List UInt32}
    (h : op.width k ≤ tail.length) :
    ∃ (s : Phrase) (rest : List UInt32), s.Shaped ∧ s.instr = make op k ∧
      (make op k).word :: tail = s.words ++ rest := by
  refine ⟨⟨op, k, tail.take (op.width k)⟩, tail.drop (op.width k), ⟨hk, length_take_of_le h⟩, rfl, ?_⟩
  change _ = (make op k).word :: (tail.take (op.width k) ++ tail.drop (op.width k))
  rw [take_append_drop]

/-- Words that begin with a phrase begin with one phrase only: its first word gives the
opcode and the kind, and these how many operands follow. -/
theorem Shaped.eq_of_words_append {t : Phrase} (hs : s.Shaped) (ht : t.Shaped) {a b : List UInt32}
    (h : s.words ++ a = t.words ++ b) : s = t ∧ a = b := by
  obtain ⟨op, kind, operands⟩ := s
  obtain ⟨op', kind', operands'⟩ := t
  obtain ⟨hword, hrest⟩ := cons.inj h
  have hinstr : make op kind = make op' kind' := congrArg Instr.mk hword
  have hop : op = op' := by simpa using congrArg Instr.op? hinstr
  have hkind : kind = kind' := by simpa using congrArg Instr.kind hinstr
  subst hop hkind
  have hlength : operands.length = operands'.length := hs.operands.trans ht.operands.symm
  obtain ⟨rfl, rfl⟩ := append_inj hrest hlength
  exact ⟨rfl, rfl⟩

/-- Phrases at the beginning of other phrases are the first of these. -/
theorem exists_of_text_append (hss : ∀ s ∈ ss, s.Shaped) (hts : ∀ t ∈ ts, t.Shaped) {rest : List UInt32}
    (h : text ss ++ rest = text ts) : ∃ us, ts = ss ++ us ∧ rest = text us := by
  induction ss generalizing ts with
  | nil => exact ⟨ts, rfl, h⟩
  | cons s ss ih =>
    cases ts with
    | nil => cases h
    | cons t ts =>
      rw [forall_mem_cons] at hss hts
      rw [text_cons, text_cons, append_assoc] at h
      obtain ⟨rfl, hrest⟩ := hss.1.eq_of_words_append hts.1 h
      obtain ⟨us, rfl, hus⟩ := ih hss.2 hts.2 hrest
      exact ⟨us, rfl, hus⟩

/-- Words are read as phrases in one way only. -/
theorem text_injective (hss : ∀ s ∈ ss, s.Shaped) (hts : ∀ t ∈ ts, t.Shaped) (h : text ss = text ts) :
    ss = ts := by
  obtain ⟨us, rfl, hus⟩ := exists_of_text_append hss hts ((append_nil _).trans h)
  cases us with
  | nil => exact (append_nil ss).symm
  | cons u us => cases hus

end Phrase

/-- Why no lawful phrase stands at the beginning of some words, which are found at `pos`:
the first of them is not written for an opcode and a kind of it, its operands are cut off,
or its operand is out of range. -/
inductive Limits.Refuses (lim : Limits) (size pos : Nat) : List UInt32 → Defect → Prop where
  | undefinedInstr {i : Instr} {rest : List UInt32} (h : ∀ op k, k ∈ op.kinds → i ≠ Instr.make op k) :
      lim.Refuses size pos (i.word :: rest) (.undefinedInstr i pos)
  | truncated {op : Opcode} {k : Kind} {rest : List UInt32} (kinds : k ∈ op.kinds)
      (short : rest.length < op.width k) :
      lim.Refuses size pos ((Instr.make op k).word :: rest) (.truncated (Instr.make op k) pos)
  | outOfRange {s : Phrase} {w : UInt32} {rest : List UInt32} (shaped : s.Shaped)
      (operand : s.operands = [w]) (out : ¬ lim.InRange size s.op w.toInt32.toInt) :
      lim.Refuses size pos (s.words ++ rest) (.outOfRange s.instr w.toInt32.toInt pos)

namespace Limits

variable {lim : Limits} {size pos : Nat} {ws : List UInt32} {d : Defect}

/-- Only opcodes with one operand have a range for it. -/
theorem width_of_not_inRange {op : Opcode} {v : Int} (h : ¬ lim.InRange size op v) (k : Kind) :
    op.width k = 1 := by
  cases op <;> first | rfl | exact absurd trivial h

theorem Refuses.pos_eq (h : lim.Refuses size pos ws d) : d.pos = pos := by
  cases h <;> rfl

theorem Refuses.ne_nil (h : lim.Refuses size pos ws d) : ws ≠ [] := by
  cases h with
  | undefinedInstr | truncated | outOfRange => exact cons_ne_nil _ _

variable {s : Phrase} {rest : List UInt32}

/-- A phrase is refused for its operand only. -/
theorem Refuses.eq_outOfRange (shaped : s.Shaped) (h : lim.Refuses size pos (s.words ++ rest) d) :
    ∃ w, s.operands = [w] ∧ ¬ lim.InRange size s.op w.toInt32.toInt ∧
      d = .outOfRange s.instr w.toInt32.toInt pos := by
  generalize hws : s.words ++ rest = ws at h
  cases h with
  | undefinedInstr hundef =>
    obtain ⟨hword, -⟩ := cons.inj hws
    exact absurd (congrArg Instr.mk hword).symm (hundef s.op s.kind shaped.kinds)
  | @truncated op k tail kinds short =>
    obtain ⟨hword, htail⟩ := cons.inj hws
    have hinstr : make s.op s.kind = make op k := congrArg Instr.mk hword
    have hop : s.op = op := by simpa using congrArg Instr.op? hinstr
    have hkind : s.kind = k := by simpa using congrArg Instr.kind hinstr
    have hlength : s.operands.length + rest.length = tail.length := by
      rw [← htail]
      exact length_append.symm
    rw [← hlength, ← hop, ← hkind, ← shaped.operands] at short
    omega
  | @outOfRange t w tail shaped' operand out =>
    obtain ⟨rfl, -⟩ := shaped.eq_of_words_append shaped' hws
    exact ⟨w, operand, out, rfl⟩

/-- Where something is refused there is no lawful phrase. -/
theorem Refuses.not_lawful (h : lim.Refuses size pos ws d) (lawful : s.Lawful lim size) :
    ws ≠ s.words ++ rest := by
  rintro rfl
  obtain ⟨w, operand, out, -⟩ := h.eq_outOfRange lawful.toShaped
  exact out (lawful.inRange w (by rw [operand]; exact mem_singleton_self w))

/-- At the beginning of any words there is a lawful phrase or something to refuse. -/
theorem lawful_or_refuses (lim : Limits) (size pos : Nat) (h : ws ≠ []) :
    (∃ (s : Phrase) (rest : List UInt32), s.Lawful lim size ∧ ws = s.words ++ rest) ∨
      ∃ d, lim.Refuses size pos ws d := by
  obtain ⟨w, tail, rfl⟩ := exists_cons_of_ne_nil h
  by_cases hvalid : (Instr.mk w).valid
  · obtain ⟨op, k, hk, hi⟩ := Instr.valid_iff.1 hvalid
    obtain rfl : w = (make op k).word := congrArg Instr.word hi
    by_cases hshort : tail.length < op.width k
    · exact .inr ⟨_, .truncated hk hshort⟩
    · obtain ⟨s, rest, shaped, -, hsplit⟩ := Phrase.exists_of_width_le hk (Nat.not_lt.1 hshort)
      by_cases hrange : ∀ v ∈ s.operands, lim.InRange size s.op v.toInt32.toInt
      · exact .inl ⟨s, rest, ⟨shaped, hrange⟩, hsplit⟩
      · -- An operand without a range is in it, so there is just the one operand.
        obtain ⟨v, hrange⟩ := Classical.not_forall.1 hrange
        obtain ⟨hv, hout⟩ := Classical.not_imp.1 hrange
        have hone : s.operands.length = 1 := shaped.operands.trans (width_of_not_inRange hout s.kind)
        obtain ⟨v', hs⟩ := length_eq_one_iff.1 hone
        obtain rfl : v = v' := by rwa [hs, mem_singleton] at hv
        rw [hsplit]
        exact .inr ⟨_, .outOfRange shaped hs hout⟩
  · refine .inr ⟨_, .undefinedInstr fun op k hk hi => hvalid ?_⟩
    exact Instr.valid_iff.2 ⟨op, k, hk, hi⟩

end Limits

namespace Phrase

variable {lim : Limits} {size : Nat}

/-- What verification asks of an operand of a phrase is that it is in range. -/
theorem Shaped.admits_iff {s : Phrase} (h : s.Shaped) :
    lim.admits size s.instr s.operands ↔ ∀ w ∈ s.operands, lim.InRange size s.op w.toInt32.toInt := by
  have hop : s.instr.op? = some s.op := Instr.op?_make s.op s.kind
  unfold Limits.admits
  rw [hop, Option.bind_some]
  cases hb : lim.bound? size s.op with
  | none => simp [Limits.inRange_iff, hb]
  | some bound =>
    have hone : s.operands.length = 1 := h.operandWords.symm.trans (Limits.operandWords_of_bound hop hb)
    obtain ⟨w, hw⟩ := length_eq_one_iff.1 hone
    simp [hw, Limits.inRange_iff, hb]

end Phrase

section Verification

variable {lim : Limits} {size : Nat}

variable {s : Phrase}

/-- Verification looks at the operands of a phrase and goes on behind them. -/
theorem verifyFrom_shaped (h : s.Shaped) (pos : Nat) (rest : List UInt32) :
    verifyFrom lim size pos (s.words ++ rest) =
      if lim.admits size s.instr s.operands then verifyFrom lim size (pos + s.words.length) rest
      else .error (.outOfRange s.instr ((s.operands ++ rest).headD 0).toInt32.toInt pos) := by
  rw [Phrase.words, cons_append, verifyFrom, length_cons]
  simp only [h.operandWords, h.valid, length_append, take_left, drop_left, Bool.not_true,
    Bool.false_eq_true, if_false]
  rw [if_neg (Nat.not_lt.2 (Nat.le_add_right _ _)), Nat.add_assoc, Nat.add_comm 1]

/-- Verification goes on behind a lawful phrase. -/
theorem verifyFrom_lawful (h : s.Lawful lim size) (pos : Nat) (rest : List UInt32) :
    verifyFrom lim size pos (s.words ++ rest) = verifyFrom lim size (pos + s.words.length) rest := by
  rw [verifyFrom_shaped h.toShaped, if_pos (h.toShaped.admits_iff.2 h.inRange)]

/-- Verification ends with what is refused. -/
theorem verifyFrom_refuses {pos : Nat} {ws : List UInt32} {d : Defect}
    (h : lim.Refuses size pos ws d) : verifyFrom lim size pos ws = .error d := by
  cases h with
  | @undefinedInstr i rest hundef =>
    have hvalid : ¬ i.valid := by
      rw [Instr.valid_iff]
      rintro ⟨op, k, hk, hi⟩
      exact hundef op k hk hi
    rw [verifyFrom]
    exact if_pos (by simpa using hvalid)
  | @truncated op k rest kinds short =>
    have hvalid : (make op k).valid := Instr.valid_iff.2 ⟨op, k, kinds, rfl⟩
    rw [← Instr.operandWords_make] at short
    rw [verifyFrom]
    simp only [hvalid, short, Bool.not_true, Bool.false_eq_true, if_false, if_true]
  | @outOfRange s w rest shaped operand out =>
    have hadmits : ¬ lim.admits size s.instr s.operands := by
      rw [shaped.admits_iff, operand]
      exact fun h => out (h w (mem_singleton_self w))
    rw [verifyFrom_shaped shaped, if_neg hadmits, operand]
    rfl

/-- Verification passes all lawful phrases at the beginning of some words. -/
theorem verifyFrom_text {ss : List Phrase} (h : ∀ s ∈ ss, s.Lawful lim size) (pos : Nat) (rest : List UInt32) :
    verifyFrom lim size pos (Phrase.text ss ++ rest) =
      verifyFrom lim size (pos + (Phrase.text ss).length) rest := by
  induction ss generalizing pos with
  | nil => rfl
  | cons s ss ih =>
    rw [forall_mem_cons] at h
    rw [Phrase.text_cons, append_assoc, verifyFrom_lawful h.1, ih h.2, length_append, Nat.add_assoc]

/-- Any words are lawful phrases up to their end or up to something to refuse. -/
theorem exists_reading (lim : Limits) (size pos : Nat) (ws : List UInt32) :
    ∃ ss rest, Phrase.text ss ++ rest = ws ∧ (∀ s ∈ ss, s.Lawful lim size) ∧
      (rest = [] ∨ ∃ d, lim.Refuses size (pos + (Phrase.text ss).length) rest d) := by
  induction hn : ws.length using Nat.strongRecOn generalizing pos ws with
  | _ n ih =>
    by_cases hws : ws = []
    · exact ⟨[], [], hws.symm, forall_mem_nil _, .inl rfl⟩
    · rcases lim.lawful_or_refuses size pos hws with ⟨s, tail, lawful, rfl⟩ | ⟨d, hd⟩
      · have hshorter : tail.length < n := by
          rw [← hn, length_append, Phrase.length_words]
          omega
        obtain ⟨ss, rest, rfl, hss, hrest⟩ := ih _ hshorter (pos + s.words.length) tail rfl
        refine ⟨s :: ss, rest, by simp, forall_mem_cons.2 ⟨lawful, hss⟩, ?_⟩
        rwa [Phrase.text_cons, length_append, ← Nat.add_assoc]
      · exact ⟨[], ws, rfl, forall_mem_nil _, .inr ⟨d, hd⟩⟩

end Verification

namespace Code

variable {c : Code} {lim : Limits}

theorem length_toList (c : Code) : c.toList.length = c.size := Array.length_toList

/-- The accepted codes are the rows of lawful phrases. -/
theorem verify_eq_ok_iff :
    c.verify lim = .ok () ↔ ∃ ss, Phrase.text ss = c.toList ∧ ∀ s ∈ ss, s.Lawful lim c.size := by
  constructor
  · intro h
    obtain ⟨ss, rest, htext, hss, hrest⟩ := exists_reading lim c.size 0 c.toList
    rw [verify, ← htext, verifyFrom_text hss] at h
    rcases hrest with rfl | ⟨d, hd⟩
    · exact ⟨ss, by rwa [append_nil] at htext, hss⟩
    · rw [verifyFrom_refuses hd] at h
      cases h
  · rintro ⟨ss, htext, hss⟩
    rw [verify, ← htext, ← append_nil (Phrase.text ss), verifyFrom_text hss, verifyFrom]

/-- A code is refused for what stands behind its lawful phrases. -/
theorem verify_eq_error_iff {d : Defect} :
    c.verify lim = .error d ↔ ∃ ss rest, Phrase.text ss ++ rest = c.toList ∧
      (∀ s ∈ ss, s.Lawful lim c.size) ∧ lim.Refuses c.size (Phrase.text ss).length rest d := by
  constructor
  · intro h
    obtain ⟨ss, rest, htext, hss, hrest⟩ := exists_reading lim c.size 0 c.toList
    rw [Nat.zero_add] at hrest
    rw [verify, ← htext, verifyFrom_text hss, Nat.zero_add] at h
    rcases hrest with rfl | ⟨d', hd⟩
    · rw [verifyFrom] at h
      cases h
    · rw [verifyFrom_refuses hd] at h
      cases h
      exact ⟨ss, rest, htext, hss, hd⟩
  · rintro ⟨ss, rest, htext, hss, hd⟩
    rw [verify, ← htext, verifyFrom_text hss, Nat.zero_add, verifyFrom_refuses hd]

end Code

/-- The wording of a refusal names the position. -/
theorem Defect.message_eq (d : Defect) :
    ∃ what how, d.message = what ++ " at " ++ toString d.pos ++ how := by
  cases d with
  | undefinedInstr i pos => exact ⟨_, "", (String.append_empty ..).symm⟩
  | truncated i pos => exact ⟨_, " truncated", rfl⟩
  | outOfRange i operand pos => exact ⟨_, " out of range", rfl⟩

/-- Verification accepts exactly the grammar: the rows of lawful phrases, each of which is
read in one way only. A refusal names the position of the first instruction that is not
lawful, and all before it are. -/
theorem Code.verify_accepts_grammar (c : Code) (lim : Limits) :
    (c.verify lim = .ok () ↔ ∃ ss, Phrase.text ss = c.toList ∧ ∀ s ∈ ss, s.Lawful lim c.size) ∧
    (∀ ss ts, Phrase.text ss = c.toList → Phrase.text ts = c.toList →
      (∀ s ∈ ss, s.Lawful lim c.size) → (∀ t ∈ ts, t.Lawful lim c.size) → ss = ts) ∧
    ∀ d, c.verify lim = .error d → ∃ ss rest, Phrase.text ss ++ rest = c.toList ∧
      (∀ s ∈ ss, s.Lawful lim c.size) ∧ d.pos = (Phrase.text ss).length ∧ d.pos < c.size ∧
      lim.Refuses c.size d.pos rest d ∧ (∀ s : Phrase, s.Lawful lim c.size → ¬ s.words <+: rest) ∧
      ∃ what how, d.message = what ++ " at " ++ toString d.pos ++ how := by
  refine ⟨verify_eq_ok_iff, fun ss ts hss hts lss lts => ?_, fun d hd => ?_⟩
  · exact Phrase.text_injective (fun s hs => (lss s hs).toShaped) (fun t ht => (lts t ht).toShaped)
      (hss.trans hts.symm)
  · obtain ⟨ss, rest, htext, hss, hrefuses⟩ := verify_eq_error_iff.1 hd
    have hpos := hrefuses.pos_eq
    have hinside : d.pos < c.size := by
      have hlength := congrArg List.length htext
      have hrest := List.length_pos_iff.2 hrefuses.ne_nil
      rw [List.length_append, length_toList] at hlength
      omega
    refine ⟨ss, rest, htext, hss, hpos, hinside, hpos ▸ hrefuses, ?_, d.message_eq⟩
    rintro s lawful ⟨tail, htail⟩
    exact hrefuses.not_lawful lawful htail.symm

end Stackwork
