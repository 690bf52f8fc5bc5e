import Stackwork.Code.Verify

/-!
# Instruction boundaries

A code is read as a row of instructions: the first word is one, and behind an instruction
and its operands comes the next. The positions found in this way are the starts of the
code. Verification looks at the starts only, one after the other, and what it establishes
of each of them is collected in `Limits.Accepts`.

Executing a code follows jumps, and a jump may lead into the operands of an instruction. A
code is aligned when no written jump does so, and direct when it has no jump or call whose
target comes from the stack; the starts of such a code are closed under execution.
-/
namespace Stackwork

namespace Code

@[simp] theorem word?_natCast (c : Code) (p : Nat) : c.word? p = c.words[p]? := by
  simp [word?]

@[simp] theorem word?_succ (c : Code) (p : Nat) : c.word? ((p : Int) + 1) = c.words[p + 1]? :=
  c.word?_natCast (p + 1)

/-- The positions at which a reading of the code from its first word finds an instruction,
and the position behind the last one. -/
inductive Start (c : Code) : Nat → Prop where
  | first : c.Start 0
  | next {p : Nat} {i : Instr} (h : c.Start p) (fetch : c.instr? p = some i) :
      c.Start (p + 1 + i.operandWords)

end Code

/-- Whether an opcode takes an address or a function from the stack. -/
def Opcode.isIndirect : Opcode → Bool
  | .jumpR | .branchTrueR | .branchFalseR | .callR => true
  | _ => false

/-- Whether an opcode jumps to an address from the stack. -/
def Opcode.isComputedJump : Opcode → Bool
  | .jumpR | .branchTrueR | .branchFalseR => true
  | _ => false

namespace Code

/-- The opcode of the word at a position, if it has one. -/
def op? (c : Code) (p : Nat) : Option Opcode := (c.instr? p).bind Instr.op?

/-- No instruction takes an address or a function from the stack. -/
def Direct (c : Code) : Prop := ∀ p, c.Start p → ∀ op ∈ c.op? p, op.isIndirect = false

/-- No instruction jumps to an address from the stack. -/
def Straight (c : Code) : Prop := ∀ p, c.Start p → ∀ op ∈ c.op? p, op.isComputedJump = false

theorem Direct.straight {c : Code} (h : c.Direct) : c.Straight := by
  intro p hp op hop
  have := h p hp op hop
  cases op <;> first | rfl | cases this

/-- The address to which the instruction at a position jumps, if it is a jump to a written
address. -/
def target? (c : Code) (p : Nat) : Option Int32 :=
  (c.op? p).bind fun op => if op.isJump then c.int? (p + 1) else none

/-- Every written jump leads to a start. -/
def Aligned (c : Code) : Prop :=
  ∀ p, c.Start p → ∀ v ∈ c.target? p, ∃ q, c.Start q ∧ v.toInt = q

end Code

/-- What verification establishes of the instruction `i` at position `p`. -/
structure Limits.Accepts (lim : Limits) (c : Code) (p : Nat) (i : Instr) : Prop where
  fetch : c.instr? p = some i
  valid : i.valid
  inside : p + 1 + i.operandWords ≤ c.size
  inRange : ∀ op bound, i.op? = some op → lim.bound? c.size op = some bound →
    ∃ v, c.int? (p + 1) = some v ∧ 0 ≤ v.toInt ∧ v.toInt < bound

variable {lim lim' : Limits} {size : Nat} {i : Instr}

variable {op : Opcode} {pos : Nat}

/-- An opcode whose operand has a bound takes one word. -/
theorem Limits.operandWords_of_bound {bound : Nat} (hop : i.op? = some op)
    (hb : lim.bound? size op = some bound) : i.operandWords = 1 := by
  cases op <;> simp_all [Limits.bound?, Instr.operandWords, Opcode.operand]

/-- One accepted instruction at the head of the words to be checked. -/
theorem verifyFrom_cons_eq_ok {rest : List UInt32} : verifyFrom lim size pos (i.word :: rest) = .ok () ↔
      i.valid ∧ i.operandWords ≤ rest.length ∧ lim.admits size i (rest.take i.operandWords) ∧
        verifyFrom lim size (pos + 1 + i.operandWords) (rest.drop i.operandWords) = .ok () := by
  rw [verifyFrom]
  split
  · next h => simp_all
  · next hvalid =>
    have valid : i.valid := by simpa using hvalid
    split
    · next h =>
      refine iff_of_false (fun h' => by cases h') fun h' => ?_
      exact absurd h'.2.1 (Nat.not_le.2 h)
    · next h =>
      have inside : i.operandWords ≤ rest.length := Nat.not_lt.1 h
      split
      · next admitted => exact ⟨fun h' => ⟨valid, inside, admitted, h'⟩, fun h' => h'.2.2.2⟩
      · next refused =>
        exact iff_of_false (fun h' => by cases h') fun h' => refused h'.2.2.1

/-- Limits that reach at least as far as others. -/
structure Limits.Within (lim lim' : Limits) : Prop where
  functions : lim.functions ≤ lim'.functions
  globals : lim.globals ≤ lim'.globals
  locals : lim.locals ≤ lim'.locals

theorem Limits.Within.bound (h : lim.Within lim') {bound : Nat} (hb : lim.bound? size op = some bound) :
    ∃ bound', lim'.bound? size op = some bound' ∧ bound ≤ bound' := by
  obtain ⟨hf, hg, hl⟩ := h
  cases op <;> cases hb <;> exact ⟨_, rfl, by omega⟩

theorem Limits.Within.admits (h : lim.Within lim') {operands : List UInt32} (ha : lim.admits size i operands) :
    lim'.admits size i operands := by
  unfold Limits.admits at ha ⊢
  cases hop : i.op? with
  | none => rfl
  | some op =>
    rw [hop, Option.bind_some] at ha
    rw [Option.bind_some]
    cases hb : lim.bound? size op with
    | none =>
      have : lim'.bound? size op = none := by cases op <;> first | rfl | cases hb
      rw [this]
    | some bound =>
      obtain ⟨bound', hb', hle⟩ := h.bound hb
      rw [hb] at ha
      rw [hb']
      cases operands with
      | nil => rfl
      | cons w ws =>
        simp only [Bool.and_eq_true, decide_eq_true_eq] at ha ⊢
        omega

/-- Code that passes verification also passes it with wider limits. -/
theorem verifyFrom_mono (h : lim.Within lim') {ws : List UInt32} (hv : verifyFrom lim size pos ws = .ok ()) :
    verifyFrom lim' size pos ws = .ok () := by
  induction hn : ws.length using Nat.strongRecOn generalizing pos ws with
  | _ n ih =>
    cases ws with
    | nil => simp [verifyFrom]
    | cons w rest =>
      obtain ⟨hvalid, hinside, hadmits, hrest⟩ :=
        (verifyFrom_cons_eq_ok (i := ⟨w⟩)).1 hv
      refine (verifyFrom_cons_eq_ok (i := ⟨w⟩)).2 ⟨hvalid, hinside, h.admits hadmits, ?_⟩
      refine ih _ ?_ hrest rfl
      rw [← hn, List.length_drop, List.length_cons]
      omega

namespace Code

variable {c : Code} {lim : Limits}

theorem verify_mono (h : lim.Within lim') (hv : c.verify lim = .ok ()) :
    c.verify lim' = .ok () := verifyFrom_mono h hv

variable {p : Nat} {i : Instr} {ws : List UInt32}

theorem lt_size (h : c.instr? p = some i) : p < c.size := by
  simp only [instr?, word?_natCast, Option.map_eq_some_iff] at h
  obtain ⟨w, hw, -⟩ := h
  exact (Array.getElem?_eq_some_iff.1 hw).1

theorem exists_instr (h : p < c.size) : ∃ i, c.instr? p = some i := by
  refine ⟨⟨c.words[p]⟩, ?_⟩
  simp [instr?, Array.getElem?_eq_getElem h]

theorem drop_toList (h : c.instr? p = some i) : c.toList.drop p = i.word :: c.toList.drop (p + 1) := by
  simp only [instr?, word?_natCast, Option.map_eq_some_iff] at h
  obtain ⟨w, hw, rfl⟩ := h
  have hp : c.toList[p]? = some w := by simpa [toList] using hw
  obtain ⟨hlt, rfl⟩ := List.getElem?_eq_some_iff.1 hp
  exact List.drop_eq_getElem_cons hlt

variable {w : UInt32} {pos skip : Nat}

theorem instr?_of_drop (h : c.toList.drop p = w :: ws) : c.instr? p = some ⟨w⟩ := by
  have hw : (c.toList.drop p)[0]? = some w := by rw [h]; rfl
  simp only [List.getElem?_drop, Nat.add_zero, toList, Array.getElem?_toList] at hw
  simp [instr?, hw]

theorem int?_succ (h : c.toList.drop (p + 1) = w :: ws) : c.int? ((p : Int) + 1) = some w.toInt32 := by
  have hw : (c.toList.drop (p + 1))[0]? = some w := by rw [h]; rfl
  simp only [List.getElem?_drop, Nat.add_zero, toList, Array.getElem?_toList] at hw
  simp [int?, hw]

/-- The words behind a start pass the check when the whole code does. -/
theorem verifyFrom_of_start (h : c.verify lim = .ok ()) (hp : c.Start p) :
    p ≤ c.size ∧ verifyFrom lim c.size p (c.toList.drop p) = .ok () := by
  induction hp with
  | first => exact ⟨Nat.zero_le _, by simpa [verify] using h⟩
  | @next p i _ fetch ih =>
    obtain ⟨-, hv⟩ := ih
    rw [drop_toList fetch] at hv
    obtain ⟨-, hlen, -, hrest⟩ := verifyFrom_cons_eq_ok.1 hv
    have hlt := lt_size fetch
    simp only [List.length_drop, toList, Array.length_toList] at hlen
    refine ⟨by simp only [size] at hlt ⊢; omega, ?_⟩
    simpa [List.drop_drop, Nat.add_comm, Nat.add_left_comm] using hrest

/-- Verified code is acceptable at every start. -/
theorem accepts_of_start (h : c.verify lim = .ok ()) (hp : c.Start p) (hlt : p < c.size) :
    ∃ i, lim.Accepts c p i := by
  obtain ⟨i, fetch⟩ := exists_instr hlt
  have hv := (verifyFrom_of_start h hp).2
  rw [drop_toList fetch] at hv
  obtain ⟨hvalid, hlen, hadm, -⟩ := verifyFrom_cons_eq_ok.1 hv
  refine ⟨i, fetch, hvalid, ?_, ?_⟩
  · simp only [List.length_drop, toList, Array.length_toList] at hlen
    simp only [size] at hlt ⊢
    omega
  · intro op bound hop hb
    have hone := Limits.operandWords_of_bound hop hb
    cases hrest : c.toList.drop (p + 1) with
    | nil => simp [hrest, hone] at hlen
    | cons w ws =>
      refine ⟨w.toInt32, int?_succ hrest, ?_⟩
      simpa [Limits.admits, hop, hb, hrest, hone] using hadm

/-- The starts among the words from position `pos` on, when the next `skip` of them are
operands. -/
def startsFrom : Nat → Nat → List UInt32 → List Nat
  | pos, skip, [] => [pos + skip]
  | pos, 0, w :: rest => pos :: startsFrom (pos + 1) (Instr.mk w).operandWords rest
  | pos, skip + 1, _ :: rest => startsFrom (pos + 1) skip rest

/-- The starts of a code, first to last. -/
def starts (c : Code) : List Nat := startsFrom 0 0 c.toList

theorem start_of_mem_startsFrom (hws : c.toList.drop pos = ws) (h : c.Start (pos + skip))
    (hp : p ∈ startsFrom pos skip ws) : c.Start p := by
  induction ws generalizing pos skip with
  | nil =>
    simp only [startsFrom, List.mem_singleton] at hp
    rwa [hp]
  | cons w rest ih =>
    have hrest : c.toList.drop (pos + 1) = rest := by rw [← List.tail_drop, hws, List.tail_cons]
    cases skip with
    | zero =>
      simp only [startsFrom, List.mem_cons] at hp
      rcases hp with rfl | hp
      · exact h
      · exact ih hrest (h.next (instr?_of_drop hws)) hp
    | succ skip =>
      refine ih hrest ?_ hp
      rwa [Nat.add_assoc, Nat.add_comm 1 skip]

theorem mem_startsFrom (pos skip : Nat) (ws : List UInt32) : pos + skip ∈ startsFrom pos skip ws := by
  induction ws generalizing pos skip with
  | nil => simp [startsFrom]
  | cons w rest ih =>
    cases skip with
    | zero => simp [startsFrom]
    | succ skip =>
      have := ih (pos + 1) skip
      rwa [Nat.add_assoc, Nat.add_comm 1 skip] at this

theorem next_mem_startsFrom (hws : c.toList.drop pos = ws) (hp : p ∈ startsFrom pos skip ws)
    (fetch : c.instr? p = some i) : p + 1 + i.operandWords ∈ startsFrom pos skip ws := by
  induction ws generalizing pos skip with
  | nil =>
    simp only [startsFrom, List.mem_singleton] at hp
    have hlt := lt_size fetch
    simp only [List.drop_eq_nil_iff, toList, Array.length_toList] at hws
    simp only [size] at hlt
    omega
  | cons w rest ih =>
    have hrest : c.toList.drop (pos + 1) = rest := by rw [← List.tail_drop, hws, List.tail_cons]
    cases skip with
    | zero =>
      simp only [startsFrom, List.mem_cons] at hp ⊢
      right
      rcases hp with rfl | hp
      · obtain rfl : i = ⟨w⟩ := Option.some_inj.1 (fetch.symm.trans (instr?_of_drop hws))
        exact mem_startsFrom _ _ _
      · exact ih hrest hp
    | succ skip => exact ih hrest hp

theorem start_iff_mem_starts : c.Start p ↔ p ∈ c.starts := by
  constructor
  · intro h
    induction h with
    | first =>
      unfold starts
      cases c.toList <;> simp [startsFrom]
    | next _ fetch ih => exact next_mem_startsFrom rfl ih fetch
  · exact start_of_mem_startsFrom rfl .first

instance (p : Nat) : Decidable (c.Start p) := decidable_of_iff _ start_iff_mem_starts.symm

instance : Decidable c.Direct :=
  decidable_of_iff (c.starts.all fun p => (c.op? p).all fun op => !op.isIndirect) (by
    simp [Direct, start_iff_mem_starts, Option.all_eq_true])

instance : Decidable c.Aligned :=
  decidable_of_iff (c.starts.all fun p => (c.target? p).all fun v =>
      c.starts.any fun q => v.toInt == (q : Int)) (by
    simp [Aligned, start_iff_mem_starts, Option.all_eq_true])

end Code
end Stackwork
