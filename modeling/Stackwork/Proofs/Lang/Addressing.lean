import Stackwork.Proofs.Lang.Lines

/-!
# What generated code addresses

Only the instructions of accesses address slots, routines or objects. The code of a unit
therefore addresses, in order and with nothing left out, what the commands of the unit
reach for.
-/
namespace Stackwork

open List Line

/-- What the instruction of an access addresses. -/
def Access.addressing (handle : String → UInt64) : Access → Addressing
  | load v => ⟨v.loadCode, v.kind, v.index⟩
  | store v => ⟨v.storeCode, v.kind, v.index⟩
  | call index => ⟨.call, .none, index⟩
  | text s => ⟨.pushImm, .obj, (handle s).toNat⟩

namespace Line

variable {L : Type}

@[simp] theorem addressing?_bare (op : Opcode) (k : Kind) : (⟨op, k, []⟩ : Line L).addressing? = none := by
  cases op <;> rfl

theorem addressing?_of_isJump {l : Line L} (h : l.op.isJump) : l.addressing? = none :=
  Addressing.of?_of_isJump h _ _

@[simp] theorem addressing?_pushInt (v : Int32) : (pushInt v : Line L).addressing? = none := by
  unfold pushInt
  split
  · rfl
  · split <;> rfl

@[simp] theorem addressing?_pushFloat (bits : UInt64) : (pushFloat bits : Line L).addressing? = none := by
  unfold pushFloat
  split
  · rfl
  · split <;> rfl

theorem addressing?_pushObj {handle : UInt64} (h : handle ≠ 0) :
    (pushObj handle : Line L).addressing? = some ⟨.pushImm, .obj, handle.toNat⟩ := by
  unfold pushObj
  rw [if_neg h]
  change some (⟨.pushImm, .obj, (Code.joinWords handle.toUInt32 (handle >>> 32).toUInt32).toNat⟩ :
    Addressing) = _
  rw [joinWords_halves]

theorem addressing?_indexed {op : Opcode} (hop : op ∈ [.loadGlobal, .storeGlobal, .loadLocal,
      .storeLocal, .call]) (k : Kind) {index : Int} (nonneg : 0 ≤ index) (lt : index < operandLimit) :
    (indexed op k index : Line L).addressing? = some ⟨op, k, index⟩ := by
  have hof : (indexed op k index : Line L).addressing? =
      some ⟨op, k, (Int32.ofInt index).toUInt32.toInt32.toInt⟩ := by
    simp only [mem_cons, not_mem_nil, or_false] at hop
    rcases hop with rfl | rfl | rfl | rfl | rfl <;> rfl
  rw [hof, toInt_ofInt_operand nonneg lt]

end Line

namespace Line

/-- What some lines address. -/
def addressed (ls : List (Line Label)) : List Addressing := ls.filterMap addressing?

@[simp] theorem addressed_nil : addressed [] = [] := rfl

@[simp] theorem addressed_append (a b : List (Line Label)) :
    addressed (a ++ b) = addressed a ++ addressed b := filterMap_append

variable {l : Line Label}

theorem addressed_cons_none (h : l.addressing? = none) (ls : List (Line Label)) :
    addressed (l :: ls) = addressed ls := filterMap_cons_none h

theorem addressed_single {x : Addressing} (h : l.addressing? = some x) : addressed [l] = [x] := by
  rw [addressed, filterMap_cons_some h]
  rfl

@[simp] theorem addressed_bare (op : Opcode) (k : Kind) : addressed [⟨op, k, []⟩] = [] :=
  addressed_cons_none (addressing?_bare op k) []

theorem addressed_connectiveLines {branch : Opcode} (hj : branch.isJump) (short : Int32)
    (x y : List (Line Label)) :
    addressed (connectiveLines branch short x y) = addressed x ++ addressed y := by
  have hbranch : (⟨branch, .none, [.ahead (words y + 2)]⟩ : Line Label).addressing? = none :=
    addressing?_of_isJump hj
  have hjump : (⟨.jump, .none, [.ahead 1]⟩ : Line Label).addressing? = none :=
    addressing?_of_isJump rfl
  rw [connectiveLines, append_assoc, cons_append, addressed_append,
    addressed_cons_none hbranch, addressed_append, addressed_cons_none hjump,
    addressed_cons_none (addressing?_pushInt short)]
  simp [addressed]

end Line

/-- An access in range, or a text with a handle. -/
def Access.Reachable (lim : Limits) (handle : String → UInt64) (a : Access) : Prop :=
  a.Fits lim ∧ ∀ s, a = .text s → handle s ≠ 0

namespace Variable

variable {lim : Limits} {v : Variable}

theorem Fits.addressed_load (h : v.Fits lim) (small : lim.Small) (handle : String → UInt64) :
    addressed [.indexed v.loadCode v.kind v.index] = [(Access.load v).addressing handle] := by
  refine addressed_single (addressing?_indexed ?_ _ h.nonneg (h.lt_operandLimit small))
  unfold loadCode
  split <;> simp

theorem Fits.addressed_store (h : v.Fits lim) (small : lim.Small) (handle : String → UInt64) :
    addressed [.indexed v.storeCode v.kind v.index] = [(Access.store v).addressing handle] := by
  refine addressed_single (addressing?_indexed ?_ _ h.nonneg (h.lt_operandLimit small))
  unfold storeCode
  split <;> simp

end Variable

section

variable {lim : Limits} {handle : String → UInt64}

theorem addressed_linesOf {ts : List Term}
    (h : ∀ t ∈ ts, addressed (t.lines handle) = t.accesses.map (·.addressing handle)) :
    addressed (linesOf handle ts) = (accessesOf ts).map (·.addressing handle) := by
  induction ts with
  | nil => rfl
  | cons t ts ih =>
    obtain ⟨ht, hts⟩ := forall_mem_cons.1 h
    rw [linesOf, accessesOf, addressed_append, map_append, ht, ih hts]

/-- The lines of a term address what the term reaches for. -/
theorem Term.addressed_lines (small : lim.Small) (t : Term)
    (h : ∀ a ∈ t.accesses, a.Reachable lim handle) :
    addressed (t.lines handle) = t.accesses.map (·.addressing handle) := by
  induction t using Term.induct with
  | int v => exact addressed_cons_none (addressing?_pushInt v) []
  | float bits => exact addressed_cons_none (addressing?_pushFloat bits) []
  | text s =>
    have hs := (h (.text s) (mem_singleton.2 rfl)).2 s rfl
    exact addressed_single (addressing?_pushObj hs)
  | load v =>
    have hv : v.Fits lim := (h (.load v) (mem_singleton.2 rfl)).1
    exact hv.addressed_load small handle
  | unary op k x ihx => simp [lines, accesses, ihx h]
  | binary op k x y ihx ihy =>
    obtain ⟨hx, hy⟩ := forall_mem_append.1 h
    simp [lines, accesses, ihx hx, ihy hy]
  | both x y ihx ihy | either x y ihx ihy =>
    obtain ⟨hx, hy⟩ := forall_mem_append.1 h
    rw [lines, addressed_connectiveLines rfl, ihx hx, ihy hy, accesses, map_append]
  | select k c a b ihc iha ihb =>
    obtain ⟨hca, hb⟩ := forall_mem_append.1 h
    obtain ⟨hc, ha⟩ := forall_mem_append.1 hca
    simp [lines, accesses, ihc hc, iha ha, ihb hb]
  | call index args ih =>
    obtain ⟨hargs, hcall⟩ := forall_mem_append.1 h
    obtain ⟨nonneg, lt⟩ : Access.Fits lim (.call index) := (hcall _ (mem_singleton.2 rfl)).1
    have hlt : index < operandLimit := by
      have := small.functions
      omega
    rw [lines, accesses, addressed_append, map_append,
      addressed_linesOf fun t ht => ih t ht fun a ha => hargs a (mem_accessesOf.2 ⟨t, ht, ha⟩),
      addressed_single (addressing?_indexed (by simp) _ nonneg hlt)]
    rfl
  | callValue f args ihf ih =>
    obtain ⟨hargs, hf⟩ := forall_mem_append.1 h
    rw [lines, accesses, addressed_append, addressed_append, map_append,
      addressed_linesOf fun t ht => ih t ht fun a ha => hargs a (mem_accessesOf.2 ⟨t, ht, ha⟩),
      ihf hf, addressed_bare, append_nil]

/-- The lines of a command address what the command reaches for. -/
theorem Command.addressed_lines (small : lim.Small) (c : Command)
    (h : ∀ a ∈ c.accesses, a.Reachable lim handle) :
    addressed (c.lines handle) = c.accesses.map (·.addressing handle) := by
  cases c with
  | store v x =>
    obtain ⟨hx, hv⟩ := forall_mem_append.1 h
    have hv : v.Fits lim := (hv (.store v) (mem_singleton.2 rfl)).1
    rw [lines, accesses, addressed_append, map_append, x.addressed_lines small hx,
      hv.addressed_store small handle]
    rfl
  | drop x => simp [lines, accesses, x.addressed_lines small h]
  | ret k value =>
    cases value with
    | none => simp [lines, accesses]
    | some x => simp [lines, accesses, x.addressed_lines small h]
  | jump l => exact addressed_cons_none (addressing?_of_isJump rfl) []
  | branchTrue x l | branchFalse x l =>
    rw [lines, addressed_append, addressed_cons_none (addressing?_of_isJump rfl)]
    simp [accesses, addressed, ← x.addressed_lines small h]
  | place l => rfl
  | halt => simp [lines, accesses]

theorem addressed_bodyLines (small : lim.Small) {commands : List Command}
    (h : ∀ c ∈ commands, ∀ a ∈ c.accesses, a.Reachable lim handle) :
    addressed (bodyLines handle commands) =
      (commands.flatMap Command.accesses).map (·.addressing handle) := by
  induction commands with
  | nil => rfl
  | cons c commands ih =>
    obtain ⟨hc, hcs⟩ := forall_mem_cons.1 h
    rw [bodyLines, flatMap_cons, addressed_append, ← bodyLines, ih hcs,
      c.addressed_lines small hc, flatMap_cons, map_append]

theorem addressed_epilogueLines (output : Option Ty) : addressed (epilogueLines output) = [] := by
  cases output with
  | none => rfl
  | some out =>
    simp only [epilogueLines]
    split
    · exact addressed_bare _ _
    · split <;> simp [addressed]

end

namespace Line

variable {L : Type}

theorem plain_bare (op : Opcode) (k : Kind) : Plain (⟨op, k, []⟩ : Line L) := .inr ⟨[], rfl⟩

theorem plain_pushInt (v : Int32) : Plain (pushInt v : Line L) := by
  unfold pushInt
  split
  · exact plain_bare _ _
  · split
    · exact plain_bare _ _
    · exact .inr ⟨[_], rfl⟩

theorem plain_pushFloat (bits : UInt64) : Plain (pushFloat bits : Line L) := by
  unfold pushFloat
  split
  · exact plain_bare _ _
  · split
    · exact plain_bare _ _
    · exact .inr ⟨[_, _], rfl⟩

theorem plain_pushObj (handle : UInt64) : Plain (pushObj handle : Line L) := by
  unfold pushObj
  split
  · exact plain_bare _ _
  · exact .inr ⟨[_, _], rfl⟩

theorem plain_indexed (op : Opcode) (k : Kind) (index : Int) :
    Plain (indexed op k index : Line L) := .inr ⟨[_], rfl⟩

theorem plain_connectiveLines {branch : Opcode} (hj : branch.isJump) (short : Int32)
    {x y : List (Line Label)} (hx : ∀ l ∈ x, l.Plain) (hy : ∀ l ∈ y, l.Plain) :
    ∀ l ∈ connectiveLines branch short x y, l.Plain := by
  simp only [connectiveLines, forall_mem_append, forall_mem_cons]
  exact ⟨⟨hx, .inl hj, hy⟩, .inl rfl, plain_pushInt short, by simp⟩

end Line

theorem Term.plain_lines (handle : String → UInt64) (t : Term) : ∀ l ∈ t.lines handle, l.Plain := by
  have several {ts : List Term} (h : ∀ t ∈ ts, ∀ l ∈ t.lines handle, l.Plain) :
      ∀ l ∈ linesOf handle ts, l.Plain := by
    induction ts with
    | nil => simp [linesOf]
    | cons t ts ih =>
      obtain ⟨ht, hts⟩ := forall_mem_cons.1 h
      exact forall_mem_append.2 ⟨ht, ih hts⟩
  induction t using Term.induct with
  | int v => exact forall_mem_singleton.2 (plain_pushInt v)
  | float bits => exact forall_mem_singleton.2 (plain_pushFloat bits)
  | text s => exact forall_mem_singleton.2 (plain_pushObj _)
  | load v => exact forall_mem_singleton.2 (plain_indexed _ _ _)
  | unary op k x ihx =>
    exact forall_mem_append.2 ⟨ihx, forall_mem_singleton.2 (plain_bare _ _)⟩
  | binary op k x y ihx ihy =>
    simp only [lines, forall_mem_append]
    exact ⟨⟨ihx, ihy⟩, forall_mem_singleton.2 (plain_bare _ _)⟩
  | both x y ihx ihy | either x y ihx ihy => exact plain_connectiveLines rfl _ ihx ihy
  | select k c a b ihc iha ihb =>
    simp only [lines, forall_mem_append]
    exact ⟨⟨⟨ihc, iha⟩, ihb⟩, forall_mem_singleton.2 (plain_bare _ _)⟩
  | call index args ih =>
    exact forall_mem_append.2 ⟨several ih, forall_mem_singleton.2 (plain_indexed _ _ _)⟩
  | callValue f args ihf ih =>
    simp only [lines, forall_mem_append]
    exact ⟨⟨several ih, ihf⟩, forall_mem_singleton.2 (plain_bare _ _)⟩

theorem Command.plain_lines (handle : String → UInt64) (c : Command) :
    ∀ l ∈ c.lines handle, l.Plain := by
  cases c with
  | store v x =>
    exact forall_mem_append.2 ⟨x.plain_lines handle, forall_mem_singleton.2 (plain_indexed _ _ _)⟩
  | drop x =>
    exact forall_mem_append.2 ⟨x.plain_lines handle, forall_mem_singleton.2 (plain_bare _ _)⟩
  | ret k value =>
    cases value with
    | none => exact forall_mem_singleton.2 (plain_bare _ _)
    | some x =>
      exact forall_mem_append.2 ⟨x.plain_lines handle, forall_mem_singleton.2 (plain_bare _ _)⟩
  | jump l => exact forall_mem_singleton.2 (.inl rfl)
  | branchTrue x l | branchFalse x l =>
    exact forall_mem_append.2 ⟨x.plain_lines handle, forall_mem_singleton.2 (.inl rfl)⟩
  | place l => simp [lines]
  | halt => exact forall_mem_singleton.2 (plain_bare _ _)

theorem plain_unitLines (handle : String → UInt64) (output : Option Ty) (commands : List Command) :
    ∀ l ∈ unitLines handle output commands, l.Plain := by
  refine forall_mem_append.2 ⟨?_, ?_⟩
  · intro l hl
    obtain ⟨c, -, hc⟩ := mem_flatMap.1 hl
    exact c.plain_lines handle l hc
  · cases output with
    | none => simp [epilogueLines]
    | some out =>
      simp only [epilogueLines]
      split
      · simp [plain_bare]
      · split <;> simp [plain_bare]

end Stackwork
