import Stackwork.Proofs.Machine.Requests
import Stackwork.Proofs.Machine.Twins

/-!
# Watching a machine

A machine may write every instruction it executes to the journal, and it may keep and check a
kind for every slot. Neither changes what is computed. With and without tracing every request
of the host comes to the same end, be it a result or a fault, on machines that differ in the
lines of the trace only; and a request that a tagged machine brings to a result comes to the
same result without tags. Only a tagged machine can stop at a slot of the wrong kind.

Writing a line never goes wrong either, as it takes no word that is not there: a reading that
fails for want of a word gives the same lines (`Listing.lineRead?`).
-/
namespace Stackwork

namespace Code

variable {c : Code} {pos : Int}

theorem exists_word?_of_lt (h₀ : 0 ≤ pos) (h : pos < c.size) : ∃ w, c.word? pos = some w := by
  have hlt : pos.toNat < c.words.size := by unfold size at h; omega
  exact ⟨c.words[pos.toNat], by simp [word?, h₀, hlt]⟩

theorem exists_int?_of_lt (h₀ : 0 ≤ pos) (h : pos < c.size) : ∃ v, c.int? pos = some v := by
  obtain ⟨w, hw⟩ := exists_word?_of_lt h₀ h
  exact ⟨w.toInt32, by simp [int?, hw]⟩

theorem exists_double?_of_lt (h₀ : 0 ≤ pos) (h : pos + 1 < c.size) : ∃ v, c.double? pos = some v := by
  obtain ⟨low, hlow⟩ := exists_word?_of_lt h₀ (show pos < c.size by omega)
  obtain ⟨high, hhigh⟩ := exists_word?_of_lt (show 0 ≤ pos + 1 by omega) h
  exact ⟨joinWords low high, by simp [double?, hlow, hhigh]⟩

/-- Behind the start of a whole segment there are all of its operand words. -/
theorem operandWords_of_whole {p : Nat} {i : Instr} (h : (c.segmentAt p i).form = .whole) :
    i.valid ∧ p + i.operandWords < c.size := by
  unfold segmentAt at h
  split at h
  · cases h
  · next hvalid =>
    split at h
    · cases h
    · exact ⟨by simpa using hvalid, by omega⟩

end Code

namespace Listing

/-- The operands of a segment, read so that the reading fails for want of a word. -/
def operandRead? (c : Code) (s : Segment) : Option (Option String) :=
  let pos : Int := s.start + 1
  match s.instr.op? with
  | some .pushImm =>
    if s.instr.kind = .int then (c.int? pos).map fun v => some (toString v.toInt)
    else if s.instr.kind = .float then (c.double? pos).map fun v => some (floats.render v)
    else (c.double? pos).map fun v => some ("@" ++ toString v.toNat)
  | some op =>
    if op.isJump then (c.int? pos).map fun v => some ("-> " ++ Text.decimal 4 v.toInt)
    else if s.instr.operandWords = 1 then (c.int? pos).map fun v => some (toString v.toInt)
    else some none
  | none => some none

/-- The line for a position, read so that the reading fails for want of a word. -/
def lineRead? (c : Code) (pos : Int) : Option String := do
  let i ← c.instr? pos
  let s := c.segmentAt pos.toNat i
  let at_ := Text.decimal 4 s.start ++ "  "
  match s.form with
  | .data => return at_ ++ ".word 0x" ++ Text.hex i.word.toNat
  | .truncated => return at_ ++ i.render ++ " <truncated>"
  | .whole =>
    match ← operandRead? c s with
    | none => return at_ ++ i.render
    | some text => return at_ ++ Text.padRight 20 i.render ++ " " ++ text

variable {c : Code} {i : Instr}

theorem operandRead?_eq {p : Nat} (h : (c.segmentAt p i).form = .whole) :
    operandRead? c (c.segmentAt p i) = some (operand? c (c.segmentAt p i)) := by
  obtain ⟨hvalid, hwords⟩ := Code.operandWords_of_whole h
  have hstart : (c.segmentAt p i).start = p := by unfold Code.segmentAt; split <;> [rfl; split <;> rfl]
  have hinstr : (c.segmentAt p i).instr = i := by unfold Code.segmentAt; split <;> [rfl; split <;> rfl]
  obtain ⟨op, hop⟩ := Instr.exists_op_of_valid hvalid
  -- One operand word, and two.
  have one (h1 : i.operandWords = 1) : ∃ v, c.int? ((p : Int) + 1) = some v :=
    Code.exists_int?_of_lt (by omega) (by omega)
  have two (h2 : i.operandWords = 2) : ∃ v, c.double? ((p : Int) + 1) = some v :=
    Code.exists_double?_of_lt (by omega) (by omega)
  have cast_succ : ((p + 1 : Nat) : Int) = (p : Int) + 1 := by omega
  by_cases himm : op = .pushImm
  · subst himm
    have hw : i.operandWords = i.kind.words := by simp [Instr.operandWords, hop, Opcode.operand]
    simp only [Instr.valid, hop, Opcode.kinds, Bool.and_eq_true, List.contains_eq_mem,
      List.mem_cons, List.not_mem_nil, or_false, decide_eq_true_eq] at hvalid
    simp only [operandRead?, operand?, hstart, hinstr, hop, number, cast_succ]
    rcases hvalid.2 with hk | hk | hk
    · obtain ⟨v, hv⟩ := one (by rw [hw, hk]; rfl)
      simp [hk, hv]
    · obtain ⟨v, hv⟩ := two (by rw [hw, hk]; rfl)
      have : Kind.float ≠ Kind.int := by decide
      simp [hk, hv, this]
    · obtain ⟨v, hv⟩ := two (by rw [hw, hk]; rfl)
      have hint : Kind.obj ≠ Kind.int := by decide
      have hfloat : Kind.obj ≠ Kind.float := by decide
      simp [hk, hv, hint, hfloat]
  · have hread : operandRead? c (c.segmentAt p i) =
        if op.isJump then (c.int? ((p : Int) + 1)).map fun v => some ("-> " ++ Text.decimal 4 v.toInt)
        else if i.operandWords = 1 then (c.int? ((p : Int) + 1)).map fun v => some (toString v.toInt)
        else some none := by
      unfold operandRead?
      simp only [hstart, hinstr, hop]
    have hshow : operand? c (c.segmentAt p i) =
        if op.isJump then some ("-> " ++ Text.decimal 4 (number c (p + 1)))
        else if i.operandWords = 1 then some (toString (number c (p + 1)))
        else none := by
      unfold operand?
      simp only [hstart, hinstr, hop]
    rw [hread, hshow]
    have hjump : op.isJump → i.operandWords = 1 := by
      intro hj
      cases op <;> simp_all [Opcode.isJump, Instr.operandWords, Opcode.operand]
    by_cases hw : i.operandWords = 1
    · obtain ⟨v, hv⟩ := one hw
      simp only [number, cast_succ, hv, hw, if_true, Option.map_some, Option.getD_some]
      split <;> rfl
    · simp [hw, mt hjump hw]

/-- Wherever there is a word there is a line, for an instruction, for one that the end of the code
cuts off, and for a word that is none. -/
theorem lineRead?_eq {pos : Int} (fetch : c.instr? pos = some i) :
    lineRead? c pos = some (lineAt c pos.toNat i) := by
  have hinstr : (c.segmentAt pos.toNat i).instr = i := by
    unfold Code.segmentAt; split <;> [rfl; split <;> rfl]
  simp only [lineRead?, fetch, Option.bind_eq_bind, Option.bind_some, lineAt, line, hinstr]
  cases hform : (c.segmentAt pos.toNat i).form with
  | data => rfl
  | truncated => rfl
  | whole =>
    simp only [operandRead?_eq hform, Option.bind_some]
    cases operand? c (c.segmentAt pos.toNat i) <;> rfl

end Listing

namespace Machine

variable {p : Pairing} {m n : Machine}

/-- Twins answer every request alike. -/
theorem reply_of_twin (hp : p.Sound) (h : Twin p 0 m n) (fuel : Nat) (q : HostRequest) :
    Reply.Alike p.spare (Twin p 0) (q.reply fuel m) (q.reply fuel n) :=
  reply_alike (congrArg Face.exe h.face) (fun code _ => runBlock_of_twin hp h fuel code)
    (fun exe _ => runInits_of_twin hp h fuel exe.inits) fun _ args r _ => perform_of_twin hp h fuel r args

/-- A journal with the lines of a trace in it, and the journal without them. -/
inductive Traced : Array String → Array String → Prop where
  | none (j : Array String) : Traced j j
  | both {j j' : Array String} (h : Traced j j') (line : String) :
      Traced (j.push line) (j'.push line)
  | line {j j' : Array String} (h : Traced j j') (m : Machine) {code : Code} {pc : Int} {i : Instr}
      (fetch : code.instr? pc = some i) : Traced (j.push (m.traceLine code pc i)) j'

/-- A machine that traces beside one that does not. -/
def tracingPair : Pairing where
  spare := False
  low := []
  low' := []
  trace := true
  trace' := false
  lines := Traced

theorem sound_tracingPair : tracingPair.Sound where
  write h line := h.both line
  trace {k m n} h {code pc i} fetch := by
    have hm : m.settings.trace = true := h.trace
    have hn : n.settings.trace = false := h.trace'
    simp only [traced, hm, hn, if_true, Bool.false_eq_true, if_false]
    exact h.lines.line m fetch

/-- A machine that is spared its faults beside one without tags. -/
def untaggedPair (trace : Bool) : Pairing where
  spare := True
  low := []
  low' := []
  trace := trace
  trace' := trace
  lines := Eq

theorem sound_untaggedPair (trace : Bool) : (untaggedPair trace).Sound where
  write h line := congrArg (Array.push · line) h
  trace {k m n} h {code pc i} _ := by
    have hframes := h.frames_eq rfl
    have htrace : m.settings.trace = n.settings.trace := h.trace.trans h.trace'.symm
    have hface := h.face
    simp only [face, Face.mk.injEq] at hface
    have hlines : m.journal = n.journal := h.lines
    simp only [traced, traceLine, htrace, hlines, hframes, hface]
    rfl

/-- The machine with tracing on or off. -/
def tracing (m : Machine) (on : Bool) : Machine :=
  { m with settings := { m.settings with trace := on } }

/-- The machine without tags. -/
def untagged (m : Machine) : Machine :=
  { m with settings := { m.settings with tagged := false }, heapTags := #[], stackTags := #[] }

/-- Two machines with the same memories, registers, program, objects and frames. -/
structure SameState (m n : Machine) : Prop where
  face : m.face = n.face
  frames : m.frames = n.frames

/-- The first machine has the lines of a trace in its journal; all else is the same. -/
structure TracedAs (m n : Machine) : Prop extends SameState m n where
  tagged : m.settings.tagged = n.settings.tagged
  heapTags : m.heapTags = n.heapTags
  stackTags : m.stackTags = n.stackTags
  journal : Traced m.journal n.journal

/-- Tracing and tags change nothing of what is computed. With tracing on and off every request
ends in the same way, on machines that differ in lines of the trace only. A request that comes
to a result on a tagged machine comes to the same result without tags, with the same lines in
the journal. And the line of an instruction can be written wherever there is a word. -/
theorem watching_is_transparent (m : Machine) (fuel : Nat) (q : HostRequest) :
    Reply.Alike False TracedAs (q.reply fuel (m.tracing true)) (q.reply fuel (m.tracing false)) ∧
    (∀ v m', q.reply fuel m = .ok (.finished v m') →
      ∃ n', q.reply fuel m.untagged = .ok (.finished v n') ∧ m'.SameState n' ∧
        m'.journal = n'.journal) ∧
    ∀ (code : Code) (pc : Int) (i : Instr), code.instr? pc = some i →
      Listing.lineRead? code pc = some (Listing.lineAt code pc.toNat i) := by
  refine ⟨?_, fun v m' hm => ?_, fun code pc i fetch => Listing.lineRead?_eq fetch⟩
  · have hstart : Twin tracingPair 0 (m.tracing true) (m.tracing false) :=
      ⟨rfl, ⟨m.frames.toList, rfl, rfl, Nat.zero_le _⟩, .inl ⟨rfl, rfl, rfl⟩, rfl, rfl, .none _⟩
    refine (reply_of_twin sound_tracingPair hstart fuel q).mono fun m₁ n₁ h => ?_
    obtain ⟨htagged, hheap, hstack⟩ := h.tags.resolve_right (fun hspare => hspare.1)
    exact ⟨⟨h.face, h.frames_eq rfl⟩, htagged.symm, hheap.symm, hstack.symm, h.lines⟩
  · have hstart : Twin (untaggedPair m.settings.trace) 0 m m.untagged :=
      ⟨rfl, ⟨m.frames.toList, rfl, rfl, Nat.zero_le _⟩, .inr ⟨trivial, rfl⟩, rfl, rfl, rfl⟩
    have halike := reply_of_twin (sound_untaggedPair _) hstart fuel q
    rw [hm] at halike
    obtain ⟨n', hn, h⟩ := halike.of_finished
    exact ⟨n', hn, ⟨h.face, h.frames_eq rfl⟩, h.lines⟩

/-- A tagged machine runs a block that stores a sum, and so does the machine without tags. -/
theorem watching_is_transparent_adding : ∃ (m m' n' : Machine) (code : Code), m.settings.tagged = true ∧
    (HostRequest.execute code).reply 10 m = .ok (.finished .zero m') ∧
      (HostRequest.execute code).reply 10 m.untagged = .ok (.finished .zero n') ∧ m'.SameState n' ∧
        n'.heap = #[⟨7⟩] := by
  have hrun : ∃ m', (HostRequest.execute ⟨#[0x102, 3, 0x102, 4, 0x130, 0x111, 0]⟩).reply 10
      (new 1 4 { tagged := true }) = .ok (.finished .zero m') ∧ m'.heap = #[⟨7⟩] := ⟨_, rfl, rfl⟩
  obtain ⟨m', hm, hheap⟩ := hrun
  obtain ⟨n', hn, hsame, -⟩ := (watching_is_transparent _ _ _).2.1 _ _ hm
  exact ⟨_, m', n', _, rfl, hm, hn, hsame, (congrArg Face.heap hsame.face).symm.trans hheap⟩

end Machine
end Stackwork
