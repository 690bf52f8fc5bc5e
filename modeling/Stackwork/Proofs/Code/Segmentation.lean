import Stackwork.Proofs.Text.Spelling

/-!
# Listings and verification

A listing and a verification both read a code as a row of instructions, each with a scanner
of its own. The segments of a listing follow each other without gaps from the first word to
the last, whatever the words are, and each line begins with the position of its segment.
The listing goes on behind a word that verification would refuse, so the two can be compared
only up to there: over phrases, in range or not, they find the same instructions at the same
places, and a listing that has none but whole instructions is the row of these phrases.
-/
namespace Stackwork

open List
open Phrase (text)

namespace Code

variable {c : Code} {pos : Nat}

theorem segmentsFrom_of_le (h : c.size ≤ pos) : c.segmentsFrom pos = [] := by
  rw [segmentsFrom, dif_neg (Nat.not_lt.2 h)]

variable {i : Instr} {ss : List Segment}

theorem segmentsFrom_of_instr (h : c.instr? pos = some i) :
    c.segmentsFrom pos = c.segmentAt pos i :: c.segmentsFrom (c.segmentAt pos i).stop := by
  have hlt := lt_size h
  have hi : i = ⟨c.words[pos]⟩ := by
    simp only [instr?, word?_natCast, Array.getElem?_eq_getElem hlt, Option.map_some, Option.some.injEq] at h
    exact h.symm
  rw [segmentsFrom, dif_pos hlt, hi]

/-- Segments that begin at a position, one where the other ends, up to the end of the code,
each with the instruction word it begins with. -/
def Tiled (c : Code) : Nat → List Segment → Prop
  | pos, [] => pos = c.size
  | pos, s :: rest => s.start = pos ∧ c.instr? pos = some s.instr ∧ pos < s.stop ∧ c.Tiled s.stop rest

theorem stop_segmentAt_le (h : pos < c.size) : (c.segmentAt pos i).stop ≤ c.size := by
  unfold segmentAt
  split
  · exact h
  · split
    · exact Nat.max_le.2 ⟨Nat.le_refl _, h⟩
    · next hfits => exact Nat.not_lt.1 hfits

theorem start_segmentAt (c : Code) (pos : Nat) (i : Instr) :
    (c.segmentAt pos i).start = pos ∧ (c.segmentAt pos i).instr = i := by
  unfold segmentAt
  split
  · exact ⟨rfl, rfl⟩
  · split <;> exact ⟨rfl, rfl⟩

/-- The segments of a code tile it. -/
theorem tiled_segmentsFrom (h : pos ≤ c.size) : c.Tiled pos (c.segmentsFrom pos) := by
  induction hn : c.size - pos using Nat.strongRecOn generalizing pos with
  | _ n ih =>
    by_cases hlt : pos < c.size
    · obtain ⟨i, hi⟩ := exists_instr hlt
      have hstop := lt_stop_segmentAt c pos i
      have hle := stop_segmentAt_le (i := i) hlt
      obtain ⟨hstart, hinstr⟩ := c.start_segmentAt pos i
      rw [segmentsFrom_of_instr hi]
      exact ⟨hstart, by rw [hi, hinstr], hstop, ih _ (by omega) hle rfl⟩
    · rw [segmentsFrom_of_le (Nat.not_lt.1 hlt)]
      exact Nat.le_antisymm h (Nat.not_lt.1 hlt)

/-- No segment is empty, so there are no more of them than words. -/
theorem Tiled.length_le (h : c.Tiled pos ss) : pos + ss.length ≤ c.size := by
  induction ss generalizing pos with
  | nil => exact Nat.le_of_eq h
  | cons s ss ih =>
    have := ih h.2.2.2
    have := h.2.2.1
    rw [length_cons]
    omega

theorem Tiled.pos_le_start (h : c.Tiled pos ss) {s : Segment} (hs : s ∈ ss) : pos ≤ s.start := by
  induction ss generalizing pos with
  | nil => cases hs
  | cons t ss ih =>
    rcases mem_cons.1 hs with rfl | hs
    · exact Nat.le_of_eq h.1.symm
    · exact Nat.le_of_lt (Nat.lt_of_lt_of_le h.2.2.1 (ih h.2.2.2 hs))

/-- Every word from the first on is in one segment and in no other. -/
theorem Tiled.exists_only (h : c.Tiled pos ss) {p : Nat} (hp : pos ≤ p) (hlt : p < c.size) :
    ∃ s ∈ ss, (s.start ≤ p ∧ p < s.stop) ∧ ∀ t ∈ ss, t.start ≤ p → p < t.stop → t = s := by
  induction ss generalizing pos with
  | nil =>
    have : pos = c.size := h
    omega
  | cons s ss ih =>
    obtain ⟨hstart, -, hstop, hrest⟩ := h
    by_cases hin : p < s.stop
    · refine ⟨s, mem_cons_self, ⟨by omega, hin⟩, fun t ht htp _ => ?_⟩
      rcases mem_cons.1 ht with rfl | ht
      · rfl
      · have := hrest.pos_le_start ht
        omega
    · obtain ⟨s', hs', hcovers, honly⟩ := ih hrest (Nat.not_lt.1 hin)
      refine ⟨s', mem_cons_of_mem _ hs', hcovers, fun t ht htp hpt => ?_⟩
      rcases mem_cons.1 ht with rfl | ht
      · exact absurd hpt hin
      · exact honly t ht htp hpt

end Code

namespace Phrase

/-- A phrase that stands at a position, as a segment. -/
def segment (s : Phrase) (pos : Nat) : Segment := ⟨pos, s.instr, .whole, pos + s.words.length⟩

/-- Phrases that stand one behind the other from a position on, as segments. -/
def segmentsFrom : Nat → List Phrase → List Segment
  | _, [] => []
  | pos, s :: ss => s.segment pos :: segmentsFrom (pos + s.words.length) ss

/-- The positions of phrases that stand one behind the other from a position on. -/
def startsFrom : Nat → List Phrase → List Nat
  | _, [] => []
  | pos, s :: ss => pos :: startsFrom (pos + s.words.length) ss

theorem map_start_segmentsFrom (pos : Nat) (ss : List Phrase) :
    (segmentsFrom pos ss).map Segment.start = startsFrom pos ss := by
  induction ss generalizing pos with
  | nil => rfl
  | cons s ss ih => exact congrArg (pos :: ·) (ih _)

/-- A phrase among others begins behind those before it. -/
theorem mem_startsFrom (pos : Nat) (ss us : List Phrase) (s : Phrase) :
    pos + (text ss).length ∈ startsFrom pos (ss ++ s :: us) := by
  induction ss generalizing pos with
  | nil => exact mem_cons_self
  | cons t ss ih =>
    rw [text_cons, length_append, ← Nat.add_assoc]
    exact mem_cons_of_mem _ (ih _)

theorem form_of_mem_segmentsFrom {pos : Nat} {ss : List Phrase} {s : Segment} (h : s ∈ segmentsFrom pos ss) :
    s.form = .whole := by
  induction ss generalizing pos with
  | nil => cases h
  | cons t ss ih =>
    rcases mem_cons.1 h with rfl | h
    · rfl
    · exact ih h

end Phrase

namespace Code

variable {c : Code} {pos : Nat}

/-- Where a phrase stands, the listing has it as a segment. -/
theorem segmentAt_of_phrase {s : Phrase} (shaped : s.Shaped) {rest : List UInt32}
    (h : c.toList.drop pos = s.words ++ rest) : c.segmentAt pos s.instr = s.segment pos := by
  have hlength := congrArg length h
  rw [length_drop, length_toList, length_append, Phrase.length_words] at hlength
  have hfits : ¬ pos + 1 + s.instr.operandWords > c.size := by
    rw [shaped.operandWords]
    omega
  rw [segmentAt, if_neg (by simp [shaped.valid]), if_neg hfits, Phrase.segment, shaped.operandWords,
    Phrase.length_words, Nat.add_assoc]

/-- The listing of phrases has them as its segments. -/
theorem segmentsFrom_of_text {ss : List Phrase} (shaped : ∀ s ∈ ss, s.Shaped)
    (h : c.toList.drop pos = text ss) : c.segmentsFrom pos = Phrase.segmentsFrom pos ss := by
  induction ss generalizing pos with
  | nil =>
    have hle := drop_eq_nil_iff.1 h
    rw [length_toList] at hle
    exact segmentsFrom_of_le hle
  | cons s ss ih =>
    rw [forall_mem_cons] at shaped
    have hrest : c.toList.drop (pos + s.words.length) = text ss := by
      rw [← drop_drop, h, Phrase.text_cons, drop_left]
    have hwords : c.toList.drop pos = s.instr.word :: (s.operands ++ text ss) := h
    have hinstr : c.instr? pos = some s.instr := instr?_of_drop hwords
    rw [segmentsFrom_of_instr hinstr, segmentAt_of_phrase shaped.1 h, Phrase.segmentsFrom, ← ih shaped.2 hrest]
    rfl

/-- A listing of whole instructions is one of phrases. -/
theorem exists_phrases_of_whole (h : ∀ s ∈ c.segmentsFrom pos, s.form = .whole) :
    ∃ ss : List Phrase, (∀ s ∈ ss, s.Shaped) ∧ c.toList.drop pos = text ss := by
  induction hn : c.size - pos using Nat.strongRecOn generalizing pos with
  | _ n ih =>
    by_cases hlt : pos < c.size
    · obtain ⟨i, hi⟩ := exists_instr hlt
      rw [segmentsFrom_of_instr hi, forall_mem_cons] at h
      obtain ⟨hvalid, hfits⟩ : i.valid ∧ pos + 1 + i.operandWords ≤ c.size := by
        have hwhole := h.1
        unfold segmentAt at hwhole
        split at hwhole
        · cases hwhole
        · next hvalid =>
          split at hwhole
          · cases hwhole
          · next hfits => exact ⟨by simpa using hvalid, Nat.not_lt.1 hfits⟩
      obtain ⟨op, k, hk, rfl⟩ := Instr.valid_iff.1 hvalid
      rw [Instr.operandWords_make] at hfits
      have htail : op.width k ≤ (c.toList.drop (pos + 1)).length := by
        rw [length_drop, length_toList]
        omega
      obtain ⟨s, rest, shaped, hinstr, hsplit⟩ := Phrase.exists_of_width_le hk htail
      rw [← drop_toList hi] at hsplit
      rw [← hinstr, segmentAt_of_phrase shaped hsplit] at h
      have hpos : 0 < s.words.length := Nat.succ_pos _
      obtain ⟨ss, hss, htext⟩ := ih (c.size - (pos + s.words.length)) (by omega) h.2 rfl
      change c.toList.drop (pos + s.words.length) = text ss at htext
      refine ⟨s :: ss, forall_mem_cons.2 ⟨shaped, hss⟩, ?_⟩
      rw [Phrase.text_cons, ← htext, ← drop_drop, hsplit, drop_left]
    · exact ⟨[], forall_mem_nil _, drop_eq_nil_iff.2 (by rw [length_toList]; exact Nat.not_lt.1 hlt)⟩

end Code

namespace Listing

open Text

/-- A line for a word that is no instruction. -/
def IsData (line : String) : Prop := ".word".toList <:+: line.toList

/-- A line for an instruction that is cut off. -/
def IsTruncated (line : String) : Prop := "<truncated>".toList <:+: line.toList

variable {c : Code} {s : Segment}

/-- A line is the position of its segment, two blanks and what stands there. -/
theorem line_eq (c : Code) (s : Segment) : ∃ body, line c s = Text.decimal 4 s.start ++ "  " ++ body := by
  unfold line
  dsimp only
  split
  · exact ⟨_, String.append_assoc ..⟩
  · exact ⟨_, String.append_assoc ..⟩
  · split
    · exact ⟨_, rfl⟩
    · exact ⟨_, by rw [String.append_assoc, String.append_assoc]⟩

/-- The segments of a code are labelled with their positions. -/
theorem leadingNumber_line (c : Code) (s : Segment) : leadingNumber (line c s) = s.start := by
  obtain ⟨body, hbody⟩ := line_eq c s
  rw [hbody, leadingNumber_decimal]

theorem plain_label (n : Nat) : Plain (Text.decimal 4 n ++ "  ") := (plain_decimal 4 n).append (by decide)

/-- A whole instruction is listed without a mark. -/
theorem plain_line (hform : s.form = .whole) (hvalid : s.instr.valid) : Plain (line c s) := by
  unfold line
  rw [hform]
  dsimp only
  split
  · exact (plain_label s.start).append (Instr.plain_render hvalid)
  · next text htext =>
    have padded := (Instr.plain_render hvalid).padRight 20
    exact (((plain_label s.start).append padded).append (by decide)).append (plain_operand htext)

/-- A word that is no instruction is listed with the mark for it and no other. -/
theorem line_of_data (hform : s.form = .data) :
    IsData (line c s) ∧ '<' ∉ (line c s).toList ∧ '\n' ∉ (line c s).toList := by
  have hline : line c s = Text.decimal 4 s.start ++ "  " ++ ".word 0x" ++ Text.hex s.instr.word.toNat := by
    simp only [line, hform]
  have hlabel := plain_label s.start
  have hhex := plain_hex s.instr.word.toNat
  rw [hline]
  refine ⟨?_, ?_, ?_⟩
  · have hmark : ".word 0x".toList = ".word".toList ++ " 0x".toList := by decide
    refine ⟨(Text.decimal 4 s.start ++ "  ").toList, " 0x".toList ++ (Text.hex s.instr.word.toNat).toList, ?_⟩
    simp only [String.toList_append, hmark, append_assoc]
  · exact notMem_append (notMem_append (hlabel.notMem rfl) (by decide)) (hhex.notMem rfl)
  · exact notMem_append (notMem_append (hlabel.notMem rfl) (by decide)) (hhex.notMem rfl)

/-- An instruction that is cut off is listed with the mark for it and no other. -/
theorem line_of_truncated (hform : s.form = .truncated) (hvalid : s.instr.valid) :
    IsTruncated (line c s) ∧ 'w' ∉ (line c s).toList ∧ '\n' ∉ (line c s).toList := by
  have hline : line c s = Text.decimal 4 s.start ++ "  " ++ s.instr.render ++ " <truncated>" := by
    simp only [line, hform]
  have hfront := (plain_label s.start).append (Instr.plain_render hvalid)
  rw [hline]
  refine ⟨?_, notMem_append (hfront.notMem rfl) (by decide), notMem_append (hfront.notMem rfl) (by decide)⟩
  have hmark : " <truncated>".toList = " ".toList ++ "<truncated>".toList := by decide
  refine ⟨(Text.decimal 4 s.start ++ "  " ++ s.instr.render).toList ++ " ".toList, [], ?_⟩
  simp only [String.toList_append, hmark, append_nil, append_assoc]

/-- What the marks of a line say about its segment. -/
theorem marks_line_iff (hvalid : s.form ≠ .data → s.instr.valid) :
    (IsData (line c s) ↔ s.form = .data) ∧ (IsTruncated (line c s) ↔ s.form = .truncated) ∧
      '\n' ∉ (line c s).toList := by
  have mem_of_isData (h : IsData (line c s)) : 'w' ∈ (line c s).toList := h.subset (by decide)
  have mem_of_isTruncated (h : IsTruncated (line c s)) : '<' ∈ (line c s).toList := h.subset (by decide)
  cases hform : s.form with
  | data =>
    obtain ⟨hdata, hbracket, hend⟩ := line_of_data (c := c) hform
    refine ⟨iff_of_true hdata rfl, iff_of_false (fun h => hbracket (mem_of_isTruncated h)) ?_, hend⟩
    exact SegmentForm.noConfusion
  | truncated =>
    obtain ⟨htruncated, hletter, hend⟩ := line_of_truncated (c := c) hform (hvalid (by rw [hform]; decide))
    exact ⟨iff_of_false (fun h => hletter (mem_of_isData h)) (by decide), iff_of_true htruncated rfl, hend⟩
  | whole =>
    have hplain := plain_line (c := c) hform (hvalid (by rw [hform]; decide))
    exact ⟨iff_of_false (fun h => hplain.notMem rfl (mem_of_isData h)) (by decide),
      iff_of_false (fun h => hplain.notMem rfl (mem_of_isTruncated h)) (by decide), hplain.notMem rfl⟩

end Listing

namespace Code

variable {c : Code} {pos : Nat}

/-- Only instructions are listed as such. -/
theorem valid_of_mem_segmentsFrom {s : Segment} (h : s ∈ c.segmentsFrom pos) (hform : s.form ≠ .data) :
    s.instr.valid := by
  induction hn : c.size - pos using Nat.strongRecOn generalizing pos with
  | _ n ih =>
    by_cases hlt : pos < c.size
    · obtain ⟨i, hi⟩ := exists_instr hlt
      have hstop := lt_stop_segmentAt c pos i
      rw [segmentsFrom_of_instr hi] at h
      rcases mem_cons.1 h with rfl | h
      · rw [(c.start_segmentAt pos i).2]
        unfold segmentAt at hform
        split at hform
        · exact absurd rfl hform
        · next hvalid => simpa using hvalid
      · exact ih _ (by omega) h rfl
    · rw [segmentsFrom_of_le (Nat.not_lt.1 hlt)] at h
      cases h

end Code

namespace Listing

variable {c : Code}

theorem marks_line {s : Segment} (h : s ∈ c.segments) :
    (IsData (line c s) ↔ s.form = .data) ∧ (IsTruncated (line c s) ↔ s.form = .truncated) ∧
      '\n' ∉ (line c s).toList :=
  marks_line_iff (Code.valid_of_mem_segmentsFrom h)

/-- The lines are labelled with the positions of the segments. -/
theorem map_leadingNumber_lines (c : Code) :
    (lines c).map Text.leadingNumber = c.segments.map Segment.start := by
  rw [lines, map_map]
  exact map_congr_left fun s _ => leadingNumber_line c s

/-- A listing has no marks when every segment is a whole instruction. -/
theorem unmarked_iff : (∀ l ∈ lines c, ¬ IsData l ∧ ¬ IsTruncated l) ↔ ∀ s ∈ c.segments, s.form = .whole := by
  rw [lines, forall_mem_map]
  refine forall₂_congr fun s hs => ?_
  obtain ⟨hdata, htruncated, -⟩ := marks_line hs
  rw [hdata, htruncated]
  cases s.form <;> decide

variable {lim : Limits}

/-- A verified code is listed as the phrases it is verified as. -/
theorem segments_of_verify (h : c.verify lim = .ok ()) :
    ∃ ss, text ss = c.toList ∧ (∀ s ∈ ss, s.Lawful lim c.size) ∧
      c.segments = Phrase.segmentsFrom 0 ss := by
  obtain ⟨ss, htext, hss⟩ := Code.verify_eq_ok_iff.1 h
  exact ⟨ss, htext, hss, Code.segmentsFrom_of_text (fun s hs => (hss s hs).toShaped) htext.symm⟩

/-- A code that is listed as whole instructions is refused only for an operand out of range,
at one of them. -/
theorem outOfRange_of_whole (h : ∀ s ∈ c.segments, s.form = .whole) {d : Defect} (hd : c.verify lim = .error d) :
    (∃ i v, d = .outOfRange i v d.pos) ∧ d.pos ∈ c.segments.map Segment.start := by
  obtain ⟨ts, hts, htext : c.toList = text ts⟩ := Code.exists_phrases_of_whole h
  have hsegments : c.segments = Phrase.segmentsFrom 0 ts := Code.segmentsFrom_of_text hts htext
  obtain ⟨ss, rest, hsplit, hss, hrefuses⟩ := Code.verify_eq_error_iff.1 hd
  -- The lawful phrases are the first of those that are listed, and what is refused is the next.
  obtain ⟨us, rfl, rfl⟩ := Phrase.exists_of_text_append (fun s hs => (hss s hs).toShaped) hts (hsplit.trans htext)
  have hpos := hrefuses.pos_eq
  cases us with
  | nil => exact absurd rfl hrefuses.ne_nil
  | cons u us =>
    have shaped : u.Shaped := hts u (mem_append_right _ mem_cons_self)
    obtain ⟨w, -, -, hdefect⟩ := Limits.Refuses.eq_outOfRange shaped hrefuses
    refine ⟨⟨_, _, hpos ▸ hdefect⟩, ?_⟩
    rw [hpos, hsegments, Phrase.map_start_segmentsFrom, ← Nat.zero_add (text ss).length]
    exact Phrase.mem_startsFrom 0 ss us u

/-- Listing and verification agree on where instructions stand. Whatever the words of a code
are, its lines are those of segments that tile it, each labelled with the position of its
segment. The lines of a verified code are labelled with the positions of the phrases it is
verified as, and have no marks; a code whose lines have no marks is refused only for an
operand out of range, at a position that one of them is labelled with. -/
theorem lines_agree_with_verify (c : Code) :
    lines c = c.segments.map (line c) ∧ c.segments.length ≤ c.size ∧ c.Tiled 0 c.segments ∧
    (∀ p < c.size, ∃ s ∈ c.segments, (s.start ≤ p ∧ p < s.stop) ∧
      ∀ t ∈ c.segments, t.start ≤ p → p < t.stop → t = s) ∧
    (lines c).map Text.leadingNumber = c.segments.map Segment.start ∧
    (∀ l ∈ lines c, '\n' ∉ l.toList) ∧
    (∀ lim, c.verify lim = .ok () →
      (∃ ss, Phrase.text ss = c.toList ∧ (∀ s ∈ ss, s.Lawful lim c.size) ∧
        (lines c).map Text.leadingNumber = Phrase.startsFrom 0 ss) ∧
      ∀ l ∈ lines c, ¬ IsData l ∧ ¬ IsTruncated l) ∧
    ((∀ l ∈ lines c, ¬ IsData l ∧ ¬ IsTruncated l) → ∀ lim d, c.verify lim = .error d →
      (∃ i v, d = .outOfRange i v d.pos) ∧ d.pos ∈ (lines c).map Text.leadingNumber) := by
  have tiled : c.Tiled 0 c.segments := Code.tiled_segmentsFrom (Nat.zero_le _)
  refine ⟨rfl, Nat.zero_add c.segments.length ▸ tiled.length_le, tiled,
    fun p hp => tiled.exists_only (Nat.zero_le p) hp,
    map_leadingNumber_lines c, ?_, fun lim h => ?_, fun h lim d hd => ?_⟩
  · rw [lines, List.forall_mem_map]
    exact fun s hs => (marks_line hs).2.2
  · obtain ⟨ss, htext, hss, hsegments⟩ := segments_of_verify h
    refine ⟨⟨ss, htext, hss, ?_⟩, unmarked_iff.2 fun s hs => ?_⟩
    · rw [map_leadingNumber_lines, hsegments, Phrase.map_start_segmentsFrom]
    · rw [hsegments] at hs
      exact Phrase.form_of_mem_segmentsFrom hs
  · rw [map_leadingNumber_lines]
    exact outOfRange_of_whole (unmarked_iff.1 h) hd

end Listing
end Stackwork
