import Stackwork.Code.Listing
import Stackwork.Proofs.Code.Grammar

/-!
# What numerals and mnemonics are spelled with

A listing marks a word that is no instruction by `.word` and an instruction that is cut off
by `<truncated>`, and ends its lines. A letter of the first mark, a bracket of the second
and the end of a line occur neither in a number, however it is written, nor in the name of
an instruction, so a mark found in a line has been put there as one. The number at the
beginning of a text can be read back from its digits.
-/
namespace Stackwork

open List

namespace Text

/-- Any character but those by which marks and line ends are told apart. -/
def plainChar (c : Char) : Bool := c != 'w' && c != '<' && c != '\n'

/-- A text without marks and on one line. -/
def Plain (s : String) : Prop := ∀ c ∈ s.toList, plainChar c = true

instance (s : String) : Decidable (Plain s) := List.decidableBAll _ s.toList

variable {s t : String} {x c : Char}

theorem Plain.append (hs : Plain s) (ht : Plain t) : Plain (s ++ t) := by
  intro c hc
  rw [String.toList_append] at hc
  exact (mem_append.1 hc).elim (hs c) (ht c)

theorem Plain.notMem (h : Plain s) (hx : plainChar x = false) : x ∉ s.toList := by
  intro hmem
  rw [h x hmem] at hx
  cases hx

theorem notMem_append (hs : x ∉ s.toList) (ht : x ∉ t.toList) : x ∉ (s ++ t).toList := by
  rw [String.toList_append, mem_append, not_or]
  exact ⟨hs, ht⟩

theorem plain_ofList {cs : List Char} (h : ∀ c ∈ cs, plainChar c = true) : Plain (String.ofList cs) := by
  intro c hc
  rw [String.toList_ofList] at hc
  exact h c hc

theorem plainChar_of_mem_replicate (hx : plainChar x = true) {n : Nat} (h : c ∈ replicate n x) :
    plainChar c = true := by
  rwa [eq_of_mem_replicate h]

theorem plainChar_digitChar (n : Nat) : plainChar n.digitChar = true := by
  have hw : n.digitChar ≠ 'w' := Nat.digitChar_ne _ (by decide)
  have hbracket : n.digitChar ≠ '<' := Nat.digitChar_ne _ (by decide)
  have hline : n.digitChar ≠ '\n' := Nat.digitChar_ne _ (by decide)
  simp only [plainChar, bne_iff_ne, Bool.and_eq_true]
  exact ⟨⟨hw, hbracket⟩, hline⟩

theorem plainChar_of_mem_toDigits {b : Nat} (hb : 1 < b) (n : Nat) :
    ∀ c ∈ Nat.toDigits b n, plainChar c = true := by
  induction n using Nat.strongRecOn with
  | _ n ih =>
    intro c hc
    rw [Nat.toDigits_eq_if hb] at hc
    split at hc
    · rw [mem_singleton.1 hc]
      exact plainChar_digitChar n
    · next hn =>
      rcases mem_append.1 hc with hc | hc
      · have hpos : 0 < n := Nat.lt_of_lt_of_le (Nat.lt_of_succ_lt hb) (Nat.not_lt.1 hn)
        exact ih _ (Nat.div_lt_self hpos hb) c hc
      · rw [mem_singleton.1 hc]
        exact plainChar_digitChar _

theorem plain_hex (n : Nat) : Plain (hex n) := plain_ofList (plainChar_of_mem_toDigits (by decide) n)

theorem plain_nat (n : Nat) : Plain (toString n) := by
  rw [Nat.toString_eq_ofList_toDigits]
  exact plain_ofList (plainChar_of_mem_toDigits (by decide) n)

theorem plain_int (n : Int) : Plain (toString n) := by
  cases n with
  | ofNat n => exact plain_nat n
  | negSucc n => exact Plain.append (by decide) (plain_nat (n + 1))

theorem Plain.padLeft (hs : Plain s) (hc : plainChar c = true) (width : Nat) : Plain (padLeft width c s) :=
  (plain_ofList fun _ => plainChar_of_mem_replicate hc).append hs

theorem Plain.padRight (hs : Plain s) (width : Nat) : Plain (padRight width s) :=
  hs.append (plain_ofList fun _ => plainChar_of_mem_replicate rfl)

theorem plain_decimal (width : Nat) (n : Int) : Plain (decimal width n) := by
  have padded (width : Nat) : Plain (padLeft width '0' (toString n.natAbs)) :=
    (plain_nat n.natAbs).padLeft rfl width
  unfold decimal
  split
  · exact Plain.append (by decide) (padded _)
  · exact padded _

/-- The number that the digits at the beginning of a text make. -/
def leadingNumber (s : String) : Nat := Nat.ofDigitChars 10 (s.toList.takeWhile Char.isDigit) 0

/-- A number that is padded to a width and followed by blanks is read back from the text. -/
theorem leadingNumber_decimal (width n : Nat) (rest : String) :
    leadingNumber (decimal width n ++ "  " ++ rest) = n := by
  let zeros := replicate (width - (toString n).length) '0'
  have digits : ∀ c ∈ zeros ++ Nat.toDigits 10 n, c.isDigit = true := by
    intro c hc
    rcases mem_append.1 hc with hc | hc
    · rw [eq_of_mem_replicate hc]
      decide
    · exact Nat.isDigit_of_mem_toDigits (by decide) (by decide) hc
  have hdecimal : (decimal width n).toList = zeros ++ Nat.toDigits 10 n := by
    rw [decimal, if_neg (Int.not_lt.2 (Int.natCast_nonneg n)), Int.natAbs_natCast, padLeft,
      String.toList_append, String.toList_ofList, Nat.toString_eq_ofList_toDigits, String.toList_ofList,
      ← Nat.toString_eq_ofList_toDigits]
  have hblank : ("  " ++ rest).toList = ' ' :: ' ' :: rest.toList := String.toList_append
  rw [leadingNumber, String.append_assoc, String.toList_append, hdecimal, hblank, takeWhile_append_of_pos digits,
    takeWhile_cons_of_neg (by decide), append_nil, Nat.ofDigitChars_append,
    Nat.ofDigitChars_replicate_zero, Nat.mul_zero, Nat.ofDigitChars_ten_toDigits]

end Text

namespace Decimal

open Text

variable {digits : List Char}

theorem plain_inPlaces (hd : ∀ c ∈ digits, plainChar c = true) (lead : Int) : Plain (inPlaces digits lead) := by
  have zeros (n : Nat) : ∀ c ∈ replicate n '0', plainChar c = true :=
    fun _ => plainChar_of_mem_replicate rfl
  unfold inPlaces
  split
  · exact Plain.append (by decide) (plain_ofList (forall_mem_append.2 ⟨zeros _, hd⟩))
  · dsimp only
    split
    · exact plain_ofList (forall_mem_append.2 ⟨hd, zeros _⟩)
    · have front (n : Nat) : Plain (String.ofList (digits.take n)) :=
        plain_ofList fun c hc => hd c (mem_of_mem_take hc)
      have back (n : Nat) : Plain (String.ofList (digits.drop n)) :=
        plain_ofList fun c hc => hd c (mem_of_mem_drop hc)
      exact ((front _).append (by decide)).append (back _)

theorem plain_withPower (hd : ∀ c ∈ digits, plainChar c = true) (width : Nat) (lead : Int) :
    Plain (withPower width digits lead) := by
  have sign : Plain (if lead < 0 then "-" else "+") := by split <;> decide
  have power : Plain (padLeft width '0' (toString lead.natAbs)) := (plain_nat _).padLeft rfl _
  have single (d : Char) (h : plainChar d = true) : Plain d.toString :=
    plain_ofList fun c hc => by rwa [mem_singleton.1 hc]
  unfold withPower
  refine ((Plain.append ?_ (by decide)).append sign).append power
  cases digits with
  | nil => decide
  | cons d rest =>
    rw [forall_mem_cons] at hd
    cases rest with
    | nil => exact single d hd.1
    | cons d' rest => exact ((single d hd.1).append (by decide)).append (plain_ofList hd.2)

/-- A float is written with digits, signs, a point, an exponent or as a name. -/
theorem Layout.plain_render (l : Layout) (bits : UInt64) : Plain (l.render bits) := by
  have hdigits (n : Nat) := plainChar_of_mem_toDigits (b := 10) (by decide) n
  have magnitude (b : Binary) : Plain (l.magnitude b) := by
    unfold Layout.magnitude
    split
    · decide
    · dsimp only
      split
      · exact plain_inPlaces (hdigits _) _
      · exact plain_withPower (hdigits _) _ _
  unfold Layout.render
  dsimp only
  split
  · decide
  · split
    · split <;> decide
    · refine Plain.append ?_ (magnitude _)
      split <;> decide

end Decimal

open Text

/-- The names of the instructions there are. -/
theorem Instr.plain_render {i : Instr} (h : i.valid) : Plain i.render := by
  obtain ⟨op, k, hk, rfl⟩ := Instr.valid_iff.1 h
  have named : ∀ op : Opcode, ∀ k ∈ op.kinds, Plain (Instr.make op k).render := by
    intro op
    cases op with
    | unary op | binary op => cases op <;> decide
    | _ => decide
  exact named op k hk

namespace Listing

theorem plain_operand {c : Code} {s : Segment} {text : String} (h : operand? c s = some text) : Plain text := by
  unfold operand? at h
  dsimp only at h
  split at h
  · split at h
    · cases h
      exact plain_int _
    · split at h
      · cases h
        exact floats.plain_render _
      · cases h
        exact Plain.append (by decide) (plain_nat _)
  · split at h
    · cases h
      exact Plain.append (by decide) (plain_decimal _ _)
    · split at h
      · cases h
        exact plain_int _
      · cases h
  · cases h

end Listing
end Stackwork
