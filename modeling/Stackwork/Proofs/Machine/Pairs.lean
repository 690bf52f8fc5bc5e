import Stackwork.Proofs.Failing
import Stackwork.Proofs.Machine.Control

/-!
# Two machines side by side

The same operation on two machines that are alike in some respect. `Op.Pairs` says that both
runs of it go well with results that correspond, or both end in the same fault, and that the
machines are alike again. In a comparison that spares the first machine its faults, nothing is
said of the second machine once the first has faulted.

`Machine.Likeness` lists what a likeness has to bear so that one instruction can be executed on
both machines: pushing, popping, and touching those heap and stack slots that are in question.
`Machine.Likeness.execute` draws the conclusion for all instructions that go on in the same code.
-/
namespace Stackwork

open Machine (taskStep)

namespace Op

variable {α β : Type} {m : Machine}

/-- A sequence faults in its first part or in its second. -/
theorem bind_eq_error {m' : Machine} {x : Op α} {f : α → Op β} {e : Fault} :
    (x >>= f) m = .error e m' ↔ x m = .error e m' ∨ ∃ a m₁, x m = .ok a m₁ ∧ f a m₁ = .error e m' := by
  change EStateM.bind x f m = _ ↔ _
  unfold EStateM.bind
  cases x m with
  | ok a m₁ =>
    constructor
    · exact fun h => .inr ⟨a, m₁, rfl, h⟩
    · rintro (h | ⟨a', m₁', h, hf⟩)
      · cases h
      · cases h
        exact hf
  | error e' m₁ =>
    constructor
    · exact fun h => .inl (by cases h; rfl)
    · rintro (h | ⟨a', m₁', h, -⟩)
      · cases h
        rfl
      · cases h

/-- Two runs of an operation end alike: both go well, with machines in `R` and results in `Q`, or
both end in one fault, with machines in `E`. A fault of the first run may be spared. -/
inductive Alike {α β : Type} (spare : Prop) (E R : Machine → Machine → Prop) (Q : α → β → Prop) :
    EStateM.Result Fault Machine α → EStateM.Result Fault Machine β → Prop where
  | ok {a : α} {b : β} {m n : Machine} (value : Q a b) (rel : R m n) :
      Alike spare E R Q (.ok a m) (.ok b n)
  | error {f : Fault} {m n : Machine} (rel : E m n) : Alike spare E R Q (.error f m) (.error f n)
  | spared {f : Fault} {m : Machine} {y : EStateM.Result Fault Machine β} (h : spare) :
      Alike spare E R Q (.error f m) y

/-- What goes well goes well on the other side too. -/
theorem Alike.of_ok {spare : Prop} {E R : Machine → Machine → Prop} {Q : α → β → Prop} {a : α}
    {y : EStateM.Result Fault Machine β} (h : Alike spare E R Q (.ok a m) y) :
    ∃ b n, y = .ok b n ∧ Q a b ∧ R m n := by
  cases h with
  | ok value rel => exact ⟨_, _, rfl, value, rel⟩

/-- Started on machines in `P`, two operations end alike. -/
def Pairs {α β : Type} (spare : Prop) (E P R : Machine → Machine → Prop) (Q : α → β → Prop)
    (x : Op α) (y : Op β) : Prop :=
  ∀ ⦃m n⦄, P m n → Alike spare E R Q (x m) (y n)

/-- An operation keeps two machines in a relation and gives the same answer on both. -/
abbrev Steady {α : Type} (spare : Prop) (R : Machine → Machine → Prop) (x : Op α) : Prop :=
  Pairs spare R R R Eq x x

namespace Pairs

variable {α β γ δ : Type} {spare : Prop} {E P R S : Machine → Machine → Prop}
  {Q : α → β → Prop} {Q' : γ → δ → Prop}

theorem pure {a : α} {b : β} (h : Q a b) : Pairs spare E P P Q (pure a : Op α) (pure b : Op β) :=
  fun _ _ hP => .ok h hP

variable {x : Op α} {y : Op β} {f : α → Op γ}

theorem bind {g : β → Op δ} (hx : Pairs spare E P R Q x y)
    (hf : ∀ a b, Q a b → Pairs spare E R S Q' (f a) (g b)) :
    Pairs spare E P S Q' (x >>= f) (y >>= g) := by
  intro m n hP
  have hxy := hx hP
  change Alike spare E S Q' (EStateM.bind x f m) (EStateM.bind y g n)
  unfold EStateM.bind
  generalize x m = x₁, y n = y₁ at hxy ⊢
  cases hxy with
  | ok value rel => exact hf _ _ value rel
  | error rel => exact .error rel
  | spared h => exact .spared h

variable {g : α → Op δ} {a? : Option α}

/-- A sequence in which both sides come to the same value in between. -/
theorem bindEq {y : Op α} (hx : Pairs spare E P R Eq x y) (hf : ∀ a, Pairs spare E R S Q' (f a) (g a)) :
    Pairs spare E P S Q' (x >>= f) (y >>= g) :=
  hx.bind fun a _ h => h ▸ hf a

theorem map {f : α → γ} {g : β → δ} (hx : Pairs spare E P R Q x y) (hf : ∀ a b, Q a b → Q' (f a) (g b)) :
    Pairs spare E P R Q' (f <$> x) (g <$> y) := by
  rw [map_eq_pure_bind, map_eq_pure_bind]
  exact hx.bind fun a b h => .pure (hf a b h)

theorem get {f : Machine → Op α} {g : Machine → Op β}
    (h : ∀ m n, P m n → Pairs spare E P R Q (f m) (g n)) :
    Pairs spare E P R Q (get >>= f) (get >>= g) :=
  fun m n hP => h m n hP hP

theorem modify {f g : Machine → Machine} (h : ∀ m n, P m n → R (f m) (g n)) :
    Pairs spare E P R Eq (modify f : Op PUnit) (modify g) :=
  fun m n hP => .ok rfl (h m n hP)

theorem fault (e : Fault) (h : ∀ m n, P m n → E m n) :
    Pairs spare E P R Q (Machine.fault e : Op α) (Machine.fault e) :=
  fun m n hP => .error (h m n hP)

theorem require {b? : Option α} (hab : a? = b?) (h : ∀ m n, P m n → E m n) :
    Pairs spare E P P Eq (Machine.require a?) (Machine.require b?) := by
  subst hab
  cases a? with
  | none => exact .fault _ h
  | some a => exact .pure rfl

/-- Both sides go on with what is there, and know that it is. -/
theorem found (h : ∀ m n, P m n → E m n) (hf : ∀ a, a? = some a → Pairs spare E P R Q' (f a) (g a)) :
    Pairs spare E P R Q' (Machine.require a? >>= f) (Machine.require a? >>= g) := by
  cases a? with
  | none => exact fun m n hP => .error (h m n hP)
  | some a => exact hf a rfl

theorem ite {p q : Prop} [Decidable p] [Decidable q] {x' : Op α} {y' : Op β} (hpq : p ↔ q)
    (ht : p → Pairs spare E P R Q x y) (hf : ¬ p → Pairs spare E P R Q x' y') :
    Pairs spare E P R Q (if p then x else x') (if q then y else y') := by
  by_cases hp : p
  · rw [if_pos hp, if_pos (hpq.1 hp)]
    exact ht hp
  · rw [if_neg hp, if_neg (mt hpq.2 hp)]
    exact hf hp

theorem mono {E' R' : Machine → Machine → Prop} {Q₁ : α → β → Prop} (h : Pairs spare E P R Q x y)
    (hE : ∀ m n, E m n → E' m n) (hR : ∀ m n, R m n → R' m n) (hQ : ∀ a b, Q a b → Q₁ a b) :
    Pairs spare E' P R' Q₁ x y := by
  intro m n hm
  have hxy := h hm
  generalize x m = x₁, y n = y₁ at hxy ⊢
  cases hxy with
  | ok value rel => exact .ok (hQ _ _ value) (hR _ _ rel)
  | error rel => exact .error (hE _ _ rel)
  | spared h => exact .spared h

end Pairs
end Op

namespace Machine

/-- What reading a slot as a kind comes to, by what the slot holds and, on a tagged machine, by
its tag. -/
def lookUp (region : Region) (i : Int) (k : Kind) : Option Slot → Option (Option Kind) →
    Except Fault Slot
  | none, _ => .error .outOfRange
  | some v, none => .ok v
  | some _, some none => .error .outOfRange
  | some v, some (some held) =>
    if k ≠ .none ∧ held ≠ .none ∧ held ≠ k then .error (.tag region i held k) else .ok v

/-- The tag of a slot, if tags count. -/
def tagAt (m : Machine) (tags : Array Kind) (i : Int) : Option (Option Kind) :=
  if m.settings.tagged then some (at? tags i) else none

/-- The outcome of an operation that does not change the machine. -/
def outcome {α : Type} (m : Machine) : Except Fault α → EStateM.Result Fault Machine α
  | .ok a => .ok a m
  | .error f => .error f m

theorem checkTag_apply (region : Region) (i : Int) (held k : Kind) (v : Slot) (m : Machine) :
    (checkTag region i held k >>= fun _ => pure v : Op Slot) m =
      m.outcome (lookUp region i k (some v) (some (some held))) := by
  simp only [checkTag, lookUp]
  by_cases h : k ≠ .none ∧ held ≠ .none ∧ held ≠ k
  · rw [if_pos h, if_pos h]
    rfl
  · rw [if_neg h, if_neg h]
    rfl

theorem readStack_apply (i : Int) (k : Kind) (m : Machine) :
    readStack i k m = m.outcome (lookUp .stack i k (at? m.stack i) (m.tagAt m.stackTags i)) := by
  change (require (at? m.stack i) >>= _) m = _
  unfold tagAt
  cases at? m.stack i with
  | none => rfl
  | some v =>
    change ((if m.settings.tagged then _ else _ : Op Slot) m) = _
    by_cases htagged : m.settings.tagged
    · rw [if_pos htagged, if_pos htagged]
      change (require (at? m.stackTags i) >>= _) m = _
      cases at? m.stackTags i with
      | none => rfl
      | some held => exact checkTag_apply .stack i held k v m
    · rw [if_neg htagged, if_neg htagged]
      rfl

theorem readHeap_apply (i : Int) (k : Kind) (m : Machine) :
    readHeap i k m = m.outcome (lookUp .heap i k (at? m.heap i) (m.tagAt m.heapTags i)) := by
  change (require (at? m.heap i) >>= _) m = _
  unfold tagAt
  cases at? m.heap i with
  | none => rfl
  | some v =>
    change ((if m.settings.tagged then _ else _ : Op Slot) m) = _
    by_cases htagged : m.settings.tagged
    · rw [if_pos htagged, if_pos htagged]
      change (require (at? m.heapTags i) >>= _) m = _
      cases at? m.heapTags i with
      | none => rfl
      | some held => exact checkTag_apply .heap i held k v m
    · rw [if_neg htagged, if_neg htagged]
      rfl

/-- Without its tag, a slot that can be read can still be read. -/
theorem lookUp_untagged {region : Region} {i : Int} {k : Kind} {slot? : Option Slot}
    {tag? : Option (Option Kind)} {v : Slot} (h : lookUp region i k slot? tag? = .ok v) :
    lookUp region i k slot? none = .ok v := by
  unfold lookUp at h
  split at h
  · cases h
  · exact h
  · cases h
  · split at h
    · cases h
    · exact h

/-- Two machines come to one outcome. -/
theorem alike_outcome {α : Type} {spare : Prop} {R : Machine → Machine → Prop} {m n : Machine}
    (h : R m n) {x y : Except Fault α} (hxy : x = y ∨ spare ∧ ∀ a, x = .ok a → y = .ok a) :
    Op.Alike spare R R Eq (m.outcome x) (n.outcome y) := by
  rcases hxy with rfl | ⟨hspare, hok⟩
  · cases x with
    | ok a => exact .ok rfl h
    | error f => exact .error h
  · cases x with
    | ok a =>
      rw [hok a rfl]
      exact .ok rfl h
    | error f => exact .spared hspare

end Machine

open Op (Pairs Steady)

/-- A relation between machines that instructions preserve, as long as the heap slots they touch
are in `G` and the stack slots they name are in `L`. -/
structure Machine.Likeness (spare : Prop) (R : Machine → Machine → Prop) (G L : Int → Prop) :
    Prop where
  base {m n : Machine} (h : R m n) : m.base = n.base
  drop {m n : Machine} (h : R m n) : R { m with sp := m.sp - 1 } { n with sp := n.sp - 1 }
  push (v : Slot) (k : Kind) : Steady spare R (push v k)
  pop (k : Kind) : Steady spare R (pop k)
  readHeap {i : Int} (hi : G i) (k : Kind) : Steady spare R (readHeap i k)
  writeHeap {i : Int} (hi : G i) (v : Slot) (k : Kind) :
    Steady spare R (writeHeap i v k)
  readStack {i : Int} (hi : L i) (k : Kind) : Steady spare R (readStack i k)
  writeStack {i : Int} (hi : L i) (v : Slot) (k : Kind) :
    Steady spare R (writeStack i v k)

namespace Machine.Likeness

variable {spare : Prop} {R : Machine → Machine → Prop} {G L : Int → Prop}

section

variable (h : Likeness spare R G L)
include h

theorem popInt : Steady spare R popInt :=
  (h.pop _).map fun _ _ e => e ▸ rfl

theorem popFloat : Steady spare R popFloat :=
  (h.pop _).map fun _ _ e => e ▸ rfl

theorem pushResult (t : Option Tagged) : Steady spare R (pushResult t) := by
  cases t with
  | none => exact .pure rfl
  | some t => exact h.push _ _

theorem unary (op : UnaryCode) (k : Kind) : Steady spare R (unary op k) :=
  .ite Iff.rfl (fun _ => h.popInt.bindEq fun _ => h.pushResult _)
    fun _ => h.popFloat.bindEq fun _ => h.pushResult _

theorem binary (op : BinaryCode) (k : Kind) : Steady spare R (binary op k) := by
  refine .ite Iff.rfl (fun _ => ?_) fun _ => .ite Iff.rfl (fun _ => ?_) fun _ => ?_
  · refine h.popInt.bindEq fun r => h.popInt.bindEq fun l => ?_
    split
    · exact h.push _ _
    · exact .fault _ fun _ _ hR => hR
  · exact h.popFloat.bindEq fun _ => h.popFloat.bindEq fun _ => h.pushResult _
  · exact (h.pop _).bindEq fun _ => (h.pop _).bindEq fun _ => h.push _ _

theorem select (k : Kind) : Steady spare R (select k) :=
  (h.pop _).bindEq fun _ => (h.pop _).bindEq fun _ => h.popInt.bindEq fun _ =>
    .ite Iff.rfl (fun _ => h.push _ _) fun _ => h.push _ _

theorem pushImmediate (code : Code) (pc : Int) (k : Kind) :
    Steady spare R (pushImmediate code pc k) :=
  .ite Iff.rfl
    (fun _ => (Pairs.require rfl fun _ _ hR => hR).bindEq fun _ => (h.push _ _).bindEq fun _ =>
      .pure rfl)
    fun _ => (Pairs.require rfl fun _ _ hR => hR).bindEq fun _ => (h.push _ _).bindEq fun _ =>
      .pure rfl

end

variable {code : Code} {pc : Int}

/-- The operand is the same on both sides, being read from the code. -/
theorem operand {α β : Type} {Q : α → β → Prop} {f : Int → Op α} {g : Int → Op β}
    (hf : ∀ v, code.int? pc = some v → Pairs spare R R R Q (f v.toInt) (g v.toInt)) :
    Pairs spare R R R Q (Machine.operand code pc >>= f) (Machine.operand code pc >>= g) := by
  simp only [Machine.operand, bind_assoc, pure_bind]
  exact .found (fun _ _ hR => hR) hf

/-- An instruction that is no call, no return and not HALT does the same on both machines. The
frame depth plays no part in it. -/
theorem execute (h : Likeness spare R G L) {op : Opcode} (d d' : Nat) (k : Kind) (hcall : op ≠ .call)
    (hcallR : op ≠ .callR) (hret : op ≠ .ret) (hhalt : op ≠ .halt)
    (global : op = .loadGlobal ∨ op = .storeGlobal → ∀ v, code.int? pc = some v → G v.toInt)
    (local_ : op = .loadLocal ∨ op = .storeLocal → ∀ v, code.int? pc = some v → ∀ m n, R m n → L (m.base + v.toInt)) :
    Pairs spare R R R Eq (execute code pc d op k) (execute code pc d' op k) := by
  cases op with
  | nop => exact .pure rfl
  | pop => exact (Pairs.modify fun _ _ hR => h.drop hR).bindEq fun _ => .pure rfl
  | pushImm => exact h.pushImmediate code pc k
  | pushZero | pushOne =>
    exact .ite Iff.rfl (fun _ => (h.push _ _).bindEq fun _ => .pure rfl)
      fun _ => (h.push _ _).bindEq fun _ => .pure rfl
  | pushNull => exact (h.push _ _).bindEq fun _ => .pure rfl
  | loadGlobal =>
    exact operand fun v hv => (h.readHeap (global (.inl rfl) v hv) k).bindEq fun _ =>
      (h.push _ _).bindEq fun _ => .pure rfl
  | storeGlobal =>
    exact operand fun v hv => (h.pop _).bindEq fun _ =>
      (h.writeHeap (global (.inr rfl) v hv) _ k).bindEq fun _ => .pure rfl
  | loadLocal =>
    refine .get fun m n hR => operand fun v hv => ?_
    rw [h.base hR]
    have hslot := h.base hR ▸ local_ (.inl rfl) v hv m n hR
    exact (h.readStack hslot k).bindEq fun _ => (h.push _ _).bindEq fun _ => .pure rfl
  | storeLocal =>
    refine .get fun m n hR => operand fun v hv => ?_
    rw [h.base hR]
    have hslot := h.base hR ▸ local_ (.inr rfl) v hv m n hR
    exact (h.pop _).bindEq fun _ => (h.writeStack hslot _ k).bindEq fun _ => .pure rfl
  | unary op => exact (h.unary op k).bindEq fun _ => .pure rfl
  | binary op => exact (h.binary op k).bindEq fun _ => .pure rfl
  | select => exact (h.select k).bindEq fun _ => .pure rfl
  | jump => exact operand fun v hv => .pure rfl
  | branchTrue | branchFalse => exact operand fun v hv => h.popInt.bindEq fun _ => .pure rfl
  | jumpR => exact h.popInt.bindEq fun _ => .pure rfl
  | branchTrueR | branchFalseR => exact h.popInt.bindEq fun _ => h.popInt.bindEq fun _ => .pure rfl
  | call => exact absurd rfl hcall
  | callR => exact absurd rfl hcallR
  | ret => exact absurd rfl hret
  | halt => exact absurd rfl hhalt

end Machine.Likeness

/-- Two steps of runs come to the like: runs in `S` that go on, or machines in `R` with the same
result or the same fault. -/
inductive Progress.Alike (spare : Prop) (R : Machine → Machine → Prop) (S : Config → Config → Prop) :
    Progress → Progress → Prop where
  | running {c c' : Config} (h : S c c') : Alike spare R S (.running c) (.running c')
  | finished {v : Slot} {m n : Machine} (h : R m n) : Alike spare R S (.finished v m) (.finished v n)
  | faulted {f : Fault} {m n : Machine} (h : R m n) : Alike spare R S (.faulted f m) (.faulted f n)
  | spared {f : Fault} {m : Machine} {y : Progress} (h : spare) : Alike spare R S (.faulted f m) y

/-- Two runs come out alike: with the same result or the same fault on machines in `R`, or
neither is over. -/
inductive Outcome.Alike {α : Type} (spare : Prop) (R : Machine → Machine → Prop) :
    Outcome α → Outcome α → Prop where
  | finished {a : α} {m n : Machine} (h : R m n) : Alike spare R (.finished a m) (.finished a n)
  | faulted {f : Fault} {m n : Machine} (h : R m n) : Alike spare R (.faulted f m) (.faulted f n)
  | unfinished : Alike spare R .unfinished .unfinished
  | spared {f : Fault} {m : Machine} {y : Outcome α} (h : spare) : Alike spare R (.faulted f m) y

variable {spare : Prop} {R : Machine → Machine → Prop} {S : Config → Config → Prop}

variable {R' : Machine → Machine → Prop} {m n : Machine}

theorem Outcome.Alike.mono {α : Type} {x y : Outcome α} (h : Outcome.Alike spare R x y)
    (hR : ∀ m n, R m n → R' m n) : Outcome.Alike spare R' x y := by
  cases h with
  | finished h => exact .finished (hR _ _ h)
  | faulted h => exact .faulted (hR _ _ h)
  | unfinished => exact .unfinished
  | spared h => exact .spared h

theorem Progress.Alike.mono {x y : Progress} (hR : ∀ m n, R m n → R' m n)
    (h : Progress.Alike spare R S x y) : Progress.Alike spare R' S x y := by
  cases h with
  | running h => exact .running h
  | finished h => exact .finished (hR _ _ h)
  | faulted h => exact .faulted (hR _ _ h)
  | spared h => exact .spared h

/-- A step of the topmost tasks is a step of the runs. -/
theorem Config.progress_of_taskStep {t t' : Task} {rest rest' : List Task} {v : Slot}
    {Q : List Task × Slot → List Task × Slot → Prop}
    (h : Op.Alike spare R R Q (taskStep v t m) (taskStep v t' n))
    (hS : ∀ p q m' n', taskStep v t m = .ok p m' → Q p q → R m' n' →
      S ⟨m', p.1 ++ rest, p.2⟩ ⟨n', q.1 ++ rest', q.2⟩) :
    Progress.Alike spare R S (step ⟨m, t :: rest, v⟩) (step ⟨n, t' :: rest', v⟩) := by
  simp only [step]
  cases hm : taskStep v t m with
  | ok p m' =>
    rw [hm] at h
    generalize taskStep v t' n = y at h ⊢
    cases h with
    | ok value rel => exact .running (hS _ _ _ _ hm value rel)
  | error f m' =>
    rw [hm] at h
    generalize taskStep v t' n = y at h ⊢
    cases h with
    | error rel => exact .faulted rel
    | spared h => exact .spared h

/-- Runs whose steps come to the like come out alike. -/
theorem Config.run_alike (hstep : ∀ c c', S c c' → Progress.Alike spare R S c.step c'.step)
    (fuel : Nat) {c c' : Config} (h : S c c') : Outcome.Alike spare R (c.run fuel) (c'.run fuel) := by
  induction fuel generalizing c c' with
  | zero => exact .unfinished
  | succ fuel ih =>
    have hprogress := hstep c c' h
    simp only [run]
    generalize c.step = x, c'.step = y at hprogress ⊢
    cases hprogress with
    | running h => exact ih h
    | finished h => exact .finished h
    | faulted h => exact .faulted h
    | spared h => exact .spared h

/-- Tasks begun alike, whose runs take alike steps, come out alike. -/
theorem Machine.perform_alike (hstep : ∀ c c', S c c' → Progress.Alike spare R S c.step c'.step)
    (fuel : Nat) {start : Op (List Task)} {Q : List Task → List Task → Prop}
    (h : Op.Alike spare R R Q (start m) (start n))
    (hS : ∀ ts ts' m' n', start m = .ok ts m' → Q ts ts' → R m' n' → S ⟨m', ts, .zero⟩ ⟨n', ts', .zero⟩) :
    Outcome.Alike spare R (m.perform fuel start) (n.perform fuel start) := by
  simp only [perform]
  cases hm : start m with
  | ok ts m' =>
    rw [hm] at h
    generalize start n = y at h ⊢
    cases h with
    | ok value rel => exact Config.run_alike hstep fuel (hS _ _ _ _ hm value rel)
  | error f m' =>
    rw [hm] at h
    generalize start n = y at h ⊢
    cases h with
    | error rel => exact .faulted rel
    | spared h => exact .spared h

variable {fuel : Nat}

theorem Machine.runBlock_alike {code : Code}
    (h : Outcome.Alike spare R (m.perform fuel (beginBlock code)) (n.perform fuel (beginBlock code))) :
    Outcome.Alike spare R (m.runBlock fuel code) (n.runBlock fuel code) := by
  unfold runBlock
  generalize m.perform fuel (beginBlock code) = x, n.perform fuel (beginBlock code) = y at h ⊢
  cases h with
  | finished h => exact .finished h
  | faulted h => exact .faulted h
  | unfinished => exact .unfinished
  | spared h => exact .spared h

/-- Blocks in sequence: what holds of one block on machines in `R` holds of all of them. -/
theorem Machine.runInits_alike {codes : List Code} (hhalted : ∀ m n, R m n → m.halted = n.halted)
    (hblock : ∀ code ∈ codes, ∀ m n, R m n → Outcome.Alike spare R (m.runBlock fuel code) (n.runBlock fuel code))
    (h : R m n) : Outcome.Alike spare R (runInits fuel codes m) (runInits fuel codes n) := by
  induction codes generalizing m n with
  | nil => exact .finished h
  | cons code codes ih =>
    have hfirst := hblock code List.mem_cons_self m n h
    simp only [runInits]
    generalize m.runBlock fuel code = x, n.runBlock fuel code = y at hfirst ⊢
    cases hfirst with
    | @finished _ m' n' h' =>
      simp only [hhalted m' n' h']
      split
      · exact .finished h'
      · exact ih (fun code hc => hblock code (List.mem_cons_of_mem _ hc)) h'
    | faulted h => exact .faulted h
    | unfinished => exact .unfinished
    | spared h => exact .spared h

end Stackwork
