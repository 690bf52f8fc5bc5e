import Stackwork.Proofs.Machine.Calls

/-!
# What requests of the host come to

The host runs a program block by block, or calls a routine. Either way some tasks are begun
and run to their end. `Machine.Performs` describes such a request by the height that the stack
has to reach: on a stack that is high enough the run finishes, whatever further steps it is
given, and on a smaller one it ends out of range.
-/
namespace Stackwork

namespace Config

variable {c : Config}

/-- A run that leads to where it ends comes to its outcome with any number of steps that is large
enough. -/
theorem run_of_reaches {c' : Config} {out : Outcome Slot} (h : c.Reaches c')
    (last : ∀ fuel, c'.run (fuel + 1) = out) : ∃ steps, ∀ fuel ≥ steps, c.run fuel = out := by
  induction h using Relation.ReflTransGen.head_induction_on with
  | refl =>
    refine ⟨1, fun fuel hfuel => ?_⟩
    obtain ⟨fuel, rfl⟩ := Nat.exists_eq_add_of_le' hfuel
    exact last fuel
  | head hstep _ ih =>
    obtain ⟨steps, hsteps⟩ := ih
    refine ⟨steps + 1, fun fuel hfuel => ?_⟩
    obtain ⟨fuel, rfl⟩ := Nat.exists_eq_add_of_le' hfuel
    rw [← Nat.add_assoc, run, hstep]
    exact hsteps _ (Nat.le_add_left _ _)

end Config

open Op (Takes)
open Machine (Live)

/-- With a stack of at least `level` slots something done in steps finishes as `post` says; with
a smaller one it ends out of range. -/
def Ends {α : Type} (size level : Nat) (x : Nat → Outcome α) (post : α → Machine → Prop) : Prop :=
  (level ≤ size → ∃ a m, post a m ∧ ∃ steps, ∀ fuel ≥ steps, x fuel = .finished a m) ∧
    (size < level → ∃ m steps, ∀ fuel ≥ steps, x fuel = .faulted .outOfRange m)

theorem Ends.mono {α : Type} {size level : Nat} {x : Nat → Outcome α} {post post' : α → Machine → Prop}
    (h : Ends size level x post) (hpost : ∀ a m, post a m → post' a m) : Ends size level x post' := by
  refine ⟨fun hroom => ?_, h.2⟩
  obtain ⟨a, m, hp, hsteps⟩ := h.1 hroom
  exact ⟨a, m, hpost a m hp, hsteps⟩

namespace Machine

variable {size level level' : Nat} {pre : Machine → Prop} {m : Machine}

/-- Tasks that can be begun and lead to an end. -/
theorem ends_perform {start : Op (List Task)} {mid : List Task → Machine → Prop}
    {post : Slot → Machine → Prop} (hm : pre m) (hstart : Takes size level pre start mid)
    (hrun : ∀ tasks m, mid tasks m →
      Config.Leads size level' ⟨m, tasks, .zero⟩ fun c => ∃ m v, c = ⟨m, [], v⟩ ∧ post v m) :
    Ends size (max level level') (m.perform · start) post := by
  by_cases hroom : level ≤ size
  · obtain ⟨tasks, m', hok, hmid⟩ := (hstart hm).1 hroom
    have hperform (fuel : Nat) : m.perform fuel start = Config.run fuel ⟨m', tasks, .zero⟩ := by
      rw [perform, hok]
    simp only [Ends, hperform]
    constructor
    · intro hmax
      obtain ⟨c, hreach, m'', v, rfl, hpost⟩ := (hrun tasks m' hmid).1 (by omega)
      exact ⟨v, m'', hpost, Config.run_of_reaches hreach fun _ => rfl⟩
    · intro hmax
      obtain ⟨c, m'', hreach, hfault⟩ := (hrun tasks m' hmid).2 (by omega)
      exact ⟨m'', Config.run_of_reaches hreach fun _ => by rw [Config.run, hfault]⟩
  · obtain ⟨m', herr⟩ := (hstart hm).2 (by omega)
    refine ⟨fun hmax => by omega, fun _ => ⟨m', 0, fun fuel _ => ?_⟩⟩
    simp only [perform, herr]

variable {code : Code} {post : Machine → Prop}

/-- Blocks in sequence. -/
theorem ends_runInits_cons {codes : List Code} {mid : Machine → Prop}
    (hfirst : Ends size level (m.runBlock · code) fun _ => mid)
    (hrest : ∀ m, mid m → Ends size level'
      (fun fuel => if m.halted then .finished () m else runInits fuel codes m) fun _ => post) :
    Ends size (max level level') (runInits · (code :: codes) m) fun _ => post := by
  by_cases hroom : level ≤ size
  · obtain ⟨u, m', hmid, steps, hsteps⟩ := hfirst.1 hroom
    have hthen (fuel : Nat) (h : steps ≤ fuel) : runInits fuel (code :: codes) m =
        if m'.halted then .finished () m' else runInits fuel codes m' := by
      simp only [runInits, hsteps fuel h]
    constructor
    · intro hmax
      obtain ⟨u, m'', hpost, more, hmore⟩ := (hrest m' hmid).1 (by omega)
      exact ⟨u, m'', hpost, max steps more, fun fuel hfuel =>
        (hthen fuel (by omega)).trans (hmore fuel (by omega))⟩
    · intro hmax
      obtain ⟨m'', more, hmore⟩ := (hrest m' hmid).2 (by omega)
      exact ⟨m'', max steps more, fun fuel hfuel =>
        (hthen fuel (by omega)).trans (hmore fuel (by omega))⟩
  · obtain ⟨m', steps, hsteps⟩ := hfirst.2 (by omega)
    refine ⟨fun hmax => by omega, fun _ => ⟨m', steps, fun fuel hfuel => ?_⟩⟩
    simp only [runInits, hsteps fuel hfuel]

theorem ends_runBlock (h : Ends size level (m.perform · (beginBlock code)) fun _ => post) :
    Ends size level (m.runBlock · code) fun _ => post := by
  constructor
  · intro hroom
    obtain ⟨v, m', hpost, steps, hsteps⟩ := h.1 hroom
    exact ⟨(), m', hpost, steps, fun fuel hfuel => by simp only [runBlock, hsteps fuel hfuel]⟩
  · intro hfull
    obtain ⟨m', steps, hsteps⟩ := h.2 hfull
    exact ⟨m', steps, fun fuel hfuel => by simp only [runBlock, hsteps fuel hfuel]⟩

end Machine

namespace Situation

variable {exe : Executable} {size : Nat} {cells : List Slot} {base : Int} {frames : Array Frame}
  {rest : List Task} {world : World} {c : Config}

/-- A block is over, and SP and BASE are as before. -/
theorem leads_closeBlock {m : Machine} {above : List Slot} {sp base' : Int} {result : Slot}
    (hm : m.Holds exe size (cells ++ above) sp base' frames world) :
    Config.Leads size 0 ⟨m, .closeBlock cells.length base :: rest, result⟩
      (Handed exe size cells base frames rest .zero world) := by
  have hclose : Takes size 0 (Machine.Holds exe size (cells ++ above) sp base' frames world)
      (Machine.taskStep result (.closeBlock cells.length base))
      fun p m => p = ([], .zero) ∧ m.Live exe size cells base frames world :=
    (Takes.modify fun m h => (h.lower.setSp cells.length).setBase base).after
      fun _ => .pure fun m h => ⟨rfl, h⟩
  exact .of_takes_eq hm hclose fun m' hm' => ⟨m', rfl, hm'⟩

end Situation

/-- A block on its own comes to the world that its meaning gives. -/
theorem Carries.ends_runBlock {exe : Executable} {code : Code} {x : Eval Slot} {w w' : World} {v : Slot}
    (h : Carries exe (Situation.At exe code 0 [] { w with halted := false })
      (x { w with halted := false }) fun v w σ => σ.Back exe v w)
    (settles : Eval.settle x { w with halted := false } = .ok v w') :
    ∃ need, ∀ size cells base frames (m : Machine), m.Live exe size cells base frames w →
      Ends size (cells.length + need) (m.runBlock · code) fun _ m =>
        m.Live exe size cells base frames w' := by
  obtain ⟨need, hneed⟩ := h (Eval.settled_of_settle settles)
  refine ⟨need, fun size cells base frames m hm => Machine.ends_runBlock ?_⟩
  have hstart : Takes size 0 (Live exe size cells base frames w) (Machine.beginBlock code)
      fun tasks m => tasks = [.loop code 0 frames.size, .closeBlock cells.length base] ∧
        m.Live exe size cells cells.length frames { w with halted := false } := by
    refine .of_ok fun m hm => ⟨_, _, rfl, by rw [hm.frames, hm.sp, hm.base], ?_⟩
    obtain rfl := hm.world
    exact { hm with base := hm.sp, world := rfl, tagged := hm.tagged }
  rw [← Nat.zero_max (cells.length + need)]
  refine Machine.ends_perform hm hstart ?_
  rintro tasks m ⟨rfl, hm⟩
  let σ : Situation := .ofHost size cells frames [.closeBlock cells.length base]
  have hat : σ.At exe code 0 [] { w with halted := false }
      ⟨m, [.loop code 0 frames.size, .closeBlock cells.length base], .zero⟩ :=
    ⟨rfl, m, .zero, rfl, by rw [Situation.Has, List.append_nil]; exact hm⟩
  rw [← Nat.max_zero (cells.length + need)]
  refine (hneed σ _ hat).bind fun c hafter => ?_
  have hclose : c.Leads size 0 (Handed exe size cells base frames [] .zero w') := by
    unfold Eval.settle at settles
    split at settles
    · next hx =>
      cases settles
      rw [hx] at hafter
      obtain ⟨-, m, result, above, sp, base', rfl, hm⟩ := hafter
      have hframes : frames.take frames.size = frames := by simp
      exact Situation.leads_closeBlock (hframes ▸ hm)
    · rw [settles] at hafter
      obtain ⟨-, m, result, base', -, rfl, hm⟩ := hafter
      exact Situation.leads_closeBlock hm
  exact hclose.mono fun c ⟨m, hc, hm⟩ => ⟨m, .zero, hc, hm⟩

end Stackwork
