import Mathlib.Algebra.Order.Floor.Semiring
import Mathlib.Algebra.Order.Field.Basic
import Mathlib.Data.List.Induction
import Mathlib.Tactic.Ring
import GFLGO.Runs

/-!
Strikes and answers. Each strike takes the same amount from the one struck, who
owes an answer for every strike survived; each answer takes the same amount from
the striker. How the strikes and the answers interleave is left open.
-/

set_option autoImplicit false

namespace Duel

open Runs

inductive Move where
  | strike
  | answer
  deriving DecidableEq, Repr

/-- `fallen` counts the strikes that left no health. -/
structure State (K : Type) where
  health : K
  own : K
  owed : Nat := 0
  fallen : Nat := 0
  deriving DecidableEq, Repr

section
variable {K : Type} [Field K] [LinearOrder K] (power counter : K)

def step : Move → State K → Option (State K)
  | .strike, d =>
    let health := d.health - power
    if 0 < health then some { d with health, owed := d.owed+1 }
    else some { d with health, fallen := d.fallen+1 }
  | .answer, d =>
    if 0 < d.owed then some { d with own := d.own - counter, owed := d.owed-1 } else none

theorem step_strike (d : State K) : step power counter .strike d =
    if 0 < d.health - power then some { d with health := d.health - power, owed := d.owed+1 }
    else some { d with health := d.health - power, fallen := d.fallen+1 } := rfl

theorem step_answer {d d' : State K} (h : step power counter .answer d = some d') :
    0 < d.owed ∧ d' = { d with own := d.own - counter, owed := d.owed-1 } := by
  simp only [step] at h
  split at h
  · next ho => exact ⟨ho,(Option.some.inj h).symm⟩
  · contradiction

variable {power counter} [FloorSemiring K]

/-- The state after the moves, whatever their order: every strike survived is
answered or still owed an answer. -/
structure Accounted (power counter health₀ own₀ : K) (ms : List Move) (d : State K) : Prop where
  health : d.health = health₀ - (ms.count .strike : Nat) * power
  own : d.own = own₀ - (ms.count .answer : Nat) * counter
  owed : d.owed + ms.count .answer = min (ms.count .strike) (⌈health₀/power⌉₊ - 1)
  fallen : d.fallen = ms.count .strike - (⌈health₀/power⌉₊ - 1)

variable {health₀ own₀ : K} {ms : List Move} {d d' : State K}

theorem accounted_nil : Accounted power counter health₀ own₀ []
    { health := health₀, own := own₀ } := by
  refine ⟨by simp,by simp,by simp,by simp⟩

theorem Accounted.answer (h : Accounted power counter health₀ own₀ ms d)
    (hs : step power counter .answer d = some d') :
    Accounted power counter health₀ own₀ (ms ++ [.answer]) d' := by
  have hstrikes : (ms ++ [Move.answer]).count .strike = ms.count .strike := by simp
  have hanswers : (ms ++ [Move.answer]).count .answer = ms.count .answer + 1 := by simp
  obtain ⟨hpos,rfl⟩ := step_answer power counter hs
  have howed := h.owed
  refine ⟨by rw [hstrikes]; exact h.health,?_,?_,by rw [hstrikes]; exact h.fallen⟩
  · rw [hanswers]
    dsimp only
    rw [h.own]
    push_cast
    ring
  · rw [hstrikes,hanswers]
    dsimp only
    omega

variable [IsStrictOrderedRing K]

theorem survives_iff {health₀ : K} (hp : 0 < power) (n : Nat) :
    0 < health₀ - n * power ↔ n < ⌈health₀/power⌉₊ := by
  rw [Nat.lt_ceil,lt_div_iff₀ hp,sub_pos]

theorem Accounted.strike (hp : 0 < power) (h : Accounted power counter health₀ own₀ ms d)
    (hs : step power counter .strike d = some d') :
    Accounted power counter health₀ own₀ (ms ++ [.strike]) d' := by
  have hstrikes : (ms ++ [Move.strike]).count .strike = ms.count .strike + 1 := by simp
  have hanswers : (ms ++ [Move.strike]).count .answer = ms.count .answer := by simp
  have hleft : d.health - power = health₀ - (ms.count .strike + 1 : Nat) * power := by
    rw [h.health]
    push_cast
    ring
  have halive : 0 < health₀ - (ms.count .strike + 1 : Nat) * power ↔
      ms.count .strike + 1 < ⌈health₀/power⌉₊ := survives_iff hp _
  have howed := h.owed
  have hfallen := h.fallen
  rw [step_strike,hleft] at hs
  split at hs
  · next hpos =>
    have hn := halive.mp hpos
    cases hs
    refine ⟨by rw [hstrikes],by rw [hanswers]; exact h.own,?_,?_⟩
    · rw [hstrikes,hanswers]
      dsimp only
      omega
    · rw [hstrikes]
      dsimp only
      omega
  · next hpos =>
    have hn := mt halive.mpr hpos
    cases hs
    refine ⟨by rw [hstrikes],by rw [hanswers]; exact h.own,?_,?_⟩
    · rw [hstrikes,hanswers]
      dsimp only
      omega
    · rw [hstrikes]
      dsimp only
      omega

theorem accounted_of_run (hp : 0 < power)
    (hr : run (step power counter) ms { health := health₀, own := own₀ } = some d) :
    Accounted power counter health₀ own₀ ms d := by
  induction ms using List.reverseRecOn generalizing d with
  | nil =>
    cases hr
    exact accounted_nil
  | append_singleton ms m ih =>
    obtain ⟨d₁,hbefore,hlast⟩ := (run_append_eq_some _).mp hr
    obtain ⟨d₂,hs,hnil⟩ := (run_cons_eq_some _).mp hlast
    cases hnil
    cases m with
    | strike => exact (ih hbefore).strike hp hs
    | answer => exact (ih hbefore).answer hs

/-- The one struck is up exactly before the strike that was needed. -/
theorem Accounted.health_pos_iff (hp : 0 < power)
    (h : Accounted power counter health₀ own₀ ms d) :
    0 < d.health ↔ ms.count .strike < ⌈health₀/power⌉₊ := by
  rw [h.health]
  exact survives_iff hp _

theorem Accounted.own_ge (hc : 0 ≤ counter) (h : Accounted power counter health₀ own₀ ms d) :
    own₀ - (⌈health₀/power⌉₊ - 1 : Nat) * counter ≤ d.own := by
  have hle : ms.count .answer ≤ ⌈health₀/power⌉₊ - 1 := by
    have := h.owed
    omega
  rw [h.own]
  have hcast : (ms.count .answer : K) ≤ (⌈health₀/power⌉₊ - 1 : Nat) := by exact_mod_cast hle
  exact sub_le_sub_left (mul_le_mul_of_nonneg_right hcast hc) own₀

end

end Duel
