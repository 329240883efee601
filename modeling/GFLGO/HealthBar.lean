import Mathlib.Algebra.Order.Ring.Rat
import Mathlib.Algebra.Order.Field.Basic
import GFLGO.Fight

/-! What a health bar shows. The observer that resizes it does not run in the constructor. -/

set_option autoImplicit false

namespace GFLGO

open Runs

namespace HealthBarNode

section
variable {K : Type} [Field K] [LinearOrder K]

def assign (xs : List K) (bar : HealthBarNode K) : HealthBarNode K :=
  xs.foldl (fun bar x => bar.setCurrentHealth x) bar

theorem assign_cons (x : K) (xs : List K) (bar : HealthBarNode K) :
    assign (x :: xs) bar = assign xs (bar.setCurrentHealth x) := rfl

/-- The front bar is the part of the whole that is left. -/
structure TellsTruth (bar : HealthBarNode K) : Prop where
  frontBarWidth : bar.frontBarWidth = bar.width * max 0 bar.currentHealth / bar.maxHealth
  nonneg : 0 ≤ bar.frontBarWidth
  le_width : bar.frontBarWidth ≤ bar.width

/-- The property of a new bar and of every assignment that follows. -/
def AlwaysTellsTruth (currentHealth maxHealth width : K) (xs : List K) : Prop :=
  ∀ ys, ys <+: xs → (assign ys (init currentHealth maxHealth width)).TellsTruth

theorem setCurrentHealth_eq (x : K) (bar : HealthBarNode K) : bar.setCurrentHealth x =
    { bar with
      currentHealth := x
      frontBarWidth := bar.width * max 0 x / bar.maxHealth } := by
  by_cases hx : 0 < x
  · have h : bar.setCurrentHealth x =
        { bar with currentHealth := x, frontBarWidth := bar.width * (x / bar.maxHealth) } :=
      if_pos hx
    rw [h,max_eq_right hx.le,mul_div_assoc]
  · have h : bar.setCurrentHealth x = { bar with currentHealth := x, frontBarWidth := 0 } :=
      if_neg hx
    rw [h,max_eq_left (not_lt.mp hx),mul_zero,zero_div]

/-- A bar that can tell the truth. -/
structure Proper (bar : HealthBarNode K) : Prop where
  maxHealth : 0 < bar.maxHealth
  width : 0 < bar.width

theorem Proper.setCurrentHealth {bar : HealthBarNode K} (hb : bar.Proper) (x : K) :
    (bar.setCurrentHealth x).Proper := by
  rw [setCurrentHealth_eq]
  exact ⟨hb.maxHealth,hb.width⟩

variable [IsStrictOrderedRing K]

theorem tellsTruth_of_eq {bar : HealthBarNode K} (hb : bar.Proper)
    (hle : bar.currentHealth ≤ bar.maxHealth)
    (h : bar.frontBarWidth = bar.width * max 0 bar.currentHealth / bar.maxHealth) :
    bar.TellsTruth := by
  have hmax : max 0 bar.currentHealth ≤ bar.maxHealth := max_le hb.maxHealth.le hle
  refine ⟨h,?_,?_⟩
  · rw [h]
    exact div_nonneg (mul_nonneg hb.width.le (le_max_left _ _)) hb.maxHealth.le
  · rw [h,div_le_iff₀ hb.maxHealth]
    exact mul_le_mul_of_nonneg_left hmax hb.width.le

/-- Whatever the bar showed before, an assignment sets it right. -/
theorem tellsTruth_setCurrentHealth {bar : HealthBarNode K} (hb : bar.Proper) {x : K}
    (hx : x ≤ bar.maxHealth) : (bar.setCurrentHealth x).TellsTruth := by
  rw [setCurrentHealth_eq]
  exact tellsTruth_of_eq ⟨hb.maxHealth,hb.width⟩ hx rfl

theorem tellsTruth_init_iff {currentHealth maxHealth width : K} (hm : 0 < maxHealth)
    (hw : 0 < width) :
    (init currentHealth maxHealth width).TellsTruth ↔ currentHealth = maxHealth := by
  constructor
  · intro h
    have hfull : width = width * max 0 currentHealth / maxHealth := h.frontBarWidth
    rw [eq_div_iff hm.ne'] at hfull
    have hmax := mul_left_cancel₀ hw.ne' hfull
    rcases max_choice 0 currentHealth with h0 | hc
    · exact absurd (hmax.trans h0) hm.ne'
    · exact (hmax.trans hc).symm
  · rintro rfl
    refine tellsTruth_of_eq ⟨hm,hw⟩ le_rfl ?_
    have hmax : max 0 currentHealth = currentHealth := max_eq_right hm.le
    have hself : width * currentHealth / currentHealth = width := mul_div_cancel_right₀ width hm.ne'
    simp only [init]
    rw [hmax,hself]

theorem tellsTruth_assign {xs : List K} {bar : HealthBarNode K} (hb : bar.Proper)
    (ht : bar.TellsTruth) (hx : ∀ x ∈ xs, x ≤ bar.maxHealth) : (assign xs bar).TellsTruth := by
  induction xs generalizing bar with
  | nil => exact ht
  | cons x xs ih =>
    have hfirst := tellsTruth_setCurrentHealth hb (hx x List.mem_cons_self)
    rw [assign_cons]
    refine ih (hb.setCurrentHealth x) hfirst (fun y hy => ?_)
    rw [setCurrentHealth_eq]
    exact hx y (List.mem_cons_of_mem x hy)

structure Shows (health : K) (bar : HealthBarNode K) : Prop where
  proper : bar.Proper
  currentHealth : bar.currentHealth = health
  le_maxHealth : health ≤ bar.maxHealth
  tellsTruth : bar.TellsTruth

theorem shows_init {health width : K} (hh : 0 < health) (hw : 0 < width) :
    (init health health width).Shows health :=
  ⟨⟨hh,hw⟩,rfl,le_rfl,(tellsTruth_init_iff hh hw).mpr rfl⟩

theorem Shows.setCurrentHealth {health power : K} {bar : HealthBarNode K} (h : bar.Shows health)
    (hp : 0 ≤ power) : (bar.setCurrentHealth (health - power)).Shows (health - power) := by
  have hle : health - power ≤ bar.maxHealth := (sub_le_self health hp).trans h.le_maxHealth
  refine ⟨h.proper.setCurrentHealth _,?_,?_,tellsTruth_setCurrentHealth h.proper hle⟩
  · rw [setCurrentHealth_eq]
  · rw [setCurrentHealth_eq]
    exact hle

end

/-- A bar always tells the truth exactly when it is built for full health. -/
theorem alwaysTellsTruth_iff_full {currentHealth maxHealth width : ℚ} {xs : List ℚ}
    (hm : 0 < maxHealth) (hw : 0 < width) (hx : ∀ x ∈ xs, x ≤ maxHealth) :
    AlwaysTellsTruth currentHealth maxHealth width xs ↔ currentHealth = maxHealth := by
  constructor
  · intro h
    exact (tellsTruth_init_iff hm hw).mp (h [] List.nil_prefix)
  · intro h ys hp
    have hfull := (tellsTruth_init_iff hm hw).mpr h
    exact tellsTruth_assign ⟨hm,hw⟩ hfull (fun y hy => hx y (hp.subset hy))

/-- A bar built for full health and emptied. -/
theorem alwaysTellsTruth_emptied : AlwaysTellsTruth (30 : ℚ) 30 120 [10,-5] :=
  (alwaysTellsTruth_iff_full (by decide) (by decide) (by decide)).mpr rfl

/-- The placeholder of a scene has no health and a full front bar. -/
theorem not_alwaysTellsTruth : ¬ ∀ (currentHealth maxHealth width : ℚ) (xs : List ℚ),
    0 < maxHealth → 0 < width → 0 ≤ currentHealth → currentHealth ≤ maxHealth →
      (∀ x ∈ xs, x ≤ maxHealth) → AlwaysTellsTruth currentHealth maxHealth width xs := by
  intro h
  have ht := h 0 1 1 [] (by decide) (by decide) (by decide) (by decide) (by decide) []
    (List.prefix_refl [])
  have hfull : (0 : ℚ) = 1 := (tellsTruth_init_iff (by decide) (by decide)).mp ht
  exact absurd hfull (by decide)

end HealthBarNode

namespace Battle

variable {K : Type} [Field K] [LinearOrder K] [IsStrictOrderedRing K]

structure Bars (b : Battle K) : Prop where
  user : b.scene.userHealthBar.Shows b.scene.currentUserHealth
  enemy : b.scene.enemyHealthBar.Shows b.scene.currentEnemyHealth

theorem Bars.step {e : SceneEvent} {b b' : Battle K} (hi : Bars b) (hp : 0 ≤ b.user.power)
    (hc : 0 ≤ b.scene.enemy.power) (h : step e b = some b') : Bars b' := by
  obtain ⟨_,he⟩ := effect_of_step h
  obtain ⟨huser,henemy⟩ := hi
  cases he with
  | strike hd hf =>
    refine ⟨by simpa [struck] using huser,?_⟩
    simpa [struck] using henemy.setCurrentHealth hp
  | touch hd hf => exact ⟨huser,henemy⟩
  | answer hw => exact ⟨huser.setCurrentHealth hc,henemy⟩
  | escape => exact ⟨huser,henemy⟩

/-- The bars of a scene are built for full health and tell the truth in every
state of every battle. -/
theorem bars_of_run {user : User K} {enemy : Enemy K} (hu : 0 < user.health)
    (hh : 0 < enemy.health) (hp : 0 ≤ user.power) (hc : 0 ≤ enemy.power)
    {es : List SceneEvent} {b : Battle K} (h : run step es (start user enemy) = some b) :
    Bars b := by
  have hwidth : (0 : K) < 120 := by norm_num
  have hstart : Bars (start user enemy) :=
    ⟨HealthBarNode.shows_init hu hwidth,HealthBarNode.shows_init hh hwidth⟩
  refine (run_invariant (C := fun _ _ => True)
    (I := fun b => Stats user.power enemy.power b ∧ Bars b) step ?_ ⟨⟨rfl,rfl⟩,hstart⟩
    (along_of_forall_mem step (fun _ _ => trivial) _) h).2
  intro e b b' hi _ hs
  have hpower := hi.1.power
  have hcounter := hi.1.counter
  exact ⟨hi.1.step hs,hi.2.step (hpower ▸ hp) (hcounter ▸ hc) hs⟩

end Battle

end GFLGO
