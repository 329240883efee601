import Mathlib.Data.Rat.Defs
import Mathlib.Algebra.Order.Ring.Unbundled.Rat
import Mathlib.Algebra.Field.Rat
import GFLGO.Runs
import GFLGO.Battle

/-! One battle scene under any touches: who may strike when. -/

set_option autoImplicit false

namespace GFLGO

open Runs

/-- A scene with everything it has sent out so far. -/
structure Battle (K : Type) where
  user : User K
  scene : GameScene K
  writes : List (Write K) := []
  notes : List (Note K) := []

namespace Battle

section
variable {K : Type} [Field K] [LinearOrder K]

def start (user : User K) (enemy : Enemy K) : Battle K :=
  { user, scene := GameScene.didMove user enemy }

def step (e : SceneEvent) (b : Battle K) : Option (Battle K) :=
  (b.scene.receive b.user e).map (fun r =>
    { user := r.user
      scene := r.scene
      writes := b.writes ++ r.writes
      notes := b.notes ++ r.notes })

omit [Field K] [LinearOrder K] in
/-- Calls of `removeEnemyFromFirebase` and of `addExperience(1)`. -/
def removals (b : Battle K) : Nat :=
  b.writes.countP (fun w => w.path = ["enemies",b.scene.enemy.identifier] ∧ w.node.isEmpty)

omit [Field K] [LinearOrder K] in
def payments (b : Battle K) : Nat :=
  b.notes.countP (fun n => match n with
    | .addExperience _ 1 _ => true
    | _ => false)

/-- An attack comes when no counterattack is pending and the enemy is alive. -/
def InTurn (e : SceneEvent) (b : Battle K) : Prop :=
  b.scene.attacks e = true → b.scene.waits = 0 ∧ 0 < b.scene.currentEnemyHealth

/-- A touch that ends inside the button finds it visible, and the enemy was
alive when the scene began. -/
def ButtonVisible (e : SceneEvent) (b : Battle K) : Prop :=
  b.scene.attacks e = true → b.scene.attackButton.isHidden = false ∧ 0 < b.scene.enemy.health

/-- The property of all runs of one scene. -/
def TurnsAlternate (user : User K) (enemy : Enemy K) (es : List SceneEvent) : Prop :=
  Along step InTurn es (start user enemy) ∧
    ∀ b, run step es (start user enemy) = some b → b.removals ≤ 1 ∧ b.payments ≤ 1

/-- Everything one event can do to a battle. -/
theorem step_cases {e : SceneEvent} {b b' : Battle K} (h : step e b = some b') :
    b'.scene.enemy = b.scene.enemy ∧
    ((b.scene.attacks e = true ∧ b'.scene.attackButton.isHidden = true ∧
        ((0 < b'.scene.currentEnemyHealth ∧ b'.scene.waits = b.scene.waits+1 ∧
            b'.removals = b.removals ∧ b'.payments = b.payments) ∨
          (b'.scene.currentEnemyHealth ≤ 0 ∧ b'.scene.waits = b.scene.waits ∧
            b'.removals = b.removals+1 ∧ b'.payments = b.payments+1))) ∨
      (b.scene.attacks e = false ∧ b'.removals = b.removals ∧ b'.payments = b.payments ∧
        b'.scene.currentEnemyHealth = b.scene.currentEnemyHealth ∧
        ((b'.scene.waits = b.scene.waits ∧
            b'.scene.attackButton.isHidden = b.scene.attackButton.isHidden) ∨
          (0 < b.scene.waits ∧ b'.scene.waits = b.scene.waits-1 ∧
            b'.scene.attackButton.isHidden = false)))) := by
  obtain ⟨r,hr,rfl⟩ := Option.map_eq_some_iff.mp h
  rcases GameScene.receive_cases hr with ⟨ha,t,_,rfl⟩ | ⟨ha,_,hw,hn,he,hh,hrest⟩
  · obtain ⟨he,hh,hb,hcase⟩ := GameScene.attack_cases b.user b.scene
    refine ⟨he,Or.inl ⟨ha,?_,?_⟩⟩
    · simpa using hb
    · rcases hcase with ⟨hp,hwaits,_,hw,hn⟩ | ⟨hp,hwaits,_,hw,hn⟩
      · refine Or.inl ⟨hh ▸ hp,hwaits,?_,?_⟩
        · simp [removals,hw,he]
        · simp [payments,hn]
      · refine Or.inr ⟨hh ▸ hp,hwaits,?_,?_⟩
        · simp [removals,hw,he,GameScene.removeEnemyFromFirebase,removeValue,
            User.addExperience,setValue]
        · simp [payments,hn]
  · refine ⟨he,Or.inr ⟨ha,?_,?_,hh,hrest⟩⟩
    · simp [removals,hw,he]
    · simp [payments,hn]

/-- Behind a hidden button the enemy is dead or about to strike back. Either
it was alive at the start or nothing has happened to it yet. -/
structure Hidden (b : Battle K) : Prop where
  hidden : b.scene.attackButton.isHidden = true →
    0 < b.scene.waits ∨ b.scene.currentEnemyHealth ≤ 0
  untouched : 0 < b.scene.enemy.health ∨ b.scene.currentEnemyHealth = b.scene.enemy.health

theorem hidden_start (user : User K) (enemy : Enemy K) : Hidden (start user enemy) :=
  { hidden := fun h => by simp [start,GameScene.didMove] at h
    untouched := Or.inr rfl }

theorem Hidden.visible {e : SceneEvent} {b : Battle K} (hi : Hidden b) (ht : InTurn e b) :
    ButtonVisible e b := by
  intro ha
  obtain ⟨hw,hh⟩ := ht ha
  constructor
  · cases hb : b.scene.attackButton.isHidden with
    | false => rfl
    | true =>
      rcases hi.hidden hb with hpos | hdead
      · omega
      · exact absurd hh (not_lt.mpr hdead)
  · rcases hi.untouched with hpos | heq
    · exact hpos
    · exact heq ▸ hh

theorem Hidden.step {e : SceneEvent} {b b' : Battle K} (hi : Hidden b) (ht : InTurn e b)
    (h : step e b = some b') : Hidden b' := by
  obtain ⟨he,hcase⟩ := step_cases h
  rcases hcase with ⟨ha,hb,halive | hdead⟩ | ⟨_,_,_,hh,hrest⟩
  · refine ⟨fun _ => Or.inl (by omega),Or.inl ?_⟩
    rw [he]
    exact (hi.visible ht ha).2
  · refine ⟨fun _ => Or.inr hdead.1,Or.inl ?_⟩
    rw [he]
    exact (hi.visible ht ha).2
  · refine ⟨fun hb => ?_,by rw [he,hh]; exact hi.untouched⟩
    rcases hrest with ⟨hw,hsame⟩ | ⟨_,_,hshown⟩
    · rw [hw,hh]
      exact hi.hidden (hsame ▸ hb)
    · rw [hshown] at hb
      contradiction

theorem buttonVisible_of_inTurn {es : List SceneEvent} {b : Battle K} (hi : Hidden b)
    (ht : Along Battle.step InTurn es b) : Along Battle.step ButtonVisible es b := by
  induction es generalizing b with
  | nil => trivial
  | cons e es ih =>
    exact ⟨hi.visible ht.1,fun b' hs => ih (hi.step ht.1 hs) (ht.2 b' hs)⟩

/-- What holds as long as every attack finds the button visible: at most one
counterattack is pending, and only while nothing has been paid. -/
structure Alternating (b : Battle K) : Prop where
  shown : b.scene.attackButton.isHidden = false →
    b.scene.waits = 0 ∧ b.removals = 0 ∧ b.payments = 0 ∧
      (0 < b.scene.enemy.health → 0 < b.scene.currentEnemyHealth)
  pending : b.scene.waits ≤ 1
  waiting : b.scene.waits = 1 →
    b.removals = 0 ∧ b.payments = 0 ∧ 0 < b.scene.currentEnemyHealth
  once : b.removals ≤ 1 ∧ b.payments ≤ 1

theorem alternating_start (user : User K) (enemy : Enemy K) :
    Alternating (start user enemy) :=
  { shown := fun _ => ⟨rfl,rfl,rfl,id⟩
    pending := Nat.zero_le _
    waiting := fun h => by simp [start,GameScene.didMove] at h
    once := ⟨Nat.zero_le _,Nat.zero_le _⟩ }

theorem Alternating.inTurn {e : SceneEvent} {b : Battle K} (hi : Alternating b)
    (hv : ButtonVisible e b) : InTurn e b := by
  intro ha
  obtain ⟨hb,he⟩ := hv ha
  obtain ⟨hw,_,_,hh⟩ := hi.shown hb
  exact ⟨hw,hh he⟩

theorem Alternating.step {e : SceneEvent} {b b' : Battle K} (hi : Alternating b)
    (hv : ButtonVisible e b) (h : step e b = some b') : Alternating b' := by
  obtain ⟨he,hcase⟩ := step_cases h
  rcases hcase with ⟨ha,hb,halive | hdead⟩ | ⟨_,hr,hp,hh,hrest⟩
  · obtain ⟨hw,hr,hp,_⟩ := hi.shown (hv ha).1
    obtain ⟨hpos,hw',hr',hp'⟩ := halive
    refine ⟨fun hs => by rw [hb] at hs; contradiction,by omega,?_,by omega⟩
    exact fun _ => ⟨by omega,by omega,hpos⟩
  · obtain ⟨hw,hr,hp,_⟩ := hi.shown (hv ha).1
    obtain ⟨_,hw',hr',hp'⟩ := hdead
    refine ⟨fun hs => by rw [hb] at hs; contradiction,by omega,fun h1 => by omega,by omega⟩
  · have honce := hi.once
    rcases hrest with ⟨hw,hsame⟩ | ⟨hpos,hw,_⟩
    · refine ⟨?_,hw ▸ hi.pending,?_,by omega⟩
      · rw [hw,hr,hp,hh,he,hsame]
        exact hi.shown
      · rw [hw,hr,hp,hh]
        exact hi.waiting
    · -- a wait completes: it was the only one
      have hone : b.scene.waits = 1 := by have := hi.pending; omega
      obtain ⟨hr0,hp0,halive⟩ := hi.waiting hone
      refine ⟨fun _ => ⟨by omega,by omega,by omega,fun _ => by rw [hh]; exact halive⟩,
        by omega,fun h1 => by omega,by omega⟩

theorem inTurn_of_buttonVisible {es : List SceneEvent} {b : Battle K} (hi : Alternating b)
    (hv : Along Battle.step ButtonVisible es b) : Along Battle.step InTurn es b := by
  induction es generalizing b with
  | nil => trivial
  | cons e es ih =>
    exact ⟨hi.inTurn hv.1,fun b' hs => ih (hi.step hv.1 hs) (hv.2 b' hs)⟩

/-- A scene keeps its turns exactly when no touch ends inside the hidden button
and an enemy that is attacked was alive at the start. -/
theorem turnsAlternate_iff_buttonVisible (user : User K) (enemy : Enemy K)
    (es : List SceneEvent) :
    TurnsAlternate user enemy es ↔ Along step ButtonVisible es (start user enemy) := by
  constructor
  · intro h
    exact buttonVisible_of_inTurn (hidden_start user enemy) h.1
  · intro h
    refine ⟨inTurn_of_buttonVisible (alternating_start user enemy) h,fun b hr => ?_⟩
    have hb := run_invariant step (fun e b b' hi hv hs => Alternating.step hi hv hs)
      (alternating_start user enemy) h hr
    exact hb.once

end

def firstUser : User ℚ := User.init "ann" (some "pw") 0 50 3.2 10

def firstEnemy : Enemy ℚ := ⟨"u0e5","Aegis - Bacad",0,0,30,2⟩

def twoTouches : List SceneEvent :=
  [.touch (.touchesBegan [0]),.touch (.touchesBegan [1]),.touch (.touchesEnded [0] true)]

def secondTouch : SceneEvent := .touch (.touchesEnded [1] true)

/-- The second touch attacks while the counterattack is pending. -/
theorem not_turnsAlternate : ¬ ∀ (user : User ℚ) (enemy : Enemy ℚ) (es : List SceneEvent),
    TurnsAlternate user enemy es := by
  intro h
  have ht := (h firstUser firstEnemy (twoTouches ++ [secondTouch])).1
  have hrun : (run step twoTouches (start firstUser firstEnemy)).map
      (fun b => (b.scene.attacks secondTouch,b.scene.waits)) = some (true,1) := by
    decide +kernel
  obtain ⟨b,hb,he⟩ := Option.map_eq_some_iff.mp hrun
  obtain ⟨ha,hw⟩ := Prod.mk.inj he
  refine not_along_of_run step hb ?_ ht
  intro hturn
  rw [(hturn ha).1] at hw
  contradiction

end Battle

end GFLGO
