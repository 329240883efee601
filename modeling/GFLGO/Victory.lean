import Mathlib.Data.Rat.Floor
import Mathlib.Tactic.Linarith
import GFLGO.Fight

/-! How a battle ends: when the touches come one at a time, and whatever they do. -/

set_option autoImplicit false

namespace GFLGO

open Runs

namespace ButtonNode

theorem receive_touches_length_le {b : ButtonNode} {t : TouchEvent}
    (h : ∀ ts, t ≠ .touchesBegan ts) : (b.receive t).touches.length ≤ b.touches.length := by
  cases t with
  | touchesBegan ts => exact absurd rfl (h ts)
  | touchesMoved ts inside => cases inside <;> exact le_rfl
  | touchesEnded ts inside => exact List.length_filter_le _ _
  | touchesCancelled ts => exact List.length_filter_le _ _

theorem touches_of_fires {b : ButtonNode} {t : TouchEvent} (hd : b.delivers t = true)
    (hf : fires t = true) (hone : b.touches.length ≤ 1) :
    b.touches ≠ [] ∧ (b.receive t).touches = [] := by
  cases t with
  | touchesEnded ts inside =>
    obtain ⟨hne,_,hmem⟩ := of_decide_eq_true hd
    obtain ⟨x,hx⟩ := List.exists_mem_of_ne_nil ts hne
    have hold := hmem x hx
    refine ⟨List.ne_nil_of_mem hold,?_⟩
    obtain ⟨y,hy⟩ := List.length_eq_one_iff.mp
      (le_antisymm hone (List.length_pos_of_mem hold))
    rw [hy,List.mem_singleton] at hold
    subst hold
    simp [receive,ended,showDefault,hy,hx]
  | _ => contradiction

theorem receive_hide (b : ButtonNode) (isHidden : Bool) (t : TouchEvent) :
    receive { b with isHidden } t = { b.receive t with isHidden } := by
  cases t with
  | touchesMoved ts inside => cases inside <;> rfl
  | _ => rfl

end ButtonNode

namespace Battle

section
variable {K : Type} [Field K] [LinearOrder K]

/-- A touch begins alone and while no other is in progress. -/
def OneAtATime (e : SceneEvent) (b : Battle K) : Prop :=
  ∀ ts, e = .touch (.touchesBegan ts) → ts.length = 1 ∧ b.scene.attackButton.touches = []

instance (e : SceneEvent) (b : Battle K) : Decidable (OneAtATime e b) :=
  match e with
  | .touch (.touchesBegan ts) =>
    decidable_of_iff (ts.length = 1 ∧ b.scene.attackButton.touches = [])
      ⟨fun h _ he => by cases he; exact h,fun h => h ts rfl⟩
  | .touch (.touchesMoved _ _) | .touch (.touchesEnded _ _) | .touch (.touchesCancelled _)
  | .waitCompleted | .escape => isTrue (fun _ he => by cases he)

/-- What holds as long as touches come one at a time. Behind a hidden button
the enemy is about to strike back or dead. -/
structure Orderly (b : Battle K) : Prop where
  single : b.scene.attackButton.touches.length ≤ 1
  shown : b.scene.attackButton.isHidden = false →
    b.scene.waits = 0 ∧ 0 < b.scene.currentEnemyHealth
  hidden : b.scene.attackButton.isHidden = true → b.scene.attackButton.touches = [] ∧
    ((b.scene.waits = 1 ∧ 0 < b.scene.currentEnemyHealth) ∨
      (b.scene.waits = 0 ∧ b.scene.currentEnemyHealth ≤ 0))

theorem orderly_start (user : User K) {enemy : Enemy K} (hh : 0 < enemy.health) :
    Orderly (start user enemy) :=
  { single := Nat.zero_le _
    shown := fun _ => ⟨rfl,hh⟩
    hidden := fun h => by simp [start,GameScene.didMove] at h }

theorem Orderly.visible {b : Battle K} (hi : Orderly b) {t : TouchEvent}
    (hd : b.scene.attackButton.delivers t = true) (hf : ButtonNode.fires t = true) :
    b.scene.attackButton.isHidden = false := by
  have htouches := (ButtonNode.touches_of_fires hd hf hi.single).1
  cases hb : b.scene.attackButton.isHidden with
  | false => rfl
  | true => exact absurd (hi.hidden hb).1 htouches

theorem Orderly.step {e : SceneEvent} {b b' : Battle K} (hi : Orderly b) (ho : OneAtATime e b)
    (h : step e b = some b') : Orderly b' := by
  obtain ⟨_,he⟩ := effect_of_step h
  cases he with
  | @strike t hd hf =>
    have hwaits := (hi.shown (hi.visible hd hf)).1
    have hnone : (b.struck t).scene.attackButton.touches = [] := by
      simpa [struck,ButtonNode.receive_hide] using (ButtonNode.touches_of_fires hd hf hi.single).2
    have hhidden : (b.struck t).scene.attackButton.isHidden = true := by simp [struck]
    refine ⟨by simp [hnone],fun hb => ?_,fun _ => ⟨hnone,?_⟩⟩
    · rw [hhidden] at hb
      contradiction
    · by_cases hp : 0 < b.scene.currentEnemyHealth - b.user.power
      · exact Or.inl (by simp [struck,hp,hwaits])
      · exact Or.inr ⟨by simp [struck,hp,hwaits],by simpa [struck] using not_lt.mp hp⟩
  | @touch t hd hf =>
    have hsame : (b.touched t).scene.attackButton.isHidden = b.scene.attackButton.isHidden := by
      simp [touched]
    by_cases hb : ∃ ts, t = .touchesBegan ts
    · obtain ⟨ts,rfl⟩ := hb
      obtain ⟨hone,hnone⟩ := ho ts rfl
      have hvisible : b.scene.attackButton.isHidden = false := (of_decide_eq_true hd).2.1
      have htouches : (b.touched (.touchesBegan ts)).scene.attackButton.touches = ts :=
        congrArg (· ++ ts) hnone
      refine ⟨by rw [htouches,hone],fun _ => hi.shown hvisible,fun h => ?_⟩
      rw [hsame,hvisible] at h
      contradiction
    · have hle := ButtonNode.receive_touches_length_le (b := b.scene.attackButton)
        (fun ts ht => hb ⟨ts,ht⟩)
      refine ⟨hle.trans hi.single,fun h => hi.shown (hsame ▸ h),fun h => ?_⟩
      obtain ⟨hnone,hrest⟩ := hi.hidden (hsame ▸ h)
      rw [hnone] at hle
      exact ⟨List.eq_nil_of_length_eq_zero (Nat.le_zero.mp hle),hrest⟩
  | answer hw =>
    have hhidden : b.scene.attackButton.isHidden = true := by
      cases hb : b.scene.attackButton.isHidden with
      | true => rfl
      | false =>
        have := (hi.shown hb).1
        omega
    obtain ⟨_,⟨hone,halive⟩ | ⟨hnone,_⟩⟩ := hi.hidden hhidden
    · have hleft : b.answered.scene.waits = 0 := congrArg (· - 1) hone
      exact ⟨hi.single,fun _ => ⟨hleft,halive⟩,fun h => by simp [answered,GameScene.waitCompleted,
        GameScene.hideAttackButton] at h⟩
    · omega
  | escape => exact ⟨hi.single,hi.shown,hi.hidden⟩

theorem Orderly.buttonVisible {e : SceneEvent} {b : Battle K} (hi : Orderly b)
    (hh : 0 < b.scene.enemy.health) : ButtonVisible e b := by
  intro ha
  cases e with
  | touch t =>
    have hd : b.scene.presented = true ∧ b.scene.attackButton.delivers t = true ∧
        ButtonNode.fires t = true := by
      simpa [GameScene.attacks] using ha
    exact ⟨hi.visible hd.2.1 hd.2.2,hh⟩
  | waitCompleted => contradiction
  | escape => contradiction

/-- The second state is reached from the first by touches that come one at a
time, with so many attacks. -/
def Reaches (n : Nat) (b b' : Battle K) : Prop :=
  ∃ es, Along step OneAtATime es b ∧ run step es b = some b' ∧ strikes es = n

theorem strikes_append (es fs : List SceneEvent) :
    strikes (es ++ fs) = strikes es + strikes fs := by
  simp [strikes]

theorem Reaches.refl (b : Battle K) : Reaches 0 b b := ⟨[],trivial,rfl,rfl⟩

theorem Reaches.trans {m n : Nat} {a b c : Battle K} (h : Reaches m a b) (h' : Reaches n b c) :
    Reaches (m+n) a c := by
  obtain ⟨es,ha,hr,rfl⟩ := h
  obtain ⟨fs,ha',hr',rfl⟩ := h'
  refine ⟨es ++ fs,(along_append step hr).mpr ⟨ha,ha'⟩,?_,strikes_append es fs⟩
  exact (run_append_eq_some step).mpr ⟨b,hr,hr'⟩

theorem reaches_of_step {e : SceneEvent} {b b' : Battle K} (h : step e b = some b')
    (he : ∀ ts, e ≠ .touch (.touchesBegan ts)) : Reaches (strikes [e]) b b' :=
  ⟨[e],⟨fun ts ht => absurd ht (he ts),fun _ _ => trivial⟩,
    (run_cons_eq_some step).mpr ⟨b',h,rfl⟩,rfl⟩

theorem Orderly.reaches {n : Nat} {b b' : Battle K} (hi : Orderly b) (h : Reaches n b b') :
    Orderly b' := by
  obtain ⟨es,ha,hr,_⟩ := h
  exact run_invariant (I := Orderly) Battle.step (fun _ _ _ hi ho hs => hi.step ho hs) hi ha hr

structure Ready (b : Battle K) : Prop where
  presented : b.scene.presented = true
  visible : b.scene.attackButton.isHidden = false
  touches : b.scene.attackButton.touches = []

theorem step_touch {b : Battle K} (hs : b.scene.presented = true) {t : TouchEvent}
    (hd : b.scene.attackButton.delivers t = true) :
    step (.touch t) b = some (if ButtonNode.fires t then b.struck t else b.touched t) := by
  simp only [step,GameScene.receive,hs,hd]
  cases hf : ButtonNode.fires t with
  | true => simp [struck]
  | false => simp [touched]

theorem step_waitCompleted {b : Battle K} (hs : b.scene.presented = true)
    (hw : 0 < b.scene.waits) : step .waitCompleted b = some b.answered := by
  simp [step,GameScene.receive,hs,hw,answered]

/-- As long as the enemy is alive the next touch will be possible. -/
theorem Orderly.ready {b : Battle K} (hi : Orderly b) (hs : b.scene.presented = true)
    (hh : 0 < b.scene.currentEnemyHealth) : ∃ b', Reaches 0 b b' ∧ Ready b' := by
  cases hb : b.scene.attackButton.isHidden with
  | false =>
    cases ht : b.scene.attackButton.touches with
    | nil => exact ⟨b,Reaches.refl b,hs,hb,ht⟩
    | cons x rest =>
      -- the touch in progress ends outside
      have hrest : rest = [] := by
        have := hi.single
        rw [ht,List.length_cons] at this
        exact List.eq_nil_of_length_eq_zero (by omega)
      subst hrest
      have hd : b.scene.attackButton.delivers (.touchesEnded [x] false) = true := by
        simp [ButtonNode.delivers,ht]
      have hstep := step_touch hs hd
      refine ⟨_,reaches_of_step hstep (by simp),hs,hb,?_⟩
      simp [ButtonNode.fires,touched,ButtonNode.receive,ButtonNode.ended,ButtonNode.showDefault,ht]
  | true =>
    obtain ⟨hnone,⟨hone,_⟩ | ⟨_,hdead⟩⟩ := hi.hidden hb
    · have hstep := step_waitCompleted hs (by omega)
      exact ⟨_,reaches_of_step hstep (by simp),hs,rfl,hnone⟩
    · exact absurd hh (not_lt.mpr hdead)

theorem Ready.strike {b : Battle K} (hb : Ready b) : ∃ b', Reaches 1 b b' ∧
    b'.scene.presented = true ∧
    b'.scene.currentEnemyHealth = b.scene.currentEnemyHealth - b.user.power := by
  have hd : b.scene.attackButton.delivers (.touchesBegan [0]) = true := by
    simp [ButtonNode.delivers,hb.visible,hb.touches]
  have hbegan := step_touch hb.presented hd
  let b₁ := b.touched (.touchesBegan [0])
  have hd₁ : b₁.scene.attackButton.delivers (.touchesEnded [0] true) = true := by
    simp [b₁,ButtonNode.delivers,touched,ButtonNode.receive,ButtonNode.touchesBegan,
      ButtonNode.showActive,ButtonNode.began]
  have hended := step_touch (b := b₁) hb.presented hd₁
  refine ⟨b₁.struck (.touchesEnded [0] true),
    ⟨[.touch (.touchesBegan [0]),.touch (.touchesEnded [0] true)],⟨?_,?_⟩,?_,rfl⟩,?_,?_⟩
  · intro ts ht
    cases ht
    exact ⟨rfl,hb.touches⟩
  · intro b₂ _
    exact ⟨fun ts ht => by simp at ht,fun _ _ => trivial⟩
  · exact (run_cons_eq_some step).mpr ⟨b₁,hbegan,(run_cons_eq_some step).mpr ⟨_,hended,rfl⟩⟩
  · simpa [struck,b₁,touched] using hb.presented
  · simp [struck,b₁,touched]

theorem removals_le_one {user : User K} {enemy : Enemy K} (hh : 0 < enemy.health)
    {es : List SceneEvent} {b : Battle K} (ho : Along step OneAtATime es (start user enemy))
    (hr : run step es (start user enemy) = some b) : b.removals ≤ 1 := by
  have hv : Along step ButtonVisible es (start user enemy) := by
    refine Along.mono_of_invariant (I := fun b => Orderly b ∧ 0 < b.scene.enemy.health) step
      (fun e b b' hi ho hs => ⟨hi.1.step ho hs,?_⟩) (fun e b hi _ => hi.1.buttonVisible hi.2)
      ⟨orderly_start user hh,hh⟩ ho
    rw [(step_cases hs).1]
    exact hi.2
  exact (run_invariant (I := Alternating) Battle.step (fun _ _ _ hi hv hs => hi.step hv hs)
    (alternating_start user enemy) hv hr).once.1

variable [IsStrictOrderedRing K] [FloorSemiring K] {user : User K} {enemy : Enemy K}

theorem accounted (hp : 0 < user.power) {es : List SceneEvent} {b : Battle K}
    (hr : run step es (start user enemy) = some b) :
    Duel.Accounted user.power enemy.power enemy.health user.health (es.filterMap move) b.view :=
  Duel.accounted_of_run hp (view_run hr)

theorem exists_reaches (hh : 0 < enemy.health) (hp : 0 < user.power) {m : Nat} {b : Battle K}
    (hb : Reaches m (start user enemy) b) (hs : b.scene.presented = true) {n : Nat}
    (hn : m+n ≤ ⌈enemy.health/user.power⌉₊) :
    ∃ b', Reaches n b b' ∧ b'.scene.presented = true := by
  induction n with
  | zero => exact ⟨b,Reaches.refl b,hs⟩
  | succ n ih =>
    obtain ⟨b₁,h₁,hs₁⟩ := ih (by omega)
    have hall := hb.trans h₁
    have hi := (orderly_start user hh).reaches hall
    obtain ⟨es,_,hr,hcount⟩ := hall
    have halive : 0 < b₁.scene.currentEnemyHealth :=
      ((accounted hp hr).health_pos_iff hp).mpr (by rw [strikes] at hcount; omega)
    obtain ⟨b₂,h₂,hready⟩ := hi.ready hs₁ halive
    obtain ⟨b₃,h₃,hs₃,_⟩ := hready.strike
    exact ⟨b₃,h₁.trans (by simpa using h₂.trans h₃),hs₃⟩

/-- The outcome of a battle with so many attacks so far. -/
structure Outcome (user : User K) (enemy : Enemy K) (attacks : Nat) (b : Battle K) : Prop where
  attacks_le : attacks ≤ ⌈enemy.health/user.power⌉₊
  alive_iff : 0 < b.scene.currentEnemyHealth ↔ attacks < ⌈enemy.health/user.power⌉₊
  returns : attacks < ⌈enemy.health/user.power⌉₊ → b.scene.presented = true →
    ∃ b', (b' = b ∨ step .waitCompleted b = some b') ∧ b'.scene.waits = 0 ∧
      b'.scene.attackButton.isHidden = false
  unpaid : attacks < ⌈enemy.health/user.power⌉₊ → b.removals = 0 ∧ b.payments = 0
  defeated : attacks = ⌈enemy.health/user.power⌉₊ →
    b.scene.currentUserHealth =
      user.health - (⌈enemy.health/user.power⌉₊ - 1 : Nat) * enemy.power ∧
    b.removals = 1 ∧ b.payments = 1 ∧ b.scene.waits = 0 ∧
    b.scene.attackButton.isHidden = true
  goesOn : b.scene.presented = true →
    ∃ b', Reaches (⌈enemy.health/user.power⌉₊ - attacks) b b'

end

/-- With one touch at a time, the enemy falls to attack number `⌈health/power⌉`. -/
theorem outcome_of_oneAtATime {user : User ℚ} {enemy : Enemy ℚ} (hh : 0 < enemy.health)
    (hp : 0 < user.power) {es : List SceneEvent} {b : Battle ℚ}
    (ho : Along step OneAtATime es (start user enemy))
    (hr : run step es (start user enemy) = some b) : Outcome user enemy (strikes es) b := by
  have hneeded : 0 < ⌈enemy.health/user.power⌉₊ := Nat.ceil_pos.mpr (div_pos hh hp)
  have hi := (orderly_start user hh).reaches ⟨es,ho,hr,rfl⟩
  have hac := accounted hp hr
  have halive : 0 < b.scene.currentEnemyHealth ↔ strikes es < ⌈enemy.health/user.power⌉₊ :=
    hac.health_pos_iff hp
  have hown : b.scene.currentUserHealth =
      user.health - ((es.filterMap move).count .answer : Nat) * enemy.power := hac.own
  have howed : b.scene.waits + (es.filterMap move).count .answer =
      min (strikes es) (⌈enemy.health/user.power⌉₊ - 1) := hac.owed
  have hfallen : b.removals = strikes es - (⌈enemy.health/user.power⌉₊ - 1) := hac.fallen
  have hpaid := payments_eq_removals hr
  have honce := removals_le_one hh ho hr
  have hle : strikes es ≤ ⌈enemy.health/user.power⌉₊ := by omega
  refine ⟨hle,halive,fun hn hs => ?_,fun hn => by omega,fun hn => ?_,fun hs => ?_⟩
  · cases hb : b.scene.attackButton.isHidden with
    | false => exact ⟨b,Or.inl rfl,(hi.shown hb).1,hb⟩
    | true =>
      obtain ⟨_,⟨hone,_⟩ | ⟨_,hdead⟩⟩ := hi.hidden hb
      · exact ⟨b.answered,Or.inr (step_waitCompleted hs (by omega)),congrArg (· - 1) hone,rfl⟩
      · exact absurd (halive.mpr hn) (not_lt.mpr hdead)
  · have hdead : ¬ 0 < b.scene.currentEnemyHealth := fun h => absurd (halive.mp h) (by omega)
    have hhidden : b.scene.attackButton.isHidden = true := by
      cases hb : b.scene.attackButton.isHidden with
      | true => rfl
      | false => exact absurd (hi.shown hb).2 hdead
    have hnone : b.scene.waits = 0 := by
      obtain ⟨_,⟨_,h⟩ | ⟨hnone,_⟩⟩ := hi.hidden hhidden
      · exact absurd h hdead
      · exact hnone
    have hanswers : (es.filterMap move).count .answer = ⌈enemy.health/user.power⌉₊ - 1 := by
      omega
    refine ⟨by rw [hown,hanswers],by omega,by omega,hnone,hhidden⟩
  · obtain ⟨b',h,_⟩ := exists_reaches hh hp ⟨es,ho,hr,rfl⟩ hs
      (n := ⌈enemy.health/user.power⌉₊ - strikes es) (by omega)
    exact ⟨b',h⟩

def weakEnemy : Enemy ℚ := { firstEnemy with health := 5 }

def shortBattle : List SceneEvent :=
  [.touch (.touchesBegan [0]),.touch (.touchesEnded [0] true),.waitCompleted,
    .touch (.touchesBegan [1]),.touch (.touchesEnded [1] true)]

theorem outcome_shortBattle : ∃ b, run step shortBattle (start firstUser weakEnemy) = some b ∧
    Outcome firstUser weakEnemy 2 b := by
  have hsome : (run step shortBattle (start firstUser weakEnemy)).isSome = true := by
    decide +kernel
  obtain ⟨b,hb⟩ := Option.isSome_iff_exists.mp hsome
  exact ⟨b,hb,outcome_of_oneAtATime (by decide +kernel) (by decide +kernel) (by decide +kernel) hb⟩

/-- Once the user is dead no attack hurts the enemy, and nothing is removed or paid. -/
def DeadCannotWin (user : User ℚ) (enemy : Enemy ℚ) (es : List SceneEvent) : Prop :=
  ∀ es₁ es₂ b b', es = es₁ ++ es₂ → run step es₁ (start user enemy) = some b →
    b.scene.currentUserHealth ≤ 0 → run step es₂ b = some b' →
    b.scene.currentEnemyHealth ≤ b'.scene.currentEnemyHealth ∧
      b'.removals = b.removals ∧ b'.payments = b.payments

theorem currentUserHealth_ge {user : User ℚ} {enemy : Enemy ℚ} (hp : 0 < user.power)
    (hc : 0 ≤ enemy.power) {es : List SceneEvent} {b : Battle ℚ}
    (hr : run step es (start user enemy) = some b) :
    user.health - (⌈enemy.health/user.power⌉₊ - 1 : Nat) * enemy.power ≤
      b.scene.currentUserHealth :=
  (accounted hp hr).own_ge hc

theorem exists_lastStand (user : User ℚ) {enemy : Enemy ℚ} (hh : 0 < enemy.health)
    (hp : 0 < user.power) : ∃ es b, run step es (start user enemy) = some b ∧ Ready b ∧
      b.scene.currentUserHealth =
        user.health - (⌈enemy.health/user.power⌉₊ - 1 : Nat) * enemy.power := by
  have hneeded : 0 < ⌈enemy.health/user.power⌉₊ := Nat.ceil_pos.mpr (div_pos hh hp)
  obtain ⟨b₁,h₁,hs⟩ := exists_reaches hh hp (Reaches.refl _) (by rfl)
    (n := ⌈enemy.health/user.power⌉₊ - 1) (by omega)
  have hi₁ := (orderly_start user hh).reaches h₁
  obtain ⟨es₁,_,hr₁,hn₁⟩ := h₁
  have halive : 0 < b₁.scene.currentEnemyHealth :=
    ((accounted hp hr₁).health_pos_iff hp).mpr (by rw [strikes] at hn₁; omega)
  obtain ⟨b,h₂,hready⟩ := hi₁.ready hs halive
  have hi := hi₁.reaches h₂
  obtain ⟨es₂,_,hr₂,hn₂⟩ := h₂
  have hr := (run_append_eq_some step).mpr ⟨b₁,hr₁,hr₂⟩
  have hac := accounted hp hr
  have howed : b.scene.waits + ((es₁ ++ es₂).filterMap move).count .answer =
      min (strikes (es₁ ++ es₂)) (⌈enemy.health/user.power⌉₊ - 1) := hac.owed
  have hwaits := (hi.shown hready.visible).1
  have hanswers : ((es₁ ++ es₂).filterMap move).count .answer =
      ⌈enemy.health/user.power⌉₊ - 1 := by
    rw [strikes_append] at howed
    omega
  refine ⟨es₁ ++ es₂,b,hr,hready,?_⟩
  have hown : b.scene.currentUserHealth =
      user.health - (((es₁ ++ es₂).filterMap move).count .answer : Nat) * enemy.power := hac.own
  rw [hown,hanswers]

/-- A dead user cannot win exactly when the enemy falls before it has struck
back often enough to kill. -/
theorem deadCannotWin_iff {user : User ℚ} {enemy : Enemy ℚ} (hp : 0 < user.power)
    (hh : 0 < enemy.health) (hc : 0 < enemy.power) :
    (∀ es, DeadCannotWin user enemy es) ↔
      (⌈enemy.health/user.power⌉₊ - 1 : Nat) * enemy.power < user.health := by
  constructor
  · intro h
    by_contra hle
    obtain ⟨es,b,hr,hready,hown⟩ := exists_lastStand user hh hp
    obtain ⟨b',⟨fs,_,hr',_⟩,_,hfell⟩ := hready.strike
    have hdead : b.scene.currentUserHealth ≤ 0 := by
      rw [hown]
      linarith
    have hpower : b.user.power = user.power := (stats_of_run hr).power
    have hkept := (h (es ++ fs) es fs b b' rfl hr hdead hr').1
    rw [hfell,hpower] at hkept
    linarith
  · intro h es es₁ es₂ b b' _ hr hdead _
    have hge := currentUserHealth_ge hp hc.le hr
    linarith

theorem deadCannotWin_shortBattle : DeadCannotWin firstUser firstEnemy shortBattle :=
  (deadCannotWin_iff (by decide +kernel) (by decide +kernel) (by decide +kernel)).mpr
    (by decide +kernel) shortBattle

def fierceEnemy : Enemy ℚ := { firstEnemy with power := 50 }

/-- The counterattack kills the user, who attacks again. -/
theorem not_deadCannotWin : ¬ ∀ (user : User ℚ) (enemy : Enemy ℚ), 0 < user.health →
    0 < user.power → 0 < enemy.health → 0 < enemy.power →
    ∀ es, DeadCannotWin user enemy es := by
  intro h
  have hrun : (run step (shortBattle.take 3) (start firstUser fierceEnemy)).bind (fun b =>
      (run step (shortBattle.drop 3) b).map (fun b' =>
        (b.scene.currentUserHealth,b.scene.currentEnemyHealth,b'.scene.currentEnemyHealth))) =
      some (0,30 - 16/5,30 - 32/5) := by
    decide +kernel
  obtain ⟨b,hb,hrest⟩ := Option.bind_eq_some_iff.mp hrun
  obtain ⟨b',hb',he⟩ := Option.map_eq_some_iff.mp hrest
  obtain ⟨hu,he⟩ := Prod.mk.inj he
  obtain ⟨hh,hh'⟩ := Prod.mk.inj he
  have hkept := (h firstUser fierceEnemy (by decide +kernel) (by decide +kernel)
    (by decide +kernel) (by decide +kernel) shortBattle _ _ b b' (by decide) hb hu.le hb').1
  rw [hh,hh'] at hkept
  norm_num at hkept

end Battle

end GFLGO
