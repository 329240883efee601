import GFLGO.Duel
import GFLGO.Turns

/-!
A battle scene as a duel: the attacks are the user's strikes, and the waits that
complete are the enemy's answers.
-/

set_option autoImplicit false

namespace GFLGO

open Runs

namespace GameScene

variable {K : Type} [Field K] [LinearOrder K]

theorem attack_scene (user : User K) (s : GameScene K) : (s.attack user).scene =
    { (s.setCurrentEnemyHealth (s.currentEnemyHealth - user.power)).hideAttackButton true with
      waits := if 0 < s.currentEnemyHealth - user.power then s.waits+1 else s.waits } := by
  by_cases hp : 0 < s.currentEnemyHealth - user.power
  · rw [if_pos hp]
    exact congrArg SceneReaction.scene (if_pos hp)
  · rw [if_neg hp]
    exact congrArg SceneReaction.scene (if_neg hp)

@[simp] theorem attack_enemy (user : User K) (s : GameScene K) :
    (s.attack user).scene.enemy = s.enemy := by
  rw [attack_scene]
  rfl

@[simp] theorem attack_presented (user : User K) (s : GameScene K) :
    (s.attack user).scene.presented = s.presented := by
  rw [attack_scene]
  rfl

@[simp] theorem attack_currentUserHealth (user : User K) (s : GameScene K) :
    (s.attack user).scene.currentUserHealth = s.currentUserHealth := by
  rw [attack_scene]
  rfl

@[simp] theorem attack_currentEnemyHealth (user : User K) (s : GameScene K) :
    (s.attack user).scene.currentEnemyHealth = s.currentEnemyHealth - user.power := by
  rw [attack_scene]
  rfl

@[simp] theorem attack_attackButton (user : User K) (s : GameScene K) :
    (s.attack user).scene.attackButton = { s.attackButton with isHidden := true } := by
  rw [attack_scene]
  rfl

@[simp] theorem attack_waits (user : User K) (s : GameScene K) : (s.attack user).scene.waits =
    if 0 < s.currentEnemyHealth - user.power then s.waits+1 else s.waits := by
  rw [attack_scene]

@[simp] theorem attack_userHealthBar (user : User K) (s : GameScene K) :
    (s.attack user).scene.userHealthBar = s.userHealthBar := by
  rw [attack_scene]
  rfl

@[simp] theorem attack_enemyHealthBar (user : User K) (s : GameScene K) :
    (s.attack user).scene.enemyHealthBar =
      s.enemyHealthBar.setCurrentHealth (s.currentEnemyHealth - user.power) := by
  rw [attack_scene]
  rfl

theorem attack_user (user : User K) (s : GameScene K) :
    (s.attack user).user.power = user.power ∧ (s.attack user).user.health = user.health := by
  obtain ⟨_,_,_,⟨_,_,hu,_⟩ | ⟨_,_,hu,_⟩⟩ := attack_cases user s
  · rw [hu]
    exact ⟨rfl,rfl⟩
  · rw [hu]
    exact ⟨rfl,rfl⟩

end GameScene

namespace Battle

section
variable {K : Type} [Field K] [LinearOrder K]

def struck (t : TouchEvent) (b : Battle K) : Battle K :=
  let r := b.scene.attack b.user
  { user := r.user
    scene := { r.scene with attackButton := r.scene.attackButton.receive t }
    writes := b.writes ++ r.writes
    notes := b.notes ++ r.notes }

omit [Field K] [LinearOrder K] in
def touched (t : TouchEvent) (b : Battle K) : Battle K :=
  { b with scene := { b.scene with attackButton := b.scene.attackButton.receive t } }

def answered (b : Battle K) : Battle K := { b with scene := b.scene.waitCompleted }

omit [Field K] [LinearOrder K] in
def escaped (b : Battle K) : Battle K := { b with scene := { b.scene with presented := false } }

/-- The state after each kind of event. -/
inductive Effect (b : Battle K) : SceneEvent → Battle K → Prop
  | strike {t : TouchEvent} (hd : b.scene.attackButton.delivers t = true)
    (hf : ButtonNode.fires t = true) : Effect b (.touch t) (b.struck t)
  | touch {t : TouchEvent} (hd : b.scene.attackButton.delivers t = true)
    (hf : ButtonNode.fires t = false) : Effect b (.touch t) (b.touched t)
  | answer (hw : 0 < b.scene.waits) : Effect b .waitCompleted b.answered
  | escape : Effect b .escape b.escaped

theorem effect_of_step {e : SceneEvent} {b b' : Battle K} (h : step e b = some b') :
    b.scene.presented = true ∧ Effect b e b' := by
  obtain ⟨r,hr,rfl⟩ := Option.map_eq_some_iff.mp h
  cases e with
  | touch t =>
    simp only [GameScene.receive] at hr
    split at hr
    · next hd =>
      cases hr
      cases hf : ButtonNode.fires t with
      | true => exact ⟨hd.1,Effect.strike hd.2 hf⟩
      | false =>
        have he := Effect.touch (b := b) hd.2 hf
        simpa [touched] using And.intro hd.1 he
    · contradiction
  | waitCompleted =>
    simp only [GameScene.receive] at hr
    split at hr
    · next hd =>
      cases hr
      have he := Effect.answer hd.2
      simpa [answered] using And.intro hd.1 he
    · contradiction
  | escape =>
    simp only [GameScene.receive] at hr
    split at hr
    · next hd =>
      cases hr
      have he := Effect.escape (b := b)
      simpa [escaped] using And.intro hd he
    · contradiction

def move : SceneEvent → Option Duel.Move
  | .touch t => if ButtonNode.fires t then some .strike else none
  | .waitCompleted => some .answer
  | .escape => none

def strikes (es : List SceneEvent) : Nat := (es.filterMap move).count .strike

omit [Field K] [LinearOrder K] in
def view (b : Battle K) : Duel.State K :=
  { health := b.scene.currentEnemyHealth
    own := b.scene.currentUserHealth
    owed := b.scene.waits
    fallen := b.removals }

structure Stats (power counter : K) (b : Battle K) : Prop where
  power : b.user.power = power
  counter : b.scene.enemy.power = counter

theorem struck_alive {t : TouchEvent} {b : Battle K}
    (hp : 0 < b.scene.currentEnemyHealth - b.user.power) :
    (b.struck t).removals = b.removals ∧ (b.struck t).payments = b.payments := by
  obtain ⟨_,_,_,⟨_,_,_,hw,hn⟩ | ⟨hdead,_⟩⟩ := GameScene.attack_cases b.user b.scene
  · constructor
    · simp [removals,struck,hw]
    · simp [payments,struck,hn]
  · exact absurd hp (not_lt.mpr hdead)

theorem struck_dead {t : TouchEvent} {b : Battle K}
    (hp : ¬ 0 < b.scene.currentEnemyHealth - b.user.power) :
    (b.struck t).removals = b.removals+1 ∧ (b.struck t).payments = b.payments+1 := by
  obtain ⟨_,_,_,⟨halive,_⟩ | ⟨_,_,_,hw,hn⟩⟩ := GameScene.attack_cases b.user b.scene
  · exact absurd halive hp
  · constructor
    · simp [removals,struck,hw,GameScene.removeEnemyFromFirebase,removeValue,User.addExperience,
        setValue]
    · simp [payments,struck,hn]

theorem struck_removals (t : TouchEvent) (b : Battle K) : (b.struck t).removals =
    if 0 < b.scene.currentEnemyHealth - b.user.power then b.removals else b.removals+1 := by
  split
  · next hp => exact (struck_alive hp).1
  · next hp => exact (struck_dead hp).1

theorem Stats.step {power counter : K} {e : SceneEvent} {b b' : Battle K}
    (hi : Stats power counter b) (h : step e b = some b') : Stats power counter b' := by
  obtain ⟨_,he⟩ := effect_of_step h
  obtain ⟨hpower,hcounter⟩ := hi
  cases he with
  | strike hd hf =>
    refine ⟨(GameScene.attack_user b.user b.scene).1.trans hpower,?_⟩
    simpa [struck] using hcounter
  | touch hd hf => exact ⟨hpower,hcounter⟩
  | answer hw => exact ⟨hpower,hcounter⟩
  | escape => exact ⟨hpower,hcounter⟩

theorem view_struck (t : TouchEvent) (b : Battle K) :
    Duel.step b.user.power b.scene.enemy.power .strike b.view = some (b.struck t).view := by
  rw [Duel.step_strike]
  simp only [view,struck_removals]
  by_cases hp : 0 < b.scene.currentEnemyHealth - b.user.power
  · simp [struck,hp]
  · simp [struck,hp]

theorem view_answered {b : Battle K} (hw : 0 < b.scene.waits) :
    Duel.step b.user.power b.scene.enemy.power .answer b.view = some b.answered.view :=
  if_pos hw

theorem view_step {power counter : K} {e : SceneEvent} {b b' : Battle K}
    (hi : Stats power counter b) (h : step e b = some b') :
    run (Duel.step power counter) (move e).toList b.view = some b'.view := by
  obtain ⟨_,he⟩ := effect_of_step h
  obtain ⟨rfl,rfl⟩ := hi
  cases he with
  | @strike t hd hf =>
    have hmove : move (.touch t) = some Duel.Move.strike := if_pos hf
    rw [hmove]
    exact (run_cons_eq_some _).mpr ⟨_,view_struck t b,rfl⟩
  | @touch t hd hf =>
    have hmove : move (.touch t) = none := by simp [move,hf]
    rw [hmove]
    rfl
  | answer hw => exact (run_cons_eq_some _).mpr ⟨_,view_answered hw,rfl⟩
  | escape => rfl

/-- A run of a scene is a duel. -/
theorem view_run {user : User K} {enemy : Enemy K} {es : List SceneEvent} {b : Battle K}
    (h : run step es (start user enemy) = some b) :
    run (Duel.step user.power enemy.power) (es.filterMap move)
      { health := enemy.health, own := user.health } = some b.view :=
  run_simulation step (fun _ _ _ hi hs => Stats.step hi hs)
    (fun _ _ _ hi hs => view_step hi hs) (Stats.mk rfl rfl) h

theorem stats_of_run {user : User K} {enemy : Enemy K} {es : List SceneEvent} {b : Battle K}
    (h : run step es (start user enemy) = some b) : Stats user.power enemy.power b :=
  run_invariant (C := fun _ _ => True) step (fun _ _ _ hi _ hs => Stats.step hi hs)
    (Stats.mk rfl rfl) (along_of_forall_mem step (fun _ _ => trivial) _) h

theorem payments_eq_removals {user : User K} {enemy : Enemy K} {es : List SceneEvent}
    {b : Battle K} (h : run step es (start user enemy) = some b) : b.payments = b.removals := by
  refine run_invariant (C := fun _ _ => True) (I := fun b => b.payments = b.removals) step ?_ rfl
    (along_of_forall_mem step (fun _ _ => trivial) _) h
  intro e b b' hi _ hs
  obtain ⟨_,he⟩ := effect_of_step hs
  cases he with
  | @strike t hd hf =>
    by_cases hp : 0 < b.scene.currentEnemyHealth - b.user.power
    · obtain ⟨hr,hp⟩ := struck_alive (t := t) hp
      omega
    · obtain ⟨hr,hp⟩ := struck_dead (t := t) hp
      omega
  | touch hd hf => exact hi
  | answer hw => exact hi
  | escape => exact hi

end

end Battle

end GFLGO
