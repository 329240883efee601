import Mathlib.Data.List.Nodup
import GFLGO.Objects

/-!
The battle scene: the attack button with the touches on it, the two health
values, and the counterattacks that wait for their second to pass.
-/

set_option autoImplicit false

namespace GFLGO

inductive ButtonType where
  | sprite
  | label
  deriving DecidableEq, Repr

/-- A button shows one of two visuals, sprites or labels by its type. `touches`
are the touches in progress that began on it. -/
structure ButtonNode where
  type : ButtonType
  isHidden : Bool := false
  defaultStateHidden : Bool := false
  activeStateHidden : Bool := true
  touches : List Nat := []
  deriving DecidableEq, Repr

/-- One callback carries a set of touches; `inside` tells whether the location
of the first of them lies in the default visual. -/
inductive TouchEvent where
  | touchesBegan (touches : List Nat)
  | touchesMoved (touches : List Nat) (inside : Bool)
  | touchesEnded (touches : List Nat) (inside : Bool)
  | touchesCancelled (touches : List Nat)
  deriving DecidableEq, Repr

namespace ButtonNode

def showActive (b : ButtonNode) : ButtonNode :=
  { b with defaultStateHidden := true, activeStateHidden := false }

def showDefault (b : ButtonNode) : ButtonNode :=
  { b with defaultStateHidden := false, activeStateHidden := true }

def touchesBegan (b : ButtonNode) : ButtonNode := b.showActive

def touchesMoved (inside : Bool) (b : ButtonNode) : ButtonNode :=
  if inside then b.showActive else b.showDefault

/-- SpriteKit starts no touch on a hidden node, and goes on delivering the
touches that began on it before. -/
def delivers (b : ButtonNode) : TouchEvent → Bool
  | .touchesBegan ts => ts ≠ [] ∧ b.isHidden = false ∧ ts.Nodup ∧ ∀ t ∈ ts, t ∉ b.touches
  | .touchesMoved ts _ | .touchesEnded ts _ | .touchesCancelled ts =>
    ts ≠ [] ∧ ts.Nodup ∧ ∀ t ∈ ts, t ∈ b.touches

/-- A touch that ends inside fires the button's event. -/
def fires : TouchEvent → Bool
  | .touchesEnded _ inside => inside
  | _ => false

def began (ts : List Nat) (b : ButtonNode) : ButtonNode := { b with touches := b.touches ++ ts }

def ended (ts : List Nat) (b : ButtonNode) : ButtonNode :=
  { b with touches := b.touches.filter (fun t => t ∉ ts) }

/-- The button's own part of a callback; the event runs before it. -/
def receive (b : ButtonNode) : TouchEvent → ButtonNode
  | .touchesBegan ts => (b.began ts).touchesBegan
  | .touchesMoved _ inside => b.touchesMoved inside
  | .touchesEnded ts _ => (b.ended ts).showDefault
  | .touchesCancelled ts => b.ended ts

@[simp] theorem receive_isHidden (b : ButtonNode) (e : TouchEvent) :
    (b.receive e).isHidden = b.isHidden := by
  cases e with
  | touchesBegan ts => rfl
  | touchesMoved ts inside => cases inside <;> rfl
  | touchesEnded ts inside => rfl
  | touchesCancelled ts => rfl

end ButtonNode

/-- `frontBarWidth` is the width the front bar has or is being resized to. -/
structure HealthBarNode (K : Type) where
  width : K
  frontBarWidth : K
  currentHealth : K
  maxHealth : K
  deriving DecidableEq, Repr

/-- The constructor's own assignment does not run the observer. -/
def HealthBarNode.init {K : Type} (currentHealth maxHealth width : K) : HealthBarNode K :=
  { width, currentHealth, maxHealth, frontBarWidth := width }

def HealthBarNode.setCurrentHealth {K : Type} [Field K] [LinearOrder K] (currentHealth : K)
    (bar : HealthBarNode K) : HealthBarNode K :=
  let bar := { bar with currentHealth }
  if 0 < bar.currentHealth then
    { bar with frontBarWidth := bar.width * (bar.currentHealth / bar.maxHealth) }
  else { bar with frontBarWidth := 0 }

/-- `waits` counts the one-second waits whose completion is still to run. -/
structure GameScene (K : Type) where
  enemy : Enemy K
  currentUserHealth : K
  currentEnemyHealth : K
  userHealthBar : HealthBarNode K
  enemyHealthBar : HealthBarNode K
  attackButton : ButtonNode := { type := .label }
  waits : Nat := 0
  presented : Bool := true
  deriving DecidableEq, Repr

inductive SceneEvent where
  | touch (e : TouchEvent)
  | waitCompleted
  | escape
  deriving DecidableEq, Repr

structure SceneReaction (K : Type) where
  user : User K
  scene : GameScene K
  writes : List (Write K) := []
  notes : List (Note K) := []

namespace GameScene

section
variable {K : Type} [Field K] [LinearOrder K]

def didMove (user : User K) (enemy : Enemy K) : GameScene K :=
  { enemy
    currentUserHealth := user.health
    currentEnemyHealth := enemy.health
    userHealthBar := HealthBarNode.init user.health user.health 120
    enemyHealthBar := HealthBarNode.init enemy.health enemy.health 120 }

def setCurrentUserHealth (x : K) (s : GameScene K) : GameScene K :=
  { s with
    currentUserHealth := x
    userHealthBar := s.userHealthBar.setCurrentHealth x }

def setCurrentEnemyHealth (x : K) (s : GameScene K) : GameScene K :=
  { s with
    currentEnemyHealth := x
    enemyHealthBar := s.enemyHealthBar.setCurrentHealth x }

def hideAttackButton (hidden : Bool) (s : GameScene K) : GameScene K :=
  { s with attackButton := { s.attackButton with isHidden := hidden } }

def removeEnemyFromFirebase (s : GameScene K) : Write K :=
  removeValue ["enemies",s.enemy.identifier]

/-- The attack button's event. The counterattack waits for one second; a
defeated enemy is removed and pays. -/
def attack (user : User K) (s : GameScene K) : SceneReaction K :=
  let s := s.setCurrentEnemyHealth (s.currentEnemyHealth - user.power)
  let s := s.hideAttackButton true
  if 0 < s.currentEnemyHealth then { user, scene := { s with waits := s.waits+1 } }
  else
    let paid := user.addExperience 1
    { user := paid.1
      scene := s
      writes := [s.removeEnemyFromFirebase,paid.2]
      notes := [.addExperience user.userID 1 s.enemy.identifier] }

def waitCompleted (s : GameScene K) : GameScene K :=
  let s := s.setCurrentUserHealth (s.currentUserHealth - s.enemy.power)
  { s.hideAttackButton false with waits := s.waits-1 }

/-- An event that cannot reach the scene has no successor. -/
def receive (user : User K) (s : GameScene K) : SceneEvent → Option (SceneReaction K)
  | .touch e =>
    if s.presented ∧ s.attackButton.delivers e then
      let r := if ButtonNode.fires e then s.attack user else { user, scene := s }
      some { r with scene := { r.scene with attackButton := r.scene.attackButton.receive e } }
    else none
  | .waitCompleted =>
    if s.presented ∧ 0 < s.waits then some { user, scene := s.waitCompleted } else none
  | .escape => if s.presented then some { user, scene := { s with presented := false } } else none

def attacks (s : GameScene K) : SceneEvent → Bool
  | .touch e => s.presented ∧ s.attackButton.delivers e ∧ ButtonNode.fires e
  | _ => false

/-- Everything one event can do to a scene. -/
theorem receive_cases {user : User K} {s : GameScene K} {e : SceneEvent} {r : SceneReaction K}
    (h : s.receive user e = some r) :
    (s.attacks e = true ∧ ∃ t, e = .touch t ∧
      r = { s.attack user with scene := { (s.attack user).scene with
        attackButton := (s.attack user).scene.attackButton.receive t } }) ∨
    (s.attacks e = false ∧ r.user = user ∧ r.writes = [] ∧ r.notes = [] ∧
      r.scene.enemy = s.enemy ∧ r.scene.currentEnemyHealth = s.currentEnemyHealth ∧
      ((r.scene.waits = s.waits ∧ r.scene.attackButton.isHidden = s.attackButton.isHidden) ∨
        (0 < s.waits ∧ r.scene.waits = s.waits-1 ∧ r.scene.attackButton.isHidden = false))) := by
  cases e with
  | touch t =>
    simp only [receive] at h
    split at h
    · next hd =>
      simp only [Option.some.injEq] at h
      cases hf : ButtonNode.fires t with
      | true =>
        refine Or.inl ⟨by simp [attacks,hd,hf],t,rfl,?_⟩
        rw [← h,hf,if_pos rfl]
      | false =>
        refine Or.inr ⟨by simp [attacks,hf],?_⟩
        subst h
        simp [hf]
    · contradiction
  | waitCompleted =>
    simp only [receive] at h
    split at h
    · next hw =>
      simp only [Option.some.injEq] at h
      subst h
      exact Or.inr ⟨rfl,rfl,rfl,rfl,rfl,rfl,Or.inr ⟨hw.2,rfl,rfl⟩⟩
    · contradiction
  | escape =>
    simp only [receive] at h
    split at h
    · simp only [Option.some.injEq] at h
      subst h
      exact Or.inr ⟨rfl,rfl,rfl,rfl,rfl,rfl,Or.inl ⟨rfl,rfl⟩⟩
    · contradiction

/-- A blow the enemy survives leaves one more wait; the last one pays. -/
theorem attack_cases (user : User K) (s : GameScene K) :
    (s.attack user).scene.enemy = s.enemy ∧
    (s.attack user).scene.currentEnemyHealth = s.currentEnemyHealth - user.power ∧
    (s.attack user).scene.attackButton.isHidden = true ∧
    ((0 < s.currentEnemyHealth - user.power ∧ (s.attack user).scene.waits = s.waits+1 ∧
        (s.attack user).user = user ∧
        (s.attack user).writes = [] ∧ (s.attack user).notes = []) ∨
      (s.currentEnemyHealth - user.power ≤ 0 ∧ (s.attack user).scene.waits = s.waits ∧
        (s.attack user).user = (user.addExperience 1).1 ∧
        (s.attack user).writes = [s.removeEnemyFromFirebase,(user.addExperience 1).2] ∧
        (s.attack user).notes = [.addExperience user.userID 1 s.enemy.identifier])) := by
  by_cases hp : 0 < s.currentEnemyHealth - user.power
  · have ha : s.attack user =
        { user
          scene :=
            { (s.setCurrentEnemyHealth
                (s.currentEnemyHealth - user.power)).hideAttackButton true with
              waits := s.waits+1 } } := if_pos hp
    rw [ha]
    exact ⟨rfl,rfl,rfl,Or.inl ⟨hp,rfl,rfl,rfl,rfl⟩⟩
  · have ha : s.attack user =
        { user := (user.addExperience 1).1
          scene :=
            (s.setCurrentEnemyHealth (s.currentEnemyHealth - user.power)).hideAttackButton true
          writes := [s.removeEnemyFromFirebase,(user.addExperience 1).2]
          notes := [.addExperience user.userID 1 s.enemy.identifier] } := if_neg hp
    rw [ha]
    exact ⟨rfl,rfl,rfl,Or.inr ⟨not_lt.mp hp,rfl,rfl,rfl,rfl⟩⟩

end

end GameScene

end GFLGO
