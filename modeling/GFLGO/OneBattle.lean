import GFLGO.Payout
import GFLGO.Victory

/-!
Orders of battles in which an enemy pays once: a battle with it starts when every
earlier one is left with the enemy alive, and one finger at a time fights it.
-/

set_option autoImplicit false

namespace GFLGO

open Runs Async

section
variable {K : Type}

def Device.sceneAt (d : Device K) (tab i : Nat) : Option (GameScene K) :=
  d.tabBarVCs[tab]?.bind (fun t => t.scenes[i]?)

theorem Device.sceneAt_eq_some {d : Device K} {tab i : Nat} {s : GameScene K} :
    d.sceneAt tab i = some s ↔
      ∃ t, d.tabBarVCs[tab]? = some t ∧ t.scenes[i]? = some s :=
  Option.bind_eq_some_iff

theorem Device.sceneAt_setTab {d : Device K} {tab tab' i : Nat} {u : TabBarVC K}
    {s : GameScene K} (h : (d.setTab tab u).sceneAt tab' i = some s) :
    d.sceneAt tab' i = some s ∨ (tab' = tab ∧ u.scenes[i]? = some s) := by
  obtain ⟨t,ht,hs⟩ := sceneAt_eq_some.mp h
  rcases getElem?_setTab ht with ⟨he,rfl⟩ | hold
  · exact Or.inr ⟨he,hs⟩
  · exact Or.inl (sceneAt_eq_some.mpr ⟨t,hold,hs⟩)

theorem Device.sceneAt_of_setTab {d : Device K} {tab tab' i : Nat} {t u : TabBarVC K}
    {s : GameScene K} (ht : d.tabBarVCs[tab]? = some t)
    (h : (d.setTab tab u).sceneAt tab' i = some s) (hu : u.scenes = t.scenes) :
    d.sceneAt tab' i = some s := by
  rcases sceneAt_setTab h with hold | ⟨rfl,hs⟩
  · exact hold
  · exact sceneAt_eq_some.mpr ⟨t,ht,hu ▸ hs⟩

variable [Field K] [LinearOrder K]

theorem EventOutcome.sceneAt {p : Platform K} {d : Device K} {e : Event K}
    {r : DeviceReaction K} {tab i : Nat} {s : GameScene K} (h : EventOutcome p d e r)
    (hs : r.locals.sceneAt tab i = some s) :
    d.sceneAt tab i = some s ∨
    (∃ se s₀ user sr, e = .scene tab i se ∧ d.sceneAt tab i = some s₀ ∧
      s₀.receive user se = some sr ∧ s = sr.scene) ∨
    (∃ t enemy, e = .battleAction tab ∧ d.tabBarVCs[tab]? = some t ∧
      t.map.selectedEnemy = some enemy ∧ i = t.scenes.length ∧
      s = GameScene.didMove t.map.user enemy) := by
  cases h with
  | map ht hr => exact Or.inl (Device.sceneAt_of_setTab ht hs rfl)
  | @battleAction tab₀ t enemy ht he =>
    rcases Device.sceneAt_setTab hs with hold | ⟨rfl,hnew⟩
    · exact Or.inl hold
    · rcases lt_trichotomy i t.scenes.length with hlt | rfl | hgt
      · rw [List.getElem?_append_left hlt] at hnew
        exact Or.inl (Device.sceneAt_eq_some.mpr ⟨t,ht,hnew⟩)
      · refine Or.inr (Or.inr ⟨t,enemy,rfl,ht,he,rfl,?_⟩)
        simpa using hnew.symm
      · rw [List.getElem?_eq_none (by simp; omega)] at hnew
        contradiction
  | @scene tab₀ i₀ t s₀ se sr ht hs₀ hr =>
    rcases Device.sceneAt_setTab hs with hold | ⟨rfl,hnew⟩
    · exact Or.inl hold
    · by_cases hi : i = i₀
      · subst hi
        refine Or.inr (Or.inl ⟨se,s₀,_,sr,rfl,Device.sceneAt_eq_some.mpr ⟨t,ht,hs₀⟩,hr,?_⟩)
        have hlt := (List.getElem?_eq_some_iff.mp hs₀).1
        simpa [List.getElem?_set_self hlt] using hnew.symm
      · rw [List.getElem?_set_ne (Ne.symm hi)] at hnew
        exact Or.inl (Device.sceneAt_eq_some.mpr ⟨t,ht,hnew⟩)
  | newPassword ht => exact Or.inl (Device.sceneAt_of_setTab ht hs rfl)
  | logout ht => exact Or.inl (Device.sceneAt_of_setTab ht hs rfl)
  | _ => exact Or.inl hs

/-- Where a scene stands: on which device, in which session, as which of its battles. -/
abbrev Place := Nat × Nat × Nat

def World.sceneAt (w : World K) (q : Place) : Option (GameScene K) :=
  (w.clients q.1).locals.sceneAt q.2.1 q.2.2

/-- Where a scene comes from: it was there, an event reached it, or its battle begins. -/
inductive SceneStep (l : Label K) (w : World K) : Place → GameScene K → Prop
  | same {q : Place} {s : GameScene K} (h : w.sceneAt q = some s) : SceneStep l w q s
  | receive {c tab i : Nat} {e : SceneEvent} {s : GameScene K} {user : User K}
    {r : SceneReaction K} (hl : l = .event c (.scene tab i e))
    (h : w.sceneAt (c,tab,i) = some s) (hr : s.receive user e = some r) :
    SceneStep l w (c,tab,i) r.scene
  | start {c tab : Nat} {t : TabBarVC K} {enemy : Enemy K}
    (hl : l = .event c (.battleAction tab)) (ht : (w.clients c).locals.tabBarVCs[tab]? = some t)
    (he : t.map.selectedEnemy = some enemy) :
    SceneStep l w (c,tab,t.scenes.length) (GameScene.didMove t.map.user enemy)

/-- A battle with the enemy begins when it is alive and no other goes on, and one
finger at a time attacks it. -/
def BattlesInTurn (identifier : String) : Label K → World K → Prop
  | .event c (.battleAction tab), w => ∀ t, (w.clients c).locals.tabBarVCs[tab]? = some t →
    ∀ enemy, t.map.selectedEnemy = some enemy → enemy.identifier = identifier →
      0 < enemy.health ∧ ∀ q s, w.sceneAt q = some s → s.enemy.identifier = identifier →
        s.presented = false ∧ 0 < s.currentEnemyHealth
  | .event c (.scene tab i (.touch (.touchesBegan ts))), w => ∀ s,
    w.sceneAt (c,tab,i) = some s → s.enemy.identifier = identifier →
      ts.length = 1 ∧ s.attackButton.touches = []
  | _, _ => True

/-- Of the scenes of the enemy one at most is on screen, and all others show it alive. -/
structure OneOnScreen (identifier : String) (w : World K) : Prop where
  orderly : ∀ q s, w.sceneAt q = some s → s.enemy.identifier = identifier →
    ∀ user, Battle.Orderly { user, scene := s }
  others : ∀ q s, w.sceneAt q = some s → s.enemy.identifier = identifier → s.presented = true →
    ∀ q' s', w.sceneAt q' = some s' → s'.enemy.identifier = identifier → q' ≠ q →
      s'.presented = false ∧ 0 < s'.currentEnemyHealth

theorem oneOnScreen_start (identifier : String) (store : FNode K) :
    OneOnScreen identifier (World.start store) where
  orderly := fun _ _ hs => by contradiction
  others := fun _ _ hs => by contradiction

theorem Battle.Orderly.of_scene {b b' : Battle K} (h : b.Orderly) (hs : b'.scene = b.scene) :
    b'.Orderly :=
  ⟨hs ▸ h.single,hs ▸ h.shown,hs ▸ h.hidden⟩

theorem GameScene.receive_presented {user : User K} {s : GameScene K} {e : SceneEvent}
    {r : SceneReaction K} (h : s.receive user e = some r) :
    s.presented = true ∧ r.scene.enemy = s.enemy := by
  have hpresented : s.presented = true := by
    cases e with
    | touch t =>
      simp only [receive] at h
      split at h
      · next hd => exact hd.1
      · contradiction
    | waitCompleted =>
      simp only [receive] at h
      split at h
      · next hd => exact hd.1
      · contradiction
    | escape =>
      simp only [receive] at h
      split at h
      · assumption
      · contradiction
  refine ⟨hpresented,?_⟩
  rcases receive_cases h with ⟨_,t,_,rfl⟩ | ⟨_,_,_,_,he,_⟩
  · exact (attack_cases user s).1
  · exact he

variable {identifier : String} {l : Label K} {w w' : World K}

theorem OneOnScreen.step_orderly (hi : OneOnScreen identifier w) (hc : BattlesInTurn identifier l w)
    {q : Place} {s : GameScene K} (hs : SceneStep l w q s)
    (he : s.enemy.identifier = identifier) (user : User K) :
    Battle.Orderly { user, scene := s } := by
  cases hs with
  | same hold => exact hi.orderly q s hold he user
  | @receive c tab i e s₀ user₀ r hl hold hr =>
    subst hl
    have he₀ : s₀.enemy.identifier = identifier := by
      rw [← (GameScene.receive_presented hr).2]
      exact he
    have hone : Battle.OneAtATime e { user := user₀, scene := s₀ } := by
      intro ts hts
      subst hts
      exact hc s₀ hold he₀
    have hstep : Battle.step e { user := user₀, scene := s₀ } =
        some { user := r.user, scene := r.scene, writes := [] ++ r.writes,
               notes := [] ++ r.notes } := by
      rw [Battle.step,hr,Option.map_some]
    exact ((hi.orderly _ s₀ hold he₀ user₀).step hone hstep).of_scene rfl
  | @start c tab t enemy hl ht hsel =>
    subst hl
    exact (Battle.orderly_start t.map.user (hc t ht enemy hsel he).1).of_scene rfl

theorem OneOnScreen.step_others (hi : OneOnScreen identifier w) (hc : BattlesInTurn identifier l w)
    {q q' : Place} {s s' : GameScene K} (hs : SceneStep l w q s)
    (he : s.enemy.identifier = identifier) (hp : s.presented = true) (hs' : SceneStep l w q' s')
    (he' : s'.enemy.identifier = identifier) (hne : q' ≠ q) :
    s'.presented = false ∧ 0 < s'.currentEnemyHealth := by
  cases hs with
  | same hold =>
    cases hs' with
    | same hold' => exact hi.others q s hold he hp q' s' hold' he' hne
    | receive hl' hold' hr' =>
      obtain ⟨hp',henemy⟩ := GameScene.receive_presented hr'
      rw [henemy] at he'
      have hoff := (hi.others q s hold he hp _ _ hold' he' hne).1
      rw [hp'] at hoff
      contradiction
    | start hl' ht' hsel' =>
      subst hl'
      have hoff := ((hc _ ht' _ hsel' he').2 q s hold he).1
      rw [hp] at hoff
      contradiction
  | receive hl hold hr =>
    obtain ⟨hp₀,henemy⟩ := GameScene.receive_presented hr
    rw [henemy] at he
    subst hl
    cases hs' with
    | same hold' => exact hi.others _ _ hold he hp₀ q' s' hold' he' hne
    | receive hl' =>
      cases hl'
      contradiction
    | start hl' => cases hl'
  | start hl ht hsel =>
    subst hl
    cases hs' with
    | same hold' => exact (hc _ ht _ hsel he).2 q' s' hold' he'
    | receive hl' => cases hl'
    | start hl' ht' =>
      cases hl'
      obtain rfl := Option.some.inj (ht.symm.trans ht')
      contradiction

omit [Field K] [LinearOrder K] in
theorem GameScene.presented_of_attacks {s : GameScene K} {e : SceneEvent}
    (h : s.attacks e = true) : s.presented = true := by
  cases e with
  | touch t => exact (of_decide_eq_true h).1
  | waitCompleted => contradiction
  | escape => contradiction

theorem Battle.Orderly.inTurn {b : Battle K} {e : SceneEvent} (hi : b.Orderly) :
    Battle.InTurn e b := by
  intro ha
  cases e with
  | touch t =>
    have hd : b.scene.presented = true ∧ b.scene.attackButton.delivers t = true ∧
        ButtonNode.fires t = true := by
      simpa [GameScene.attacks] using ha
    exact hi.shown (hi.visible hd.2.1 hd.2.2)
  | waitCompleted => contradiction
  | escape => contradiction

/-- The blow falls in the scene on screen, and all the others show the enemy alive. -/
theorem OneOnScreen.firstBlow (hi : OneOnScreen identifier w) : FirstBlow identifier l w := by
  intro user s hb he c t ht s' hs' he'
  obtain ⟨i,hi'⟩ := List.getElem?_of_mem hs'
  obtain ⟨tab,htab⟩ := List.getElem?_of_mem ht
  have hplace' : w.sceneAt (c,tab,i) = some s' := Device.sceneAt_eq_some.mpr ⟨t,htab,hi'⟩
  cases l with
  | event c₀ e =>
    obtain ⟨tab₀,i₀,se,t₀,rfl,ht₀,hs₀,_,hd⟩ := Device.blow_eq_some hb
    have hplace : w.sceneAt (c₀,tab₀,i₀) = some s := Device.sceneAt_eq_some.mpr ⟨t₀,ht₀,hs₀⟩
    have ha : s.attacks se = true ∧ ¬ 0 < s.currentEnemyHealth - user.power := by
      simpa [GameScene.defeats] using hd
    by_cases hq : ((c,tab,i) : Place) = (c₀,tab₀,i₀)
    · rw [hq,hplace] at hplace'
      obtain rfl := Option.some.inj hplace'
      exact ((hi.orderly _ s hplace he user).inTurn ha.1).2
    · exact (hi.others _ s hplace he (GameScene.presented_of_attacks ha.1) _ s' hplace' he' hq).2
  | _ => contradiction

variable [FloorRing K]

theorem ReadOutcome.sceneAt {p : Platform K} {snapshot : FNode K} {draw : Draw K} {d : Device K}
    {q : Read K} {r : DeviceReaction K} {tab i : Nat} {s : GameScene K}
    (h : ReadOutcome p snapshot draw d q r) (hs : r.locals.sceneAt tab i = some s) :
    d.sceneAt tab i = some s := by
  cases h with
  | login hl =>
    obtain ⟨t,ht,hs⟩ := Device.sceneAt_eq_some.mp hs
    rw [List.getElem?_append] at ht
    split at ht
    · exact Device.sceneAt_eq_some.mpr ⟨t,ht,hs⟩
    · obtain rfl := List.mem_singleton.mp (List.mem_of_getElem? ht)
      contradiction
  | map ht hr => exact Device.sceneAt_of_setTab ht hs rfl
  | _ => exact hs

theorem sceneStep_of_step {p : Platform K} {w' : World K} (h : step p l w = some w') {q : Place}
    {s : GameScene K} (hs : w'.sceneAt q = some s) : SceneStep l w q s := by
  obtain ⟨c,tab,i⟩ := q
  rcases locals_of_step h c with hsame | ⟨r,hr,hnew⟩
  · exact .same ((congrArg (fun d => d.sceneAt tab i) hsame).symm.trans hs)
  · have hs : r.locals.sceneAt tab i = some s :=
      (congrArg (fun d => d.sceneAt tab i) hnew).symm.trans hs
    cases hr with
    | event hr =>
      rcases (onEvent_outcome hr).sceneAt hs with hold |
        ⟨se,s₀,user,sr,rfl,h₀,hrec,rfl⟩ | ⟨t,enemy,rfl,ht,he,rfl,rfl⟩
      · exact .same hold
      · exact .receive rfl h₀ hrec
      · exact .start rfl ht he
    | deliver hq hr => exact .same ((onRead_outcome hr).sceneAt hs)

theorem OneOnScreen.step {p : Platform K} {w' : World K} (hi : OneOnScreen identifier w)
    (hc : BattlesInTurn identifier l w) (h : step p l w = some w') : OneOnScreen identifier w' where
  orderly := fun _ _ hs he => hi.step_orderly hc (sceneStep_of_step h hs) he
  others := fun _ _ hs he hp _ _ hs' he' hne =>
    hi.step_others hc (sceneStep_of_step h hs) he hp (sceneStep_of_step h hs') he' hne

/-- An enemy that is fought in one battle at a time, and with one finger, pays at most once. -/
theorem paidOnce_of_battlesInTurn [IsStrictOrderedRing K] (p : Platform K) (store : FNode K)
    (identifier : String) (ls : List (Label K))
    (hc : Along (step p) (BattlesInTurn identifier) ls (World.start store)) (w : World K)
    (hr : run (step p) ls (World.start store) = some w) : payouts identifier w ≤ 1 := by
  refine (paidOnce_of_run ?_ hr).le_one
  exact hc.mono_of_invariant (step p) (fun l w w' hi hcond h => hi.step hcond h)
    (fun l w hi _ => hi.firstBlow) (oneOnScreen_start identifier store)

end

end GFLGO
