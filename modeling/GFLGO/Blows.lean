import GFLGO.Outcomes

/-!
The blows that bring an enemy down. Each pays the session it was struck in, and
no other step pays, writes experience or changes what a session holds of it.
-/

set_option autoImplicit false

namespace GFLGO

open Runs Async

section
variable {K : Type}

def Note.pays (identifier : String) : Note K → Bool
  | .addExperience _ _ paid => paid = identifier
  | _ => false

theorem Device.mem_setTab_self {d : Device K} {tab : Nat} {t : TabBarVC K}
    (ht : d.tabBarVCs[tab]? = some t) (u : TabBarVC K) : u ∈ (d.setTab tab u).tabBarVCs :=
  mem_set_self ht

theorem Device.mem_setTab_of_ne {d : Device K} {tab : Nat} {t u x : TabBarVC K}
    (ht : d.tabBarVCs[tab]? = some t) (hx : x ∈ d.tabBarVCs) (hne : x ≠ t) :
    x ∈ (d.setTab tab u).tabBarVCs :=
  mem_set_of_ne ht hx hne

/-- Two objects of one account with the same experience. -/
def User.SameBalance (u v : User K) : Prop := u.userID = v.userID ∧ u.totalExp = v.totalExp

theorem Device.sameBalance_of_mem_setTab {d : Device K} {tab : Nat} {t u t' : TabBarVC K}
    (ht : d.tabBarVCs[tab]? = some t) (hu : u.map.user.SameBalance t.map.user)
    (h : t' ∈ (d.setTab tab u).tabBarVCs) :
    ∃ t ∈ d.tabBarVCs, t'.map.user.SameBalance t.map.user := by
  rcases mem_setTab h with rfl | hold
  · exact ⟨t,List.mem_of_getElem? ht,hu⟩
  · exact ⟨t',hold,rfl,rfl⟩

variable [Field K] [LinearOrder K]

/-- The session and the scene of a blow that brings the enemy down. -/
def Device.blow (d : Device K) : Event K → Option (User K × GameScene K)
  | .scene tab scene e =>
    match d.tabBarVCs[tab]? with
    | some t =>
      match t.scenes[scene]? with
      | some s => if s.defeats t.map.user e then some (t.map.user,s) else none
      | none => none
    | none => none
  | _ => none

def blow : Label K → World K → Option (User K × GameScene K)
  | .event c e, w => (w.clients c).locals.blow e
  | _, _ => none

/-- Everything a blow does to its device. -/
structure Blow (d : Device K) (user : User K) (s : GameScene K) (r : DeviceReaction K) : Prop where
  struck : ∃ t ∈ d.tabBarVCs, t.map.user = user ∧ s ∈ t.scenes
  down : s.currentEnemyHealth - user.power ≤ 0
  reads : r.reads = []
  writes : r.writes = s.defeatWrites user
  notes : r.notes = [.addExperience user.userID 1 s.enemy.identifier]
  sessions : ∀ t ∈ r.locals.tabBarVCs,
    t.map.user = (user.addExperience 1).1 ∨ t ∈ d.tabBarVCs
  fallen : ∃ t ∈ r.locals.tabBarVCs, t.map.user = (user.addExperience 1).1 ∧
    ∃ s' ∈ t.scenes, s'.enemy = s.enemy ∧
      s'.currentEnemyHealth = s.currentEnemyHealth - user.power

theorem Device.blow_eq_some {d : Device K} {e : Event K} {user : User K} {s : GameScene K}
    (h : d.blow e = some (user,s)) :
    ∃ tab i se t, e = .scene tab i se ∧ d.tabBarVCs[tab]? = some t ∧ t.scenes[i]? = some s ∧
      t.map.user = user ∧ s.defeats user se = true := by
  cases e with
  | scene tab i se =>
    simp only [blow] at h
    split at h
    · next t ht =>
      split at h
      · next s' hs =>
        split at h
        · next hd =>
          cases h
          exact ⟨tab,i,se,t,rfl,ht,hs,rfl,hd⟩
        · contradiction
      · contradiction
    · contradiction
  | _ => contradiction

theorem GameScene.receive_of_defeats {user : User K} {s : GameScene K} {e : SceneEvent}
    (h : s.defeats user e = true) : ∃ r, s.receive user e = some r ∧
      r.user = (user.addExperience 1).1 ∧ r.writes = s.defeatWrites user ∧
      r.notes = [.addExperience user.userID 1 s.enemy.identifier] ∧
      r.scene.enemy = s.enemy ∧
      r.scene.currentEnemyHealth = s.currentEnemyHealth - user.power := by
  have hattacks : s.attacks e = true ∧ ¬ 0 < s.currentEnemyHealth - user.power := by
    simpa [defeats] using h
  cases e with
  | touch t =>
    have ht : s.presented = true ∧ s.attackButton.delivers t = true ∧
        ButtonNode.fires t = true := by
      simpa [attacks] using hattacks.1
    obtain ⟨he,hh,_,⟨hp,_⟩ | ⟨_,_,hu,hw,hn⟩⟩ := attack_cases user s
    · exact absurd hp hattacks.2
    · refine ⟨_,if_pos ⟨ht.1,ht.2.1⟩,?_⟩
      rw [ht.2.2,if_pos rfl]
      exact ⟨hu,hw,hn,he,hh⟩
  | waitCompleted => simp [attacks] at hattacks
  | escape => simp [attacks] at hattacks

theorem exists_blow {p : Platform K} {d : Device K} {e : Event K} {user : User K}
    {s : GameScene K} (hb : d.blow e = some (user,s)) :
    ∃ r, d.onEvent p e = .ok r ∧ Blow d user s r := by
  obtain ⟨tab,i,se,t,rfl,ht,hs,rfl,hd⟩ := Device.blow_eq_some hb
  obtain ⟨sr,hr,hu,hw,hn,he,hh⟩ := GameScene.receive_of_defeats hd
  refine ⟨d.ofScene tab i t sr,by simp only [Device.onEvent,ht,hs,hr],?_⟩
  have hdown : s.attacks se = true ∧ s.currentEnemyHealth - t.map.user.power ≤ 0 := by
    simpa [GameScene.defeats] using hd
  refine ⟨⟨t,List.mem_of_getElem? ht,rfl,List.mem_of_getElem? hs⟩,hdown.2,rfl,hw,hn,
    fun t' ht' => ?_,?_⟩
  · rcases Device.mem_setTab ht' with rfl | hold
    · exact Or.inl hu
    · exact Or.inr hold
  · exact ⟨_,Device.mem_setTab_self ht _,hu,sr.scene,mem_set_self hs,he,hh⟩

theorem blow_of_onEvent {p : Platform K} {d : Device K} {e : Event K} {r : DeviceReaction K}
    {user : User K} {s : GameScene K} (h : d.onEvent p e = .ok r)
    (hb : d.blow e = some (user,s)) : Blow d user s r := by
  obtain ⟨r',hr,hblow⟩ := exists_blow (p := p) hb
  rw [h,Except.ok.injEq] at hr
  exact hr ▸ hblow

/-- Without a blow no event writes, pays or moves a balance. -/
structure NoBlow (d : Device K) (r : DeviceReaction K) : Prop where
  writes : r.writes = []
  notes : r.notes = []
  sessions : ∀ t' ∈ r.locals.tabBarVCs, ∃ t ∈ d.tabBarVCs, t'.map.user.SameBalance t.map.user

theorem EventOutcome.noBlow {p : Platform K} {d : Device K} {e : Event K}
    {r : DeviceReaction K} (h : EventOutcome p d e r) (hb : d.blow e = none) : NoBlow d r := by
  cases h with
  | map ht hr =>
    obtain ⟨⟨latitude,longitude,hu⟩,hw,hn⟩ := MapVC.onEvent_effect hr
    refine ⟨hw,hn,fun t' ht' => Device.sameBalance_of_mem_setTab ht ?_ ht'⟩
    rw [hu]
    exact ⟨rfl,rfl⟩
  | @scene tab i t s se sr ht hs hr =>
    have hd : s.defeats t.map.user se = false := by
      simpa [Device.blow,ht,hs] using hb
    rcases GameScene.receive_effect hr with ⟨hyes,_⟩ | ⟨_,hu,hw,hn⟩
    · rw [hd] at hyes
      contradiction
    · refine ⟨hw,hn,fun t' ht' => Device.sameBalance_of_mem_setTab ht ?_ ht'⟩
      rw [hu]
      exact ⟨rfl,rfl⟩
  | battleAction ht he =>
    refine ⟨rfl,rfl,fun t' ht' => Device.sameBalance_of_mem_setTab ht ?_ ht'⟩
    exact ⟨rfl,rfl⟩
  | newPassword ht =>
    refine ⟨rfl,rfl,fun t' ht' => Device.sameBalance_of_mem_setTab ht ?_ ht'⟩
    exact ⟨rfl,rfl⟩
  | logout ht =>
    refine ⟨rfl,rfl,fun t' ht' => Device.sameBalance_of_mem_setTab ht ?_ ht'⟩
    exact ⟨rfl,rfl⟩
  | _ => exact ⟨rfl,rfl,fun t' ht' => ⟨t',ht',rfl,rfl⟩⟩

theorem onEvent_effect {p : Platform K} {e : Event K} {d : Device K} {r : DeviceReaction K}
    (h : d.onEvent p e = .ok r) :
    (r.writes = [] ∧ r.notes = []) ∨ ∃ user s, r.writes = GameScene.defeatWrites user s ∧
      r.notes = [.addExperience user.userID 1 s.enemy.identifier] := by
  cases hb : d.blow e with
  | none =>
    have hno := (onEvent_outcome h).noBlow hb
    exact Or.inl ⟨hno.writes,hno.notes⟩
  | some struck =>
    obtain ⟨user,s⟩ := struck
    have hblow := blow_of_onEvent h hb
    exact Or.inr ⟨user,s,hblow.writes,hblow.notes⟩

variable [FloorRing K]

theorem ReadOutcome.pays {p : Platform K} {snapshot : FNode K} {draw : Draw K} {d : Device K}
    {q : Read K} {r : DeviceReaction K} (h : ReadOutcome p snapshot draw d q r) :
    ∀ n ∈ r.notes, ∀ userID amount identifier,
      n ≠ .addExperience userID amount identifier := by
  intro n hn userID amount identifier he
  subst he
  cases h with
  | map ht hr =>
    simp only [Device.ofMap] at hn
    obtain ⟨_,⟨c,_,_,hnotes⟩ | ⟨enemy,_,_,hnotes⟩ | ⟨_,hnotes⟩⟩ := MapVC.onRead_effect hr <;>
      simp [hnotes] at hn
  | _ => simp [Device.idle] at hn

end

end GFLGO
