import GFLGO.Blows
import GFLGO.Spawns
import GFLGO.Records

/-!
Where the enemies of a run come from: which identifiers a device knows, which
of its steps spawn, and what the writes under way do to /enemies.
-/

set_option autoImplicit false

namespace GFLGO

open Runs Async

section
variable {K : Type}

def enemyKeys (store : FNode K) : List String := (store.getImmediateChild "enemies").childKeys

/-- All writes of the app name a child of one of the two collections. -/
inductive Write.Placed (x : Write K) : Prop
  | users {rest : List String} (hp : x.path = "users" :: rest)
  | enemies {key : String} {rest : List String} (hp : x.path = "enemies" :: key :: rest)

theorem enemyKeys_applyWrite_users {x : Write K} {rest : List String}
    (hp : x.path = "users" :: rest) (store : FNode K) :
    enemyKeys (applyWrite x store) = enemyKeys store := by
  obtain ⟨path,node⟩ := x
  obtain rfl : path = "users" :: rest := hp
  rw [enemyKeys,collection_applyWrite_of_ne store rest node (by decide),enemyKeys]

theorem mem_enemyKeys_applyWrite {x : Write K} {key : String} {rest : List String}
    (hp : x.path = "enemies" :: key :: rest) (hx : x.node.isEmpty = false) (store : FNode K)
    {e : String} : e ∈ enemyKeys (applyWrite x store) ↔ e = key ∨ e ∈ enemyKeys store := by
  obtain ⟨path,node⟩ := x
  obtain rfl : path = "enemies" :: key :: rest := hp
  rw [enemyKeys,collection_applyWrite]
  exact PathTree.mem_childKeys_updateImmediateChild (PathTree.isEmpty_updateChild _ rest hx)

theorem mem_enemyKeys_of_applyWrite {x : Write K} {key : String} {rest : List String}
    (hp : x.path = "enemies" :: key :: rest) {store : FNode K} {e : String}
    (h : e ∈ enemyKeys (applyWrite x store)) : e = key ∨ e ∈ enemyKeys store := by
  obtain ⟨path,node⟩ := x
  obtain rfl : path = "enemies" :: key :: rest := hp
  rw [enemyKeys,collection_applyWrite] at h
  by_cases hc : ((((store.getImmediateChild "enemies").getImmediateChild key).updateChild rest
      node).isEmpty = true)
  · rw [PathTree.isEmpty_iff.mp hc,PathTree.mem_childKeys_updateImmediateChild_empty] at h
    exact Or.inr h.2
  · rw [PathTree.mem_childKeys_updateImmediateChild (by simpa using hc)] at h
    exact h

theorem not_mem_enemyKeys_removeValue (store : FNode K) (e : String) :
    e ∉ enemyKeys (applyWrite (removeValue ["enemies",e]) store) := by
  rw [enemyKeys,removeValue,collection_applyWrite,PathTree.updateChild_nil,
    PathTree.mem_childKeys_updateImmediateChild_empty]
  exact fun h => h.1 rfl

theorem nodup_enemyKeys_applyWrite {x : Write K} {store : FNode K} (hx : x.Placed)
    (h : (enemyKeys store).Nodup) : (enemyKeys (applyWrite x store)).Nodup := by
  cases hx with
  | users hp => rwa [enemyKeys_applyWrite_users hp]
  | @enemies key rest hp =>
    obtain ⟨path,node⟩ := x
    obtain rfl : path = "enemies" :: key :: rest := hp
    rw [enemyKeys,collection_applyWrite]
    exact PathTree.nodup_childKeys_updateImmediateChild key _ h

/-- The write cannot make the enemy appear. -/
def Write.Spares (e : String) (x : Write K) : Prop :=
  x.Placed ∧ ∀ rest, x.path = "enemies" :: e :: rest → x.node.isEmpty = true

theorem Write.Spares.not_mem {e : String} {x : Write K} (h : x.Spares e) {store : FNode K}
    (he : e ∉ enemyKeys store) : e ∉ enemyKeys (applyWrite x store) := by
  cases h.1 with
  | users hp => rwa [enemyKeys_applyWrite_users hp]
  | @enemies key rest hp =>
    by_cases hk : e = key
    · subst hk
      have hx := PathTree.isEmpty_iff.mp (h.2 rest hp)
      obtain ⟨path,node⟩ := x
      obtain rfl : path = "enemies" :: e :: rest := hp
      simp only at hx
      subst hx
      rw [enemyKeys,collection_applyWrite,PathTree.getImmediateChild_of_not_mem he,
        PathTree.updateChild_empty,PathTree.mem_childKeys_updateImmediateChild_empty]
      exact fun h => h.1 rfl
    · exact fun hmem => (mem_enemyKeys_of_applyWrite hp hmem).elim hk he

end

section
variable {K : Type}

def TabBarVC.enemies (t : TabBarVC K) : List (Enemy K) :=
  t.map.enemyAnnotations ++ t.map.selectedEnemy.toList ++ t.scenes.map GameScene.enemy

def Device.Knows (e : String) (d : Device K) : Prop :=
  ∃ t ∈ d.tabBarVCs, ∃ enemy ∈ t.enemies, enemy.identifier = e

def Read.enemy : Read K → Option (Enemy K)
  | .map _ q => q.enemy
  | _ => none

def asked : Except Trap (DeviceReaction K) → Option (Enemy K)
  | .error _ => none
  | .ok r => r.reads.findSome? Read.enemy

variable {d : Device K} {id : String}

theorem Device.knows_setTab {tab : Nat} {t u : TabBarVC K} (ht : d.tabBarVCs[tab]? = some t)
    (h : (d.setTab tab u).Knows id)
    (hu : ∀ enemy ∈ u.enemies, enemy.identifier = id → enemy ∈ t.enemies) : d.Knows id := by
  obtain ⟨t',ht',enemy,he,hid⟩ := h
  rcases mem_setTab ht' with rfl | hold
  · exact ⟨t,List.mem_of_getElem? ht,enemy,hu enemy he hid,hid⟩
  · exact ⟨t',hold,enemy,he,hid⟩

theorem asked_of_reads {r : DeviceReaction K} {tab : Nat} {enemy : Enemy K}
    (h : r.reads = [.map tab (.addEnemyToFirebase enemy)]) : asked (.ok r) = some enemy := by
  simp [asked,h,Read.enemy,MapRead.enemy]

variable [Field K] {p : Platform K}

theorem MapVC.Spawn.asked {draw : Draw K} {tab : Nat} {t : TabBarVC K}
    {enemy : Enemy K} {r : MapReaction K} (h : Spawn p draw t.map enemy r) :
    GFLGO.asked (.ok (d.ofMap tab t r)) = some enemy :=
  asked_of_reads (show _ = [Read.map tab _] by simp [Device.ofMap,h.reads])

variable [LinearOrder K]

theorem GameScene.receive_enemy {user : User K} {s : GameScene K} {e : SceneEvent}
    {r : SceneReaction K} (h : s.receive user e = some r) : r.scene.enemy = s.enemy := by
  rcases receive_cases h with ⟨_,t,_,rfl⟩ | ⟨_,_,_,_,he,_⟩
  · exact (attack_cases user s).1
  · exact he

theorem EventOutcome.knows {e : Event K} {r : DeviceReaction K} (h : EventOutcome p d e r)
    (hk : r.locals.Knows id) :
    d.Knows id ∨ ∃ enemy, asked (.ok r) = some enemy ∧ enemy.identifier = id := by
  by_cases hnew : ∃ enemy, asked (.ok r) = some enemy ∧ enemy.identifier = id
  · exact Or.inr hnew
  · refine Or.inl ?_
    cases h with
    | @map tab t e r ht hr =>
      refine Device.knows_setTab ht hk (fun enemy he hid => by_contra (fun hn => ?_))
      simp only [TabBarVC.enemies,List.mem_append,not_or] at he hn
      rcases MapVC.onEvent_spawn hr with ⟨draw,new,_,hs⟩ | ⟨_,hno⟩
      · simp only [hs.locals,List.mem_append,List.mem_singleton] at he
        rcases he with ((hold | rfl) | hold) | hold
        · exact hn.1.1 hold
        · exact hnew ⟨_,hs.asked,hid⟩
        · exact hn.1.2 hold
        · exact hn.2 hold
      · rcases he with (hann | hsel) | hscene
        · rcases hno.annotations with hclear | hkept
          · simp [hclear.1] at hann
          · exact hn.1.1 (hkept.1 ▸ hann)
        · rcases hno.selected enemy (by simpa using hsel) with hold | hann
          · exact hn.1.2 (by simp [hold])
          · exact hn.1.1 hann
        · exact hn.2 hscene
    | @battleAction tab t enemy ht he =>
      refine Device.knows_setTab ht hk (fun enemy' hmem hid => by_contra (fun hn => ?_))
      simp only [TabBarVC.enemies,List.map_append,List.mem_append,not_or] at hmem hn
      rcases hmem with hold | hold | hscene
      · exact hold.elim hn.1.1 hn.1.2
      · exact hn.2 hold
      · have heq : enemy' = enemy := by simpa [GameScene.didMove] using hscene
        exact hn.1.2 (by simp [he,heq])
    | @scene tab i t s e r ht hs hr =>
      refine Device.knows_setTab ht hk (fun enemy hmem hid => by_contra (fun hn => ?_))
      simp only [TabBarVC.enemies,List.mem_append,not_or] at hmem hn
      rcases hmem with hold | hscene
      · exact hold.elim hn.1.1 hn.1.2
      · obtain ⟨s',hs',rfl⟩ := List.mem_map.mp hscene
        rcases List.mem_or_eq_of_mem_set hs' with hold | rfl
        · exact hn.2 (List.mem_map_of_mem hold)
        · rw [GameScene.receive_enemy hr] at hn
          exact hn.2 (List.mem_map_of_mem (List.mem_of_getElem? hs))
    | newPassword ht => exact Device.knows_setTab ht hk (fun _ he _ => he)
    | logout ht => exact Device.knows_setTab ht hk (fun _ he _ => he)
    | _ => exact hk

theorem EventOutcome.asked {e : Event K} {r : DeviceReaction K} (h : EventOutcome p d e r) :
    ∀ q ∈ r.reads, ∀ enemy, q.enemy = some enemy → GFLGO.asked (.ok r) = some enemy := by
  intro q hq enemy he
  cases h with
  | map ht hr =>
    obtain ⟨q',hq',rfl⟩ := List.mem_map.mp hq
    rcases MapVC.onEvent_spawn hr with ⟨draw,new,_,hs⟩ | ⟨_,hno⟩
    · rw [hs.reads,List.mem_singleton] at hq'
      subst hq'
      cases he
      exact hs.asked
    · rw [Read.enemy,hno.reads q' hq'] at he
      contradiction
  | createAccountAction hv =>
    rw [List.mem_singleton.mp hq] at he
    contradiction
  | loginAction =>
    rw [List.mem_singleton.mp hq] at he
    contradiction
  | changePasswordAction ht hn =>
    rw [List.mem_singleton.mp hq] at he
    contradiction
  | _ => simp [Device.idle,Device.ofScene] at hq

theorem EventOutcome.placed {e : Event K} {r : DeviceReaction K} (h : EventOutcome p d e r) :
    ∀ x ∈ r.writes, (∃ rest, x.path = "users" :: rest) ∨
      ∃ id, d.Knows id ∧ x = removeValue ["enemies",id] := by
  intro x hx
  cases h with
  | map ht hr => simp [Device.ofMap,(MapVC.onEvent_effect hr).2.1] at hx
  | @scene tab i t s e r ht hs hr =>
    simp only [Device.ofScene] at hx
    rcases GameScene.receive_effect hr with ⟨_,_,hw,_⟩ | ⟨_,_,hw,_⟩
    · rw [hw,GameScene.defeatWrites] at hx
      rcases List.mem_cons.mp hx with rfl | hx
      · refine Or.inr ⟨s.enemy.identifier,⟨t,List.mem_of_getElem? ht,s.enemy,?_,rfl⟩,rfl⟩
        exact List.mem_append_right _ (List.mem_map_of_mem (List.mem_of_getElem? hs))
      · rw [List.mem_singleton.mp hx]
        exact Or.inl ⟨_,rfl⟩
    · simp [hw] at hx
  | _ => simp [Device.idle] at hx

variable [FloorRing K]

theorem ReadOutcome.knows {snapshot : FNode K} {draw : Draw K} {q : Read K}
    {r : DeviceReaction K} (h : ReadOutcome p snapshot draw d q r) (hk : r.locals.Knows id) :
    d.Knows id ∨ (∃ enemy, asked (.ok r) = some enemy ∧ enemy.identifier = id) ∨
      ∃ tab, q = .map tab .findEnemiesAroundUser ∧ id ∈ snapshot.childKeys := by
  by_cases hnew : (∃ enemy, asked (.ok r) = some enemy ∧ enemy.identifier = id) ∨
      ∃ tab, q = .map tab .findEnemiesAroundUser ∧ id ∈ snapshot.childKeys
  · exact Or.inr hnew
  · refine Or.inl ?_
    cases h with
    | @map tab t q r ht hr =>
      refine Device.knows_setTab ht hk (fun enemy he hid => by_contra (fun hn => ?_))
      simp only [TabBarVC.enemies,List.mem_append,not_or] at he hn
      rcases MapVC.onRead_spawn hr with ⟨_,_,new,hs⟩ | hfill
      · simp only [hs.locals,List.mem_append,List.mem_singleton] at he
        rcases he with ((hold | rfl) | hold) | hold
        · exact hn.1.1 hold
        · exact hnew (Or.inl ⟨_,hs.asked,hid⟩)
        · exact hn.1.2 hold
        · exact hn.2 hold
      · rcases he with (hann | hsel) | hscene
        · rcases hfill.annotations enemy hann with hold | ⟨rfl,hkey⟩
          · exact hn.1.1 hold
          · exact hnew (Or.inr ⟨tab,rfl,hid ▸ hkey⟩)
        · exact hn.1.2 (hfill.selected ▸ hsel)
        · exact hn.2 hscene
    | login hl =>
      obtain ⟨t,ht,enemy,he,hid⟩ := hk
      rcases List.mem_append.mp ht with hold | hlast
      · exact ⟨t,hold,enemy,he,hid⟩
      · rw [List.mem_singleton.mp hlast] at he
        simp [TabBarVC.enemies] at he
    | _ => exact hk

theorem ReadOutcome.asked {snapshot : FNode K} {draw : Draw K} {q : Read K}
    {r : DeviceReaction K} (h : ReadOutcome p snapshot draw d q r) :
    ∀ q' ∈ r.reads, ∀ enemy, q'.enemy = some enemy → GFLGO.asked (.ok r) = some enemy := by
  intro q' hq' enemy he
  cases h with
  | map ht hr =>
    obtain ⟨q'',hq'',rfl⟩ := List.mem_map.mp hq'
    rcases MapVC.onRead_spawn hr with ⟨_,_,new,hs⟩ | hfill
    · rw [hs.reads,List.mem_singleton] at hq''
      subst hq''
      cases he
      exact hs.asked
    · simp [hfill.reads] at hq''
  | userIsNew hv hc =>
    rw [List.mem_singleton.mp hq'] at he
    contradiction
  | _ => simp [Device.idle] at hq'

theorem ReadOutcome.placed {snapshot : FNode K} {draw : Draw K} {q : Read K}
    {r : DeviceReaction K} (h : ReadOutcome p snapshot draw d q r) :
    ∀ x ∈ r.writes, (∃ rest, x.path = "users" :: rest) ∨
      ∃ enemy, q.enemy = some enemy ∧ x ∈ MapVC.enemyWrites enemy := by
  intro x hx
  cases h with
  | addUser hv =>
    rcases userWrites_path _ _ x hx with hp | ⟨f,_,hp⟩
    · exact Or.inl ⟨_,hp⟩
    · exact Or.inl ⟨_,hp⟩
  | passwordChanged hs ht hn =>
    rw [List.mem_singleton.mp hx]
    exact Or.inl ⟨_,rfl⟩
  | map ht hr =>
    simp only [Device.ofMap] at hx
    rcases (MapVC.onRead_effect hr).2 with ⟨c,_,hw,_⟩ | ⟨enemy,rfl,hw,_⟩ | ⟨hw,_⟩
    · rw [hw,MapVC.locationWrites,List.mem_cons,List.mem_singleton] at hx
      rcases hx with rfl | rfl <;> exact Or.inl ⟨_,rfl⟩
    · rw [hw] at hx
      exact Or.inr ⟨enemy,rfl,hx⟩
    · simp [hw] at hx
  | _ => simp [Device.idle] at hx

def spawned (p : Platform K) : Label K → World K → Option (Enemy K)
  | .event c e, w => asked ((w.clients c).locals.onEvent p e)
  | .deliver c i d, w =>
    match (w.clients c).reads[i]? with
    | some ⟨q,some s⟩ => asked ((w.clients c).locals.onRead p q s d)
    | _ => none
  | _, _ => none

def TabsThere (cl : Client K) : Prop :=
  ∀ rd ∈ cl.reads, ∀ tab q, rd.read = .map tab q → tab < cl.locals.tabBarVCs.length

omit [FloorRing K] in
theorem EventOutcome.tabs {d : Device K} {e : Event K} {r : DeviceReaction K}
    (h : EventOutcome p d e r) : d.tabBarVCs.length ≤ r.locals.tabBarVCs.length ∧
      ∀ q ∈ r.reads, ∀ tab q', q = .map tab q' → tab < d.tabBarVCs.length := by
  cases h with
  | map ht hr =>
    refine ⟨by simp [Device.ofMap,Device.setTab],fun q hq tab q' he => ?_⟩
    obtain ⟨q'',_,rfl⟩ := List.mem_map.mp hq
    cases he
    exact (List.getElem?_eq_some_iff.mp ht).1
  | battleAction ht he => exact ⟨by simp [Device.setTab],by simp⟩
  | scene ht hs hr => exact ⟨by simp [Device.ofScene,Device.setTab],by simp [Device.ofScene]⟩
  | newPassword ht => exact ⟨by simp [Device.setTab],by simp⟩
  | logout ht => exact ⟨by simp [Device.setTab],by simp⟩
  | _ => exact ⟨Nat.le_refl _,by simp [Device.idle]⟩

theorem ReadOutcome.tabs {snapshot : FNode K} {draw : Draw K} {d : Device K} {q : Read K}
    {r : DeviceReaction K} (h : ReadOutcome p snapshot draw d q r) :
    d.tabBarVCs.length ≤ r.locals.tabBarVCs.length ∧
      ∀ q' ∈ r.reads, ∀ tab q'', q' = .map tab q'' → tab < d.tabBarVCs.length := by
  cases h with
  | map ht hr =>
    refine ⟨by simp [Device.ofMap,Device.setTab],fun q hq tab q' he => ?_⟩
    obtain ⟨q'',_,rfl⟩ := List.mem_map.mp hq
    cases he
    exact (List.getElem?_eq_some_iff.mp ht).1
  | login hl => exact ⟨by simp,by simp⟩
  | _ => exact ⟨Nat.le_refl _,by simp [Device.idle]⟩

omit [Field K] [LinearOrder K] [FloorRing K] in
theorem TabsThere.absorb {cl : Client K} {r : Except Trap (DeviceReaction K)} (h : TabsThere cl)
    (hr : ∀ r', r = .ok r' → cl.locals.tabBarVCs.length ≤ r'.locals.tabBarVCs.length ∧
      ∀ q ∈ r'.reads, ∀ tab q', q = .map tab q' → tab < cl.locals.tabBarVCs.length) :
    TabsThere (cl.absorb r) := by
  cases r with
  | error t => exact fun rd hrd => by simp [Client.absorb] at hrd
  | ok r' =>
    obtain ⟨hle,hnew⟩ := hr r' rfl
    intro rd hrd tab q he
    rcases mem_reads_absorb.mp hrd with hold | ⟨q',hq',rfl⟩
    · exact Nat.lt_of_lt_of_le (h rd hold tab q he) hle
    · exact Nat.lt_of_lt_of_le (hnew q' hq' tab q he) hle

theorem tabsThere_step {l : Label K} {w w' : World K} (h : ∀ c, TabsThere (w.clients c))
    (hs : step p l w = some w') : ∀ c, TabsThere (w'.clients c) := by
  intro c
  have hstep := client_step hs c
  generalize w'.clients c = cl at hstep
  cases hstep with
  | other hl => exact h c
  | event => exact (h c).absorb (fun r hr => (onEvent_outcome hr).tabs)
  | @snapshot i q hq =>
    intro rd hrd
    rcases List.mem_or_eq_of_mem_set hrd with hold | rfl
    · exact h c rd hold
    · exact h c ⟨q,none⟩ (List.mem_of_getElem? hq)
  | deliver hq =>
    refine TabsThere.absorb (fun rd hrd => h c rd (List.mem_of_mem_eraseIdx hrd)) ?_
    exact fun r hr => (onRead_outcome hr).tabs
  | apply hx => exact h c

theorem writes_of_add {d : Device K} {q : Read K} {s : FNode K} {draw : Draw K}
    {r : DeviceReaction K} {enemy : Enemy K} (h : d.onRead p q s draw = .ok r)
    (hq : q.enemy = some enemy) (ht : ∀ tab q', q = .map tab q' → tab < d.tabBarVCs.length) :
    r.writes = MapVC.enemyWrites enemy := by
  cases q with
  | map tab q =>
    cases q with
    | addEnemyToFirebase enemy' =>
      cases hq
      obtain ⟨t,htab⟩ : ∃ t, d.tabBarVCs[tab]? = some t :=
        ⟨_,List.getElem?_eq_getElem (ht tab _ rfl)⟩
      simp only [Device.onRead,htab] at h
      cases h
      rfl
    | _ => contradiction
  | _ => contradiction

variable {c : Nat} {l : Label K} {w w' : World K}

theorem spawned_event {e : Event K} {r : DeviceReaction K}
    (hr : (program p).onEvent e (w.clients c).locals = .ok r) :
    spawned p (.event c e) w = asked (.ok r) := by
  rw [← hr]
  rfl

theorem spawned_deliver {i : Nat} {draw : Draw K} {q : Read K} {s : FNode K}
    {r : DeviceReaction K} (hq : (w.clients c).reads[i]? = some ⟨q,some s⟩)
    (hr : (program p).onRead q s draw (w.clients c).locals = .ok r) :
    spawned p (.deliver c i draw) w = asked (.ok r) := by
  simp only [spawned,hq]
  rw [← hr]
  rfl

theorem placed_of_step (hs : step p l w = some w') {x : Write K} (hx : x ∈ (w'.clients c).writes) :
    x ∈ (w.clients c).writes ∨ (∃ rest, x.path = "users" :: rest) ∨
      (∃ id, (w.clients c).locals.Knows id ∧ x = removeValue ["enemies",id]) ∨
      ∃ rd ∈ (w.clients c).reads, ∃ enemy, rd.read.enemy = some enemy ∧
        x ∈ MapVC.enemyWrites enemy := by
  rcases mem_writes_step hs hx with hold | ⟨r,hr,hnew⟩
  · exact Or.inl hold
  · refine Or.inr ?_
    cases hr with
    | event hr =>
      exact ((onEvent_outcome hr).placed x hnew).imp_right Or.inl
    | deliver hq hr =>
      rcases (onRead_outcome hr).placed x hnew with hp | ⟨enemy,he,hx⟩
      · exact Or.inl hp
      · exact Or.inr (Or.inr ⟨_,List.mem_of_getElem? hq,enemy,he,hx⟩)

theorem knows_of_step (hs : step p l w = some w') {id : String}
    (hk : (w'.clients c).locals.Knows id) : (w.clients c).locals.Knows id ∨
      (∃ enemy, spawned p l w = some enemy ∧ enemy.identifier = id) ∨
      ∃ tab s, ⟨.map tab .findEnemiesAroundUser,some s⟩ ∈ (w.clients c).reads ∧
        id ∈ s.childKeys := by
  rcases locals_of_step hs c with hsame | ⟨r,hr,hsame⟩ <;> rw [hsame] at hk
  · exact Or.inl hk
  · cases hr with
    | event hr =>
      rcases (onEvent_outcome hr).knows hk with hold | ⟨enemy,ha,hid⟩
      · exact Or.inl hold
      · exact Or.inr (Or.inl ⟨enemy,(spawned_event hr).trans ha,hid⟩)
    | deliver hq hr =>
      rcases (onRead_outcome hr).knows hk with hold | ⟨enemy,ha,hid⟩ | ⟨tab,rfl,hkey⟩
      · exact Or.inl hold
      · exact Or.inr (Or.inl ⟨enemy,(spawned_deliver hq hr).trans ha,hid⟩)
      · exact Or.inr (Or.inr ⟨tab,_,List.mem_of_getElem? hq,hkey⟩)

theorem asked_of_step (hs : step p l w = some w') {rd : Pending (Read K) (FNode K)}
    (hrd : rd ∈ (w'.clients c).reads) {enemy : Enemy K} (he : rd.read.enemy = some enemy) :
    (∃ rd' ∈ (w.clients c).reads, rd'.read.enemy = some enemy) ∨ spawned p l w = some enemy := by
  rcases mem_reads_step hs hrd with ⟨rd',hrd',hsame⟩ | ⟨r,hr,hnew⟩
  · exact Or.inl ⟨rd',hrd',by rw [hsame,he]⟩
  · refine Or.inr ?_
    cases hr with
    | event hr => exact (spawned_event hr).trans ((onEvent_outcome hr).asked _ hnew enemy he)
    | deliver hq hr =>
      exact (spawned_deliver hq hr).trans ((onRead_outcome hr).asked _ hnew enemy he)

end

end GFLGO
