import Mathlib.Data.List.Perm.Subperm
import GFLGO.EnemyHistory
import GFLGO.Standing

/-!
The spawn timer at one position, tick after tick, from an empty /enemies on.
The count sees the enemies within 100 m, the map shows those within 150 m.
-/

set_option autoImplicit false

namespace GFLGO

open Runs Async Registry

section
variable {K : Type} [Field K] [LinearOrder K]

/-- The draws put an enemy where the map shows it. -/
structure Draw.InReach (p : Platform K) (pos : Coordinate K) (d : Draw K) : Prop where
  distance_le : p.distance (MapVC.getRandomCoordinateAroundUser p d pos) pos ≤ 150

def InReach (p : Platform K) (pos : Coordinate K) : Label K → Prop
  | .deliver _ _ d => d.InReach p pos
  | _ => True

def ShowsFew (p : Platform K) (pos : Coordinate K) (store : FNode K) : Prop :=
  ∀ randomName found, MapVC.findEnemiesAroundUser p (some pos) randomName
    (store.getChild ["enemies"]).children = .ok found → found.length ≤ 20

variable [FloorRing K]

/-- Operations at one position that come one after another and are all finished. -/
structure AtOnePlace (p : Platform K) (pos : Coordinate K) (ls : List (Label K)) (w₀ : World K) :
    Prop where
  quiet : w₀.Quiet
  store : w₀.store.getChild ["enemies"] = .empty
  standing : ∀ c, Standing pos (w₀.clients c).locals
  labels : ∀ l ∈ ls, StandsAt pos l
  ordered : Along (step p) OneAtATime ls w₀
  finished : ∃ w, run (step p) ls w₀ = some w ∧ w.Quiet

/-- After every tick the player is shown no more than twenty enemies. -/
def CapCovers (p : Platform K) (pos : Coordinate K) (ls : List (Label K)) (w₀ : World K) : Prop :=
  ∀ as w, as <+: ls → run (step p) as w₀ = some w → w.Quiet → ShowsFew p pos w.store

/-- A count that ends in a spawn finds less than twenty other enemies stored,
wherever they are. -/
def RoomLeft (p : Platform K) : Label K → World K → Prop
  | .deliver c i d, w => ∀ tab s t,
    (w.clients c).reads[i]? = some ⟨.map tab .getNumberOfEnemiesAroundUser,some s⟩ →
    (w.clients c).locals.tabBarVCs[tab]? = some t → MapVC.CountSpawns p s d t.map →
    ((enemyKeys w.store).erase (MapVC.getUniqueEnemyID p d t.map.user)).length < 20
  | _, _ => True

structure SpawnsNear (p : Platform K) (pos : Coordinate K) (ops : List (Change String (Enemy K)))
    (w : World K) : Prop where
  tabs : ∀ c, TabsThere (w.clients c)
  settling : ∃ c, Settling (after Enemy.identifier ops) c w
  standing : ∀ c, Standing pos (w.clients c).locals
  near : ∀ enemy ∈ inserted ops, p.distance ⟨enemy.latitude,enemy.longitude⟩ pos ≤ 150

variable {p : Platform K} {pos : Coordinate K} {ops : List (Change String (Enemy K))}
  {l : Label K} {w w' w₀ : World K} {ls : List (Label K)}

omit [FloorRing K] in
theorem near_of_countStep {enemy : Enemy K} (hstanding : ∀ c, Standing pos (w.clients c).locals)
    (hreach : InReach p pos l) (h : CountStep p w enemy l) :
    p.distance ⟨enemy.latitude,enemy.longitude⟩ pos ≤ 150 := by
  cases h with
  | @deliver c i tab d s t r hr ht hc hs =>
    obtain ⟨location,hlocation,hplaced⟩ := hs.placed
    obtain rfl := hstanding c t (List.mem_of_getElem? ht) location hlocation
    rw [hplaced]
    exact hreach.distance_le

theorem SpawnsNear.step (h : SpawnsNear p pos ops w) (hc : OneAtATime l w)
    (hl : StandsAt pos l) (hreach : InReach p pos l) (hs : GFLGO.step p l w = some w') :
    SpawnsNear p pos (ops ++ (enemyChange p l w).toList) w' := by
  obtain ⟨c,hsettling⟩ := h.settling
  refine ⟨tabsThere_step h.tabs hs,hsettling.step h.tabs hc hs,standing_step h.standing hl hs,?_⟩
  intro enemy he
  rw [inserted_append,List.mem_append] at he
  rcases he with hold | hnew
  · exact h.near enemy hold
  · cases hchange : enemyChange p l w with
    | none => simp [hchange,inserted] at hnew
    | some change =>
      cases change with
      | erase id => simp [hchange,inserted] at hnew
      | insert enemy' =>
        obtain rfl : enemy = enemy' := by simpa [hchange,inserted] using hnew
        exact near_of_countStep h.standing hreach
          (countStep_of_spawned hl (enemyChange_eq_some_insert hchange))

theorem SpawnsNear.start (h : AtOnePlace p pos ls w₀) : SpawnsNear p pos [] w₀ where
  tabs := fun c rd hrd => by simp [(h.quiet c).1] at hrd
  settling := by
    have hempty : EnemyTree (after Enemy.identifier ([] : List (Change String (Enemy K))))
        (w₀.store.getImmediateChild "enemies") := by
      rw [← PathTree.getChild_singleton,h.store]
      exact EnemyTree.empty
    exact ⟨0,Settling.of_quiet h.quiet hempty 0⟩
  standing := h.standing
  near := by simp [inserted]

def Near (p : Platform K) (pos : Coordinate K) (l : Label K) (w : World K) : Prop :=
  OneAtATime l w ∧ StandsAt pos l ∧ InReach p pos l

theorem AtOnePlace.along (h : AtOnePlace p pos ls w₀) (hreach : ∀ l ∈ ls, InReach p pos l) :
    Along (GFLGO.step p) (Near p pos) ls w₀ :=
  h.ordered.and (GFLGO.step p) ((along_of_forall_mem (GFLGO.step p) h.labels w₀).and
    (GFLGO.step p) (along_of_forall_mem (GFLGO.step p) hreach w₀))

theorem spawnsNear_of_run (h : AtOnePlace p pos ls w₀) (hreach : ∀ l ∈ ls, InReach p pos l)
    {as : List (Label K)} (hp : as <+: ls) (hr : run (GFLGO.step p) as w₀ = some w) :
    SpawnsNear p pos (enemyHistory p as w₀) w := by
  obtain ⟨bs,rfl⟩ := hp
  have halong := ((along_append (GFLGO.step p) hr).mp (h.along hreach)).1
  exact run_collect (f := enemyChange p) (I := SpawnsNear p pos) (C := Near p pos) (GFLGO.step p)
    (fun _ _ _ _ hi hc hs => hi.step hc.1 hc.2.1 hc.2.2 hs) (SpawnsNear.start h) halong hr

def HeldBy (m : String → Option (Enemy K)) (ids : List String) : Prop :=
  ∀ id enemy, m id = some enemy → id ∈ ids

theorem RoomLeft.held (hroom : RoomLeft p l w) (h : SpawnsNear p pos ops w)
    (hl : StandsAt pos l) {ids : List String} (hids : HeldBy (after Enemy.identifier ops) ids)
    (hlen : ids.length ≤ 20) : ∃ ids', ids'.length ≤ 20 ∧
      HeldBy (after Enemy.identifier (ops ++ (enemyChange p l w).toList)) ids' := by
  cases hchange : enemyChange p l w with
  | none => exact ⟨ids,hlen,by simpa using hids⟩
  | some change =>
    simp only [Option.toList_some]
    cases change with
    | erase id =>
      refine ⟨ids,hlen,fun id' enemy he => ?_⟩
      rw [after_erase,Function.update_apply] at he
      split at he
      · contradiction
      · exact hids id' enemy he
    | insert enemy =>
      have hcount := countStep_of_spawned hl (enemyChange_eq_some_insert hchange)
      cases hcount with
      | @deliver c i tab d s t r hr ht hc hs =>
        obtain ⟨c₀,hsettling⟩ := h.settling
        have htree := hsettling.tree_of_count hr
        have hfew := hroom tab s t hr ht hc
        rw [← hs.identifier] at hfew
        refine ⟨enemy.identifier :: (enemyKeys w.store).erase enemy.identifier,
          by simp only [List.length_cons]; omega,fun id e he => ?_⟩
        rw [after_insert,Function.update_apply] at he
        split at he
        · next hid => exact hid ▸ List.mem_cons_self
        · next hid =>
          exact List.mem_cons_of_mem _
            ((List.mem_erase_of_ne hid).mpr ((htree.mem_iff id).mpr ⟨e,he⟩))

omit [FloorRing K] in
theorem showsFew_of_held {m : String → Option (Enemy K)} {store : FNode K}
    (h : EnemyTree m (store.getImmediateChild "enemies")) {ids : List String}
    (hids : HeldBy m ids) (hlen : ids.length ≤ 20) : ShowsFew p pos store := by
  intro randomName found hok
  obtain ⟨found',hok',hnodup,hmem⟩ := h.findEnemiesAroundUser p pos randomName
  rw [PathTree.getChild_singleton,hok',Except.ok.injEq] at hok
  subst hok
  have hsub : found'.map Enemy.identifier ⊆ ids := by
    intro id hid
    obtain ⟨enemy,he,rfl⟩ := List.mem_map.mp hid
    exact hids _ enemy ((hmem enemy).mp he).1
  have hle := (hnodup.subperm hsub).length_le
  rw [List.length_map] at hle
  omega

/-- When every spawn leaves room the cap covers what is shown. -/
theorem capCovers_of_roomLeft (h : AtOnePlace p pos ls w₀) (hreach : ∀ l ∈ ls, InReach p pos l)
    (hroom : Along (GFLGO.step p) (RoomLeft p) ls w₀) : CapCovers p pos ls w₀ := by
  rintro as w ⟨bs,rfl⟩ hr hq
  have halong := ((along_append (GFLGO.step p) hr).mp
    ((h.along hreach).and (GFLGO.step p) hroom)).1
  have hinv := run_collect (f := enemyChange p) (C := fun l w => Near p pos l w ∧ RoomLeft p l w)
    (I := fun ops w => SpawnsNear p pos ops w ∧ ∃ ids : List String, ids.length ≤ 20 ∧
      HeldBy (after Enemy.identifier ops) ids) (GFLGO.step p) ?_
    ⟨SpawnsNear.start h,[],by simp,fun id enemy he => by contradiction⟩ halong hr
  · obtain ⟨hnear,ids,hlen,hids⟩ := hinv
    obtain ⟨c,hsettling⟩ := hnear.settling
    exact showsFew_of_held (hsettling.tree_of_quiet hq) hids hlen
  · rintro l u u' ops ⟨hi,ids,hlen,hids⟩ ⟨⟨hone,hl,hin⟩,hroom⟩ hs
    exact ⟨hi.step hone hl hin hs,hroom.held hi hl hids hlen⟩

theorem spawned_of_counts {c i tab : Nat} {d : Draw K} {s : FNode K} {t : TabBarVC K}
    (hr : (w.clients c).reads[i]? = some ⟨.map tab .getNumberOfEnemiesAroundUser,some s⟩)
    (ht : (w.clients c).locals.tabBarVCs[tab]? = some t) (hc : MapVC.CountSpawns p s d t.map) :
    ∃ enemy, spawned p (.deliver c i d) w = some enemy ∧
      enemy.identifier = MapVC.getUniqueEnemyID p d t.map.user := by
  cases hok : t.map.onRead p .getNumberOfEnemiesAroundUser s d with
  | error trap => exact absurd hc (MapVC.not_countSpawns_of_error hok)
  | ok r =>
    rcases MapVC.onRead_count hok with ⟨_,enemy,hs⟩ | ⟨hn,_⟩
    · refine ⟨enemy,?_,hs.identifier⟩
      have hread : (w.clients c).locals.onRead p (.map tab .getNumberOfEnemiesAroundUser) s d =
          .ok ((w.clients c).locals.ofMap tab t r) := by
        simp [Device.onRead,ht,hok,bind,Except.bind]
      simp only [spawned,hr,hread]
      exact hs.asked
    · exact absurd hc hn

theorem insert_of_internal {change : Change String (Enemy K)} (hl : l.internal = true)
    (h : enemyChange p l w = some change) : ∃ enemy, change = .insert enemy := by
  unfold enemyChange at h
  split at h
  · next enemy _ =>
    cases h
    exact ⟨enemy,rfl⟩
  · cases l with
    | event c e => contradiction
    | _ => simp [blow] at h

omit [FloorRing K] in
theorem EnemyTree.length_le {m : String → Option (Enemy K)} {store : FNode K} {ids : List String}
    (h : EnemyTree m (store.getImmediateChild "enemies"))
    (hnear : ∀ id enemy, m id = some enemy →
      p.distance ⟨enemy.latitude,enemy.longitude⟩ pos ≤ 150)
    (hcap : ShowsFew p pos store) (hn : ids.Nodup)
    (hids : ∀ id ∈ ids, ∃ enemy, m id = some enemy) : ids.length ≤ 20 := by
  obtain ⟨found,hok,_,hmem⟩ := h.findEnemiesAroundUser p pos ""
  have hsub : ids ⊆ found.map Enemy.identifier := by
    intro id hid
    obtain ⟨enemy,he⟩ := hids id hid
    obtain ⟨rfl,_⟩ := h.stored id enemy he
    exact List.mem_map_of_mem ((hmem enemy).mpr ⟨he,hnear _ enemy he⟩)
  have hle := (hn.subperm hsub).length_le
  have hfew := hcap "" found (by rw [PathTree.getChild_singleton]; exact hok)
  rw [List.length_map] at hle
  omega

theorem roomLeft_of_capCovers (h : AtOnePlace p pos ls w₀) (hreach : ∀ l ∈ ls, InReach p pos l)
    (hcap : CapCovers p pos ls w₀) : Along (GFLGO.step p) (RoomLeft p) ls w₀ := by
  refine along_of_forall_prefix (GFLGO.step p) (fun as l u hp hu => ?_)
  cases l with
  | deliver c i d =>
    intro tab s t hr ht hc
    by_contra hfull
    -- the next time nothing is under way the new enemy is stored with the others
    obtain ⟨w,hw,hq⟩ := h.finished
    have hordered := h.ordered
    have hnear := spawnsNear_of_run h hreach ((List.prefix_append as _).trans hp) hu
    obtain ⟨bs,rfl⟩ := hp
    rw [List.append_assoc] at hw hordered
    obtain ⟨u₀,hu₀,hrest⟩ := (run_append_eq_some (GFLGO.step p)).mp hw
    rw [hu,Option.some.injEq] at hu₀
    subst hu₀
    obtain ⟨u',hs,hrest⟩ := (run_cons_eq_some (GFLGO.step p)).mp hrest
    have hrestordered := ((along_append (GFLGO.step p) hu).mp hordered).2.2 u' hs
    obtain ⟨cs,v,⟨ds,rfl⟩,hinternal,hv,hvq⟩ := exists_quiet_prefix hrestordered hrest hq
    have hv' : run (GFLGO.step p) (as ++ .deliver c i d :: cs) w₀ = some v :=
      (run_append_eq_some (GFLGO.step p)).mpr ⟨u,hu,
        (run_cons_eq_some (GFLGO.step p)).mpr ⟨u',hs,hv⟩⟩
    have hpart : as ++ .deliver c i d :: cs <+: as ++ [.deliver c i d] ++ (cs ++ ds) :=
      ⟨ds,by simp⟩
    obtain ⟨enemy,hspawned,hid⟩ := spawned_of_counts hr ht hc
    have hhistory : enemyHistory p (as ++ .deliver c i d :: cs) w₀ =
        enemyHistory p as w₀ ++ [.insert enemy] ++ enemyHistory p cs u' := by
      rw [enemyHistory,collect_append (GFLGO.step p) hu]
      simp [enemyHistory,collect,hs,enemyChange_eq_insert hspawned]
    have hinserts : ∀ change ∈ enemyHistory p cs u', ∃ enemy, change = .insert enemy := by
      intro change hchange
      obtain ⟨l,hl,x,hx⟩ := mem_collect (GFLGO.step p) hchange
      exact insert_of_internal (hinternal l hl) hx
    obtain ⟨c₀,hsettling⟩ := hnear.settling
    have htree := hsettling.tree_of_count hr
    have hafter := spawnsNear_of_run h hreach hpart hv'
    rw [hhistory] at hafter
    have hkeys : (enemy.identifier :: (enemyKeys u.store).erase enemy.identifier).Nodup :=
      List.nodup_cons.mpr ⟨htree.keys.not_mem_erase,htree.keys.erase _⟩
    obtain ⟨c₁,hsettling⟩ := hafter.settling
    have hle := (hsettling.tree_of_quiet hvq).length_le
      (fun _ e he => hafter.near e (mem_inserted_of_after _ he)) (hcap _ _ hpart hv' hvq) hkeys
      (fun id hmem => ?_)
    · rw [List.length_cons,hid] at hle
      omega
    · refine exists_after_of_inserts Enemy.identifier hinserts ?_
      rw [after_insert,Function.update_apply]
      split
      · exact ⟨enemy,rfl⟩
      · next hne =>
        have hold := (List.mem_cons.mp hmem).resolve_left hne
        exact (htree.mem_iff id).mp (List.mem_of_mem_erase hold)
  | event c e => trivial
  | snapshot c i => trivial
  | apply c => trivial

end

end GFLGO
