import Mathlib.Data.List.Dedup
import Mathlib.Data.List.Perm.Subperm
import GFLGO.Removal
import GFLGO.Standing
import GFLGO.EnemyStore

/-!
The spawn timers of clients that stand at one position. A count sees what is
stored, not what earlier counts have let through and is still on its way.
-/

set_option autoImplicit false

namespace GFLGO

open Runs Async

section
variable {K : Type} [Field K] [LinearOrder K]

/-- At no time more than twenty enemies are stored within 100 m of the position. -/
structure FewNear (p : Platform K) (pos : Coordinate K) (store : FNode K) : Prop where
  few : (nearChildren p 100 (some pos) (store.getChild ["enemies"]).children).length ≤ 20

inductive Axis where
  | latitude
  | longitude

def Axis.field : Axis → String
  | .latitude => "latitude"
  | .longitude => "longitude"

def Axis.of (c : Coordinate K) : Axis → K
  | .latitude => c.latitude
  | .longitude => c.longitude

/-- A value that the enemy's coordinate has, or gets when everything under way and
the new enemy are stored. -/
inductive Upcoming (w : World K) (new : Option (String × Coordinate K)) (e : String) (a : Axis)
    (x : K) : Prop
  | stored (hx : asDouble .getNumberOfEnemiesAroundUser a.field
      (w.store.getChild ["enemies",e]) = .ok x)
  | written (c : Nat) (hx : setValue ["enemies",e,a.field] (.double x) ∈ (w.clients c).writes)
  | asked (c : Nat) {rd : Pending (Read K) (FNode K)} {enemy : Enemy K}
      (hrd : rd ∈ (w.clients c).reads) (henemy : rd.read.enemy = some enemy)
      (hid : enemy.identifier = e) (hx : a.of ⟨enemy.latitude,enemy.longitude⟩ = x)
  | new {c : Coordinate K} (hnew : new = some (e,c)) (hx : a.of c = x)

/-- The enemy is within 100 m of the position, or may come to be. -/
structure MayBeNear (p : Platform K) (pos : Coordinate K) (w : World K)
    (new : Option (String × Coordinate K)) (e : String) : Prop where
  near : ∃ latitude longitude, Upcoming w new e .latitude latitude ∧
    Upcoming w new e .longitude longitude ∧ p.distance { latitude, longitude } pos ≤ 100

structure AtMostTwenty (P : String → Prop) : Prop where
  length_le : ∀ ids : List String, ids.Nodup → (∀ id ∈ ids, P id) → ids.length ≤ 20

variable [FloorRing K]

def CapKept (p : Platform K) (pos : Coordinate K) (ls : List (Label K)) (store : FNode K) : Prop :=
  ∀ as w, as <+: ls → run (step p) as (World.start store) = some w → FewNear p pos w.store

/-- A count that ends in a spawn leaves room for the new enemy beside those that
are near and those that are still on their way. -/
def RoomForAll (p : Platform K) (pos : Coordinate K) : Label K → World K → Prop
  | .deliver c i d, w => ∀ tab s t location,
    (w.clients c).reads[i]? = some ⟨.map tab .getNumberOfEnemiesAroundUser,some s⟩ →
    (w.clients c).locals.tabBarVCs[tab]? = some t → MapVC.CountSpawns p s d t.map →
    t.map.userLocation = some location →
    AtMostTwenty (MayBeNear p pos w (some (MapVC.getUniqueEnemyID p d t.map.user,
      MapVC.getRandomCoordinateAroundUser p d location)))
  | _, _ => True

variable {p : Platform K} {pos : Coordinate K} {new : Option (String × Coordinate K)}
  {w w' : World K} {l : Label K} {e : String}

theorem AtMostTwenty.mono {P Q : String → Prop} (h : AtMostTwenty Q) (hpq : ∀ id, P id → Q id) :
    AtMostTwenty P where
  length_le := fun ids hn hids => h.length_le ids hn (fun id hid => hpq id (hids id hid))

section
omit [LinearOrder K] [FloorRing K]

variable {reader : Reader} {x : Write K} {store : FNode K} {id f g : String} {v y : K}

theorem asDouble_of_same (hsame : (applyWrite x store).getChild ["enemies",e,g] =
    store.getChild ["enemies",e,g])
    (h : asDouble reader g ((applyWrite x store).getChild ["enemies",e]) = .ok v) :
    asDouble reader g (store.getChild ["enemies",e]) = .ok v := by
  have hchild : (store.getChild ["enemies",e]).getImmediateChild g =
      ((applyWrite x store).getChild ["enemies",e]).getImmediateChild g := hsame.symm
  rw [asDouble,hchild]
  exact h

theorem asDouble_applyWrite_double (h : asDouble reader g
    ((applyWrite (setValue ["enemies",id,f] (.double y)) store).getChild ["enemies",e]) = .ok v) :
    asDouble reader g (store.getChild ["enemies",e]) = .ok v ∨
      setValue ["enemies",id,f] (.double y) = setValue ["enemies",e,g] (.double v) := by
  by_cases hid : e = id
  · subst hid
    by_cases hf : g = f
    · subst hf
      have hself := getChild_applyWrite_self store ["enemies",e,g] (.leaf (.double y))
      have hread := asDouble_of_leaf reader
        (show ((applyWrite (setValue ["enemies",e,g] (.double y)) store).getChild
          ["enemies",e]).getImmediateChild g = _ from hself)
      rw [hread,Except.ok.injEq] at h
      exact Or.inr (h ▸ rfl)
    · exact Or.inl (asDouble_of_same (getChild_applyWrite_field store "enemies" e e _ hf) h)
  · exact Or.inl (asDouble_of_same (getChild_applyWrite_key store "enemies" [g] [f] _ hid) h)

theorem asDouble_applyWrite_record {node : FNode K} (hnode : node.getImmediateChild g = .empty)
    (h : asDouble reader g
      ((applyWrite ⟨["enemies",id],node⟩ store).getChild ["enemies",e]) = .ok v) :
    asDouble reader g (store.getChild ["enemies",e]) = .ok v := by
  by_cases hid : e = id
  · subst hid
    rw [getChild_applyWrite_self,asDouble,hnode] at h
    contradiction
  · exact asDouble_of_same (getChild_applyWrite_key store "enemies" [g] [] node hid) h

end

omit [LinearOrder K] [FloorRing K] in
theorem mem_enemyKeys_of_asDouble {reader : Reader} {field : String} {store : FNode K} {x : K}
    (h : asDouble reader field (store.getChild ["enemies",e]) = .ok x) : e ∈ enemyKeys store := by
  by_contra hno
  have hempty : store.getChild ["enemies",e] = .empty := PathTree.getImmediateChild_of_not_mem hno
  rw [hempty] at h
  contradiction

def Write.Issued (x : Write K) : Prop :=
  (∃ rest, x.path = "users" :: rest) ∨ (∃ id, x = removeValue ["enemies",id]) ∨
    ∃ enemy, x ∈ MapVC.enemyWrites enemy

omit [LinearOrder K] [FloorRing K] in
theorem asDouble_applyWrite {x : Write K} {store : FNode K} {a : Axis} {v : K} (hx : x.Issued)
    (h : asDouble .getNumberOfEnemiesAroundUser a.field
      ((applyWrite x store).getChild ["enemies",e]) = .ok v) :
    asDouble .getNumberOfEnemiesAroundUser a.field (store.getChild ["enemies",e]) = .ok v ∨
      x = setValue ["enemies",e,a.field] (.double v) := by
  rcases hx with ⟨rest,hp⟩ | ⟨id,rfl⟩ | ⟨enemy,hx⟩
  · obtain ⟨path,node⟩ := x
    obtain rfl : path = "users" :: rest := hp
    exact Or.inl (asDouble_of_same (getChild_applyWrite_coll store _ rest node (by decide)) h)
  · exact Or.inl (asDouble_applyWrite_record rfl h)
  · simp only [MapVC.enemyWrites,List.mem_cons,List.not_mem_nil,or_false] at hx
    rcases hx with rfl | rfl | rfl | rfl | rfl | rfl
    · exact Or.inl (asDouble_applyWrite_record rfl h)
    · have hname : a.field ≠ "name" := by cases a <;> simp [Axis.field]
      cases hn : enemy.name with
      | none =>
        rw [hn] at h
        exact Or.inl (asDouble_of_same
          (getChild_applyWrite_field store "enemies" e enemy.identifier _ hname) h)
      | some name =>
        rw [hn] at h
        exact Or.inl (asDouble_of_same
          (getChild_applyWrite_field store "enemies" e enemy.identifier _ hname) h)
    all_goals exact asDouble_applyWrite_double h

omit [Field K] [LinearOrder K] [FloorRing K] in
theorem coordinate_of_enemyWrites {enemy : Enemy K} {a : Axis} {x : K}
    (h : setValue ["enemies",e,a.field] (.double x) ∈ MapVC.enemyWrites enemy) :
    enemy.identifier = e ∧ a.of ⟨enemy.latitude,enemy.longitude⟩ = x := by
  have hname : setValue ["enemies",e,a.field] (.double x) ≠
      setOptional ["enemies",enemy.identifier,"name"] (enemy.name.map .string) := by
    cases enemy.name <;> simp [setValue,setOptional,removeValue,PathTree.empty]
  cases a <;> simp [MapVC.enemyWrites,hname] at h <;> simp_all [setValue,Axis.field,Axis.of]

theorem Upcoming.step {a : Axis} {x : K} (hissued : ∀ c, ∀ y ∈ (w.clients c).writes, y.Issued)
    (hs : GFLGO.step p l w = some w') (h : Upcoming w' none e a x) :
    Upcoming w ((spawned p l w).map
      (fun enemy => (enemy.identifier,⟨enemy.latitude,enemy.longitude⟩))) e a x := by
  cases h with
  | stored hx =>
    rcases step_store hs with hsame | ⟨c,y,ys,_,hy,hstore⟩
    · exact .stored (hsame ▸ hx)
    · rw [hstore] at hx
      have hmem : y ∈ (w.clients c).writes := by
        rw [hy]
        exact List.mem_cons_self
      rcases asDouble_applyWrite (hissued c y hmem) hx with hold | rfl
      · exact .stored hold
      · exact .written c hmem
  | written c hx =>
    rcases placed_of_step hs hx with hold | ⟨rest,hp⟩ | ⟨id,_,hr⟩ | ⟨rd,hrd,enemy,he,hmem⟩
    · exact .written c hold
    · simp [setValue] at hp
    · simp [setValue,removeValue] at hr
    · obtain ⟨hid,hcoord⟩ := coordinate_of_enemyWrites hmem
      exact .asked c hrd he hid hcoord
  | asked c hrd he hid hx =>
    rcases asked_of_step hs hrd he with ⟨rd',hrd',he'⟩ | hnew
    · exact .asked c hrd' he' hid hx
    · subst hid
      exact .new (by rw [hnew]; rfl) hx
  | new hnew => contradiction

/-- What is under way at the position, with the enemies that are stored. -/
structure RoomReserved (p : Platform K) (pos : Coordinate K) (w : World K) : Prop where
  issued : ∀ c, ∀ x ∈ (w.clients c).writes, x.Issued
  keys : (enemyKeys w.store).Nodup
  standing : ∀ c, Standing pos (w.clients c).locals
  room : AtMostTwenty (MayBeNear p pos w none)

theorem MayBeNear.step (hissued : ∀ c, ∀ y ∈ (w.clients c).writes, y.Issued)
    (hs : GFLGO.step p l w = some w') (h : MayBeNear p pos w' none e) :
    MayBeNear p pos w ((spawned p l w).map
      (fun enemy => (enemy.identifier,⟨enemy.latitude,enemy.longitude⟩))) e := by
  obtain ⟨latitude,longitude,hlat,hlong,hnear⟩ := h.near
  exact ⟨latitude,longitude,hlat.step hissued hs,hlong.step hissued hs,hnear⟩

theorem issued_step (h : ∀ c, ∀ x ∈ (w.clients c).writes, x.Issued)
    (hs : step p l w = some w') : ∀ c, ∀ x ∈ (w'.clients c).writes, x.Issued := by
  intro c x hx
  rcases placed_of_step hs hx with hold | hp | ⟨id,_,hr⟩ | ⟨rd,_,enemy,_,hmem⟩
  · exact h c x hold
  · exact Or.inl hp
  · exact Or.inr (Or.inl ⟨id,hr⟩)
  · exact Or.inr (Or.inr ⟨enemy,hmem⟩)

omit [Field K] [LinearOrder K] [FloorRing K] in
theorem Write.Issued.placed {x : Write K} (h : x.Issued) : x.Placed := by
  rcases h with ⟨rest,hp⟩ | ⟨id,rfl⟩ | ⟨enemy,hx⟩
  · exact .users hp
  · exact .enemies rfl
  · exact enemyWrites_placed hx

theorem nodup_enemyKeys_step (h : (enemyKeys w.store).Nodup)
    (hissued : ∀ c, ∀ x ∈ (w.clients c).writes, x.Issued)
    (hs : step p l w = some w') : (enemyKeys w'.store).Nodup := by
  rcases step_store hs with hsame | ⟨c,x,xs,_,hx,hstore⟩
  · rwa [hsame]
  · rw [hstore]
    exact nodup_enemyKeys_applyWrite
      (hissued c x (by rw [hx]; exact List.mem_cons_self)).placed h

theorem RoomReserved.step (h : RoomReserved p pos w) (hl : StandsAt pos l)
    (hroom : RoomForAll p pos l w) (hs : GFLGO.step p l w = some w') : RoomReserved p pos w' := by
  refine ⟨issued_step h.issued hs,nodup_enemyKeys_step h.keys h.issued hs,
    standing_step h.standing hl hs,?_⟩
  have hstep := fun e (he : MayBeNear p pos w' none e) => he.step h.issued hs
  cases hnew : spawned p l w with
  | none =>
    rw [hnew] at hstep
    exact h.room.mono hstep
  | some enemy =>
    rw [hnew] at hstep
    cases countStep_of_spawned hl hnew with
    | deliver hr ht hc hspawn =>
      obtain ⟨location,hlocation,hplaced⟩ := hspawn.placed
      refine (hroom _ _ _ location hr ht hc hlocation).mono (fun e he => ?_)
      rw [← hspawn.identifier,← hplaced]
      exact hstep e he

omit [FloorRing K] in
theorem mayBeNear_of_stored (hn : (enemyKeys w.store).Nodup) {child : String × FNode K}
    (hc : child ∈ nearChildren p 100 (some pos) (w.store.getChild ["enemies"]).children) :
    MayBeNear p pos w none child.1 := by
  obtain ⟨hmem,hnear⟩ := List.mem_filter.mp hc
  have hchild : w.store.getChild ["enemies",child.1] = child.2 :=
    PathTree.getImmediateChild_of_mem hn hmem
  obtain ⟨latitude,longitude,hlat,hlong,hd⟩ := of_isNear hnear
  exact ⟨latitude,longitude,.stored (by rw [hchild]; exact asDouble_eq_ok_congr hlat),
    .stored (by rw [hchild]; exact asDouble_eq_ok_congr hlong),hd⟩

omit [FloorRing K] in
theorem RoomReserved.fewNear (h : RoomReserved p pos w) : FewNear p pos w.store := by
  refine ⟨?_⟩
  have hle := h.room.length_le
    ((nearChildren p 100 (some pos) (w.store.getChild ["enemies"]).children).map Prod.fst)
    (nodup_nearChildren h.keys) (fun id hid => ?_)
  · rwa [List.length_map] at hle
  · obtain ⟨child,hc,rfl⟩ := List.mem_map.mp hid
    exact mayBeNear_of_stored h.keys hc

omit [LinearOrder K] [FloorRing K] in
theorem Upcoming.of_start {store : FNode K} {a : Axis} {x : K}
    (h : Upcoming (World.start store) none e a x) : asDouble .getNumberOfEnemiesAroundUser a.field
      (store.getChild ["enemies",e]) = .ok x := by
  cases h with
  | stored hx => exact hx
  | written c hx => contradiction
  | asked c hrd => contradiction
  | new hnew => contradiction

omit [FloorRing K] in
theorem stored_of_mayBeNear {store : FNode K} (hk : (enemyKeys store).Nodup)
    (h : MayBeNear p pos (World.start store) none e) :
    e ∈ (nearChildren p 100 (some pos) (store.getChild ["enemies"]).children).map Prod.fst := by
  obtain ⟨latitude,longitude,hlat,hlong,hd⟩ := h.near
  have hlat' := hlat.of_start
  have hlong' := hlong.of_start
  have hmem : (e,store.getChild ["enemies",e]) ∈ (store.getChild ["enemies"]).children := by
    obtain ⟨child,hc,rfl⟩ := List.mem_map.mp (mem_enemyKeys_of_asDouble hlat')
    have hchild : store.getChild ["enemies",child.1] = child.2 :=
      PathTree.getImmediateChild_of_mem hk hc
    rwa [hchild]
  refine List.mem_map.mpr ⟨_,List.mem_filter.mpr ⟨hmem,?_⟩,rfl⟩
  rw [isNear_of_ok p 100 pos hlat' hlong']
  simpa using hd

omit [FloorRing K] in
theorem roomReserved_start {store : FNode K} (hk : (enemyKeys store).Nodup)
    (h : FewNear p pos store) : RoomReserved p pos (World.start store) where
  issued := fun c x hx => by contradiction
  keys := hk
  standing := fun c t ht => by contradiction
  room := by
    refine ⟨fun ids hn hids => ?_⟩
    have hsub : ids ⊆ (nearChildren p 100 (some pos)
        (store.getChild ["enemies"]).children).map Prod.fst :=
      fun id hid => stored_of_mayBeNear hk (hids id hid)
    have hle := (hn.subperm hsub).length_le
    rw [List.length_map] at hle
    exact hle.trans h.few

/-- With room for all at every spawn the cap is kept. -/
theorem capKept_of_roomForAll (p : Platform K) (pos : Coordinate K) (store : FNode K)
    (ls : List (Label K)) (hk : (enemyKeys store).Nodup) (hfew : FewNear p pos store)
    (hl : ∀ l ∈ ls, StandsAt pos l)
    (hroom : Along (step p) (RoomForAll p pos) ls (World.start store)) :
    CapKept p pos ls store := by
  rintro as w ⟨bs,rfl⟩ hr
  have halong := ((along_append (GFLGO.step p) hr).mp
    ((along_of_forall_mem (GFLGO.step p) hl _).and (GFLGO.step p) hroom)).1
  exact (run_invariant (I := RoomReserved p pos) (GFLGO.step p)
    (fun l u u' hi hc hs => hi.step hc.1 hc.2 hs) (roomReserved_start hk hfew) halong hr).fewNear

end

/-- Nineteen enemies where the player stands. -/
def crowdedStore : FNode ℚ :=
  ((List.range 19).flatMap (fun i => MapVC.enemyWrites
    (Enemy.init 30 ⟨0,0⟩ ("u1e" ++ stringOfInt i) 2 "Aegis"))).foldl
      (fun store x => applyWrite x store) annStore

def spawnDraw (time : ℚ) : Draw ℚ := { sampleDraw with random2 := 1, time }

def twoTicks : List (Label ℚ) :=
  login 0 sampleDraw "ann" "pw" ++ locate 0 sampleDraw 0 ⟨0,0⟩ ++
    [.event 0 (.map 0 .timerTick),.event 0 (.map 0 .timerTick),.snapshot 0 0,.snapshot 0 1,
     .deliver 0 0 (spawnDraw 1500000000),.deliver 0 0 (spawnDraw 1500000001)] ++
    answer 0 sampleDraw ++ answer 0 sampleDraw ++ applyAll 0 12

/-- Both counts see nineteen, and then there are twenty-one. -/
theorem not_capKept : ¬ ∀ (pos : Coordinate ℚ) (store : FNode ℚ) (ls : List (Label ℚ)),
    (enemyKeys store).Nodup → FewNear planePlatform pos store → (∀ l ∈ ls, StandsAt pos l) →
      CapKept planePlatform pos ls store := by
  intro h
  have hrun : (run (step planePlatform) twoTicks (World.start crowdedStore)).map (fun w =>
      (nearChildren planePlatform 100 (some ⟨0,0⟩)
        (w.store.getChild ["enemies"]).children).length) = some 21 := by
    decide +kernel
  obtain ⟨w,hw,he⟩ := Option.map_eq_some_iff.mp hrun
  have hkept := h ⟨0,0⟩ crowdedStore twoTicks (by decide +kernel) ⟨by decide +kernel⟩
    (by decide +kernel) twoTicks w (List.prefix_refl _) hw
  have hle := hkept.few
  omega

/-- The keys of the enemies that are stored, and of those that some clients have on their way. -/
def keysAmong {K : Type} (A : List Nat) (w : World K) : List String :=
  enemyKeys w.store ++ A.flatMap (fun c =>
    (w.clients c).writes.filterMap (fun x => x.path[1]?) ++
      (w.clients c).reads.filterMap (fun rd => rd.read.enemy.map Enemy.identifier))

def Read.countsFrom {K : Type} : Read K → Option Nat
  | .map tab .getNumberOfEnemiesAroundUser => some tab
  | _ => none

section
variable {K : Type} [Field K] [LinearOrder K] {p : Platform K} {A : List Nat} {store : FNode K}
  {pos : Coordinate K} {l : Label K} {w : World K} {e : String}
  {new : Option (String × Coordinate K)}

/-- The condition when all others are as they were started. Wherever the enemies
are, the keys leave room for one more. -/
def RoomForAllAmong (p : Platform K) (A : List Nat) : Label K → World K → Prop
  | .deliver c i d, w => ∀ rd ∈ (w.clients c).reads[i]?, ∀ tab ∈ rd.read.countsFrom,
    ∀ s ∈ rd.snapshot, ∀ t ∈ (w.clients c).locals.tabBarVCs[tab]?,
      MapVC.CountSpawns p s d t.map → (keysAmong A w).dedup.length < 20
  | _, _ => True

instance (p : Platform K) (A : List Nat) (l : Label K) (w : World K) :
    Decidable (RoomForAllAmong p A l w) :=
  match l with
  | .deliver c i _ => inferInstanceAs (Decidable (∀ rd ∈ (w.clients c).reads[i]?, _))
  | .event _ _ | .snapshot _ _ | .apply _ => isTrue trivial

theorem mem_keysAmong (hw : ∀ c, c ∉ A → w.clients c = (World.start store).clients c)
    (h : MayBeNear p pos w new e) : e ∈ new.toList.map Prod.fst ++ keysAmong A w := by
  have hclient {c : Nat} (hc : e ∈ (w.clients c).writes.filterMap (fun x => x.path[1]?) ++
      (w.clients c).reads.filterMap (fun rd => rd.read.enemy.map Enemy.identifier)) :
      e ∈ keysAmong A w := by
    by_cases hA : c ∈ A
    · exact List.mem_append_right _ (List.mem_flatMap.mpr ⟨c,hA,hc⟩)
    · simp [hw c hA,World.start] at hc
  obtain ⟨latitude,_,hlat,_,_⟩ := h.near
  rw [List.mem_append]
  cases hlat with
  | stored hx => exact Or.inr (List.mem_append_left _ (mem_enemyKeys_of_asDouble hx))
  | written c hx =>
    exact Or.inr (hclient (List.mem_append_left _ (List.mem_filterMap.mpr ⟨_,hx,rfl⟩)))
  | asked c hrd henemy hid =>
    refine Or.inr (hclient (List.mem_append_right _ (List.mem_filterMap.mpr ⟨_,hrd,?_⟩)))
    rw [henemy,Option.map_some,hid]
  | new hnew => exact Or.inl (by simp [hnew])

theorem roomForAll_of_among [FloorRing K]
    (hw : ∀ c, c ∉ A → w.clients c = (World.start store).clients c)
    (h : RoomForAllAmong p A l w) : RoomForAll p pos l w := by
  cases l with
  | deliver c i d =>
    intro tab s t location hr ht hc _
    have hroom := h _ hr tab rfl s rfl t ht hc
    refine ⟨fun ids hn hids => ?_⟩
    have hsub : ids ⊆ MapVC.getUniqueEnemyID p d t.map.user :: (keysAmong A w).dedup := by
      intro id hid
      simpa [List.mem_dedup] using mem_keysAmong hw (hids id hid)
    have hle := (hn.subperm hsub).length_le
    rw [List.length_cons] at hle
    omega
  | event c e => trivial
  | snapshot c i => trivial
  | apply c => trivial

end

def eighteenStore : FNode ℚ :=
  drain ((List.range 18).flatMap (fun i => MapVC.enemyWrites
    (Enemy.init 30 ⟨0,0⟩ ("u1e" ++ stringOfInt i) 2 "Aegis"))) annBobStore

/-- Both counts see eighteen and spawn. The next one sees twenty and does not. -/
def threeTicks : List (Label ℚ) :=
  login 0 sampleDraw "ann" "pw" ++ login 1 sampleDraw "bob" "pw" ++
    locate 0 sampleDraw 0 ⟨0,0⟩ ++ locate 1 sampleDraw 0 ⟨0,0⟩ ++
    [.event 0 (.map 0 .timerTick),.event 1 (.map 0 .timerTick),.snapshot 0 0,.snapshot 1 0,
     .deliver 0 0 (spawnDraw 1500000000),.deliver 1 0 (spawnDraw 1500000000)] ++
    answer 1 sampleDraw ++ applyAll 1 3 ++ answer 0 sampleDraw ++ applyAll 0 6 ++ applyAll 1 3 ++
    .event 0 (.map 0 .timerTick) :: answer 0 (spawnDraw 1500000010)

theorem capKept_threeTicks : ∃ w,
    run (step planePlatform) threeTicks (World.start eighteenStore) = some w ∧
      (enemyKeys w.store).length = 20 ∧
      CapKept planePlatform ⟨0,0⟩ threeTicks eighteenStore := by
  have hrun : (run (step planePlatform) threeTicks (World.start eighteenStore)).map
      (fun w => (enemyKeys w.store).length) = some 20 := by
    decide +kernel
  obtain ⟨w,hw,he⟩ := Option.map_eq_some_iff.mp hrun
  have hroom : Along (step planePlatform) (RoomForAllAmong planePlatform [0,1]) threeTicks
      (World.start eighteenStore) := by
    decide +kernel
  refine ⟨w,hw,he,capKept_of_roomForAll planePlatform _ _ _ (by decide +kernel)
    ⟨by decide +kernel⟩ (by decide +kernel) ?_⟩
  exact along_of_clients (A := [0,1]) (by decide +kernel)
    (fun _ _ hu hl => roomForAll_of_among hu hl) hroom

end GFLGO
