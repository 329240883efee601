import GFLGO.Location
import GFLGO.Spawns

/-!
The annotations on the map. A refresh clears them at once and fills them again
from two callbacks; a spawn adds one by itself.
-/

set_option autoImplicit false

namespace GFLGO

open Runs Async

namespace MapVC

section
variable {K : Type}

def shownEnemies (m : MapVC K) : List String := m.enemyAnnotations.map Enemy.identifier

def shownPlayers (m : MapVC K) : List Int := m.userAnnotations.map User.userID

/-- One annotation for each enemy and each player. -/
structure ShowsOnce (m : MapVC K) : Prop where
  enemies : m.shownEnemies.Nodup
  players : m.shownPlayers.Nodup

theorem ShowsOnce.congr {m m' : MapVC K} (he : m'.enemyAnnotations = m.enemyAnnotations)
    (hp : m'.userAnnotations = m.userAnnotations) : ShowsOnce m' ↔ ShowsOnce m := by
  constructor
  · intro h
    exact ⟨by simpa [shownEnemies,he] using h.enemies,by simpa [shownPlayers,hp] using h.players⟩
  · intro h
    exact ⟨by simpa [shownEnemies,he] using h.enemies,by simpa [shownPlayers,hp] using h.players⟩

theorem ShowsOnce.of_clear {m : MapVC K} (he : m.enemyAnnotations = [])
    (hp : m.userAnnotations = []) : ShowsOnce m :=
  ⟨by simp [shownEnemies,he],by simp [shownPlayers,hp]⟩

variable [Field K]

/-- The map does not show the identifier that a spawn would make. -/
def NewSpawn (p : Platform K) (d : Draw K) (m : MapVC K) : Prop :=
  m.userLocation ≠ none → getUniqueEnemyID p d m.user ∉ m.shownEnemies

variable [LinearOrder K]

/-- No enemy that the snapshot has near the player is on the map. -/
structure NewEnemies (p : Platform K) (snapshot : FNode K) (m : MapVC K) : Prop where
  absent : (∀ child ∈ snapshot.children, EnemyFields child.2) →
    ∀ child ∈ nearChildren p 150 m.userLocation snapshot.children, child.1 ∉ m.shownEnemies

variable [FloorRing K]

/-- No other player that the snapshot has near is on the map, and no two of
them have keys that read as the same number. -/
structure NewPlayers (p : Platform K) (snapshot : FNode K) (m : MapVC K) : Prop where
  absent : (∀ child ∈ otherChildren m.user snapshot.children, PlayerFields child.2) →
    (∀ child ∈ nearChildren p 20 m.userLocation (otherChildren m.user snapshot.children),
      intOfString child.1 ≠ none) →
    ((nearChildren p 20 m.userLocation (otherChildren m.user snapshot.children)).map
      (fun child => intOfString child.1)).Nodup ∧
    ∀ child ∈ nearChildren p 20 m.userLocation (otherChildren m.user snapshot.children),
      ∀ userID, intOfString child.1 = some userID → userID ∉ m.shownPlayers

/-- Whatever the input puts on the map is not there yet. -/
def AddsNew (p : Platform K) : MapInput K → MapProcess K → Prop
  | .event (.addEnemyAction d), s => s.trap = none → NewSpawn p d s.locals
  | .event _, _ => True
  | .deliver i snapshot d, s =>
    match s.reads[i]? with
    | some .findEnemiesAroundUser => NewEnemies p snapshot s.locals
    | some .findPlayersAroundUser => NewPlayers p snapshot s.locals
    | some .getNumberOfEnemiesAroundUser =>
      CountSpawns p snapshot d s.locals → NewSpawn p d s.locals
    | _ => True

instance (p : Platform K) (d : Draw K) (m : MapVC K) : Decidable (NewSpawn p d m) :=
  decidable_of_iff (m.userLocation.isSome = true → getUniqueEnemyID p d m.user ∉ m.shownEnemies)
    (by rw [NewSpawn,Option.isSome_iff_ne_none])

def UniqueKeys : MapInput K → Prop
  | .deliver _ snapshot _ => snapshot.childKeys.Nodup
  | .event _ => True

instance : DecidablePred (UniqueKeys : MapInput K → Prop)
  | .deliver _ snapshot _ => inferInstanceAs (Decidable snapshot.childKeys.Nodup)
  | .event _ => isTrue trivial

/-- In every state that the inputs lead to, the map shows each thing once. -/
def MapShowsOnce (p : Platform K) (user : User K) (inps : List (MapInput K)) : Prop :=
  ∀ as s, as <+: inps → run (step p) as (viewDidLoad user) = some s → ShowsOnce s.locals

section
variable {p : Platform K} {m : MapVC K}

omit [LinearOrder K] [FloorRing K] in
theorem Spawn.showsOnce_iff {d : Draw K} {enemy : Enemy K} {r : MapReaction K}
    (h : Spawn p d m enemy r) (hm : ShowsOnce m) : ShowsOnce r.locals ↔ NewSpawn p d m := by
  have hshown : r.locals.shownEnemies = m.shownEnemies ++ [getUniqueEnemyID p d m.user] := by
    simp [shownEnemies,h.locals,h.identifier]
  have hplayers : r.locals.shownPlayers = m.shownPlayers := by simp [shownPlayers,h.locals]
  constructor
  · intro hr _ hmem
    have hnodup := hr.enemies
    rw [hshown,List.nodup_append] at hnodup
    exact hnodup.2.2 _ hmem _ (by simp) rfl
  · intro hnew
    refine ⟨?_,hplayers ▸ hm.players⟩
    rw [hshown,List.nodup_append]
    refine ⟨hm.enemies,by simp,fun a ha b hb hab => hnew h.located ?_⟩
    rw [← List.mem_singleton.mp hb,← hab]
    exact ha

omit [FloorRing K] [LinearOrder K] [Field K] in
theorem shownEnemies_append (hn : m.shownEnemies.Nodup) (enemies : List (Enemy K)) :
    (({ m with enemyAnnotations := m.enemyAnnotations ++ enemies } : MapVC K).shownEnemies).Nodup ↔
      (enemies.map Enemy.identifier).Nodup ∧
        ∀ e ∈ enemies.map Enemy.identifier, e ∉ m.shownEnemies := by
  simp only [shownEnemies,List.map_append] at hn ⊢
  rw [List.nodup_append']
  exact ⟨fun h => ⟨h.2.1,fun e he hm => h.2.2 hm he⟩,
    fun h => ⟨hn,h.1,fun e hm he => h.2 e he hm⟩⟩

omit [FloorRing K] [LinearOrder K] [Field K] in
theorem shownPlayers_append (hn : m.shownPlayers.Nodup) (players : List (User K)) :
    (({ m with userAnnotations := m.userAnnotations ++ players } : MapVC K).shownPlayers).Nodup ↔
      (players.map User.userID).Nodup ∧
        ∀ id ∈ players.map User.userID, id ∉ m.shownPlayers := by
  simp only [shownPlayers,List.map_append] at hn ⊢
  rw [List.nodup_append']
  exact ⟨fun h => ⟨h.2.1,fun e he hm => h.2.2 hm he⟩,
    fun h => ⟨hn,h.1,fun e hm he => h.2 e he hm⟩⟩

omit [FloorRing K] in
theorem newEnemies_iff (randomName : String) {snapshot : FNode K} :
    NewEnemies p snapshot m ↔ ∀ enemies ∈
      (findEnemiesAroundUser p m.userLocation randomName snapshot.children).toOption,
        ∀ e ∈ enemies.map Enemy.identifier, e ∉ m.shownEnemies := by
  cases hr : findEnemiesAroundUser p m.userLocation randomName snapshot.children with
  | ok enemies =>
    obtain ⟨hfields,hdecodes⟩ := findEnemiesAroundUser_eq_ok hr
    simp only [Except.toOption,Option.mem_some_iff,forall_eq',identifiers_of_decodes hdecodes]
    rw [List.forall_mem_map]
    exact ⟨fun hnew => hnew.absent hfields,fun h => ⟨fun _ => h⟩⟩
  | error t =>
    refine iff_of_true ?_ (by simp [Except.toOption])
    rcases findEnemiesAroundUser_eq_error hr with ⟨_,_,child,hc,hn⟩ | ⟨_,hn⟩
    · exact ⟨fun hf => absurd (hf child hc) hn⟩
    · exact ⟨fun _ child hc => by simp [nearChildren,hn] at hc⟩

theorem enemies_showsOnce_iff {snapshot : FNode K} {d : Draw K} {r : MapReaction K}
    (h : m.onRead p .findEnemiesAroundUser snapshot d = .ok r) (hk : snapshot.childKeys.Nodup)
    (hm : ShowsOnce m) : ShowsOnce r.locals ↔ NewEnemies p snapshot m := by
  obtain ⟨enemies,he,h⟩ := bind_eq_ok.mp h
  cases h
  have hshown := shownEnemies_append hm.enemies enemies
  have hnodup : (enemies.map Enemy.identifier).Nodup := by
    rw [identifiers_of_decodes (findEnemiesAroundUser_eq_ok he).2]
    exact nodup_nearChildren hk
  rw [newEnemies_iff d.randomName,he]
  simp only [Except.toOption,Option.mem_some_iff,forall_eq']
  exact ⟨fun hs => (hshown.mp hs.enemies).2,fun hnew => ⟨hshown.mpr ⟨hnodup,hnew⟩,hm.players⟩⟩

theorem newEnemies_of_error {snapshot : FNode K} {d : Draw K} {t : Trap}
    (h : m.onRead p .findEnemiesAroundUser snapshot d = .error t) : NewEnemies p snapshot m := by
  rcases bind_eq_error.mp h with h | ⟨_,_,h⟩
  · rw [newEnemies_iff d.randomName,h]
    simp [Except.toOption]
  · contradiction

omit [FloorRing K] [LinearOrder K] in
theorem userIDs_of_decodes {cs : List (String × FNode K)} {users : List (User K)}
    (h : List.Forall₂ DecodesPlayer cs users) :
    cs.map (fun child => intOfString child.1) = users.map (fun u => some u.userID) := by
  induction h with
  | nil => rfl
  | cons hd _ ih => rw [List.map_cons,List.map_cons,ih,hd.userID]

theorem newPlayers_iff {snapshot : FNode K} :
    NewPlayers p snapshot m ↔ ∀ players ∈
      (findPlayersAroundUser p m.user m.userLocation snapshot.children).toOption,
        (players.map User.userID).Nodup ∧
          ∀ userID ∈ players.map User.userID, userID ∉ m.shownPlayers := by
  cases hr : findPlayersAroundUser p m.user m.userLocation snapshot.children with
  | ok players =>
    have hids := userIDs_of_decodes (findPlayersAroundUser_decodes hr)
    simp only [Except.toOption,Option.mem_some_iff,forall_eq']
    have hnodup : ((nearChildren p 20 m.userLocation
        (otherChildren m.user snapshot.children)).map (fun child => intOfString child.1)).Nodup ↔
        (players.map User.userID).Nodup := by
      rw [hids,← List.nodup_map_iff (Option.some_injective Int),List.map_map]
      rfl
    have hmem (userID : Int) : userID ∈ players.map User.userID ↔
        some userID ∈ (nearChildren p 20 m.userLocation
          (otherChildren m.user snapshot.children)).map (fun child => intOfString child.1) := by
      simp [hids]
    constructor
    · intro hnew
      have hfields : ∀ child ∈ otherChildren m.user snapshot.children, PlayerFields child.2 := by
        intro child hc
        obtain ⟨hin,hself⟩ := List.mem_filter.mp hc
        exact findPlayersAroundUser_eq_ok hr child hin (by simpa using hself)
      have hkeys : ∀ child ∈ nearChildren p 20 m.userLocation
          (otherChildren m.user snapshot.children), intOfString child.1 ≠ none := by
        intro child hc hn
        have hin := List.mem_map_of_mem (f := fun child => intOfString child.1) hc
        simp [hids,hn] at hin
      obtain ⟨hn,habsent⟩ := hnew.absent hfields hkeys
      refine ⟨hnodup.mp hn,fun userID hu => ?_⟩
      obtain ⟨child,hc,hid⟩ := List.mem_map.mp ((hmem userID).mp hu)
      exact habsent child hc userID hid
    · rintro ⟨hn,habsent⟩
      refine ⟨fun _ _ => ⟨hnodup.mpr hn,fun child hc userID hid => ?_⟩⟩
      exact habsent userID ((hmem userID).mpr (hid ▸ List.mem_map_of_mem hc))
  | error t =>
    refine iff_of_true ⟨fun hf hk => ?_⟩ (by simp [Except.toOption])
    cases hu : m.userLocation with
    | none => simp [nearChildren]
    | some c =>
      rw [hu] at hr hk
      obtain ⟨users,hok⟩ := findPlayersAroundUser_of_fields hf hk
      rw [hok] at hr
      contradiction

theorem players_showsOnce_iff {snapshot : FNode K} {d : Draw K} {r : MapReaction K}
    (h : m.onRead p .findPlayersAroundUser snapshot d = .ok r) (hm : ShowsOnce m) :
    ShowsOnce r.locals ↔ NewPlayers p snapshot m := by
  obtain ⟨players,hp,h⟩ := bind_eq_ok.mp h
  cases h
  have hshown := shownPlayers_append hm.players players
  rw [newPlayers_iff,hp]
  simp only [Except.toOption,Option.mem_some_iff,forall_eq']
  exact ⟨fun hs => hshown.mp hs.players,fun hnew => ⟨hm.enemies,hshown.mpr hnew⟩⟩

theorem newPlayers_of_error {snapshot : FNode K} {d : Draw K} {t : Trap}
    (h : m.onRead p .findPlayersAroundUser snapshot d = .error t) : NewPlayers p snapshot m := by
  rcases bind_eq_error.mp h with h | ⟨_,_,h⟩
  · rw [newPlayers_iff,h]
    simp [Except.toOption]
  · contradiction

instance (snapshot : FNode K) : Decidable (NewEnemies p snapshot m) :=
  decidable_of_iff _ (newEnemies_iff "").symm

instance (snapshot : FNode K) : Decidable (NewPlayers p snapshot m) :=
  decidable_of_iff _ newPlayers_iff.symm

instance (inp : MapInput K) (s : MapProcess K) : Decidable (AddsNew p inp s) := by
  unfold AddsNew
  split
  · exact decidable_of_iff (s.trap.isNone = true → _) (by rw [Option.isNone_iff_eq_none])
  · infer_instance
  · split <;> infer_instance

/-- One step: from a map that shows each thing once to another exactly when
what it adds is new. -/
theorem showsOnce_step_iff {inp : MapInput K} {s s' : MapProcess K} (hk : UniqueKeys inp)
    (hs : ShowsOnce s.locals) (h : step p inp s = some s') :
    ShowsOnce s'.locals ↔ AddsNew p inp s := by
  cases inp with
  | event e =>
    simp only [MapVC.step,Process.step] at h
    split at h
    · contradiction
    · next ht =>
      have htrap : s.trap = none := by simpa using ht
      simp only [Option.some.injEq] at h
      subst h
      cases hr : s.locals.onEvent p e with
      | error t =>
        have hsame : ShowsOnce (s.absorb ((program p).onEvent e s.locals)).locals := by
          simpa [program,hr,Process.absorb] using hs
        refine iff_of_true hsame ?_
        cases e with
        | addEnemyAction d =>
          intro _ hu
          exact absurd (spawnEnemy_eq_error.mp hr).1 hu
        | _ => trivial
      | ok r =>
        have hlocals : (s.absorb ((program p).onEvent e s.locals)).locals = r.locals := by
          simp [program,hr,Process.absorb]
        rw [hlocals]
        rcases onEvent_spawn hr with ⟨d,enemy,rfl,hspawn⟩ | ⟨hne,hno⟩
        · rw [hspawn.showsOnce_iff hs]
          exact ⟨fun hn _ => hn,fun hn => hn htrap⟩
        · have honce : ShowsOnce r.locals := by
            rcases hno.annotations with hclear | hkept
            · exact .of_clear hclear.1 hclear.2
            · exact (ShowsOnce.congr hkept.1 hkept.2).mpr hs
          refine iff_of_true honce ?_
          cases e with
          | addEnemyAction d => exact absurd rfl (hne d)
          | _ => trivial
  | deliver i snapshot d =>
    simp only [MapVC.step,Process.step] at h
    split at h
    · next q hq =>
      simp only [Option.some.injEq] at h
      subst h
      simp only [AddsNew,hq,program]
      cases hr : s.locals.onRead p q snapshot d with
      | error t =>
        refine iff_of_true hs ?_
        cases q with
        | findEnemiesAroundUser => exact newEnemies_of_error hr
        | findPlayersAroundUser => exact newPlayers_of_error hr
        | getNumberOfEnemiesAroundUser =>
          exact fun hc => absurd hc (not_countSpawns_of_error hr)
        | didUpdateLocations c => trivial
        | addEnemyToFirebase enemy => trivial
      | ok r =>
        cases q with
        | findEnemiesAroundUser => exact enemies_showsOnce_iff hr hk hs
        | findPlayersAroundUser => exact players_showsOnce_iff hr hs
        | getNumberOfEnemiesAroundUser =>
          rcases onRead_count hr with ⟨hc,enemy,hspawn⟩ | ⟨hc,rfl⟩
          · exact (hspawn.showsOnce_iff hs).trans ⟨fun hn _ => hn,fun hn => hn hc⟩
          · exact iff_of_true hs (fun hyes => absurd hyes hc)
        | didUpdateLocations c =>
          cases hr
          exact iff_of_true hs trivial
        | addEnemyToFirebase enemy =>
          cases hr
          exact iff_of_true hs trivial
    · contradiction

theorem addsNew_of_none {inp : MapInput K} {s : MapProcess K} (h : step p inp s = none) :
    AddsNew p inp s := by
  cases inp with
  | event e =>
    simp only [MapVC.step,Process.step] at h
    split at h
    · next ht =>
      cases e with
      | addEnemyAction d =>
        intro hn
        rw [hn] at ht
        contradiction
      | _ => trivial
    · contradiction
  | deliver i snapshot d =>
    simp only [MapVC.step,Process.step] at h
    split at h
    · contradiction
    · next hn => simp [AddsNew,hn]

theorem mapShowsOnce_of_addsNew {user : User K} {inps : List (MapInput K)}
    (hk : ∀ inp ∈ inps, UniqueKeys inp)
    (h : Along (step p) (AddsNew p) inps (viewDidLoad user)) : MapShowsOnce p user inps := by
  intro as s hpre hr
  obtain ⟨bs,rfl⟩ := hpre
  have ha := ((along_append (step p) hr).mp h).1
  have hkeys := along_of_forall_mem (step p)
    (fun inp hi => hk inp (List.mem_append_left bs hi)) (viewDidLoad user)
  exact run_invariant (I := fun s => ShowsOnce s.locals) (step p)
    (fun _ _ _ hi hc hs => (showsOnce_step_iff hc.2 hi hs).mpr hc.1)
    (ShowsOnce.of_clear rfl rfl) (ha.and (step p) hkeys) hr

/-- The map shows each thing once throughout exactly when whatever is added to
it is new. -/
theorem mapShowsOnce_iff_addsNew (p : Platform K) (user : User K) (inps : List (MapInput K))
    (hk : ∀ inp ∈ inps, UniqueKeys inp) :
    MapShowsOnce p user inps ↔ Along (step p) (AddsNew p) inps (viewDidLoad user) := by
  refine ⟨fun h => ?_,mapShowsOnce_of_addsNew hk⟩
  refine along_of_forall_prefix (step p) (fun as inp s hp hr => ?_)
  have hs := h as s ((List.prefix_append as [inp]).trans hp) hr
  cases hstep : step p inp s with
  | none => exact addsNew_of_none hstep
  | some s' =>
    have hs' := h (as ++ [inp]) s' hp ((run_append_eq_some (step p)).mpr
      ⟨s,hr,(run_cons_eq_some (step p)).mpr ⟨s',hstep,rfl⟩⟩)
    exact (showsOnce_step_iff (hk inp (hp.subset (by simp))) hs hstep).mp hs'

end

end

def oneEnemy : FNode ℚ :=
  .branch [("u0e1",.branch [("health",.leaf (.double 30)),("latitude",.leaf (.double 0)),
    ("longitude",.leaf (.double 0)),("name",.leaf (.string "Aegis")),
    ("power",.leaf (.double 2))])]

def bobNear : FNode ℚ :=
  .branch [("1",.branch [("health",.leaf (.double 50)),("latitude",.leaf (.double 0)),
    ("longitude",.leaf (.double 0)),("power",.leaf (.double 3.2)),("totalExp",.leaf (.int 10)),
    ("username",.leaf (.string "bob"))])]

/-- The first fix with its fills, a spawn, and a Center tap with its own. -/
def centerAfterFills : List (MapInput ℚ) :=
  [.event (.didUpdateLocations [⟨0,0⟩]),.deliver 1 bobNear sampleDraw,
    .deliver 0 oneEnemy sampleDraw,.event (.addEnemyAction sampleDraw),.event .centerAction,
    .deliver 0 .empty sampleDraw,.deliver 1 oneEnemy sampleDraw,.deliver 1 bobNear sampleDraw]

theorem mapShowsOnce_centerAfterFills : ∃ s,
    run (step planePlatform) centerAfterFills
        (viewDidLoad (User.init "ann" (some "pw") 0 50 3.2 10)) = some s ∧
      s.locals.shownEnemies = ["u0e1"] ∧ s.locals.shownPlayers = [1] ∧
      MapShowsOnce planePlatform (User.init "ann" (some "pw") 0 50 3.2 10) centerAfterFills := by
  have hrun : (run (step planePlatform) centerAfterFills
      (viewDidLoad (User.init "ann" (some "pw") 0 50 3.2 10))).map
        (fun s => (s.locals.shownEnemies,s.locals.shownPlayers)) = some (["u0e1"],[1]) := by
    decide +kernel
  obtain ⟨s,hs,he⟩ := Option.map_eq_some_iff.mp hrun
  simp only [Prod.mk.injEq] at he
  have hnew : Along (step planePlatform) (AddsNew planePlatform) centerAfterFills
      (viewDidLoad (User.init "ann" (some "pw") 0 50 3.2 10)) := by
    decide +kernel
  exact ⟨s,hs,he.1,he.2,(mapShowsOnce_iff_addsNew planePlatform _ _ (by decide)).mpr hnew⟩

/-- The first fix, and a Center tap before its fills. -/
def fixThenCenter : List (MapInput ℚ) :=
  [.event (.didUpdateLocations [⟨0,0⟩]),.event .centerAction,.deliver 0 oneEnemy sampleDraw,
    .deliver 2 oneEnemy sampleDraw]

/-- Both refreshes fill the map with the same enemy. -/
theorem not_mapShowsOnce : ¬ ∀ (user : User ℚ) (inps : List (MapInput ℚ)),
    (∀ inp ∈ inps, UniqueKeys inp) → MapShowsOnce planePlatform user inps := by
  intro h
  let user : User ℚ := User.init "ann" (some "pw") 0 50 3.2 10
  have hkeys : ∀ inp ∈ fixThenCenter, UniqueKeys inp := by decide
  have hrun : (run (step planePlatform) fixThenCenter (viewDidLoad user)).map
      (fun s => s.locals.shownEnemies) = some ["u0e1","u0e1"] := by
    decide +kernel
  obtain ⟨s,hs,hshown⟩ := Option.map_eq_some_iff.mp hrun
  have honce := (h user fixThenCenter hkeys fixThenCenter s (List.prefix_refl _) hs).enemies
  rw [hshown] at honce
  exact absurd honce (by decide)

end MapVC

end GFLGO
