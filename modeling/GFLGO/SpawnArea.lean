import Mathlib.Analysis.SpecialFunctions.Trigonometric.Basic
import Mathlib.Analysis.Real.Sqrt
import GFLGO.SpawnCap

/-!
The spawn area on a flat map. Enemies are spawned in a square whose corners the
count does not reach.
-/

set_option autoImplicit false

namespace GFLGO

open Runs Async Registry

section
noncomputable section

/-- Distances in metres on a flat map, with the constant of the spawn code. -/
def flatPlatform (string : ℝ → String) : Platform ℝ :=
  { distance := fun a b =>
      √(((a.latitude - b.latitude) / 0.00000900776) ^ 2 +
        (Real.cos (Real.pi * b.latitude / 180.0) * (a.longitude - b.longitude) /
          0.00000900776) ^ 2)
    cos := Real.cos
    pi := Real.pi
    string }

end

variable {string : ℝ → String} {pos : Coordinate ℝ}

theorem cos_latitude_pos (h : |pos.latitude| < 90) :
    0 < Real.cos (Real.pi * pos.latitude / 180) := by
  have hpi := Real.pi_pos
  obtain ⟨hlow,hhigh⟩ := abs_lt.mp h
  apply Real.cos_pos_of_mem_Ioo
  constructor <;> nlinarith

theorem offsets_getRandomCoordinate (string : ℝ → String) (h : |pos.latitude| < 90) (d : Draw ℝ) :
    ((MapVC.getRandomCoordinateAroundUser (flatPlatform string) d pos).latitude -
      pos.latitude) / 0.00000900776 = d.randomChangeY ∧
    Real.cos (Real.pi * pos.latitude / 180) *
      ((MapVC.getRandomCoordinateAroundUser (flatPlatform string) d pos).longitude -
        pos.longitude) / 0.00000900776 = d.randomChangeX := by
  have hcos := (cos_latitude_pos h).ne'
  constructor
  · simp only [flatPlatform,MapVC.getRandomCoordinateAroundUser]
    ring
  · simp only [flatPlatform,MapVC.getRandomCoordinateAroundUser]
    field_simp
    ring

theorem distance_getRandomCoordinate (h : |pos.latitude| < 90) (d : Draw ℝ) :
    (flatPlatform string).distance
      (MapVC.getRandomCoordinateAroundUser (flatPlatform string) d pos) pos =
        √(d.randomChangeY ^ 2 + d.randomChangeX ^ 2) := by
  obtain ⟨hlat,hlong⟩ := offsets_getRandomCoordinate string h d
  have hdegrees : (180.0 : ℝ) = 180 := by norm_num
  rw [← hlat,← hlong]
  simp only [flatPlatform,hdegrees]

structure Draw.InRange (d : Draw ℝ) : Prop where
  x : |d.randomChangeX| ≤ 100
  y : |d.randomChangeY| ≤ 100

def DrawnInRange : Label ℝ → Prop
  | .deliver _ _ d => d.InRange
  | _ => True

theorem inReach_of_drawnInRange (h : |pos.latitude| < 90) {l : Label ℝ} (hl : DrawnInRange l) :
    InReach (flatPlatform string) pos l := by
  cases l with
  | deliver c i d =>
    obtain ⟨hx,hy⟩ := hl
    have hx2 := sq_le_sq' (abs_le.mp hx).1 (abs_le.mp hx).2
    have hy2 := sq_le_sq' (abs_le.mp hy).1 (abs_le.mp hy).2
    refine ⟨?_⟩
    rw [distance_getRandomCoordinate h,Real.sqrt_le_iff]
    constructor
    · norm_num
    · linarith
  | event c e => trivial
  | snapshot c i => trivial
  | apply c => trivial

end

/-- The cap covers the spawn area exactly when every count that ends in a spawn
finds less than twenty other enemies stored. -/
theorem capCovers_iff_roomLeft (string : ℝ → String) (pos : Coordinate ℝ)
    (hpos : |pos.latitude| < 90) (ls : List (Label ℝ)) (w₀ : World ℝ)
    (h : AtOnePlace (flatPlatform string) pos ls w₀) (hd : ∀ l ∈ ls, DrawnInRange l) :
    CapCovers (flatPlatform string) pos ls w₀ ↔
      Along (step (flatPlatform string)) (RoomLeft (flatPlatform string)) ls w₀ := by
  have hreach : ∀ l ∈ ls, InReach (flatPlatform string) pos l :=
    fun l hl => inReach_of_drawnInRange hpos (hd l hl)
  constructor
  · intro hcap
    exact roomLeft_of_capCovers h hreach hcap
  · intro hroom
    exact capCovers_of_roomLeft h hreach hroom

section
variable {K : Type}

def onlyDevice (cl : Client K) (store : FNode K) : World K :=
  { store, clients := Function.update (fun _ => { locals := {} }) 0 cl }

variable {cl cl' : Client K} {store : FNode K}

@[simp] theorem onlyDevice_client : (onlyDevice cl store).clients 0 = cl := by
  simp [onlyDevice]

@[simp] theorem onlyDevice_store : (onlyDevice cl store).store = store := rfl

theorem onlyDevice_setClient :
    (onlyDevice cl store).setClient 0 cl' = onlyDevice cl' store := by
  simp [onlyDevice,World.setClient]

theorem onlyDevice_react {r : DeviceReaction K} (h : r.notes = []) :
    (onlyDevice cl store).react 0 cl' (.ok r) = onlyDevice (cl'.absorb (.ok r)) store := by
  simp [onlyDevice,World.react,notesOf,h]

theorem onlyDevice_quiet (h : cl.Quiet) : (onlyDevice cl store).Quiet :=
  forall_clients_update (R := fun _ (cl : Client K) => cl.Quiet) h (fun _ _ => ⟨rfl,rfl⟩)

def tick (d : Draw K) : List (Label K) :=
  .event 0 (.map 0 .timerTick) :: (answer 0 d ++ answer 0 d ++ applyAll 0 6)

variable [Field K] [LinearOrder K] [FloorRing K] {p : Platform K}

theorem run_applyAll (ws : List (Write K)) (store : FNode K) (cl : Client K) :
    run (step p) (applyAll 0 ws.length) (onlyDevice { cl with writes := ws } store) =
      some (onlyDevice { cl with writes := [] } (drain ws store)) := by
  induction ws generalizing store with
  | nil => rfl
  | cons x ws ih =>
    have hs : step p (.apply 0) (onlyDevice { cl with writes := x :: ws } store) =
        some (onlyDevice { cl with writes := ws } (applyWrite x store)) := by
      simp [step,Async.step,onlyDevice_setClient]
      rfl
    exact (run_cons_eq_some (step p)).mpr ⟨_,hs,ih (applyWrite x store)⟩

theorem run_event (cl : Client K) (store : FNode K) {e : Event K} {r : DeviceReaction K}
    (ls : List (Label K)) (ht : cl.trap = none)
    (h : cl.locals.onEvent p e = .ok r) (hn : r.notes = []) :
    run (step p) (.event 0 e :: ls) (onlyDevice cl store) =
      run (step p) ls (onlyDevice (cl.absorb (.ok r)) store) := by
  have hs : step p (.event 0 e) (onlyDevice cl store) =
      some (onlyDevice (cl.absorb (.ok r)) store) := by
    have hevent : (program p).onEvent e cl.locals = .ok r := h
    simp [step,Async.step,ht,hevent,onlyDevice_react hn]
  simp [run,hs]

theorem run_answer (cl : Client K) (store : FNode K) {q : Read K}
    {rest : List (Pending (Read K) (FNode K))} {d : Draw K} {r : DeviceReaction K}
    (ls : List (Label K)) (h : cl.reads = ⟨q,none⟩ :: rest)
    (hr : cl.locals.onRead p q (store.getChild q.path) d = .ok r) (hn : r.notes = []) :
    run (step p) (answer 0 d ++ ls) (onlyDevice cl store) =
      run (step p) ls
        (onlyDevice (({ cl with reads := rest } : Client K).absorb (.ok r)) store) := by
  have hsnapshot : step p (.snapshot 0 0) (onlyDevice cl store) = some (onlyDevice
      { cl with reads := ⟨q,some (store.getChild q.path)⟩ :: rest } store) := by
    simp [step,Async.step,h,view_eq,onlyDevice_setClient]
  have hread : (program p).onRead q (store.getChild q.path) d cl.locals = .ok r := hr
  have hdeliver : step p (.deliver 0 0 d) (onlyDevice
      { cl with reads := ⟨q,some (store.getChild q.path)⟩ :: rest } store) =
      some (onlyDevice (({ cl with reads := rest } : Client K).absorb (.ok r)) store) := by
    simp [step,Async.step,hread,onlyDevice_react hn]
  simp [answer,run,hsnapshot,hdeliver]

def MapVC.shows (m : MapVC K) (enemy : Enemy K) : MapVC K :=
  { m with enemyAnnotations := m.enemyAnnotations ++ [enemy] }

def atRest (m : MapVC K) (store : FNode K) : World K :=
  onlyDevice { locals := { tabBarVCs := [{ map := m }] } } store

theorem run_tick {d : Draw K} {m : MapVC K}
    (hc : MapVC.CountSpawns p (store.getChild ["enemies"]) d m) :
    ∃ enemy r, MapVC.Spawn p d m enemy r ∧ run (step p) (tick d) (atRest m store) =
      some (atRest (m.shows enemy) (drain (MapVC.enemyWrites enemy) store)) := by
  cases hok : m.onRead p .getNumberOfEnemiesAroundUser (store.getChild ["enemies"]) d with
  | error trap => exact absurd hc (MapVC.not_countSpawns_of_error hok)
  | ok r =>
    rcases MapVC.onRead_count hok with ⟨_,enemy,hs⟩ | ⟨hn,_⟩
    · refine ⟨enemy,r,hs,?_⟩
      let d₀ : Device K := { tabBarVCs := [{ map := m }] }
      let d₁ : Device K := { tabBarVCs := [{ map := m.shows enemy }] }
      have hcount : d₀.onRead p (.map 0 .getNumberOfEnemiesAroundUser)
          (store.getChild ["enemies"]) d =
          .ok { locals := d₁, reads := [.map 0 (.addEnemyToFirebase enemy)] } := by
        simp only [Device.onRead,d₀,List.getElem?_cons_zero,hok,bind,Except.bind]
        simp [Device.ofMap,Device.setTab,hs.locals,hs.reads,hs.writes,hs.notes,d₁,MapVC.shows]
      have hstore :
          d₁.onRead p (.map 0 (.addEnemyToFirebase enemy)) (store.getChild ["enemies"]) d =
            .ok { locals := d₁, writes := MapVC.enemyWrites enemy } := by
        simp only [Device.onRead,d₁,List.getElem?_cons_zero,MapVC.onRead,bind,Except.bind]
        rfl
      have htick : run (step p) (tick d) (atRest m store) =
          run (step p) (answer 0 d ++ (answer 0 d ++ applyAll 0 6)) (onlyDevice
            { locals := d₀, reads := [⟨.map 0 .getNumberOfEnemiesAroundUser,none⟩] } store) := by
        rw [tick,List.append_assoc]
        exact run_event { locals := d₀ } store _ rfl (e := .map 0 .timerTick)
          (r := { locals := d₀, reads := [.map 0 .getNumberOfEnemiesAroundUser] }) rfl rfl
      have hspawn : run (step p) (answer 0 d ++ (answer 0 d ++ applyAll 0 6)) (onlyDevice
            { locals := d₀, reads := [⟨.map 0 .getNumberOfEnemiesAroundUser,none⟩] } store) =
          run (step p) (answer 0 d ++ applyAll 0 6) (onlyDevice
            { locals := d₁, reads := [⟨.map 0 (.addEnemyToFirebase enemy),none⟩] } store) :=
        run_answer { locals := d₀, reads := [⟨.map 0 .getNumberOfEnemiesAroundUser,none⟩] } store _
          rfl hcount rfl
      have hadd : run (step p) (answer 0 d ++ applyAll 0 6) (onlyDevice
            { locals := d₁, reads := [⟨.map 0 (.addEnemyToFirebase enemy),none⟩] } store) =
          run (step p) (applyAll 0 6) (onlyDevice
            { locals := d₁, writes := MapVC.enemyWrites enemy } store) :=
        run_answer { locals := d₁, reads := [⟨.map 0 (.addEnemyToFirebase enemy),none⟩] } store _
          rfl hstore rfl
      rw [htick,hspawn,hadd]
      exact run_applyAll (MapVC.enemyWrites enemy) store { locals := d₁ }
    · exact absurd hc hn

end

section
noncomputable section

def wholeSeconds (x : ℝ) : String := stringOfInt ⌊x⌋ ++ ".0"

def cornerDraw (i : ℕ) : Draw ℝ :=
  { randomChangeX := (100 : ℚ), randomChangeY := (100 : ℚ), random2 := 1, time := ((10*i : ℕ) : ℝ)
    randomName := "Aegis" }

def cornerTicks (n : ℕ) : List (Label ℝ) := (List.range n).flatMap (fun i => tick (cornerDraw i))

def origin : Coordinate ℝ := ⟨0,0⟩

def annOnMap : MapVC ℝ :=
  { user := User.init "ann" (some "pw") 0 (50 : ℚ) (3.2 : ℚ) 10
    userLocation := some origin
    firstCenter := false }

end

def cornerID (i : ℕ) : String :=
  "u" ++ stringOfInt 0 ++ "e" ++ String.ofList
    ((stringOfInt (10*i : ℕ) ++ ".0").toList.map (fun c => if c = '.' then 'd' else c))

theorem getUniqueEnemyID_cornerDraw (i : ℕ) :
    MapVC.getUniqueEnemyID (flatPlatform wholeSeconds) (cornerDraw i) annOnMap.user =
      cornerID i := by
  have hfloor : ⌊((10*i : ℕ) : ℝ)⌋ = ((10*i : ℕ) : ℤ) := Int.floor_natCast _
  simp only [MapVC.getUniqueEnemyID,flatPlatform,wholeSeconds,cornerDraw,hfloor]
  rfl

/-- After `n` ticks at the origin: as many enemies, none of them counted. -/
structure Cornered (n : ℕ) (m : MapVC ℝ) (store : FNode ℝ)
    (ops : List (Change String (Enemy ℝ))) : Prop where
  user : m.user = annOnMap.user
  userLocation : m.userLocation = some origin
  tree : EnemyTree (after Enemy.identifier ops) (store.getImmediateChild "enemies")
  far : ∀ enemy ∈ inserted ops, (flatPlatform wholeSeconds).distance
    ⟨enemy.latitude,enemy.longitude⟩ origin = √20000
  stored : ∀ i < n, ∃ enemy, after Enemy.identifier ops (cornerID i) = some enemy

theorem Cornered.countSpawns {n : ℕ} {m : MapVC ℝ} {store : FNode ℝ}
    {ops : List (Change String (Enemy ℝ))} (h : Cornered n m store ops) :
    MapVC.CountSpawns (flatPlatform wholeSeconds) (store.getChild ["enemies"])
      (cornerDraw n) m := by
  have hnone : nearChildren (flatPlatform wholeSeconds) 100 m.userLocation
      (store.getChild ["enemies"]).children = [] := by
    rw [h.userLocation,nearChildren,List.filter_eq_nil_iff,PathTree.getChild_singleton]
    intro child hc
    obtain ⟨enemy,hm,_,hstored⟩ := h.tree.child hc
    have hfar : (100 : ℝ) < √20000 := by
      rw [Real.lt_sqrt (by norm_num)]
      norm_num
    rw [hstored.isNear,h.far enemy (mem_inserted_of_after _ hm)]
    simpa using hfar
  constructor
  · simp [h.userLocation]
  · intro child hc
    rw [PathTree.getChild_singleton] at hc
    obtain ⟨_,_,_,hstored⟩ := h.tree.child hc
    exact ⟨hstored.fields.2.1,hstored.fields.2.2.1⟩
  · rw [hnone]
    simp
  · rw [hnone]
    simp [MapVC.successfulWithPercent,cornerDraw]

theorem Cornered.tick {n : ℕ} {m : MapVC ℝ} {store : FNode ℝ}
    {ops : List (Change String (Enemy ℝ))} (h : Cornered n m store ops) :
    ∃ m' store' ops', Cornered (n+1) m' store' ops' ∧
      run (step (flatPlatform wholeSeconds)) (GFLGO.tick (cornerDraw n)) (atRest m store) =
        some (atRest m' store') := by
  obtain ⟨enemy,r,hs,hr⟩ := run_tick h.countSpawns
  refine ⟨m.shows enemy,drain (MapVC.enemyWrites enemy) store,ops ++ [.insert enemy],
    ⟨h.user,h.userLocation,?_,fun e he => ?_,fun i hi => ?_⟩,hr⟩
  · rw [after_insert]
    exact h.tree.store hs.name
  · rw [inserted_append,List.mem_append] at he
    rcases he with hold | hnew
    · exact h.far e hold
    · obtain rfl : e = enemy := by simpa [inserted] using hnew
      obtain ⟨location,hlocation,hplaced⟩ := hs.placed
      rw [h.userLocation,Option.some.injEq] at hlocation
      subst hlocation
      rw [hplaced,distance_getRandomCoordinate (by simp [origin])]
      norm_num [cornerDraw]
  · rw [after_insert,Function.update_apply]
    split
    · exact ⟨enemy,rfl⟩
    · next hne =>
      have hid : enemy.identifier = cornerID n := by
        rw [hs.identifier,h.user,getUniqueEnemyID_cornerDraw]
      have hlt : i < n := by
        have hni : i ≠ n := fun he => hne (by rw [hid,he])
        omega
      exact h.stored i hlt

theorem run_cornerTicks (n : ℕ) : ∃ m store ops, Cornered n m store ops ∧
    run (step (flatPlatform wholeSeconds)) (cornerTicks n) (atRest annOnMap .empty) =
      some (atRest m store) := by
  induction n with
  | zero =>
    refine ⟨annOnMap,.empty,[],⟨rfl,rfl,EnemyTree.empty,by simp [inserted],?_⟩,rfl⟩
    intro i hi
    omega
  | succ n ih =>
    obtain ⟨m,store,ops,h,hr⟩ := ih
    obtain ⟨m',store',ops',h',hr'⟩ := h.tick
    refine ⟨m',store',ops',h',?_⟩
    rw [cornerTicks,List.range_succ,List.flatMap_append,List.flatMap_singleton]
    exact (run_append_eq_some _).mpr ⟨_,hr,hr'⟩

theorem atRest_quiet (m : MapVC ℝ) (store : FNode ℝ) : (atRest m store).Quiet :=
  onlyDevice_quiet ⟨rfl,rfl⟩

theorem oneAtATime_tick (d : Draw ℝ) (m : MapVC ℝ) (store : FNode ℝ) :
    Along (step (flatPlatform wholeSeconds)) OneAtATime (tick d) (atRest m store) := by
  refine ⟨atRest_quiet m store,fun w _ => ?_⟩
  have hinternal : ∀ l ∈ answer 0 d ++ answer 0 d ++ applyAll 0 6, l.internal = true := by
    simp [answer,applyAll,Label.internal]
  refine (along_of_forall_mem _ hinternal w).mono_of_invariant (I := fun _ => True) _
    (fun _ _ _ _ _ _ => trivial) (fun l u _ hl => ?_) trivial
  cases l with
  | event c e => contradiction
  | _ => trivial

theorem oneAtATime_cornerTicks (n : ℕ) : Along (step (flatPlatform wholeSeconds)) OneAtATime
    (cornerTicks n) (atRest annOnMap .empty) := by
  induction n with
  | zero => trivial
  | succ n ih =>
    obtain ⟨m,store,ops,h,hr⟩ := run_cornerTicks n
    rw [cornerTicks,List.range_succ,List.flatMap_append,List.flatMap_singleton]
    exact (along_append _ hr).mpr ⟨ih,oneAtATime_tick (cornerDraw n) m store⟩

theorem inRange_cornerDraw (i : ℕ) : (cornerDraw i).InRange :=
  ⟨by norm_num [cornerDraw],by norm_num [cornerDraw]⟩

theorem mem_cornerTicks {n : ℕ} {l : Label ℝ} (h : l ∈ cornerTicks n) :
    l.client = 0 ∧ StandsAt origin l ∧ DrawnInRange l := by
  obtain ⟨i,_,hl⟩ := List.mem_flatMap.mp h
  simp only [tick,answer,applyAll,List.mem_cons,List.mem_append,List.mem_replicate,
    List.not_mem_nil,or_false] at hl
  rcases hl with rfl | ((rfl | rfl) | rfl | rfl) | ⟨_,rfl⟩ <;>
    simp [Label.client,StandsAt,Event.isAddEnemy,Event.reported,DrawnInRange,inRange_cornerDraw]

theorem atOnePlace_cornerTicks (n : ℕ) : AtOnePlace (flatPlatform wholeSeconds) origin
    (cornerTicks n) (atRest annOnMap .empty) where
  quiet := atRest_quiet _ _
  store := rfl
  standing := by
    refine forall_clients_update (R := fun _ (cl : Client ℝ) => Standing origin cl.locals) ?_
      (fun c _ t ht => by simp at ht)
    intro t ht location hl
    rw [List.mem_singleton.mp ht] at hl
    exact (Option.some.inj hl).symm
  labels := fun l hl => (mem_cornerTicks hl).2.1
  ordered := oneAtATime_cornerTicks n
  finished := by
    obtain ⟨m,store,_,_,hr⟩ := run_cornerTicks n
    exact ⟨_,hr,atRest_quiet m store⟩

theorem not_capCovers_cornerTicks : ¬ CapCovers (flatPlatform wholeSeconds) origin (cornerTicks 21)
    (atRest annOnMap .empty) := by
  intro hcap
  obtain ⟨m,store,ops,hcornered,hr⟩ := run_cornerTicks 21
  have hnodup : ((List.range 21).map cornerID).Nodup := by decide +kernel
  have hnear : √20000 ≤ (150 : ℝ) := by
    rw [Real.sqrt_le_iff]
    norm_num
  have hle := hcornered.tree.length_le
    (fun _ e he => (hcornered.far e (mem_inserted_of_after _ he)).trans_le hnear)
    (hcap _ _ (List.prefix_refl _) hr (atRest_quiet m store)) hnodup (fun id hid => ?_)
  · simp at hle
  · obtain ⟨i,hi,rfl⟩ := List.mem_map.mp hid
    exact hcornered.stored i (List.mem_range.mp hi)

theorem not_capCovers : ¬ ∀ (string : ℝ → String) (pos : Coordinate ℝ) (c : ℕ)
    (ls : List (Label ℝ)) (w₀ : World ℝ), |pos.latitude| < 90 →
    AtOnePlace (flatPlatform string) pos ls w₀ → (∀ l ∈ ls, l.client = c) →
    (∀ l ∈ ls, DrawnInRange l) → CapCovers (flatPlatform string) pos ls w₀ := by
  intro h
  exact not_capCovers_cornerTicks (h wholeSeconds origin 0 (cornerTicks 21) _ (by simp [origin])
    (atOnePlace_cornerTicks 21) (fun l hl => (mem_cornerTicks hl).1)
    (fun l hl => (mem_cornerTicks hl).2.2))

theorem not_roomLeft_cornerTicks : ¬ Along (step (flatPlatform wholeSeconds))
    (RoomLeft (flatPlatform wholeSeconds)) (cornerTicks 21) (atRest annOnMap .empty) := by
  intro hroom
  exact not_capCovers_cornerTicks ((capCovers_iff_roomLeft wholeSeconds origin (by simp [origin])
    (cornerTicks 21) (atRest annOnMap .empty) (atOnePlace_cornerTicks 21)
    (fun l hl => (mem_cornerTicks hl).2.2)).mpr hroom)

end

end GFLGO
