import GFLGO.Experience
import GFLGO.StoredValues

/-!
What the schema makes of every run: whoever plays, whatever enemy is met and
however a battle goes, the numbers are always the same.
-/

set_option autoImplicit false

namespace GFLGO

open Runs Async PathTree

section
variable {K : Type} [Field K] [LinearOrder K] {N : String → Prop}

/-- A battle after so many attacks and counterattacks, in whatever order they came. -/
structure GameScene.Fought (s : GameScene K) (N : String → Prop) (strikes answers : Nat) :
    Prop where
  enemy : s.enemy.Roaming N
  enemyHealth : s.currentEnemyHealth = 30 - strikes * 3.2
  userHealth : s.currentUserHealth = 50 - answers * 2
  turns : answers + s.waits = min strikes 9

structure TabBarVC.Playing (t : TabBarVC K) (N : String → Prop) : Prop where
  user : t.map.user.Playing
  annotations : ∀ enemy ∈ t.map.enemyAnnotations, enemy.Roaming N
  selected : ∀ enemy, t.map.selectedEnemy = some enemy → enemy.Roaming N
  scenes : ∀ s ∈ t.scenes, ∃ strikes answers, s.Fought N strikes answers

omit [LinearOrder K] in
theorem User.Playing.move {user : User K} (h : user.Playing) (latitude longitude : Option K) :
    ({ user with latitude, longitude } : User K).Playing :=
  ⟨h.health,h.power,h.totalExp,h.exp,h.level⟩

omit [LinearOrder K] in
theorem fought_didMove {user : User K} {enemy : Enemy K} (hu : user.Playing)
    (he : enemy.Roaming N) : (GameScene.didMove user enemy).Fought N 0 0 where
  enemy := he
  enemyHealth := by simp [GameScene.didMove,he.health]
  userHealth := by simp [GameScene.didMove,hu.health]
  turns := rfl

theorem GameScene.attack_playing {user : User K} (h : user.Playing) (s : GameScene K) :
    (s.attack user).user.Playing := by
  obtain ⟨-,-,-,⟨-,-,hu,-⟩ | ⟨-,-,hu,-⟩⟩ := attack_cases user s
  · rw [hu]
    exact h
  · rw [hu]
    exact h.addExperience

variable [FloorRing K] [IsStrictOrderedRing K]

omit [FloorRing K] in
theorem survives_iff_le_nine (n : Nat) : 0 < (30 - n * 3.2 : K) ↔ n ≤ 9 := by
  constructor
  · intro h
    by_contra hn
    have hc : (10 : K) ≤ n := by exact_mod_cast (by omega : 10 ≤ n)
    norm_num at h
    linarith
  · intro h
    have hc : (n : K) ≤ 9 := by exact_mod_cast h
    norm_num
    linarith

omit [FloorRing K] in
theorem GameScene.Fought.receive {s : GameScene K} {strikes answers : Nat}
    (h : s.Fought N strikes answers) {user : User K} (hu : user.Playing) {e : SceneEvent}
    {r : SceneReaction K} (hr : s.receive user e = some r) :
    r.user.Playing ∧ ∃ strikes answers, r.scene.Fought N strikes answers := by
  have hstep : Battle.step e ({ user, scene := s } : Battle K) =
      some { user := r.user, scene := r.scene, writes := r.writes, notes := r.notes } := by
    simp [Battle.step,hr]
  obtain ⟨-,heffect⟩ := Battle.effect_of_step hstep
  generalize hb : ({ user := r.user, scene := r.scene, writes := r.writes, notes := r.notes } :
    Battle K) = b at heffect
  have huser : r.user = b.user := by rw [← hb]
  have hscene : r.scene = b.scene := by rw [← hb]
  rw [huser,hscene]
  cases heffect with
  | strike hd hf =>
    refine ⟨attack_playing hu s,strikes+1,answers,?_,?_,?_,?_⟩
    · simpa [Battle.struck] using h.enemy
    · simp only [Battle.struck,attack_currentEnemyHealth,h.enemyHealth,hu.power]
      push_cast
      ring
    · simpa [Battle.struck] using h.userHealth
    · have hleft : s.currentEnemyHealth - user.power = 30 - (strikes + 1 : Nat) * 3.2 := by
        rw [h.enemyHealth,hu.power]
        push_cast
        ring
      have hturns := h.turns
      simp only [Battle.struck,attack_waits,hleft,survives_iff_le_nine]
      split <;> omega
  | touch hd hf => exact ⟨hu,strikes,answers,h.enemy,h.enemyHealth,h.userHealth,h.turns⟩
  | answer hw =>
    refine ⟨hu,strikes,answers+1,h.enemy,h.enemyHealth,?_,?_⟩
    · simp only [Battle.answered,waitCompleted,hideAttackButton,setCurrentUserHealth,
        h.userHealth,h.enemy.power]
      push_cast
      ring
    · have hturns := h.turns
      simp only at hw
      simp only [Battle.answered,waitCompleted,hideAttackButton,setCurrentUserHealth]
      omega
  | escape => exact ⟨hu,strikes,answers,h.enemy,h.enemyHealth,h.userHealth,h.turns⟩

def Event.draw : Event K → Option (Draw K)
  | .map _ (.addEnemyAction d) => some d
  | _ => none

def drawOf : Label K → Option (Draw K)
  | .event _ e => e.draw
  | .deliver _ _ d => some d
  | _ => none

variable {p : Platform K} {d : Device K}

omit [LinearOrder K] [FloorRing K] [IsStrictOrderedRing K] in
theorem MapVC.roaming_of_spawnEnemy {draw : Draw K} {m : MapVC K} {r : MapReaction K}
    (h : m.spawnEnemy p draw = .ok r) (hn : N draw.randomName) :
    ∀ q ∈ r.reads, ∀ enemy, q.enemy = some enemy → enemy.Roaming N := by
  obtain ⟨location,_,h⟩ := bind_eq_ok.mp h
  cases h
  intro q hq enemy he
  rw [List.mem_singleton.mp hq] at he
  cases he
  refine ⟨rfl,rfl,fun name hname => ?_⟩
  cases hname
  exact hn

omit [LinearOrder K] [FloorRing K] [IsStrictOrderedRing K] in
theorem MapVC.onEvent_roaming {e : MapEvent K} {m : MapVC K} {r : MapReaction K}
    (h : m.onEvent p e = .ok r)
    (hn : ∀ draw, e = .addEnemyAction draw → N draw.randomName) :
    ∀ q ∈ r.reads, ∀ enemy, q.enemy = some enemy → enemy.Roaming N := by
  rcases MapVC.onEvent_spawn h with ⟨draw,new,rfl,-⟩ | ⟨-,hno⟩
  · exact MapVC.roaming_of_spawnEnemy h (hn draw rfl)
  · intro q hq enemy he
    rw [hno.reads q hq] at he
    cases he

omit [IsStrictOrderedRing K] in
theorem MapVC.onRead_roaming {q : MapRead K} {snapshot : FNode K} {draw : Draw K}
    {m : MapVC K} {r : MapReaction K} (h : m.onRead p q snapshot draw = .ok r)
    (hn : N draw.randomName) :
    ∀ q' ∈ r.reads, ∀ enemy, q'.enemy = some enemy → enemy.Roaming N := by
  rcases MapVC.onRead_spawn h with ⟨rfl,-,-⟩ | hfill
  · obtain ⟨numEnemies,-,h⟩ := bind_eq_ok.mp h
    split at h
    · exact MapVC.roaming_of_spawnEnemy h hn
    · cases h
      simp
  · simp [hfill.reads]

omit [LinearOrder K] [FloorRing K] [IsStrictOrderedRing K] in
theorem TabBarVC.Playing.map {t : TabBarVC K} (h : t.Playing N) {m : MapVC K}
    (hu : m.user.Playing) (ha : ∀ enemy ∈ m.enemyAnnotations, enemy.Roaming N)
    (hs : ∀ enemy, m.selectedEnemy = some enemy → enemy.Roaming N) :
    ({ t with map := m } : TabBarVC K).Playing N :=
  ⟨hu,ha,hs,h.scenes⟩

omit [LinearOrder K] [FloorRing K] [IsStrictOrderedRing K] in
theorem Device.playing_setTab (hd : ∀ t ∈ d.tabBarVCs, t.Playing N) {tab : Nat} {t : TabBarVC K}
    (ht : t.Playing N) : ∀ t' ∈ (d.setTab tab t).tabBarVCs, t'.Playing N := by
  intro t' ht'
  rcases mem_setTab ht' with rfl | hold
  · exact ht
  · exact hd t' hold

omit [LinearOrder K] [FloorRing K] [IsStrictOrderedRing K] in
theorem MapVC.roaming_of_spawn {draw : Draw K} {m : MapVC K} {enemy : Enemy K}
    {r : MapReaction K} (hs : Spawn p draw m enemy r)
    (hr : ∀ q ∈ r.reads, ∀ enemy, q.enemy = some enemy → enemy.Roaming N)
    (ha : ∀ enemy ∈ m.enemyAnnotations, enemy.Roaming N) :
    ∀ enemy ∈ r.locals.enemyAnnotations, enemy.Roaming N := by
  have hnew : enemy.Roaming N := hr (.addEnemyToFirebase enemy) (by rw [hs.reads]; simp) enemy rfl
  simp only [hs.locals]
  exact List.forall_mem_append.mpr ⟨ha,by simpa using hnew⟩

omit [FloorRing K] in
theorem EventOutcome.inPlay {e : Event K} {r : DeviceReaction K} (h : EventOutcome p d e r)
    (hd : ∀ t ∈ d.tabBarVCs, t.Playing N)
    (hn : ∀ draw, e.draw = some draw → N draw.randomName) :
    (∀ t ∈ r.locals.tabBarVCs, t.Playing N) ∧ (∀ x ∈ r.writes, x.Conforming N) ∧
      ∀ q ∈ r.reads, ∀ enemy, q.enemy = some enemy → enemy.Roaming N := by
  cases h with
  | @map tab t e r ht hr =>
    have hroam := MapVC.onEvent_roaming hr (fun draw he => hn draw (by rw [he,Event.draw]))
    have hold := hd t (List.mem_of_getElem? ht)
    obtain ⟨⟨latitude,longitude,hu⟩,hw,-⟩ := MapVC.onEvent_effect hr
    have huser : r.locals.user.Playing := hu ▸ hold.user.move latitude longitude
    refine ⟨Device.playing_setTab hd ?_,by simp [Device.ofMap,hw],?_⟩
    · rcases MapVC.onEvent_spawn hr with ⟨draw,new,-,hs⟩ | ⟨-,hno⟩
      · refine hold.map huser (MapVC.roaming_of_spawn hs hroam hold.annotations) ?_
        simpa only [hs.locals] using hold.selected
      · refine hold.map huser (fun enemy he => ?_) (fun enemy he => ?_)
        · rcases hno.annotations with hclear | hkept
          · simp [hclear.1] at he
          · exact hold.annotations enemy (hkept.1 ▸ he)
        · rcases hno.selected enemy he with hsel | hann
          · exact hold.selected enemy hsel
          · exact hold.annotations enemy hann
    · intro q hq enemy he
      obtain ⟨q',hq',rfl⟩ := List.mem_map.mp hq
      exact hroam q' hq' enemy he
  | @battleAction tab t enemy ht he =>
    have hold := hd t (List.mem_of_getElem? ht)
    refine ⟨Device.playing_setTab hd ⟨hold.user,hold.annotations,hold.selected,?_⟩,by simp,by simp⟩
    refine List.forall_mem_append.mpr ⟨hold.scenes,?_⟩
    simpa using ⟨0,0,fought_didMove hold.user (hold.selected enemy he)⟩
  | @scene tab i t s e r ht hs hr =>
    have hold := hd t (List.mem_of_getElem? ht)
    obtain ⟨strikes,answers,hf⟩ := hold.scenes s (List.mem_of_getElem? hs)
    obtain ⟨hu,hf'⟩ := hf.receive hold.user hr
    refine ⟨Device.playing_setTab hd ⟨hu,hold.annotations,hold.selected,?_⟩,?_,
      by simp [Device.ofScene]⟩
    · intro s' hs'
      rcases List.mem_or_eq_of_mem_set hs' with hmem | rfl
      · exact hold.scenes s' hmem
      · exact hf'
    · simp only [Device.ofScene]
      rcases GameScene.receive_effect hr with ⟨-,-,hw,-⟩ | ⟨-,-,hw,-⟩
      · rw [hw]
        exact conforming_defeatWrites hold.user s
      · simp [hw]
  | newPassword ht =>
    have hold := hd _ (List.mem_of_getElem? ht)
    exact ⟨Device.playing_setTab hd ⟨hold.user,hold.annotations,hold.selected,hold.scenes⟩,
      by simp,by simp⟩
  | logout ht =>
    have hold := hd _ (List.mem_of_getElem? ht)
    exact ⟨Device.playing_setTab hd ⟨hold.user,hold.annotations,hold.selected,hold.scenes⟩,
      by simp,by simp⟩
  | createAccountAction hv => exact ⟨hd,by simp,by simp [Read.enemy]⟩
  | loginAction => exact ⟨hd,by simp,by simp [Read.enemy]⟩
  | changePasswordAction ht hn => exact ⟨hd,by simp,by simp [Read.enemy]⟩
  | _ => exact ⟨hd,by simp [Device.idle],by simp [Device.idle]⟩

omit [IsStrictOrderedRing K] in
theorem ReadOutcome.inPlay {snapshot : FNode K} {draw : Draw K} {q : Read K}
    {r : DeviceReaction K} (h : ReadOutcome p snapshot draw d q r)
    (hd : ∀ t ∈ d.tabBarVCs, t.Playing N) (hs : Conforms (Stored N) q.path snapshot)
    (hq : ∀ enemy, q.enemy = some enemy → enemy.Roaming N) (hn : N draw.randomName) :
    (∀ t ∈ r.locals.tabBarVCs, t.Playing N) ∧ (∀ x ∈ r.writes, x.Conforming N) ∧
      ∀ q' ∈ r.reads, ∀ enemy, q'.enemy = some enemy → enemy.Roaming N := by
  cases h with
  | addUser hv =>
    exact ⟨hd,conforming_userWrites (User.playing_init _ _ _ (by omega)),by simp⟩
  | login hl =>
    refine ⟨List.forall_mem_append.mpr ⟨hd,?_⟩,by simp,by simp⟩
    have hu := playing_of_login hs hl
    simpa using (⟨hu,by simp,by simp,by simp⟩ : TabBarVC.Playing { map := { user := _ } } N)
  | passwordChanged hleaf ht hn =>
    refine ⟨hd,?_,by simp⟩
    simpa using conforming_setValue (.user _ (.password _))
  | @map tab t q r ht hr =>
    have hroam := MapVC.onRead_roaming hr hn
    have hold := hd t (List.mem_of_getElem? ht)
    obtain ⟨hu,heffect⟩ := MapVC.onRead_effect hr
    have huser : r.locals.user.Playing := hu ▸ hold.user
    refine ⟨Device.playing_setTab hd ?_,?_,?_⟩
    · rcases MapVC.onRead_spawn hr with ⟨-,-,new,hsp⟩ | hfill
      · refine hold.map huser (MapVC.roaming_of_spawn hsp hroam hold.annotations) ?_
        simpa only [hsp.locals] using hold.selected
      · refine hold.map huser ?_ (by simpa only [hfill.selected] using hold.selected)
        cases q with
        | findEnemiesAroundUser =>
          obtain ⟨enemies,he,hr⟩ := bind_eq_ok.mp hr
          cases hr
          exact List.forall_mem_append.mpr ⟨hold.annotations,roaming_of_scan hs he⟩
        | _ =>
          intro enemy he
          rcases hfill.annotations enemy he with hmem | ⟨hq,-⟩
          · exact hold.annotations enemy hmem
          · cases hq
    · simp only [Device.ofMap]
      rcases heffect with ⟨c,-,hw,-⟩ | ⟨enemy,rfl,hw,-⟩ | ⟨hw,-⟩
      · rw [hw]
        exact conforming_locationWrites _ _
      · rw [hw]
        exact conforming_enemyWrites (hq enemy rfl)
      · simp [hw]
    · intro q' hq' enemy he
      obtain ⟨q'',hq'',rfl⟩ := List.mem_map.mp hq'
      exact hroam q'' hq'' enemy he
  | userIsNew hv hc => exact ⟨hd,by simp,by simp [Read.enemy]⟩
  | _ => exact ⟨hd,by simp [Device.idle],by simp [Device.idle]⟩

structure InPlay (N : String → Prop) (w : World K) : Prop where
  store : Conforms (Stored N) [] w.store
  writes : ∀ c, ∀ x ∈ (w.clients c).writes, x.Conforming N
  snapshots : ∀ c, ∀ rd ∈ (w.clients c).reads, ∀ s, rd.snapshot = some s →
    Conforms (Stored N) rd.read.path s
  asked : ∀ c, ∀ rd ∈ (w.clients c).reads, ∀ enemy, rd.read.enemy = some enemy → enemy.Roaming N
  sessions : ∀ c, ∀ t ∈ (w.clients c).locals.tabBarVCs, t.Playing N

variable {l : Label K} {w w' : World K}

omit [LinearOrder K] [FloorRing K] [IsStrictOrderedRing K] in
theorem inPlay_start : InPlay N (World.start (.empty : FNode K)) where
  store := .empty
  writes := by simp [World.start]
  snapshots := by simp [World.start]
  asked := by simp [World.start]
  sessions := by simp [World.start]

theorem InPlay.reacts (h : InPlay N w) {c : Nat} {r : DeviceReaction K}
    (hr : Reacts (program p) w c r l) (hn : ∀ draw, drawOf l = some draw → N draw.randomName) :
    (∀ t ∈ r.locals.tabBarVCs, t.Playing N) ∧ (∀ x ∈ r.writes, x.Conforming N) ∧
      ∀ q ∈ r.reads, ∀ enemy, q.enemy = some enemy → enemy.Roaming N := by
  cases hr with
  | event hr => exact (onEvent_outcome hr).inPlay (h.sessions c) hn
  | deliver hq hr =>
    have hmem := List.mem_of_getElem? hq
    exact (onRead_outcome hr).inPlay (h.sessions c) (h.snapshots c _ hmem _ rfl)
      (h.asked c _ hmem) (hn _ rfl)

theorem InPlay.step (h : InPlay N w) (hn : ∀ draw, drawOf l = some draw → N draw.randomName)
    (hs : GFLGO.step p l w = some w') : InPlay N w' where
  store := by
    rcases step_store hs with hsame | ⟨c,x,xs,-,hx,hstore⟩
    · exact hsame ▸ h.store
    · rw [hstore]
      exact h.store.updateChild (h.writes c x (by rw [hx]; exact List.mem_cons_self))
  writes := fun c x hx => by
    rcases mem_writes_step hs hx with hold | ⟨r,hr,hnew⟩
    · exact h.writes c x hold
    · exact (h.reacts hr hn).2.1 x hnew
  snapshots := fun c rd hrd s hsn => by
    rcases snapshot_of_step hs hrd hsn with hold | ⟨i,-,-,hview⟩
    · exact h.snapshots c rd hold s hsn
    · rw [hview]
      exact h.store.getChild rd.read.path
  asked := fun c rd hrd enemy he => by
    rcases mem_reads_step hs hrd with ⟨rd',hrd',hsame⟩ | ⟨r,hr,hnew⟩
    · exact h.asked c rd' hrd' enemy (hsame ▸ he)
    · exact (h.reacts hr hn).2.2 rd.read hnew enemy he
  sessions := fun c t ht => by
    rcases locals_of_step hs c with hsame | ⟨r,hr,hsame⟩
    · exact h.sessions c t (hsame ▸ ht)
    · exact (h.reacts hr hn).1 t (hsame ▸ ht)

theorem inPlay_of_run {ls : List (Label K)}
    (hn : ∀ l ∈ ls, ∀ draw, drawOf l = some draw → N draw.randomName)
    (hr : run (step p) ls (World.start .empty) = some w) : InPlay N w :=
  run_invariant (step p) (fun _ _ _ h hn hs => h.step hn hs) inPlay_start
    (along_of_forall_mem (step p) hn _) hr

theorem inPlay_of_anyNames {ls : List (Label K)}
    (hr : run (step p) ls (World.start .empty) = some w) : InPlay (fun _ => True) w :=
  inPlay_of_run (fun _ _ _ _ => trivial) hr

/-- However the clients' steps interleave, every value in the database stands where the schema
has it, and the names of the enemies are among those that can be drawn. -/
theorem stored_of_run {ls : List (Label K)}
    (hn : ∀ l ∈ ls, ∀ draw, drawOf l = some draw → N draw.randomName)
    (hr : run (step p) ls (World.start .empty) = some w) (path : List String) (v : Value K)
    (hv : w.store.getChild path = .leaf v) : Stored N path v := by
  have hc := (inPlay_of_run hn hr).store.getChild path
  rw [hv] at hc
  exact hc.of_leaf

/-- All sessions of all clients show the same health and power, a level of at least 2, and
experience that agrees with the level. -/
theorem sessions_of_run {ls : List (Label K)}
    (hr : run (step p) ls (World.start .empty) = some w) {c : Nat} {t : TabBarVC K}
    (ht : t ∈ (w.clients c).locals.tabBarVCs) :
    t.map.user.health = 50 ∧ t.map.user.power = 3.2 ∧ 2 ≤ t.map.user.level ∧
      0 ≤ t.map.user.exp ∧ t.map.user.exp < 5 ∧
      t.map.user.totalExp = 5 * t.map.user.level + t.map.user.exp := by
  have h := ((inPlay_of_anyNames hr).sessions c t ht).user
  have hexp := h.totalExp
  have hnonneg : 0 ≤ t.map.user.totalExp := by omega
  rw [h.exp,h.level,Int.tmod_eq_emod_of_nonneg hnonneg,Int.tdiv_eq_ediv_of_nonneg hnonneg]
  exact ⟨h.health,h.power,by omega,by omega,by omega,by omega⟩

end

def firstBattle : List (Label ℚ) :=
  signup 0 sampleDraw 0 "ann" "pw" ++ login 0 sampleDraw "ann" "pw" ++
    locate 0 sampleDraw 0 ⟨0,0⟩ ++ addEnemy 0 sampleDraw 0 ++ battle 0 0 0 ++ tapAttack 0 0 0 ++
      [.event 0 (.scene 0 0 .waitCompleted)]

theorem stored_of_run_firstBattle : ∃ w,
    run (step planePlatform) firstBattle (World.start .empty) = some w ∧
    w.store.getChild ["users","0","totalExp"] = .leaf (.int 10) ∧
    Stored (fun name => name = "Aegis") ["users","0","totalExp"] (.int 10 : Value ℚ) := by
  have hdraws : firstBattle.all
      (fun l => (drawOf l).all (fun d => d.randomName = "Aegis")) = true := by
    decide +kernel
  have hrun : (run (step planePlatform) firstBattle (World.start .empty)).map
      (fun w => leafInt (w.store.getChild ["users","0","totalExp"])) =
        some (some 10) := by
    decide +kernel
  obtain ⟨w,hw,hv⟩ := Option.map_eq_some_iff.mp hrun
  have hleaf := leafInt_eq_some.mp hv
  refine ⟨w,hw,hleaf,stored_of_run (fun l hl draw hd => ?_) hw _ _ hleaf⟩
  simpa [hd] using List.all_eq_true.mp hdraws l hl

theorem sessions_of_run_firstBattle : ∃ w,
    run (step planePlatform) firstBattle (World.start .empty) = some w ∧
    ∃ t ∈ (w.clients 0).locals.tabBarVCs, 2 ≤ t.map.user.level := by
  have hrun : (run (step planePlatform) firstBattle (World.start .empty)).map
      (fun w => (w.clients 0).locals.tabBarVCs.isEmpty) = some false := by
    decide +kernel
  obtain ⟨w,hw,hne⟩ := Option.map_eq_some_iff.mp hrun
  obtain ⟨t,ht⟩ := List.exists_mem_of_ne_nil _ (List.isEmpty_eq_false_iff.mp hne)
  exact ⟨w,hw,t,ht,(sessions_of_run hw ht).2.2.1⟩

end GFLGO
