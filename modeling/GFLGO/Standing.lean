import GFLGO.Enemies

/-!
Clients that stay at one position. Without the Add Enemy button only the timer
spawns, from a count that found less than twenty enemies.
-/

set_option autoImplicit false

namespace GFLGO

open Runs Async

section
variable {K : Type}

def Event.reported : Event K → List (Coordinate K)
  | .map _ (.didUpdateLocations locations) => locations
  | _ => []

def Event.isAddEnemy : Event K → Bool
  | .map _ (.addEnemyAction _) => true
  | _ => false

/-- Every location that is reported is the position, and Add Enemy is not pressed. -/
def StandsAt (pos : Coordinate K) : Label K → Prop
  | .event _ e => e.isAddEnemy = false ∧ ∀ location ∈ e.reported, location = pos
  | _ => True

instance [DecidableEq K] (pos : Coordinate K) : DecidablePred (StandsAt pos)
  | .event _ e =>
    inferInstanceAs (Decidable (e.isAddEnemy = false ∧ ∀ location ∈ e.reported, location = pos))
  | .snapshot _ _ | .deliver _ _ _ | .apply _ => isTrue trivial

def Standing (pos : Coordinate K) (d : Device K) : Prop :=
  ∀ t ∈ d.tabBarVCs, ∀ location, t.map.userLocation = some location → location = pos

variable [Field K] [LinearOrder K] {p : Platform K} {d : Device K}

omit [LinearOrder K] in
theorem MapVC.onEvent_userLocation {e : MapEvent K} {m : MapVC K} {r : MapReaction K}
    (h : m.onEvent p e = .ok r) : r.locals.userLocation = m.userLocation ∨
      ∃ locations location, e = .didUpdateLocations locations ∧ location ∈ locations ∧
        r.locals.userLocation = some location := by
  cases e with
  | didUpdateLocations locations =>
    obtain ⟨location,hl,h⟩ := bind_eq_ok.mp h
    obtain ⟨r',hr,h⟩ := bind_eq_ok.mp h
    cases h
    refine Or.inr ⟨locations,location,rfl,List.mem_of_getLast? (unwrap_eq_ok.mp hl),?_⟩
    cases hf : m.firstCenter with
    | true =>
      simp only [setUserLocation,hf,if_true,centerMap,unwrap_some,bind,Except.bind] at hr
      cases hr
      rfl
    | false =>
      simp only [setUserLocation,hf,Bool.false_eq_true,if_false] at hr
      cases hr
      rfl
  | viewWillAppear =>
    cases h
    cases hf : m.firstCenter <;> exact Or.inl (by simp [viewWillAppear,hf,setUpAnnotations])
  | centerAction =>
    obtain ⟨m',hm,h⟩ := bind_eq_ok.mp h
    obtain ⟨location,_,hc⟩ := bind_eq_ok.mp hm
    cases hc
    cases h
    exact Or.inl rfl
  | addEnemyAction draw =>
    obtain ⟨enemy,hs⟩ := spawn_of_ok h
    exact Or.inl (by rw [hs.locals])
  | didSelect i =>
    cases h
    simp only [didSelect]
    split <;> exact Or.inl rfl
  | touchesBegan onCallout =>
    cases h
    simp only [touchesBegan]
    split <;> exact Or.inl rfl
  | viewDidDisappear =>
    cases h
    exact Or.inl rfl
  | timerTick =>
    cases h
    exact Or.inl rfl

omit [Field K] [LinearOrder K] in
theorem Standing.setTab {pos : Coordinate K} (h : Standing pos d) {tab : Nat} {u : TabBarVC K}
    (hu : ∀ location, u.map.userLocation = some location → location = pos) :
    Standing pos (d.setTab tab u) := by
  intro t ht location hl
  rcases Device.mem_setTab ht with rfl | hold
  · exact hu location hl
  · exact h t hold location hl

omit [Field K] [LinearOrder K] in
theorem Standing.setTab_of_eq {pos : Coordinate K} (h : Standing pos d) {tab : Nat}
    {t u : TabBarVC K} (ht : d.tabBarVCs[tab]? = some t)
    (hu : u.map.userLocation = t.map.userLocation) : Standing pos (d.setTab tab u) :=
  h.setTab (fun location hl => h t (List.mem_of_getElem? ht) location (hu ▸ hl))

theorem EventOutcome.standing {pos : Coordinate K} {c : Nat} {e : Event K} {r : DeviceReaction K}
    (h : EventOutcome p d e r) (hl : StandsAt pos (.event c e)) (hd : Standing pos d) :
    Standing pos r.locals := by
  cases h with
  | @map tab t e r ht hr =>
    rcases MapVC.onEvent_userLocation hr with hsame | ⟨locations,location,rfl,hmem,hnew⟩
    · exact hd.setTab_of_eq ht hsame
    · refine hd.setTab (fun location' hloc => ?_)
      have heq : location = location' := by simpa [hnew] using hloc
      exact heq ▸ hl.2 location hmem
  | battleAction ht he => exact hd.setTab_of_eq ht rfl
  | scene ht hs hr => exact hd.setTab_of_eq ht rfl
  | newPassword ht => exact hd.setTab_of_eq ht rfl
  | logout ht => exact hd.setTab_of_eq ht rfl
  | _ => exact hd

theorem EventOutcome.addEnemy {e : Event K} {r : DeviceReaction K} {enemy : Enemy K}
    (h : EventOutcome p d e r) (ha : GFLGO.asked (.ok r) = some enemy) :
    ∃ tab draw, e = .map tab (.addEnemyAction draw) := by
  obtain ⟨q,hq,he⟩ := List.exists_of_findSome?_eq_some ha
  cases h with
  | @map tab t e r ht hr =>
    obtain ⟨q',hq',rfl⟩ := List.mem_map.mp hq
    rcases MapVC.onEvent_spawn hr with ⟨draw,_,rfl,_⟩ | ⟨_,hno⟩
    · exact ⟨tab,draw,rfl⟩
    · rw [Read.enemy,hno.reads q' hq'] at he
      contradiction
  | createAccountAction hv =>
    rw [List.mem_singleton.mp hq] at he
    contradiction
  | loginAction =>
    rw [List.mem_singleton.mp hq] at he
    contradiction
  | changePasswordAction ht hn =>
    rw [List.mem_singleton.mp hq] at he
    contradiction
  | _ => simp [Device.idle,Device.ofScene] at hq

variable [FloorRing K]

theorem MapVC.onRead_userLocation {q : MapRead K} {snapshot : FNode K} {draw : Draw K}
    {m : MapVC K} {r : MapReaction K} (h : m.onRead p q snapshot draw = .ok r) :
    r.locals.userLocation = m.userLocation := by
  cases q with
  | didUpdateLocations c =>
    cases h
    rfl
  | findEnemiesAroundUser =>
    obtain ⟨enemies,_,h⟩ := bind_eq_ok.mp h
    cases h
    rfl
  | findPlayersAroundUser =>
    obtain ⟨players,_,h⟩ := bind_eq_ok.mp h
    cases h
    rfl
  | getNumberOfEnemiesAroundUser =>
    rcases onRead_count h with ⟨_,enemy,hs⟩ | ⟨_,rfl⟩
    · rw [hs.locals]
    · rfl
  | addEnemyToFirebase enemy =>
    cases h
    rfl

theorem ReadOutcome.standing {pos : Coordinate K} {snapshot : FNode K} {draw : Draw K}
    {q : Read K} {r : DeviceReaction K} (h : ReadOutcome p snapshot draw d q r)
    (hd : Standing pos d) : Standing pos r.locals := by
  cases h with
  | map ht hr => exact hd.setTab_of_eq ht (MapVC.onRead_userLocation hr)
  | login hl =>
    intro t ht location hloc
    rcases List.mem_append.mp ht with hold | hlast
    · exact hd t hold location hloc
    · rw [List.mem_singleton.mp hlast] at hloc
      contradiction
  | _ => exact hd

inductive CountStep (p : Platform K) (w : World K) (enemy : Enemy K) : Label K → Prop
  | deliver {c i tab : Nat} {d : Draw K} {s : FNode K} {t : TabBarVC K} {r : MapReaction K}
    (hr : (w.clients c).reads[i]? = some ⟨.map tab .getNumberOfEnemiesAroundUser,some s⟩)
    (ht : (w.clients c).locals.tabBarVCs[tab]? = some t)
    (hc : MapVC.CountSpawns p s d t.map) (hs : MapVC.Spawn p d t.map enemy r) :
    CountStep p w enemy (.deliver c i d)

theorem ReadOutcome.count_of_asked {snapshot : FNode K} {draw : Draw K} {q : Read K}
    {r : DeviceReaction K} {enemy : Enemy K} (h : ReadOutcome p snapshot draw d q r)
    (ha : GFLGO.asked (.ok r) = some enemy) :
    ∃ tab t mr, q = .map tab .getNumberOfEnemiesAroundUser ∧ d.tabBarVCs[tab]? = some t ∧
      MapVC.CountSpawns p snapshot draw t.map ∧ MapVC.Spawn p draw t.map enemy mr := by
  obtain ⟨q',hq',he⟩ := List.exists_of_findSome?_eq_some ha
  cases h with
  | @map tab t q r ht hr =>
    obtain ⟨q'',hq'',rfl⟩ := List.mem_map.mp hq'
    rcases MapVC.onRead_spawn hr with ⟨rfl,hc,new,hs⟩ | hfill
    · have hsame := show GFLGO.asked (.ok (d.ofMap tab t r)) = some new from hs.asked
      rw [ha,Option.some.injEq] at hsame
      exact ⟨tab,t,r,rfl,ht,hc,hsame ▸ hs⟩
    · simp [hfill.reads] at hq''
  | userIsNew hv hc =>
    rw [List.mem_singleton.mp hq'] at he
    contradiction
  | _ => simp [Device.idle] at hq'

variable {pos : Coordinate K} {l : Label K} {w w' : World K}

theorem countStep_of_spawned {enemy : Enemy K} (hl : StandsAt pos l)
    (h : spawned p l w = some enemy) : CountStep p w enemy l := by
  cases l with
  | event c e =>
    have hasked : asked ((w.clients c).locals.onEvent p e) = some enemy := h
    cases hr : (w.clients c).locals.onEvent p e with
    | error t => simp [hr,asked] at hasked
    | ok r =>
      rw [hr] at hasked
      obtain ⟨tab,draw,rfl⟩ := (onEvent_outcome hr).addEnemy hasked
      exact absurd hl.1 (by simp [Event.isAddEnemy])
  | deliver c i d =>
    simp only [spawned] at h
    split at h
    · next q s hq =>
      cases hr : (w.clients c).locals.onRead p q s d with
      | error t => simp [hr,asked] at h
      | ok r =>
        rw [hr] at h
        obtain ⟨tab,t,mr,rfl,ht,hc,hs⟩ := (onRead_outcome hr).count_of_asked h
        exact .deliver hq ht hc hs
    · contradiction
  | snapshot c i => contradiction
  | apply c => contradiction

theorem standing_step (h : ∀ c, Standing pos (w.clients c).locals) (hl : StandsAt pos l)
    (hs : step p l w = some w') : ∀ c, Standing pos (w'.clients c).locals := by
  intro c
  rcases locals_of_step hs c with hsame | ⟨r,hr,hnew⟩
  · exact hsame ▸ h c
  · rw [hnew]
    cases hr with
    | event hr => exact (onEvent_outcome hr).standing hl (h c)
    | deliver hq hr => exact (onRead_outcome hr).standing (h c)

end

end GFLGO
