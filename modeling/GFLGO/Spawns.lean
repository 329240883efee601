import GFLGO.Nearby

/-! When the map spawns an enemy, and what a spawn leaves behind. -/

set_option autoImplicit false

namespace GFLGO

def MapRead.enemy {K : Type} : MapRead K → Option (Enemy K)
  | .addEnemyToFirebase enemy => some enemy
  | _ => none

namespace MapVC

section
variable {K : Type} [Field K]

/-- Everything a spawn does. The enemy is on the map before it is stored. -/
structure Spawn (p : Platform K) (d : Draw K) (m : MapVC K) (enemy : Enemy K)
    (r : MapReaction K) : Prop where
  located : m.userLocation ≠ none
  identifier : enemy.identifier = getUniqueEnemyID p d m.user
  name : enemy.name = some d.randomName
  placed : ∃ location, m.userLocation = some location ∧
    (⟨enemy.latitude,enemy.longitude⟩ : Coordinate K) = getRandomCoordinateAroundUser p d location
  locals : r.locals = { m with enemyAnnotations := m.enemyAnnotations ++ [enemy] }
  reads : r.reads = [.addEnemyToFirebase enemy]
  writes : r.writes = []
  notes : r.notes = []

theorem spawn_of_ok {p : Platform K} {d : Draw K} {m : MapVC K} {r : MapReaction K}
    (h : m.spawnEnemy p d = .ok r) : ∃ enemy, Spawn p d m enemy r := by
  obtain ⟨location,hu,h⟩ := bind_eq_ok.mp h
  rw [unwrap_eq_ok] at hu
  cases h
  exact ⟨_,by simp [hu],rfl,rfl,⟨location,hu,rfl⟩,rfl,rfl,rfl,rfl⟩

/-- What an event leaves that spawns nothing. A refresh clears the map. -/
structure NoSpawn (m : MapVC K) (r : MapReaction K) : Prop where
  reads : ∀ q ∈ r.reads, q.enemy = none
  annotations : (r.locals.enemyAnnotations = [] ∧ r.locals.userAnnotations = []) ∨
    (r.locals.enemyAnnotations = m.enemyAnnotations ∧
      r.locals.userAnnotations = m.userAnnotations)
  selected : ∀ enemy, r.locals.selectedEnemy = some enemy →
    m.selectedEnemy = some enemy ∨ enemy ∈ m.enemyAnnotations

theorem onEvent_spawn {p : Platform K} {e : MapEvent K} {m : MapVC K} {r : MapReaction K}
    (h : m.onEvent p e = .ok r) :
    (∃ d enemy, e = .addEnemyAction d ∧ Spawn p d m enemy r) ∨
      ((∀ d, e ≠ .addEnemyAction d) ∧ NoSpawn m r) := by
  cases e with
  | addEnemyAction d =>
    obtain ⟨enemy,hs⟩ := spawn_of_ok h
    exact Or.inl ⟨d,enemy,rfl,hs⟩
  | viewWillAppear =>
    cases h
    refine Or.inr ⟨by simp,?_⟩
    cases hf : m.firstCenter with
    | true =>
      exact ⟨by simp [viewWillAppear,hf],Or.inr (by simp [viewWillAppear,hf]),
        by simp +contextual [viewWillAppear,hf]⟩
    | false =>
      exact ⟨by simp [viewWillAppear,hf,setUpAnnotations,MapRead.enemy],
        Or.inl (by simp [viewWillAppear,hf,setUpAnnotations]),
        by simp +contextual [viewWillAppear,hf,setUpAnnotations]⟩
  | didUpdateLocations locations =>
    obtain ⟨c,_,h⟩ := bind_eq_ok.mp h
    obtain ⟨r',hr,h⟩ := bind_eq_ok.mp h
    cases h
    refine Or.inr ⟨by simp,?_⟩
    cases hf : m.firstCenter with
    | true =>
      simp only [setUserLocation,hf,if_true,centerMap,unwrap_some,bind,Except.bind] at hr
      cases hr
      exact ⟨by simp [setUpAnnotations,MapRead.enemy],Or.inl ⟨rfl,rfl⟩,fun _ hs => Or.inl hs⟩
    | false =>
      simp only [setUserLocation,hf,Bool.false_eq_true,if_false] at hr
      cases hr
      exact ⟨by simp [MapRead.enemy],Or.inr ⟨rfl,rfl⟩,fun _ hs => Or.inl hs⟩
  | centerAction =>
    obtain ⟨m',hm,h⟩ := bind_eq_ok.mp h
    obtain ⟨location,_,hc⟩ := bind_eq_ok.mp hm
    cases hc
    cases h
    exact Or.inr ⟨by simp,by simp [setUpAnnotations,MapRead.enemy],Or.inl ⟨rfl,rfl⟩,
      fun _ hs => Or.inl hs⟩
  | didSelect i =>
    cases h
    refine Or.inr ⟨by simp,?_⟩
    simp only [didSelect]
    split
    · next enemy he =>
      refine ⟨by simp,Or.inr ⟨rfl,rfl⟩,fun enemy' hs => Or.inr ?_⟩
      cases hs
      exact List.mem_of_getElem? he
    · exact ⟨by simp,Or.inr ⟨rfl,rfl⟩,fun _ hs => Or.inl hs⟩
  | touchesBegan onCallout =>
    cases h
    refine Or.inr ⟨by simp,?_⟩
    simp only [touchesBegan]
    split <;> exact ⟨by simp,Or.inr ⟨rfl,rfl⟩,fun _ hs => Or.inl hs⟩
  | viewDidDisappear =>
    cases h
    exact Or.inr ⟨by simp,by simp,Or.inr ⟨rfl,rfl⟩,fun _ hs => Or.inl hs⟩
  | timerTick =>
    cases h
    exact Or.inr ⟨by simp,by simp [MapRead.enemy],Or.inr ⟨rfl,rfl⟩,fun _ hs => Or.inl hs⟩

/-- Which event asks for which snapshot. -/
inductive Asks : MapEvent K → MapRead K → Prop
  | enemies {e : MapEvent K} : Asks e .findEnemiesAroundUser
  | players {e : MapEvent K} : Asks e .findPlayersAroundUser
  | report {locations : List (Coordinate K)} {c : Coordinate K}
    (hl : locations.getLast? = some c) :
    Asks (.didUpdateLocations locations) (.didUpdateLocations c)
  | count : Asks .timerTick .getNumberOfEnemiesAroundUser
  | add {d : Draw K} {enemy : Enemy K} : Asks (.addEnemyAction d) (.addEnemyToFirebase enemy)

omit [Field K] in
theorem asks_setUpAnnotations {e : MapEvent K} {q : MapRead K}
    (hq : q ∈ [.findEnemiesAroundUser,.findPlayersAroundUser]) : Asks e q := by
  rcases List.mem_pair.mp hq with rfl | rfl
  · exact .enemies
  · exact .players

theorem onEvent_asks {p : Platform K} {e : MapEvent K} {m : MapVC K} {r : MapReaction K}
    {q : MapRead K} (h : m.onEvent p e = .ok r) (hq : q ∈ r.reads) : Asks e q := by
  cases e with
  | viewWillAppear =>
    cases h
    cases hf : m.firstCenter with
    | true => simp [viewWillAppear,hf] at hq
    | false =>
      simp only [viewWillAppear,hf,Bool.false_eq_true,if_false] at hq
      exact asks_setUpAnnotations hq
  | didUpdateLocations locations =>
    obtain ⟨c,hl,h⟩ := bind_eq_ok.mp h
    obtain ⟨r',hr,h⟩ := bind_eq_ok.mp h
    cases h
    rcases List.mem_append.mp hq with hfirst | hlast
    · cases hf : m.firstCenter with
      | true =>
        simp only [setUserLocation,hf,if_true,centerMap,unwrap_some,bind,Except.bind] at hr
        cases hr
        exact asks_setUpAnnotations hfirst
      | false =>
        simp only [setUserLocation,hf,Bool.false_eq_true,if_false] at hr
        cases hr
        contradiction
    · rw [List.mem_singleton.mp hlast]
      exact .report (unwrap_eq_ok.mp hl)
  | centerAction =>
    obtain ⟨m',_,h⟩ := bind_eq_ok.mp h
    cases h
    exact asks_setUpAnnotations hq
  | addEnemyAction d =>
    obtain ⟨enemy,hs⟩ := spawn_of_ok h
    rw [hs.reads,List.mem_singleton] at hq
    exact hq ▸ .add
  | timerTick =>
    cases h
    rw [List.mem_singleton.mp hq]
    exact .count
  | didSelect i =>
    cases h
    contradiction
  | touchesBegan onCallout =>
    cases h
    contradiction
  | viewDidDisappear =>
    cases h
    contradiction

theorem tick_of_count {p : Platform K} {e : MapEvent K} {m : MapVC K} {r : MapReaction K}
    (h : m.onEvent p e = .ok r) (hq : .getNumberOfEnemiesAroundUser ∈ r.reads) :
    e = .timerTick := by
  cases onEvent_asks h hq
  rfl

variable [LinearOrder K]

/-- The timer's count ends in a spawn: it reaches its end, finds less than
twenty enemies and the draw succeeds. -/
structure CountSpawns (p : Platform K) (snapshot : FNode K) (d : Draw K) (m : MapVC K) : Prop where
  located : m.userLocation ≠ none
  fields : ∀ child ∈ snapshot.children, CountFields child.2
  few : (nearChildren p 100 m.userLocation snapshot.children).length < 20
  drawn : successfulWithPercent
    (20 - (nearChildren p 100 m.userLocation snapshot.children).length) d = true

theorem countSpawns_iff {p : Platform K} {snapshot : FNode K} {d : Draw K} {m : MapVC K} :
    CountSpawns p snapshot d m ↔ m.userLocation.isSome = true ∧
      ∃ n ∈ (getNumberOfEnemiesAroundUser p m.userLocation snapshot.children).toOption,
        n < 20 ∧ successfulWithPercent (20 - n) d = true := by
  constructor
  · intro h
    obtain ⟨location,hu⟩ := Option.ne_none_iff_exists'.mp h.located
    have hcount := getNumberOfEnemiesAroundUser_of_fields (p := p) (c := location) h.fields
    rw [← hu] at hcount
    exact ⟨by rw [hu]; rfl,_,by rw [hcount]; rfl,by exact_mod_cast h.few,h.drawn⟩
  · rintro ⟨hu,n,hn,hfew,hdrawn⟩
    obtain ⟨hfields,rfl⟩ := getNumberOfEnemiesAroundUser_eq_ok (toOption_eq_some.mp hn)
    exact ⟨Option.isSome_iff_ne_none.mp hu,hfields,by exact_mod_cast hfew,hdrawn⟩

instance (p : Platform K) (snapshot : FNode K) (d : Draw K) (m : MapVC K) :
    Decidable (CountSpawns p snapshot d m) :=
  decidable_of_iff _ countSpawns_iff.symm

variable [FloorRing K]

theorem onRead_count {p : Platform K} {snapshot : FNode K} {d : Draw K} {m : MapVC K}
    {r : MapReaction K} (h : m.onRead p .getNumberOfEnemiesAroundUser snapshot d = .ok r) :
    (CountSpawns p snapshot d m ∧ ∃ enemy, Spawn p d m enemy r) ∨
      (¬ CountSpawns p snapshot d m ∧ r = { locals := m }) := by
  obtain ⟨n,hn,h⟩ := bind_eq_ok.mp h
  obtain ⟨hfields,rfl⟩ := getNumberOfEnemiesAroundUser_eq_ok hn
  split at h
  · next hs =>
    obtain ⟨enemy,hspawn⟩ := spawn_of_ok h
    exact Or.inl ⟨⟨hspawn.located,hfields,by exact_mod_cast hs.1,hs.2⟩,enemy,hspawn⟩
  · next hs =>
    cases h
    exact Or.inr ⟨fun hc => hs ⟨by exact_mod_cast hc.few,hc.drawn⟩,rfl⟩

structure Fill (q : MapRead K) (snapshot : FNode K) (m : MapVC K) (r : MapReaction K) : Prop where
  reads : r.reads = []
  selected : r.locals.selectedEnemy = m.selectedEnemy
  annotations : ∀ enemy ∈ r.locals.enemyAnnotations, enemy ∈ m.enemyAnnotations ∨
    (q = .findEnemiesAroundUser ∧ enemy.identifier ∈ snapshot.childKeys)

/-- Only a count spawns. -/
theorem onRead_spawn {p : Platform K} {q : MapRead K} {snapshot : FNode K} {d : Draw K}
    {m : MapVC K} {r : MapReaction K} (h : m.onRead p q snapshot d = .ok r) :
    (q = .getNumberOfEnemiesAroundUser ∧ CountSpawns p snapshot d m ∧
      ∃ enemy, Spawn p d m enemy r) ∨ Fill q snapshot m r := by
  cases q with
  | didUpdateLocations c =>
    cases h
    exact Or.inr ⟨rfl,rfl,fun _ he => Or.inl he⟩
  | findEnemiesAroundUser =>
    obtain ⟨enemies,he,h⟩ := bind_eq_ok.mp h
    cases h
    refine Or.inr ⟨rfl,rfl,fun enemy hmem => ?_⟩
    rcases List.mem_append.mp hmem with hold | hnew
    · exact Or.inl hold
    · have hin := List.mem_map_of_mem (f := Enemy.identifier) hnew
      rw [identifiers_of_decodes (findEnemiesAroundUser_eq_ok he).2] at hin
      exact Or.inr ⟨rfl,(nearChildren_sublist.map Prod.fst).subset hin⟩
  | findPlayersAroundUser =>
    obtain ⟨players,_,h⟩ := bind_eq_ok.mp h
    cases h
    exact Or.inr ⟨rfl,rfl,fun _ he => Or.inl he⟩
  | getNumberOfEnemiesAroundUser =>
    rcases onRead_count h with ⟨hc,hs⟩ | ⟨_,rfl⟩
    · exact Or.inl ⟨rfl,hc,hs⟩
    · exact Or.inr ⟨rfl,rfl,fun _ he => Or.inl he⟩
  | addEnemyToFirebase enemy =>
    cases h
    exact Or.inr ⟨rfl,rfl,fun _ he => Or.inl he⟩

theorem not_countSpawns_of_error {p : Platform K} {snapshot : FNode K} {d : Draw K}
    {m : MapVC K} {t : Trap}
    (h : m.onRead p .getNumberOfEnemiesAroundUser snapshot d = .error t) :
    ¬ CountSpawns p snapshot d m := by
  intro hc
  obtain ⟨location,hl⟩ := Option.ne_none_iff_exists'.mp hc.located
  have hcount := getNumberOfEnemiesAroundUser_of_fields (p := p) (c := location) hc.fields
  have hfew := hc.few
  have hdrawn := hc.drawn
  rw [hl] at hfew hdrawn
  have hspawn : ((nearChildren p 100 (some location) snapshot.children).length : Int) < 20 ∧
      successfulWithPercent
        (20 - (nearChildren p 100 (some location) snapshot.children).length) d = true :=
    ⟨by exact_mod_cast hfew,hdrawn⟩
  simp [onRead,hl,hcount,bind,Except.bind,hspawn,spawnEnemy] at h

end

end MapVC

end GFLGO
