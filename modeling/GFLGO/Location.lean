import Mathlib.Data.Rat.Floor
import GFLGO.Scans

/-! Where the map forces `userLocation`, and when it is there. -/

set_option autoImplicit false

namespace GFLGO

open Runs Async

abbrev MapProcess (K : Type) := Process (MapVC K) (MapRead K) Trap

abbrev MapInput (K : Type) := Input (MapEvent K) (FNode K) (Draw K)

namespace MapVC

/-- The callbacks that fill the map again after it was cleared. -/
def fills {K : Type} : MapRead K → Bool
  | .findEnemiesAroundUser | .findPlayersAroundUser => true
  | _ => false

/-- As long as there is no location, the map has not been centered and no
callback is pending that would fill it. -/
def Waiting {K : Type} (m : MapVC K) (reads : List (MapRead K)) : Prop :=
  m.userLocation = none → m.firstCenter = true ∧ ∀ q ∈ reads, fills q = false

def LeavesWaiting {K : Type} (m : MapVC K) (r : MapReaction K) : Prop :=
  r.locals.userLocation = none →
    m.userLocation = none ∧ r.locals.firstCenter = m.firstCenter ∧ ∀ q ∈ r.reads, fills q = false

theorem LeavesWaiting.idle {K : Type} {m : MapVC K} : LeavesWaiting m { locals := m } :=
  fun hn => ⟨hn,rfl,by simp⟩

theorem Waiting.absorb {K : Type} {m : MapVC K} {reads : List (MapRead K)} {r : MapReaction K}
    (h : Waiting m reads) (hr : LeavesWaiting m r) : Waiting r.locals (reads ++ r.reads) := by
  intro hn
  obtain ⟨hm,hf,hq⟩ := hr hn
  refine ⟨hf.trans (h hm).1,fun q hmem => ?_⟩
  rcases List.mem_append.mp hmem with hold | hnew
  · exact (h hm).2 q hold
  · exact hq q hnew

section
variable {K : Type} [Field K]

theorem spawnEnemy_eq_error {p : Platform K} {d : Draw K} {m : MapVC K} {t : Trap} :
    m.spawnEnemy p d = .error t ↔ m.userLocation = none ∧ t = .userLocation := by
  cases hu : m.userLocation <;> simp [spawnEnemy,hu,unwrap,bind,Except.bind,eq_comm]

theorem spawnEnemy_waiting {p : Platform K} {d : Draw K} {m : MapVC K} {r : MapReaction K}
    (h : m.spawnEnemy p d = .ok r) : LeavesWaiting m r := by
  obtain ⟨location,hu,hr⟩ := bind_eq_ok.mp h
  rw [unwrap_eq_ok] at hu
  simp only [Except.ok.injEq] at hr
  subst hr
  intro hn
  rw [hu] at hn
  contradiction

variable [LinearOrder K]

/-- What the timer's count does with its snapshot: it measures the first enemy,
or finds none and draws a spawn. -/
def countUsesLocation (snapshot : FNode K) (d : Draw K) : Bool :=
  match snapshot.children with
  | [] => successfulWithPercent 20 d
  | child :: _ =>
    match asDouble .getNumberOfEnemiesAroundUser "latitude" child.2,
      asDouble .getNumberOfEnemiesAroundUser "longitude" child.2 with
    | .ok _, .ok _ => true
    | _, _ => false

/-- The inputs that use the location without waiting for it: a Center tap, an
Add Enemy tap, and the timer's count. -/
def UsesLocation : MapInput K → MapProcess K → Prop
  | .event .centerAction, s => s.trap = none
  | .event (.addEnemyAction _), s => s.trap = none
  | .deliver i snapshot d, s =>
    s.reads[i]? = some .getNumberOfEnemiesAroundUser ∧ countUsesLocation snapshot d = true
  | _, _ => False

def LocationFirst (inp : MapInput K) (s : MapProcess K) : Prop :=
  UsesLocation inp s → s.locals.userLocation ≠ none

theorem onEvent_eq_error {p : Platform K} [FloorRing K] {e : MapEvent K} {m : MapVC K}
    (h : m.onEvent p e = .error .userLocation) :
    m.userLocation = none ∧ (e = .centerAction ∨ ∃ d, e = .addEnemyAction d) := by
  cases e with
  | viewWillAppear => contradiction
  | viewDidDisappear => contradiction
  | didUpdateLocations locations =>
    -- the location has just been assigned when the observer centers the map
    simp only [onEvent,didUpdateLocations] at h
    rcases bind_eq_error.mp h with hn | ⟨c,_,h⟩
    · have := (unwrap_eq_error.mp hn).2
      contradiction
    · cases hf : m.firstCenter <;>
        simp [setUserLocation,centerMap,hf,bind,Except.bind] at h
  | centerAction =>
    simp only [onEvent,centerAction,centerMap] at h
    cases hu : m.userLocation with
    | none => exact ⟨rfl,Or.inl rfl⟩
    | some location => simp [hu,bind,Except.bind] at h
  | addEnemyAction d =>
    exact ⟨(spawnEnemy_eq_error.mp h).1,Or.inr ⟨d,rfl⟩⟩
  | timerTick => contradiction
  | didSelect i => contradiction
  | touchesBegan onCallout => contradiction

theorem onEvent_waiting {p : Platform K} [FloorRing K] {e : MapEvent K} {m : MapVC K}
    {r : MapReaction K} (h : m.onEvent p e = .ok r)
    (hm : m.userLocation = none → m.firstCenter = true) : LeavesWaiting m r := by
  cases e with
  | viewWillAppear =>
    simp only [onEvent,Except.ok.injEq] at h
    subst h
    cases hf : m.firstCenter with
    | true =>
      intro hn
      simp only [viewWillAppear,hf,if_true] at hn ⊢
      exact ⟨hn,trivial,by simp⟩
    | false =>
      intro hn
      simp only [viewWillAppear,hf,Bool.false_eq_true,if_false,setUpAnnotations] at hn
      have := hm hn
      rw [hf] at this
      contradiction
  | viewDidDisappear =>
    simp only [onEvent,Except.ok.injEq] at h
    exact h ▸ LeavesWaiting.idle
  | didUpdateLocations locations =>
    simp only [onEvent,didUpdateLocations] at h
    obtain ⟨c,_,h⟩ := bind_eq_ok.mp h
    intro hn
    cases hf : m.firstCenter <;>
      simp [setUserLocation,centerMap,setUpAnnotations,hf,bind,Except.bind] at h <;>
      simp [← h] at hn
  | centerAction =>
    simp only [onEvent,centerAction,centerMap] at h
    obtain ⟨m',hm',h⟩ := bind_eq_ok.mp h
    obtain ⟨location,hu,hc⟩ := bind_eq_ok.mp hm'
    rw [unwrap_eq_ok] at hu
    simp only [Except.ok.injEq] at h hc
    intro hn
    simp [← h,← hc,setUpAnnotations,hu] at hn
  | addEnemyAction d => exact spawnEnemy_waiting h
  | timerTick =>
    simp only [onEvent,Except.ok.injEq] at h
    subst h
    exact fun hn => ⟨hn,rfl,by simp [fills]⟩
  | didSelect i =>
    simp only [onEvent,Except.ok.injEq,didSelect] at h
    subst h
    split <;> exact fun hn => ⟨hn,rfl,by simp⟩
  | touchesBegan onCallout =>
    simp only [onEvent,Except.ok.injEq,touchesBegan] at h
    subst h
    split <;> exact fun hn => ⟨hn,rfl,by simp⟩

theorem getNumberOfEnemiesAroundUser_none {p : Platform K} {snapshot : FNode K} {d : Draw K}
    {m : MapVC K} (hu : m.userLocation = none) :
    (do
      let numEnemies ← getNumberOfEnemiesAroundUser p none snapshot.children
      if numEnemies < 20 ∧ successfulWithPercent (20-numEnemies) d then m.spawnEnemy p d
      else .ok { locals := m }) = .error .userLocation ↔
    countUsesLocation snapshot d = true := by
  unfold countUsesLocation
  cases snapshot.children with
  | nil =>
    simp only [getNumberOfEnemiesAroundUser,bind,Except.bind]
    cases hs : successfulWithPercent 20 d with
    | true => simp [hs,spawnEnemy_eq_error,hu]
    | false => simp [hs]
  | cons child rest =>
    simp only [getNumberOfEnemiesAroundUser]
    cases hlat : asDouble .getNumberOfEnemiesAroundUser "latitude" child.2 with
    | error t =>
      have ht := asDouble_eq_error hlat
      simp [bind,Except.bind,ht]
    | ok latitude =>
      cases hlong : asDouble .getNumberOfEnemiesAroundUser "longitude" child.2 with
      | error t =>
        have ht := asDouble_eq_error hlong
        simp [bind,Except.bind,ht]
      | ok longitude => simp [bind,Except.bind,unwrap]

variable [FloorRing K]

theorem onRead_eq_error {p : Platform K} {q : MapRead K} {snapshot : FNode K}
    {d : Draw K} {m : MapVC K} (h : m.onRead p q snapshot d = .error .userLocation) :
    m.userLocation = none ∧
      (fills q = true ∨
        q = .getNumberOfEnemiesAroundUser ∧ countUsesLocation snapshot d = true) := by
  cases hu : m.userLocation with
  | some location =>
    -- with a location every force unwrap succeeds
    cases q with
    | didUpdateLocations c => contradiction
    | findEnemiesAroundUser =>
      simp only [onRead,hu,bind_eq_error] at h
      rcases h with h | ⟨_,_,h⟩
      · obtain ⟨_,_,_⟩ | ⟨_,_⟩ := findEnemiesAroundUser_eq_error h <;> contradiction
      · contradiction
    | findPlayersAroundUser =>
      simp only [onRead,hu,bind_eq_error] at h
      rcases h with h | ⟨_,_,h⟩
      · obtain ⟨_,_,_⟩ | ⟨_,_⟩ | ⟨_,_⟩ := findPlayersAroundUser_eq_error h <;> contradiction
      · contradiction
    | getNumberOfEnemiesAroundUser =>
      simp only [onRead,hu,bind_eq_error] at h
      rcases h with h | ⟨_,_,h⟩
      · obtain ⟨_,_,_⟩ | ⟨_,_⟩ := getNumberOfEnemiesAroundUser_eq_error h <;> contradiction
      · split at h
        · have := (spawnEnemy_eq_error.mp h).1
          rw [hu] at this
          contradiction
        · contradiction
    | addEnemyToFirebase enemy => contradiction
  | none =>
    refine ⟨rfl,?_⟩
    cases q with
    | didUpdateLocations c => contradiction
    | findEnemiesAroundUser => exact Or.inl rfl
    | findPlayersAroundUser => exact Or.inl rfl
    | getNumberOfEnemiesAroundUser =>
      simp only [onRead,hu] at h
      exact Or.inr ⟨rfl,(getNumberOfEnemiesAroundUser_none hu).mp h⟩
    | addEnemyToFirebase enemy => contradiction

theorem onRead_waiting {p : Platform K} {q : MapRead K} {snapshot : FNode K} {d : Draw K}
    {m : MapVC K} {r : MapReaction K} (h : m.onRead p q snapshot d = .ok r) :
    LeavesWaiting m r := by
  cases q with
  | didUpdateLocations c =>
    simp only [onRead,Except.ok.injEq] at h
    exact h ▸ fun hn => ⟨hn,rfl,by simp⟩
  | findEnemiesAroundUser =>
    obtain ⟨enemies,_,h⟩ := bind_eq_ok.mp h
    simp only [Except.ok.injEq] at h
    exact h ▸ fun hn => ⟨hn,rfl,by simp⟩
  | findPlayersAroundUser =>
    obtain ⟨players,_,h⟩ := bind_eq_ok.mp h
    simp only [Except.ok.injEq] at h
    exact h ▸ fun hn => ⟨hn,rfl,by simp⟩
  | getNumberOfEnemiesAroundUser =>
    obtain ⟨numEnemies,_,h⟩ := bind_eq_ok.mp h
    split at h
    · exact spawnEnemy_waiting h
    · simp only [Except.ok.injEq] at h
      exact h ▸ LeavesWaiting.idle
  | addEnemyToFirebase enemy =>
    simp only [onRead,Except.ok.injEq] at h
    exact h ▸ fun hn => ⟨hn,rfl,by simp⟩

def program (p : Platform K) :
    Program (MapVC K) (MapEvent K) (MapRead K) (FNode K) (Draw K) (Write K) (Note K) Trap :=
  { onEvent := fun e m => m.onEvent p e
    onRead := fun q snapshot d m => m.onRead p q snapshot d }

def step (p : Platform K) : MapInput K → MapProcess K → Option (MapProcess K) :=
  Process.step (program p)

def viewDidLoad (user : User K) : MapProcess K := { locals := { user } }

/-- No force unwrap of `userLocation` fails in any state the inputs lead to. -/
def LocationThere (p : Platform K) (user : User K) (inps : List (MapInput K)) : Prop :=
  ∀ as s, as <+: inps → run (step p) as (viewDidLoad user) = some s →
    s.trap ≠ some .userLocation

structure Ready (s : MapProcess K) : Prop where
  untrapped : s.trap ≠ some .userLocation
  waiting : Waiting s.locals s.reads

omit [Field K] [LinearOrder K] [FloorRing K] in
theorem ready_viewDidLoad (user : User K) : Ready (viewDidLoad user) :=
  { untrapped := by simp [viewDidLoad]
    waiting := fun _ => ⟨rfl,by simp [viewDidLoad]⟩ }

omit [Field K] [LinearOrder K] [FloorRing K] in
theorem Ready.absorb {s : MapProcess K} {r : Except Trap (MapReaction K)} (hi : Ready s)
    (he : r ≠ .error .userLocation) (hr : ∀ r', r = .ok r' → LeavesWaiting s.locals r') :
    Ready (s.absorb r) := by
  cases r with
  | error t =>
    refine ⟨fun ht => he ?_,fun hn => ⟨(hi.waiting hn).1,by simp [Process.absorb]⟩⟩
    simp only [Process.absorb,Option.some.injEq] at ht
    rw [ht]
  | ok r' => exact ⟨hi.untrapped,hi.waiting.absorb (hr r' rfl)⟩

omit [Field K] [LinearOrder K] [FloorRing K] in
theorem Ready.eraseRead {s : MapProcess K} (hi : Ready s) (i : Nat) :
    Ready { s with reads := s.reads.eraseIdx i } :=
  { untrapped := hi.untrapped
    waiting := fun hn =>
      ⟨(hi.waiting hn).1,fun q hq => (hi.waiting hn).2 q (List.mem_of_mem_eraseIdx hq)⟩ }

theorem Ready.step {p : Platform K} {inp : MapInput K} {s s' : MapProcess K} (hi : Ready s)
    (hc : LocationFirst inp s) (h : step p inp s = some s') : Ready s' := by
  cases inp with
  | event e =>
    simp only [MapVC.step,Process.step] at h
    split at h
    · contradiction
    · next ht =>
      have htrap : s.trap = none := by simpa using ht
      simp only [Option.some.injEq] at h
      subst h
      refine hi.absorb (fun he => ?_)
        (fun r' hr' => onEvent_waiting hr' (fun hn => (hi.waiting hn).1))
      obtain ⟨hn,rfl | ⟨d,rfl⟩⟩ := onEvent_eq_error he
      · exact hc htrap hn
      · exact hc htrap hn
  | deliver i snapshot d =>
    simp only [MapVC.step,Process.step] at h
    split at h
    · next q hq =>
      simp only [Option.some.injEq] at h
      subst h
      refine (hi.eraseRead i).absorb (fun he => ?_) (fun r' hr' => onRead_waiting hr')
      obtain ⟨hn,hfill | ⟨rfl,huse⟩⟩ := onRead_eq_error he
      · have := (hi.waiting hn).2 q (List.mem_of_getElem? hq)
        rw [hfill] at this
        contradiction
      · exact hc ⟨hq,huse⟩ hn
    · contradiction

/-- Without a location each of these inputs runs into the force unwrap. -/
theorem trap_of_usesLocation {p : Platform K} {inp : MapInput K} {s : MapProcess K}
    (hu : UsesLocation inp s) (hn : s.locals.userLocation = none) :
    ∃ s', step p inp s = some s' ∧ s'.trap = some .userLocation := by
  cases inp with
  | event e =>
    cases e with
    | centerAction =>
      have ht : s.trap = none := hu
      simp [MapVC.step,Process.step,ht,program,onEvent,centerAction,centerMap,hn,unwrap,bind,
        Except.bind,Process.absorb]
    | addEnemyAction d =>
      have ht : s.trap = none := hu
      have he : s.locals.spawnEnemy p d = .error .userLocation :=
        spawnEnemy_eq_error.mpr ⟨hn,rfl⟩
      simp [MapVC.step,Process.step,ht,program,onEvent,he,Process.absorb]
    | viewWillAppear => exact absurd hu id
    | viewDidDisappear => exact absurd hu id
    | didUpdateLocations locations => exact absurd hu id
    | timerTick => exact absurd hu id
    | didSelect i => exact absurd hu id
    | touchesBegan onCallout => exact absurd hu id
  | deliver i snapshot d =>
    obtain ⟨hq,huse⟩ := hu
    have he := (getNumberOfEnemiesAroundUser_none (p := p) hn).mpr huse
    refine ⟨_,by simp only [MapVC.step,Process.step,hq]; rfl,?_⟩
    simp only [program,onRead,hn,he]
    rfl

theorem locationFirst_of_there {p : Platform K} {user : User K} {inps : List (MapInput K)}
    (h : LocationThere p user inps) :
    Along (step p) LocationFirst inps (viewDidLoad user) := by
  refine along_of_forall_prefix (step p) (fun as inp s hp hr huse hn => ?_)
  obtain ⟨s',hs,htrap⟩ := trap_of_usesLocation (p := p) huse hn
  refine h (as ++ [inp]) s' hp ?_ htrap
  exact (run_append_eq_some (step p)).mpr ⟨s,hr,(run_cons_eq_some (step p)).mpr ⟨s',hs,rfl⟩⟩

/-- The location is there whenever it is used exactly when none of the three
unguarded inputs comes before it. -/
theorem locationThere_iff_locationFirst (p : Platform K) (user : User K)
    (inps : List (MapInput K)) :
    LocationThere p user inps ↔ Along (step p) LocationFirst inps (viewDidLoad user) := by
  constructor
  · exact locationFirst_of_there
  · intro h as s hpre hr
    obtain ⟨bs,rfl⟩ := hpre
    have ha := ((along_append (step p) hr).mp h).1
    exact (run_invariant (step p) (fun _ _ _ hi hc hs => Ready.step hi hc hs)
      (ready_viewDidLoad user) ha hr).untrapped

end

/-- A tap on Center before the first fix. -/
theorem not_locationThere : ¬ ∀ (user : User ℚ) (inps : List (MapInput ℚ)),
    LocationThere planePlatform user inps := by
  intro h
  let user : User ℚ := User.init "ann" (some "pw") 0 50 3.2 10
  have hrun : (run (step planePlatform) [.event .centerAction] (viewDidLoad user)).map
      Process.trap = some (some .userLocation) := by
    decide +kernel
  obtain ⟨s,hs,ht⟩ := Option.map_eq_some_iff.mp hrun
  exact h user [.event .centerAction] [.event .centerAction] s (List.prefix_refl _) hs ht

end MapVC

end GFLGO
