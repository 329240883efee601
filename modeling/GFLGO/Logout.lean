import GFLGO.Experience
import GFLGO.Spawns

/-!
What a session may still write after its Logout. The tab bar is off the stack
and the timer is invalid, but callbacks that were pending run to their end.
-/

set_option autoImplicit false

namespace GFLGO

open Runs Async

section
variable {K : Type}

def Read.tab : Read K → Option Nat
  | .map tab _ | .changeIfValidPassword tab _ _ _ => some tab
  | _ => none

def MapRead.writes : MapRead K → Bool
  | .didUpdateLocations _ | .addEnemyToFirebase _ => true
  | _ => false

/-- Of all events for the session's own screens, those of its map and Logout. -/
def MapSession (c tab : Nat) : Label K → Prop
  | .event _ (.map _ _) | .event _ (.logout _) => True
  | .event c' e => c' = c → e.tab ≠ some tab
  | _ => True

def Event.loggedOut : Event K → Option Nat
  | .logout tab => some tab
  | _ => none

def Event.isMapOrLogout : Event K → Bool
  | .map _ _ | .logout _ => true
  | _ => false

instance (c tab : Nat) : DecidablePred (MapSession c tab : Label K → Prop)
  | .event c' e =>
    decidable_of_iff (e.isMapOrLogout = true ∨ (c' = c → e.tab ≠ some tab))
      (by cases e <;> simp [MapSession,Event.isMapOrLogout])
  | .snapshot _ _ | .deliver _ _ _ | .apply _ => isTrue trivial

def Read.isCountOf (tab : Nat) : Read K → Bool
  | .map tab' .getNumberOfEnemiesAroundUser => tab' = tab
  | _ => false

theorem Read.isCountOf_iff {tab : Nat} {rd : Read K} :
    rd.isCountOf tab = true ↔ rd = .map tab .getNumberOfEnemiesAroundUser := by
  cases rd with
  | map tab' q => cases q <;> simp [isCountOf]
  | _ => simp [isCountOf]

def Device.status (tab : Nat) (d : Device K) : Option (Bool × Bool) :=
  d.tabBarVCs[tab]?.map (fun t => (t.onStack,t.timerValid))

/-- The tab bar of the session has been popped. -/
def Device.LoggedOut (tab : Nat) (d : Device K) : Prop := ∃ valid, d.status tab = some (false,valid)

/-- A callback of the session is pending that will write. -/
def AboutToWrite (tab : Nat) (cl : Client K) : Prop :=
  ∃ rd ∈ cl.reads, ∃ q, rd.read = .map tab q ∧ q.writes = true

def Read.writesFor (tab : Nat) : Read K → Bool
  | .map tab' q => tab' = tab ∧ q.writes = true
  | _ => false

theorem Read.writesFor_iff {tab : Nat} {rd : Read K} :
    rd.writesFor tab = true ↔ ∃ q, rd = .map tab q ∧ q.writes = true := by
  cases rd with
  | map tab' q => simp [writesFor]
  | _ => simp [writesFor]

instance (tab : Nat) (cl : Client K) : Decidable (AboutToWrite tab cl) :=
  decidable_of_iff (∃ rd ∈ cl.reads, rd.read.writesFor tab = true)
    (by simp only [AboutToWrite,Read.writesFor_iff])

instance (tab : Nat) (d : Device K) : Decidable (d.LoggedOut tab) :=
  decidable_of_iff (d.status tab = some (false,false) ∨ d.status tab = some (false,true))
    (by simp [Device.LoggedOut])

section
variable [Field K] [LinearOrder K] [FloorRing K]

/-- The writes that a step of the session issues. -/
def issued (p : Platform K) (c tab : Nat) : Label K → World K → List (Write K)
  | .event c' e, w =>
    if c' = c ∧ e.tab = some tab then writesOf ((w.clients c).locals.onEvent p e) else []
  | .deliver c' i d, w =>
    match (w.clients c').reads[i]? with
    | some ⟨q,some s⟩ =>
      if c' = c ∧ q.tab = some tab then writesOf ((w.clients c).locals.onRead p q s d) else []
    | _ => []
  | _, _ => []

/-- After its Logout the session issues no write under /enemies or /users. -/
def Silent (p : Platform K) (c tab : Nat) (l : Label K) (w : World K) : Prop :=
  (w.clients c).locals.LoggedOut tab → ∀ x ∈ issued p c tab l w,
    x.path.head? ≠ some "enemies" ∧ x.path.head? ≠ some "users"

/-- Logout finds no callback of the session pending that will write, and no
count that is answered after it ends in a spawn. -/
def LogoutAtRest (p : Platform K) (c tab : Nat) : Label K → World K → Prop
  | .event c' (.logout tab'), w => c' = c → tab' = tab → (w.clients c).trap = none →
    ∀ valid, (w.clients c).locals.status tab = some (true,valid) → ¬ AboutToWrite tab (w.clients c)
  | .deliver c' i d, w => c' = c → (w.clients c).locals.LoggedOut tab → ∀ s t,
    (w.clients c).reads[i]? = some ⟨.map tab .getNumberOfEnemiesAroundUser,some s⟩ →
    (w.clients c).locals.tabBarVCs[tab]? = some t → ¬ MapVC.CountSpawns p s d t.map
  | _, _ => True

omit [FloorRing K] in
theorem logoutAtRest_event {p : Platform K} {c c' tab : Nat} {e : Event K} {w : World K} :
    LogoutAtRest p c tab (.event c' e) w ↔ ∀ tab' ∈ e.loggedOut, ¬ (c' = c ∧ tab' = tab ∧
      (w.clients c).trap.isNone = true ∧ ((w.clients c).locals.status tab = some (true,false) ∨
        (w.clients c).locals.status tab = some (true,true)) ∧ AboutToWrite tab (w.clients c)) := by
  cases e with
  | logout tab' => simp [LogoutAtRest,Event.loggedOut,or_imp]
  | _ => simp [LogoutAtRest,Event.loggedOut]

omit [FloorRing K] in
theorem logoutAtRest_deliver {p : Platform K} {c c' tab i : Nat} {d : Draw K} {w : World K} :
    LogoutAtRest p c tab (.deliver c' i d) w ↔ ∀ rd ∈ (w.clients c).reads[i]?, ∀ s ∈ rd.snapshot,
      ∀ t ∈ (w.clients c).locals.tabBarVCs[tab]?, ¬ (c' = c ∧ (w.clients c).locals.LoggedOut tab ∧
        rd.read.isCountOf tab = true ∧ MapVC.CountSpawns p s d t.map) := by
  constructor
  · rintro h ⟨q,_⟩ hi s rfl t ht ⟨hc,hout,hcount,hspawns⟩
    obtain rfl := Read.isCountOf_iff.mp hcount
    exact h hc hout s t hi ht hspawns
  · exact fun h hc hout s t hi ht hspawns =>
      h _ hi s rfl t ht ⟨hc,hout,Read.isCountOf_iff.mpr rfl,hspawns⟩

instance (p : Platform K) (c tab : Nat) (l : Label K) (w : World K) :
    Decidable (LogoutAtRest p c tab l w) :=
  match l with
  | .event _ _ => decidable_of_iff _ logoutAtRest_event.symm
  | .deliver _ _ _ => decidable_of_iff _ logoutAtRest_deliver.symm
  | .snapshot _ _ | .apply _ => isTrue trivial

end

theorem Device.status_setTab {d : Device K} {tab tab' : Nat} {t u : TabBarVC K}
    (ht : d.tabBarVCs[tab']? = some t) :
    (d.setTab tab' u).status tab =
      if tab' = tab then some (u.onStack,u.timerValid) else d.status tab := by
  obtain ⟨hlt,_⟩ := List.getElem?_eq_some_iff.mp ht
  rw [status,setTab,List.getElem?_set]
  by_cases h : tab' = tab
  · subst h
    simp [hlt]
  · simp [h,status]

theorem Device.status_setTab_of_eq {d : Device K} {tab tab' : Nat} {t u : TabBarVC K}
    (ht : d.tabBarVCs[tab']? = some t) (hs : u.onStack = t.onStack)
    (hv : u.timerValid = t.timerValid) : (d.setTab tab' u).status tab = d.status tab := by
  rw [status_setTab ht]
  split
  · next h =>
    subst h
    simp [status,ht,hs,hv]
  · rfl

section
variable [Field K] [LinearOrder K] {p : Platform K} {tab : Nat} {d : Device K}

theorem EventOutcome.status {e : Event K} {r : DeviceReaction K} (h : EventOutcome p d e r)
    (he : e ≠ .logout tab) : r.locals.status tab = d.status tab := by
  cases h with
  | map ht hr => exact Device.status_setTab_of_eq ht rfl rfl
  | battleAction ht hs => exact Device.status_setTab_of_eq ht rfl rfl
  | scene ht hs hr => exact Device.status_setTab_of_eq ht rfl rfl
  | newPassword ht => exact Device.status_setTab_of_eq ht rfl rfl
  | @logout tab' t ht =>
    have hne : tab' ≠ tab := fun h => he (h ▸ rfl)
    exact (Device.status_setTab ht).trans (if_neg hne)
  | _ => rfl

theorem onEvent_of_loggedOut {e : MapEvent K} (h : d.status tab = some (false,false)) :
    d.onEvent p (.map tab e) = .ok d.idle := by
  obtain ⟨t,ht,he⟩ := Option.map_eq_some_iff.mp h
  simp only [Prod.mk.injEq] at he
  have hno : t.receives e = false := by
    cases e with
    | timerTick => exact he.2
    | _ => exact he.1
  simp [Device.onEvent,ht,hno]

theorem EventOutcome.reads {e : Event K} {r : DeviceReaction K} (h : EventOutcome p d e r) :
    ∀ q ∈ r.reads, ∀ tab', q.tab = some tab' →
      (∃ e' q', e = .map tab' e' ∧ q = .map tab' q') ∨ ∃ vc, e = .changePasswordAction tab' vc := by
  intro q hq tab' htab
  cases h with
  | map ht hr =>
    obtain ⟨q',_,rfl⟩ := List.mem_map.mp hq
    cases htab
    exact Or.inl ⟨_,q',rfl,rfl⟩
  | changePasswordAction ht hn =>
    rw [List.mem_singleton.mp hq] at htab
    cases htab
    exact Or.inr ⟨_,rfl⟩
  | createAccountAction hv =>
    rw [List.mem_singleton.mp hq] at htab
    contradiction
  | loginAction =>
    rw [List.mem_singleton.mp hq] at htab
    contradiction
  | _ => simp [Device.idle,Device.ofScene] at hq

variable [FloorRing K]

theorem ReadOutcome.status {snapshot : FNode K} {draw : Draw K} {q : Read K}
    {r : DeviceReaction K} (h : ReadOutcome p snapshot draw d q r) :
    r.locals.status tab = d.status tab ∨
      (d.status tab = none ∧ r.locals.status tab = some (true,true)) := by
  cases h with
  | map ht hr => exact Or.inl (Device.status_setTab_of_eq ht rfl rfl)
  | @login username password user hl =>
    simp only [Device.status,List.getElem?_append,List.getElem?_singleton]
    by_cases hlt : tab < d.tabBarVCs.length
    · simp [hlt]
    · by_cases heq : tab - d.tabBarVCs.length = 0
      · exact Or.inr (by simp [hlt,heq])
      · exact Or.inl (by simp [hlt,heq])
  | _ => exact Or.inl rfl

theorem ReadOutcome.reads {snapshot : FNode K} {draw : Draw K} {q : Read K}
    {r : DeviceReaction K} (h : ReadOutcome p snapshot draw d q r) :
    ∀ q' ∈ r.reads, ∀ tab', q'.tab = some tab' →
      q = .map tab' .getNumberOfEnemiesAroundUser ∧
        (∃ enemy,q' = .map tab' (.addEnemyToFirebase enemy)) ∧
        ∃ t, d.tabBarVCs[tab']? = some t ∧ MapVC.CountSpawns p snapshot draw t.map := by
  intro q' hq' tab' htab
  cases h with
  | map ht hr =>
    obtain ⟨q'',hq'',rfl⟩ := List.mem_map.mp hq'
    cases htab
    rcases MapVC.onRead_spawn hr with ⟨rfl,hc,enemy,hs⟩ | hfill
    · rw [hs.reads,List.mem_singleton] at hq''
      exact ⟨rfl,⟨enemy,by rw [hq'']⟩,_,ht,hc⟩
    · simp [hfill.reads] at hq''
  | userIsNew hv hc =>
    rw [List.mem_singleton.mp hq'] at htab
    contradiction
  | _ => simp [Device.idle] at hq'

end

structure SilentSession (tab : Nat) (cl : Client K) : Prop where
  password : ∀ rd ∈ cl.reads, ∀ vc oldPassword userID,
    rd.read ≠ .changeIfValidPassword tab vc oldPassword userID
  rest : ∀ valid, cl.locals.status tab = some (false,valid) →
    valid = false ∧ ¬ AboutToWrite tab cl

theorem SilentSession.of_error {tab : Nat} {cl : Client K} {t : Trap} (h : SilentSession tab cl) :
    SilentSession tab (cl.absorb (.error t : Except Trap (DeviceReaction K))) := by
  refine ⟨by simp [Client.absorb],fun valid hv => ⟨(h.rest valid hv).1,?_⟩⟩
  rintro ⟨rd,hrd,_⟩
  simp [Client.absorb] at hrd

theorem SilentSession.of_ok {tab : Nat} {cl : Client K} {r : DeviceReaction K}
    (hp : ∀ rd ∈ cl.reads, ∀ vc oldPassword userID,
      rd.read ≠ .changeIfValidPassword tab vc oldPassword userID)
    (hr : ∀ q ∈ r.reads, ∀ vc oldPassword userID,
      q ≠ .changeIfValidPassword tab vc oldPassword userID)
    (hrest : ∀ valid, r.locals.status tab = some (false,valid) →
      valid = false ∧ ¬ AboutToWrite tab cl ∧ ∀ q, .map tab q ∈ r.reads → q.writes = false) :
    SilentSession tab (cl.absorb (.ok r)) := by
  constructor
  · intro rd hrd
    rcases mem_reads_absorb.mp hrd with hold | ⟨q,hq,rfl⟩
    · exact hp rd hold
    · exact hr q hq
  · intro valid hv
    obtain ⟨hvalid,hold,hnew⟩ := hrest valid hv
    refine ⟨hvalid,?_⟩
    rintro ⟨rd,hrd,q,hq,hw⟩
    rcases mem_reads_absorb.mp hrd with hmem | ⟨q',hq',rfl⟩
    · exact hold ⟨rd,hmem,q,hq,hw⟩
    · cases hq
      rw [hnew q hq'] at hw
      contradiction

section
variable [Field K] [LinearOrder K] [FloorRing K] {p : Platform K} {c tab : Nat}

omit [FloorRing K] in
theorem status_of_logout {d : Device K} {r : DeviceReaction K} {valid : Bool}
    (h : d.onEvent p (.logout tab) = .ok r) (hv : r.locals.status tab = some (false,valid)) :
    d.status tab = some (false,valid) ∨ (valid = false ∧ ∃ v, d.status tab = some (true,v)) := by
  simp only [Device.onEvent] at h
  split at h
  · next t ht =>
    split at h
    · next hon =>
      cases h
      rw [Device.status_setTab ht,if_pos rfl] at hv
      cases hv
      exact Or.inr ⟨rfl,t.timerValid,by simp [Device.status,ht,hon]⟩
    · cases h
      exact Or.inl hv
  · cases h
    exact Or.inl hv

omit [FloorRing K] in
theorem SilentSession.event {cl : Client K} {e : Event K} (h : SilentSession tab cl)
    (hm : e.tab = some tab → (∃ e', e = .map tab e') ∨ e = .logout tab)
    (hc : e = .logout tab → ∀ valid, cl.locals.status tab = some (true,valid) →
      ¬ AboutToWrite tab cl) :
    SilentSession tab (cl.absorb (cl.locals.onEvent p e)) := by
  cases hr : cl.locals.onEvent p e with
  | error t => exact h.of_error
  | ok r =>
    have ho := onEvent_outcome hr
    have hreads (q : Read K) (hq : q ∈ r.reads) (htab : q.tab = some tab) :
        ∃ e' q', e = .map tab e' ∧ q = .map tab q' := by
      rcases ho.reads q hq tab htab with hmap | ⟨vc,rfl⟩
      · exact hmap
      · rcases hm rfl with ⟨e',he⟩ | he <;> contradiction
    refine .of_ok h.password (fun q hq vc oldPassword userID he => ?_) (fun valid hv => ?_)
    · obtain ⟨_,_,_,hq'⟩ := hreads q hq (by rw [he]; rfl)
      rw [he] at hq'
      contradiction
    · by_cases hlogout : e = .logout tab
      · have hnone (q : MapRead K) (hq : .map tab q ∈ r.reads) : q.writes = false := by
          obtain ⟨e',_,he,_⟩ := hreads _ hq rfl
          rw [hlogout] at he
          contradiction
        rw [hlogout] at hr
        rcases status_of_logout hr hv with hold | ⟨rfl,v,hon⟩
        · exact ⟨(h.rest valid hold).1,(h.rest valid hold).2,hnone⟩
        · exact ⟨rfl,hc hlogout v hon,hnone⟩
      · rw [ho.status hlogout] at hv
        obtain ⟨rfl,hrest⟩ := h.rest valid hv
        refine ⟨rfl,hrest,fun q hq => ?_⟩
        obtain ⟨e',_,rfl,_⟩ := hreads _ hq rfl
        -- a session that is over gets no event of the map
        rw [onEvent_of_loggedOut hv,Except.ok.injEq] at hr
        simp [← hr,Device.idle] at hq

theorem SilentSession.deliver {cl : Client K} {i : Nat} {q : Read K} {s : FNode K} {d : Draw K}
    (h : SilentSession tab cl)
    (hc : cl.locals.LoggedOut tab → q = .map tab .getNumberOfEnemiesAroundUser →
      ∀ t, cl.locals.tabBarVCs[tab]? = some t → ¬ MapVC.CountSpawns p s d t.map) :
    SilentSession tab
      (({ cl with reads := cl.reads.eraseIdx i } : Client K).absorb
        (cl.locals.onRead p q s d)) := by
  have herase : SilentSession tab ({ cl with reads := cl.reads.eraseIdx i } : Client K) := by
    refine ⟨fun rd hrd => h.password rd (List.mem_of_mem_eraseIdx hrd),fun valid hv => ?_⟩
    obtain ⟨hvalid,hrest⟩ := h.rest valid hv
    exact ⟨hvalid,fun ⟨rd,hrd,hw⟩ => hrest ⟨rd,List.mem_of_mem_eraseIdx hrd,hw⟩⟩
  cases hr : cl.locals.onRead p q s d with
  | error t => exact herase.of_error
  | ok r =>
    have ho := onRead_outcome hr
    refine .of_ok herase.password (fun q' hq' vc oldPassword userID he => ?_) (fun valid hv => ?_)
    · obtain ⟨_,⟨enemy,hadd⟩,_⟩ := ho.reads q' hq' tab (by rw [he]; rfl)
      rw [he] at hadd
      contradiction
    · have hstatus : r.locals.status tab = cl.locals.status tab ∨ _ := ho.status
      rcases hstatus with hsame | ⟨_,hnew⟩
      · rw [hsame] at hv
        obtain ⟨hvalid,hrest⟩ := herase.rest valid hv
        refine ⟨hvalid,hrest,fun q' hq' => ?_⟩
        obtain ⟨hcount,_,t,ht,hspawns⟩ := ho.reads _ hq' tab rfl
        exact absurd hspawns (hc ⟨valid,hv⟩ hcount t ht)
      · rw [hnew] at hv
        simp at hv

theorem SilentSession.step {l : Label K} {w w' : World K} (h : SilentSession tab (w.clients c))
    (hm : MapSession c tab l) (hc : LogoutAtRest p c tab l w)
    (hs : GFLGO.step p l w = some w') : SilentSession tab (w'.clients c) := by
  have hstep := client_step hs c
  generalize w'.clients c = cl at hstep
  cases hstep with
  | other hl => exact h
  | @event e =>
    refine h.event (fun htab => ?_) (fun he => ?_)
    · cases e with
      | map tab' e' =>
        cases htab
        exact Or.inl ⟨e',rfl⟩
      | logout tab' =>
        cases htab
        exact Or.inr rfl
      | _ => exact absurd htab (hm rfl)
    · subst he
      exact hc rfl rfl (step_event hs).1
  | @snapshot i q hq =>
    have hold (rd : Pending (Read K) (FNode K))
        (hrd : rd ∈ (w.clients c).reads.set i ⟨q,some (backend.view q w.store)⟩) :
        ∃ rd' ∈ (w.clients c).reads, rd'.read = rd.read := by
      rcases List.mem_or_eq_of_mem_set hrd with hmem | rfl
      · exact ⟨rd,hmem,rfl⟩
      · exact ⟨_,List.mem_of_getElem? hq,rfl⟩
    constructor
    · intro rd hrd
      obtain ⟨rd',hmem,he⟩ := hold rd hrd
      exact he ▸ h.password rd' hmem
    · intro valid hv
      obtain ⟨hvalid,hrest⟩ := h.rest valid hv
      refine ⟨hvalid,fun ⟨rd,hrd,q',hq',hw⟩ => ?_⟩
      obtain ⟨rd',hmem,he⟩ := hold rd hrd
      exact hrest ⟨rd',hmem,q',he.trans hq',hw⟩
  | @deliver i d q s hq =>
    refine h.deliver (fun hout hcount t ht => ?_)
    subst hcount
    exact hc rfl hout s t hq ht
  | apply hx => exact ⟨h.password,h.rest⟩

omit [FloorRing K] in
theorem EventOutcome.writes {d : Device K} {e : Event K} {r : DeviceReaction K}
    (h : EventOutcome p d e r) (he : ∀ tab i e', e ≠ .scene tab i e') : r.writes = [] := by
  cases h with
  | map ht hr => exact (MapVC.onEvent_effect hr).2.1
  | @scene tab i t s e r ht hs hr => exact absurd rfl (he tab i e)
  | _ => rfl

omit [Field K] [LinearOrder K] [FloorRing K] in
theorem mem_writesOf {r : Except Trap (DeviceReaction K)} {x : Write K} :
    x ∈ writesOf r ↔ ∃ r', r = .ok r' ∧ x ∈ r'.writes := by
  cases r <;> simp [writesOf]

theorem SilentSession.silent {l : Label K} {w : World K} (h : SilentSession tab (w.clients c))
    (hm : MapSession c tab l) : Silent p c tab l w := by
  rintro ⟨valid,hv⟩ x hx
  exfalso
  cases l with
  | event c' e =>
    simp only [issued] at hx
    split at hx
    · next htab =>
      obtain ⟨r,hr,hx⟩ := mem_writesOf.mp hx
      have hnil := (onEvent_outcome hr).writes (fun tab' i e' he => by
        subst he
        exact hm htab.1 htab.2)
      simp [hnil] at hx
    · simp at hx
  | deliver c' i d =>
    simp only [issued] at hx
    split at hx
    · next q s hq =>
      split at hx
      · next htab =>
        obtain ⟨rfl,htab⟩ := htab
        obtain ⟨r,hr,hx⟩ := mem_writesOf.mp hx
        have hmem := List.mem_of_getElem? hq
        cases q with
        | map tab' q =>
          cases htab
          cases onRead_outcome hr with
          | idle => simp [Device.idle] at hx
          | map ht hr' =>
            rcases (MapVC.onRead_effect hr').2 with ⟨_,rfl,_⟩ | ⟨_,rfl,_⟩ | ⟨hnil,_⟩
            · exact (h.rest valid hv).2 ⟨_,hmem,_,rfl,rfl⟩
            · exact (h.rest valid hv).2 ⟨_,hmem,_,rfl,rfl⟩
            · simp [Device.ofMap,hnil] at hx
        | changeIfValidPassword tab' vc oldPassword userID =>
          cases htab
          exact h.password _ hmem _ _ _ rfl
        | _ => contradiction
      · simp at hx
    · simp at hx
  | _ => simp [issued] at hx

theorem silent_of_logoutAtRest {store : FNode K} {ls : List (Label K)}
    (hm : ∀ l ∈ ls, MapSession c tab l)
    (h : Along (step p) (LogoutAtRest p c tab) ls (World.start store)) :
    Along (step p) (Silent p c tab) ls (World.start store) := by
  refine (h.and (step p) (along_of_forall_mem (step p) hm _)).mono_of_invariant
    (I := fun w => SilentSession tab (w.clients c)) (step p)
    (fun l w w' hi hc hs => hi.step hc.2 hc.1 hs) (fun l w hi hc => hi.silent hc.2) ?_
  exact ⟨by simp [World.start],by simp [World.start,Device.status]⟩

/-! The other way round: what is still pending at a Logout is written in the end. -/

/-- The session's client is up and none of its callbacks is pending. -/
structure Finished (c tab : Nat) (w : World K) : Prop where
  untrapped : (w.clients c).trap = none
  answered : ∀ rd ∈ (w.clients c).reads, rd.read.tab ≠ some tab

/-- The session is over and still has something to write, unless its client has crashed. -/
def Lingers (c tab : Nat) (w : World K) : Prop :=
  (w.clients c).trap ≠ none ∨
    ((w.clients c).locals.LoggedOut tab ∧ AboutToWrite tab (w.clients c))

omit [Field K] [LinearOrder K] [FloorRing K] in
theorem Lingers.not_finished {w : World K} (h : Lingers c tab w) : ¬ Finished c tab w := by
  intro hf
  rcases h with htrap | ⟨_,rd,hrd,q,hq,_⟩
  · exact htrap hf.untrapped
  · exact hf.answered rd hrd (by rw [hq]; rfl)

theorem exists_write {m : MapVC K} {q : MapRead K} (hq : q.writes = true) (s : FNode K)
    (d : Draw K) : ∃ r, m.onRead p q s d = .ok r ∧
      ∃ x ∈ r.writes, x.path.head? = some "enemies" ∨ x.path.head? = some "users" := by
  cases q with
  | didUpdateLocations coord =>
    exact ⟨_,rfl,_,List.mem_cons_self,Or.inr rfl⟩
  | addEnemyToFirebase enemy =>
    exact ⟨_,rfl,_,List.mem_cons_self,Or.inl rfl⟩
  | _ => contradiction

theorem issued_of_aboutToWrite {w : World K} {i : Nat} {q : MapRead K} {s : FNode K} {d : Draw K}
    (hout : (w.clients c).locals.LoggedOut tab) (hq : q.writes = true)
    (hi : (w.clients c).reads[i]? = some ⟨.map tab q,some s⟩) :
    ¬ Silent p c tab (.deliver c i d) w := by
  intro hsilent
  obtain ⟨valid,hv⟩ := hout
  obtain ⟨t,ht,_⟩ := Option.map_eq_some_iff.mp hv
  obtain ⟨r,hr,x,hx,hpath⟩ := exists_write (p := p) (m := t.map) hq s d
  have hread : (w.clients c).locals.onRead p (.map tab q) s d =
      .ok ((w.clients c).locals.ofMap tab t r) := by
    simp [Device.onRead,ht,hr,bind,Except.bind]
  have hissued : x ∈ issued p c tab (.deliver c i d) w := by
    simpa [issued,hi,Read.tab,hread,writesOf,Device.ofMap] using hx
  obtain ⟨henemies,husers⟩ := hsilent ⟨valid,hv⟩ x hissued
  rcases hpath with hpath | hpath
  · exact henemies hpath
  · exact husers hpath

omit [LinearOrder K] [FloorRing K] [Field K] in
theorem Lingers.of_clients {w w' : World K} (h : Lingers c tab w)
    (he : w'.clients c = w.clients c) : Lingers c tab w' := by
  unfold Lingers
  rw [he]
  exact h

omit [LinearOrder K] [FloorRing K] [Field K] in
theorem Lingers.of_absorb {w w' : World K} {cl : Client K}
    {r : Except Trap (DeviceReaction K)} (hw : w'.clients c = cl.absorb r)
    (htrap : (w.clients c).trap = cl.trap) (h : Lingers c tab w)
    (hstatus : (w.clients c).locals.LoggedOut tab → ∀ r', r = .ok r' → r'.locals.LoggedOut tab)
    (hreads : AboutToWrite tab (w.clients c) → AboutToWrite tab cl) : Lingers c tab w' := by
  unfold Lingers
  rw [hw]
  cases r with
  | error t => exact Or.inl (by simp [Client.absorb])
  | ok r' =>
    rcases h with hdead | ⟨hout,hwrite⟩
    · exact Or.inl (by simpa [Client.absorb,htrap] using hdead)
    · obtain ⟨rd,hrd,hq⟩ := hreads hwrite
      exact Or.inr ⟨hstatus hout r' rfl,rd,mem_reads_absorb.mpr (Or.inl hrd),hq⟩

omit [FloorRing K] in
theorem loggedOut_of_onEvent {d : Device K} {e : Event K} {r : DeviceReaction K}
    (h : d.onEvent p e = .ok r) (hout : d.LoggedOut tab) : r.locals.LoggedOut tab := by
  by_cases he : e = .logout tab
  · subst he
    obtain ⟨valid,hv⟩ := hout
    obtain ⟨t,ht,hs⟩ := Option.map_eq_some_iff.mp hv
    simp only [Prod.mk.injEq] at hs
    simp only [Device.onEvent,ht,hs.1] at h
    cases h
    exact ⟨valid,hv⟩
  · rw [Device.LoggedOut,(onEvent_outcome h).status he]
    exact hout

theorem loggedOut_of_onRead {d : Device K} {q : Read K} {s : FNode K} {draw : Draw K}
    {r : DeviceReaction K} (h : d.onRead p q s draw = .ok r) (hout : d.LoggedOut tab) :
    r.locals.LoggedOut tab := by
  obtain ⟨valid,hv⟩ := hout
  have hstatus : r.locals.status tab = d.status tab ∨ _ := (onRead_outcome h).status
  rcases hstatus with hsame | ⟨hnone,_⟩
  · exact ⟨valid,hsame.trans hv⟩
  · rw [hnone] at hv
    contradiction

theorem Lingers.step {l : Label K} {w w' : World K} (h : Lingers c tab w)
    (hc : Silent p c tab l w) (hs : GFLGO.step p l w = some w') : Lingers c tab w' := by
  have hstep := client_step hs c
  generalize hcl : w'.clients c = cl at hstep
  cases hstep with
  | other hl => exact h.of_clients hcl
  | event =>
    exact h.of_absorb hcl rfl (fun hout r' hr => loggedOut_of_onEvent hr hout) id
  | @snapshot i q hq =>
    unfold Lingers
    rw [hcl]
    refine h.imp id (fun ⟨hout,rd,hrd,q',hq',hw⟩ => ⟨hout,?_⟩)
    by_cases hrd' : rd = ⟨q,none⟩
    · exact ⟨_,mem_set_self hq,q',by rw [← hq',hrd'],hw⟩
    · exact ⟨rd,mem_set_of_ne hq hrd hrd',q',hq',hw⟩
  | @deliver i d q s hq =>
    by_cases hdead : (w.clients c).trap = none
    · have hout := (h.resolve_left (fun hn => hn hdead)).1
      refine h.of_absorb hcl rfl (fun hout r' hr => loggedOut_of_onRead hr hout) ?_
      rintro ⟨rd,hrd,q',hq',hw⟩
      refine ⟨rd,mem_eraseIdx_of_ne hq hrd (fun he => ?_),q',hq',hw⟩
      -- the callback that writes is not the one just answered
      subst he
      simp only at hq'
      subst hq'
      exact issued_of_aboutToWrite hout hw hq hc
    · refine Or.inl ?_
      rw [hcl]
      cases (program p).onRead q s d (w.clients c).locals <;> simp [Client.absorb,hdead]
  | apply hx =>
    unfold Lingers
    rw [hcl]
    exact h

/-- A step that would leave the session lingering breaks its silence later. -/
theorem not_lingers_of_silent {ls : List (Label K)} {w w' : World K}
    (h : Along (step p) (Silent p c tab) ls w) (hr : run (step p) ls w = some w')
    (hf : Finished c tab w') : ¬ Lingers c tab w :=
  fun hl => (run_invariant (I := Lingers c tab) (step p)
    (fun _ _ _ hi hc hs => hi.step hc hs) hl h hr).not_finished hf

theorem lingers_of_spawn {w w' : World K} {i : Nat} {d : Draw K} {s : FNode K} {t : TabBarVC K}
    (hs : step p (.deliver c i d) w = some w') (hout : (w.clients c).locals.LoggedOut tab)
    (hi : (w.clients c).reads[i]? = some ⟨.map tab .getNumberOfEnemiesAroundUser,some s⟩)
    (ht : (w.clients c).locals.tabBarVCs[tab]? = some t)
    (hc : MapVC.CountSpawns p s d t.map) : Lingers c tab w' := by
  obtain ⟨q,s',hq,rfl⟩ := step_deliver hs
  rw [hi] at hq
  cases hq
  cases hr : t.map.onRead p .getNumberOfEnemiesAroundUser s d with
  | error u => exact absurd hc (MapVC.not_countSpawns_of_error hr)
  | ok r =>
    obtain ⟨_,enemy,hspawn⟩ := (MapVC.onRead_count hr).resolve_right (fun h => h.1 hc)
    have hread : (w.clients c).locals.onRead p (.map tab .getNumberOfEnemiesAroundUser) s d =
        .ok ((w.clients c).locals.ofMap tab t r) := by
      simp [Device.onRead,ht,hr,bind,Except.bind]
    refine Or.inr ⟨?_,?_⟩
    · rw [react_clients_self,show (program p).onRead = Device.onRead p from rfl,hread]
      exact loggedOut_of_onRead hread hout
    · rw [react_clients_self,show (program p).onRead = Device.onRead p from rfl,hread]
      exact ⟨⟨.map tab (.addEnemyToFirebase enemy),none⟩,
        mem_reads_absorb.mpr (Or.inr ⟨_,by simp [Device.ofMap,hspawn.reads],rfl⟩),_,rfl,rfl⟩

theorem lingers_of_logout {w w' : World K} {valid : Bool}
    (hs : step p (.event c (.logout tab)) w = some w')
    (hv : (w.clients c).locals.status tab = some (true,valid))
    (hw : AboutToWrite tab (w.clients c)) : Lingers c tab w' := by
  obtain ⟨_,rfl⟩ := step_event hs
  obtain ⟨t,ht,hstatus⟩ := Option.map_eq_some_iff.mp hv
  simp only [Prod.mk.injEq] at hstatus
  have hevent : (program p).onEvent (.logout tab) (w.clients c).locals =
      .ok { locals := (w.clients c).locals.setTab tab
              { t with timerValid := false, onStack := false } } := by
    simp [program,Device.onEvent,ht,hstatus.1]
  obtain ⟨rd,hrd,hq⟩ := hw
  refine Or.inr ⟨?_,?_⟩
  · rw [react_clients_self,hevent]
    exact ⟨false,(Device.status_setTab ht).trans (if_pos rfl)⟩
  · rw [react_clients_self,hevent]
    exact ⟨rd,mem_reads_absorb.mpr (Or.inl hrd),hq⟩

/-- A session is silent after its Logout when nothing of it that writes is
pending there; and in a run that leaves no callback of the session pending,
only then. -/
theorem silent_iff_logoutAtRest (p : Platform K) (store : FNode K) (c tab : Nat)
    (ls : List (Label K)) (hm : ∀ l ∈ ls, MapSession c tab l) :
    (Along (step p) (LogoutAtRest p c tab) ls (World.start store) →
      Along (step p) (Silent p c tab) ls (World.start store)) ∧
    ∀ w, run (step p) ls (World.start store) = some w → Finished c tab w →
      Along (step p) (Silent p c tab) ls (World.start store) →
      Along (step p) (LogoutAtRest p c tab) ls (World.start store) := by
  refine ⟨silent_of_logoutAtRest hm,fun w hr hf hsilent => ?_⟩
  refine along_of_forall_prefix (step p) (fun as l u hp hu => ?_)
  obtain ⟨bs,rfl⟩ := hp
  rw [List.append_assoc,List.singleton_append] at hr hsilent
  obtain ⟨u',hu',hrest⟩ := (run_append_eq_some (step p)).mp hr
  rw [hu,Option.some.injEq] at hu'
  subst hu'
  obtain ⟨v,hstep,hend⟩ := (run_cons_eq_some (step p)).mp hrest
  have hnot := not_lingers_of_silent (((along_append (step p) hu).mp hsilent).2.2 v hstep) hend hf
  cases l with
  | event c' e =>
    cases e with
    | logout tab' =>
      rintro rfl rfl _ valid hv hw
      exact hnot (lingers_of_logout hstep hv hw)
    | _ => trivial
  | deliver c' i d =>
    rintro rfl hout s t hi ht hc
    exact hnot (lingers_of_spawn hstep hout hi ht hc)
  | snapshot c' i => trivial
  | apply c' => trivial

end

end

/-- The session logs out while two scans and a count are pending. They are answered
after it, the timer's next tick is not heard, and a second session of the device goes on. -/
def scansThenLogout : List (Label ℚ) :=
  login 0 sampleDraw "ann" "pw" ++ locate 0 sampleDraw 0 ⟨0,0⟩ ++
    [.event 0 (.map 0 .centerAction),.event 0 (.map 0 .timerTick),.event 0 (.logout 0)] ++
    answer 0 sampleDraw ++ [.event 0 (.map 0 .timerTick)] ++ answer 0 sampleDraw ++
    login 1 sampleDraw "ann" "pw" ++ answer 0 sampleDraw ++ login 0 sampleDraw "ann" "pw" ++
    locate 1 sampleDraw 0 ⟨1,1⟩ ++ locate 0 sampleDraw 1 ⟨1,1⟩

theorem silent_scansThenLogout : ∃ w,
    run (step planePlatform) scansThenLogout (World.start annStore) = some w ∧
      w.Quiet ∧
      Along (step planePlatform) (Silent planePlatform 0 0) scansThenLogout
        (World.start annStore) := by
  have hrun : (run (step planePlatform) scansThenLogout (World.start annStore)).map
      (fun w => decide (∀ l ∈ scansThenLogout, (w.clients l.client).Quiet)) = some true := by
    decide +kernel
  obtain ⟨w,hw,he⟩ := Option.map_eq_some_iff.mp hrun
  have hrest : Along (step planePlatform) (LogoutAtRest planePlatform 0 0) scansThenLogout
      (World.start annStore) := by
    decide +kernel
  exact ⟨w,hw,quiet_of_run (fun _ => ⟨rfl,rfl⟩) hw (of_decide_eq_true he),
    (silent_iff_logoutAtRest planePlatform annStore 0 0 scansThenLogout
      (by decide +kernel)).1 hrest⟩

/-- The session logs out while its location report is pending. -/
def reportThenLogout : List (Label ℚ) :=
  login 0 sampleDraw "ann" "pw" ++
    [.event 0 (.map 0 (.didUpdateLocations [⟨0,0⟩])),.event 0 (.logout 0),.snapshot 0 2]

/-- The report is written after the Logout. -/
theorem not_silent : ¬ ∀ (store : FNode ℚ) (c tab : Nat) (ls : List (Label ℚ)),
    (∀ l ∈ ls, MapSession c tab l) →
      Along (step planePlatform) (Silent planePlatform c tab) ls (World.start store) := by
  intro h
  have hrun : (run (step planePlatform) reportThenLogout (World.start annStore)).map
      (fun w => ((w.clients 0).locals.status 0,
        (issued planePlatform 0 0 (.deliver 0 2 sampleDraw) w).map Write.path)) =
      some (some (false,false),[["users","0","latitude"],["users","0","longitude"]]) := by
    decide +kernel
  obtain ⟨w,hw,he⟩ := Option.map_eq_some_iff.mp hrun
  simp only [Prod.mk.injEq] at he
  obtain ⟨hstatus,hissued⟩ := he
  refine not_along_of_run (step planePlatform) hw (fun hs => ?_)
    (h annStore 0 0 (reportThenLogout ++ [.deliver 0 2 sampleDraw]) ?_)
  · have hmem : ["users","0","latitude"] ∈
        (issued planePlatform 0 0 (.deliver 0 2 sampleDraw) w).map Write.path := by
      simp [hissued]
    obtain ⟨x,hx,hpath⟩ := List.mem_map.mp hmem
    exact (hs ⟨false,hstatus⟩ x hx).2 (by rw [hpath]; rfl)
  · decide +kernel

end GFLGO
