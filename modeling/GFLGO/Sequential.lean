import Mathlib.Data.List.Forall2
import GFLGO.AccountStore
import GFLGO.Blows

/-!
Operations one after another. Between two operations nothing is under way; a
request for the accounts is answered alone, everything else leaves them alone.
-/

set_option autoImplicit false

namespace GFLGO

open Runs Async AccountMap

inductive Outcome (K : Type) where
  | signedUp (username : String) (userID : Int)
  | userAlreadyExists
  | session (username : String) (userID : Int) (health power : K)
  | couldNotVerify
  | passwordChanged
  | incorrectPassword

section
variable {K : Type}

def Note.outcome : Note K → Option (Outcome K)
  | .userAlreadyExists _ => some .userAlreadyExists
  | .addUserToFirebase _ user => some (.signedUp user.username user.userID)
  | .tabBarSegue user => some (.session user.username user.userID user.health user.power)
  | .couldNotVerify => some .couldNotVerify
  | .passwordChanged _ _ _ => some .passwordChanged
  | .incorrectPassword => some .incorrectPassword
  | .goToLogin _ _ | .locationWritten _ | .addExperience _ _ _ => none

def outcomes (w : World K) : List (Outcome K) := w.notes.filterMap (fun n => n.2.outcome)

/-- What an event asks of the accounts, with the texts of its screen. -/
def Device.request (d : Device K) : Event K → Option Request
  | .createAccountAction vc =>
    match d.signupVCs[vc]? with
    | some v => some (.signup v.usernameOutlet v.passwordOutlet)
    | none => none
  | .loginAction => some (.login d.loginVC.usernameOutlet d.loginVC.passwordOutlet)
  | .changePasswordAction tab vc =>
    match d.tabBarVCs[tab]? with
    | some t =>
      match t.newPasswordVCs[vc]? with
      | some n => some (.changePassword t.map.user.username n.oldPasswordOutlet n.newPasswordOutlet)
      | none => none
    | none => none
  | _ => none

def request : Label K → World K → Option Request
  | .event c e, w => (w.clients c).locals.request e
  | _, _ => none

theorem outcomes_react {w : World K} {c : Nat} {cl : Client K}
    {r : Except Trap (DeviceReaction K)} :
    outcomes (w.react c cl r) = outcomes w ++ (notesOf r).filterMap Note.outcome := by
  simp [outcomes,List.filterMap_append,List.filterMap_map]

theorem Write.harmless_enemyWrites {n : Nat} (enemy : Enemy K) :
    ∀ x ∈ MapVC.enemyWrites enemy, x.Harmless n := by
  rintro ⟨path,node⟩ hx
  obtain ⟨rest,rfl⟩ := enemyWrites_path enemy _ hx
  exact .enemies

variable [Field K]

structure SessionOf (m : AccountMap) (user : User K) : Prop where
  account : ∃ a, m.find user.username = some a ∧ user.userID = a.number
  health : user.health = 50
  power : user.power = 3.2

theorem SessionOf.congr {m : AccountMap} {u v : User K} (h : SessionOf m u)
    (hv : v.SameAccount u) : SessionOf m v := by
  obtain ⟨⟨a,ha,hid⟩,hh,hp⟩ := h
  obtain ⟨hname,_,huserID,hhealth,hpower⟩ := hv
  exact ⟨⟨a,hname ▸ ha,huserID.trans hid⟩,hhealth.trans hh,hpower.trans hp⟩

theorem SessionOf.serve {m : AccountMap} {u : User K} (h : SessionOf m u) (q : Request) :
    SessionOf (m.serve q).2 u := by
  obtain ⟨⟨a,ha,hid⟩,hh,hp⟩ := h
  refine ⟨?_,hh,hp⟩
  cases q with
  | signup name password =>
    cases hf : m.find name with
    | some b => exact ⟨a,by rw [serve_signup_some hf]; exact ha,hid⟩
    | none =>
      have hne : u.username ≠ name := by
        rintro rfl
        rw [hf] at ha
        contradiction
      refine ⟨a,?_,hid⟩
      rw [serve_signup_none hf]
      simp [AccountMap.insert,hne,ha]
  | login name password =>
    refine ⟨a,?_,hid⟩
    simp only [AccountMap.serve]
    split
    · split <;> exact ha
    · exact ha
  | changePassword name oldPassword newPassword =>
    simp only [AccountMap.serve]
    split
    · split
      · refine ⟨_,by simp only [setPassword,ha]; rfl,?_⟩
        split <;> exact hid
      · exact ⟨a,ha,hid⟩
    · exact ⟨a,ha,hid⟩

def Sessions (m : AccountMap) (w : World K) : Prop :=
  ∀ c, ∀ t ∈ (w.clients c).locals.tabBarVCs, SessionOf m t.map.user

theorem Sessions.serve {m : AccountMap} {w : World K} (h : Sessions m w) (q : Request) :
    Sessions (m.serve q).2 w := fun c t ht => (h c t ht).serve q

theorem SessionOf.harmless_locationWrites {m : AccountMap} {user : User K}
    (h : SessionOf m user) (c : Coordinate K) :
    ∀ x ∈ MapVC.locationWrites user c, x.Harmless m.count := by
  obtain ⟨a,ha,hid⟩ := h.account
  have hk := m.number_lt _ a ha
  intro x hx
  rw [MapVC.locationWrites,hid] at hx
  rcases List.mem_pair.mp hx with rfl | rfl
  · exact .location hk (Or.inl rfl)
  · exact .location hk (Or.inr rfl)

theorem SessionOf.harmless_defeatWrites {m : AccountMap} {user : User K}
    (h : SessionOf m user) (s : GameScene K) : ∀ x ∈ s.defeatWrites user, x.Harmless m.count := by
  obtain ⟨a,ha,hid⟩ := h.account
  have hk := m.number_lt _ a ha
  intro x hx
  rw [GameScene.defeatWrites,User.addExperience,hid] at hx
  rcases List.mem_pair.mp hx with rfl | rfl
  · exact .enemies
  · exact .totalExp hk

theorem Sessions.update {m : AccountMap} {w w' : World K} {c : Nat} {cl : Client K}
    (h : Sessions m w) (hw : w'.clients = Function.update w.clients c cl)
    (hcl : ∀ t ∈ cl.locals.tabBarVCs, SessionOf m t.map.user) : Sessions m w' := by
  rw [Sessions,hw]
  exact forall_clients_update (R := fun _ (cl : Client K) =>
    ∀ t ∈ cl.locals.tabBarVCs, SessionOf m t.map.user) hcl (fun c' _ => h c')

inductive Answers : Response → Outcome K → Prop
  | signedUp {name : String} {number : Nat} :
    Answers (.signedUp name number) (.signedUp name number)
  | taken : Answers .taken .userAlreadyExists
  | session {name : String} {number : Nat} :
    Answers (.session name number) (.session name number 50 3.2)
  | rejected : Answers .rejected .couldNotVerify
  | changed : Answers .changed .passwordChanged
  | refused : Answers .refused .incorrectPassword

def Answered (qs : List Request) (w : World K) : Prop :=
  List.Forall₂ Answers (empty.responses qs) (outcomes w)

theorem Answered.concat {qs : List Request} {q : Request} {w w' : World K} {o : Outcome K}
    (h : Answered qs w) (hw : outcomes w' = outcomes w ++ [o])
    (ho : Answers ((empty.after qs).serve q).1 o) : Answered (qs ++ [q]) w' := by
  rw [Answered,hw,responses_concat]
  exact List.rel_append h (.cons ho .nil)

structure PlayingClient (m : AccountMap) (cl : Client K) : Prop where
  reads : ∀ r ∈ cl.reads, (∃ tab q, r.read = .map tab q) ∧
    ∀ s, r.snapshot = some s → r.read.path = ["users"] → Represents m s
  writes : ∀ x ∈ cl.writes, x.Harmless m.count

structure Playing (m : AccountMap) (w : World K) : Prop where
  users : Represents m (w.store.getImmediateChild "users")
  clients : ∀ c, PlayingClient m (w.clients c)

/-- One read of one client is under way and nothing else. -/
structure Asking (m : AccountMap) (c : Nat) (r : Read K) (w : World K) : Prop where
  users : Represents m (w.store.getImmediateChild "users")
  others : ∀ c', c' ≠ c → (w.clients c').Quiet
  reads : ∃ s, (w.clients c).reads = [⟨r,s⟩] ∧ ∀ s', s = some s' → s' = backend.view r w.store
  writes : (w.clients c).writes = []

/-- Only writes of one client are under way; they end in the account map. -/
structure Storing (m : AccountMap) (c : Nat) (w : World K) : Prop where
  users : Represents m ((drain (w.clients c).writes w.store).getImmediateChild "users")
  others : ∀ c', c' ≠ c → (w.clients c').Quiet
  reads : (w.clients c).reads = []

/-- The read on its way stands for the request. -/
inductive Asks (m : AccountMap) (d : Device K) : Read K → Request → Prop
  | checkIfUserExists {vc tap : Nat} {v : SignupVC} (hv : d.signupVCs[vc]? = some v) :
    Asks m d (.checkIfUserExists vc tap) (.signup v.usernameOutlet v.passwordOutlet)
  | addUserToFirebase {vc tap : Nat} {name : String} {v : SignupVC}
    (hv : d.signupVCs[vc]? = some v) (hf : m.find name = none) :
    Asks m d (.addUserToFirebase vc tap name) (.signup name v.passwordOutlet)
  | loginIfValid {name password : String} :
    Asks m d (.loginIfValid name password) (.login name password)
  | changeIfValidPassword {tab vc : Nat} {oldPassword : String} {t : TabBarVC K}
    {n : NewPasswordVC} {a : Account} (ht : d.tabBarVCs[tab]? = some t)
    (hn : t.newPasswordVCs[vc]? = some n) (ha : m.find t.map.user.username = some a) :
    Asks m d (.changeIfValidPassword tab vc oldPassword (stringOfInt a.number))
      (.changePassword t.map.user.username oldPassword n.newPasswordOutlet)

structure Underway (qs : List Request) (q : Request) (c : Nat) (r : Read K) (w : World K) :
    Prop where
  sessions : Sessions (empty.after qs) w
  asking : Asking (empty.after qs) c r w
  asks : Asks (empty.after qs) (w.clients c).locals r q
  answered : Answered qs w

structure Done (qs : List Request) (c : Nat) (w : World K) : Prop where
  sessions : Sessions (empty.after qs) w
  storing : Storing (empty.after qs) c w
  answered : Answered qs w

theorem Asking.no_writes {m : AccountMap} {c : Nat} {r : Read K} {w : World K}
    (h : Asking m c r w) (c' : Nat) : (w.clients c').writes = [] := by
  by_cases hc : c' = c
  · exact hc ▸ h.writes
  · exact (h.others c' hc).2

theorem Done.no_reads {qs : List Request} {c : Nat} {w : World K} (h : Done qs c w) (c' : Nat) :
    (w.clients c').reads = [] := by
  by_cases hc : c' = c
  · exact hc ▸ h.storing.reads
  · exact (h.storing.others c' hc).1

inductive Serial : List Request → World K → Prop
  | playing {qs : List Request} {w : World K} (hs : Sessions (empty.after qs) w)
    (hp : Playing (empty.after qs) w) (ho : Answered qs w) : Serial qs w
  | underway {qs : List Request} {q : Request} {c : Nat} {r : Read K} {w : World K}
    (h : Underway qs q c r w) : Serial (qs ++ [q]) w
  | done {qs : List Request} {c : Nat} {w : World K} (h : Done qs c w) : Serial qs w

theorem Playing.of_quiet {m : AccountMap} {w : World K}
    (h : Represents m (w.store.getImmediateChild "users")) (hq : w.Quiet) : Playing m w :=
  { users := h
    clients := fun c => ⟨by simp [(hq c).1],by simp [(hq c).2]⟩ }

theorem Serial.of_quiet {qs : List Request} {w : World K} (h : Serial qs w) (hq : w.Quiet) :
    Sessions (empty.after qs) w ∧ Represents (empty.after qs) (w.store.getImmediateChild "users") ∧
      Answered qs w := by
  cases h with
  | playing hs hp ho => exact ⟨hs,hp.users,ho⟩
  | @underway qs q c r w h =>
    obtain ⟨s,hreads,_⟩ := h.asking.reads
    rw [(hq c).1] at hreads
    contradiction
  | @done qs c w h =>
    have husers := h.storing.users
    rw [(hq c).2] at husers
    exact ⟨h.sessions,husers,h.answered⟩

structure PlayingReaction (m : AccountMap) (d : Device K) (r : DeviceReaction K) : Prop where
  reads : ∀ q ∈ r.reads, ∃ tab mq, q = .map tab mq
  writes : ∀ x ∈ r.writes, x.Harmless m.count
  notes : r.notes.filterMap Note.outcome = []
  sessions : ∀ t' ∈ r.locals.tabBarVCs, ∃ t ∈ d.tabBarVCs, t'.map.user.SameAccount t.map.user

theorem EventOutcome.playing [LinearOrder K] {p : Platform K} {d : Device K} {e : Event K}
    {r : DeviceReaction K} {m : AccountMap} (h : EventOutcome p d e r) (hq : d.request e = none)
    (hs : ∀ t ∈ d.tabBarVCs, SessionOf m t.map.user) : PlayingReaction m d r := by
  refine ⟨fun q hmem => ?_,fun x hx => ?_,?_,h.sessions⟩
  · cases h with
    | createAccountAction hv => simp [Device.request,hv] at hq
    | loginAction => simp [Device.request] at hq
    | changePasswordAction ht hn => simp [Device.request,ht,hn] at hq
    | map ht hr =>
      obtain ⟨mq,_,rfl⟩ := List.mem_map.mp hmem
      exact ⟨_,mq,rfl⟩
    | _ => contradiction
  · cases h with
    | map ht hr => simp [Device.ofMap,(MapVC.onEvent_effect hr).2.1] at hx
    | @scene tab i t s se sr ht hsc hr =>
      rcases GameScene.receive_effect hr with ⟨_,_,hw,_⟩ | ⟨_,_,hw,_⟩
      · simp only [Device.ofScene,hw] at hx
        exact (hs _ (List.mem_of_getElem? ht)).harmless_defeatWrites s x hx
      · simp [Device.ofScene,hw] at hx
    | _ => contradiction
  · cases h with
    | map ht hr => simp [Device.ofMap,(MapVC.onEvent_effect hr).2.2]
    | scene ht hsc hr =>
      rcases GameScene.receive_effect hr with ⟨_,_,_,hn⟩ | ⟨_,_,_,hn⟩
      · simp [Device.ofScene,hn,Note.outcome]
      · simp [Device.ofScene,hn]
    | _ => rfl

theorem ReadOutcome.playing [LinearOrder K] [FloorRing K] {p : Platform K} {snapshot : FNode K}
    {draw : Draw K} {d : Device K} {tab : Nat} {mq : MapRead K} {r : DeviceReaction K}
    {m : AccountMap} (h : ReadOutcome p snapshot draw d (.map tab mq) r)
    (hs : ∀ t ∈ d.tabBarVCs, SessionOf m t.map.user) : PlayingReaction m d r := by
  have hsessions : ∀ t' ∈ r.locals.tabBarVCs, ∃ t ∈ d.tabBarVCs,
      t'.map.user.SameAccount t.map.user := fun t' ht' => by
    rcases h.sessions t' ht' with ⟨t,ht,he⟩ | ⟨_,_,hq,_⟩
    · exact ⟨t,ht,he ▸ .refl _⟩
    · contradiction
  cases h with
  | idle => exact ⟨by simp [Device.idle],by simp [Device.idle],rfl,hsessions⟩
  | @map _ t _ mr ht hr =>
    have hreads : ∀ q ∈ (d.ofMap tab t mr).reads, ∃ tab mq, q = .map tab mq := by
      intro q hq
      obtain ⟨mq,_,rfl⟩ := List.mem_map.mp hq
      exact ⟨_,mq,rfl⟩
    obtain ⟨_,⟨c,_,hw,hn⟩ | ⟨enemy,_,hw,hn⟩ | ⟨hw,hn⟩⟩ := MapVC.onRead_effect hr
    · refine ⟨hreads,fun x hx => ?_,by simp [Device.ofMap,hn,Note.outcome],hsessions⟩
      simp only [Device.ofMap,hw] at hx
      exact (hs _ (List.mem_of_getElem? ht)).harmless_locationWrites c x hx
    · refine ⟨hreads,fun x hx => ?_,by simp [Device.ofMap,hn],hsessions⟩
      simp only [Device.ofMap,hw] at hx
      exact Write.harmless_enemyWrites enemy x hx
    · exact ⟨hreads,by simp [Device.ofMap,hw],by simp [Device.ofMap,hn],hsessions⟩

theorem Serial.react {qs : List Request} {w : World K} {c : Nat} {cl : Client K}
    {r : Except Trap (DeviceReaction K)} (hs : Sessions (empty.after qs) w)
    (hp : Playing (empty.after qs) w) (ho : Answered qs w)
    (hcl : PlayingClient (empty.after qs) cl) (hl : cl.locals = (w.clients c).locals)
    (hr : ∀ r', r = .ok r' → PlayingReaction (empty.after qs) (w.clients c).locals r') :
    Serial qs (w.react c cl r) := by
  refine .playing (hs.update rfl ?_) ⟨hp.users,?_⟩ ?_
  · cases r with
    | error t =>
      intro t' ht'
      exact hs c t' (hl ▸ ht')
    | ok r' =>
      intro t' ht'
      obtain ⟨t,ht,hsame⟩ := (hr r' rfl).sessions t' ht'
      exact (hs c t ht).congr hsame
  · refine forall_clients_update ⟨forall_reads_absorb hcl.reads ?_,
      forall_writes_absorb hcl.writes fun r' he => (hr r' he).writes⟩ (fun c' _ => hp.clients c')
    exact fun r' he q hq => ⟨(hr r' he).reads q hq,fun s hsn => by contradiction⟩
  · have hnone : (notesOf r).filterMap Note.outcome = [] := by
      cases r with
      | error t => rfl
      | ok r' => exact (hr r' rfl).notes
    rw [Answered,outcomes_react,hnone,List.append_nil]
    exact ho

theorem Asking.only {m : AccountMap} {c c' i : Nat} {r : Read K} {w : World K}
    {rd : Pending (Read K) (FNode K)} (h : Asking m c r w)
    (hr : (w.clients c').reads[i]? = some rd) :
    c' = c ∧ (w.clients c).reads.eraseIdx i = [] ∧ rd.read = r ∧
      ∀ s, rd.snapshot = some s → s = backend.view r w.store := by
  by_cases hc : c' = c
  · subst hc
    obtain ⟨s,hs,hsnap⟩ := h.reads
    rw [hs] at hr ⊢
    cases i with
    | zero =>
      simp only [List.getElem?_cons_zero,Option.some.injEq] at hr
      subst hr
      exact ⟨rfl,rfl,rfl,hsnap⟩
    | succ i => simp at hr
  · rw [(h.others c' hc).1] at hr
    simp at hr

theorem Asking.snapshot {m : AccountMap} {c i : Nat} {r : Read K} {w : World K}
    (h : Asking m c r w) (hr : (w.clients c).reads[i]? = some ⟨r,none⟩) :
    Asking m c r (w.setClient c { w.clients c with
      reads := (w.clients c).reads.set i ⟨r,some (backend.view r w.store)⟩ }) := by
  refine ⟨h.users,fun c' hc => ?_,?_,?_⟩
  · rw [setClient_clients_ne w c _ hc]
    exact h.others c' hc
  · refine ⟨some (backend.view r w.store),?_,fun s' he => (Option.some.inj he).symm⟩
    obtain ⟨s,hreads,_⟩ := h.reads
    rw [hreads] at hr ⊢
    cases i with
    | zero => simp
    | succ i => simp at hr
  · simpa using h.writes

theorem Represents.view_password {m : AccountMap} {store : FNode K} {tab vc : Nat}
    {oldPassword name : String} {a : Account}
    (h : Represents m (store.getImmediateChild "users")) (ha : m.find name = some a) :
    backend.view (.changeIfValidPassword tab vc oldPassword (stringOfInt a.number)) store =
      .leaf (.string a.password) := by
  rw [view_eq,Read.path,PathTree.getChild_cons,PathTree.getChild_cons,
    PathTree.getChild_singleton]
  exact (h.accounts name a ha).password

theorem onRead_refused [LinearOrder K] [FloorRing K] {p : Platform K} {d : Device K}
    {draw : Draw K} {tab vc : Nat} {password oldPassword userID : String}
    (h : password ≠ oldPassword) :
    (program p).onRead (.changeIfValidPassword tab vc oldPassword userID)
      (.leaf (.string password)) draw d = .ok { locals := d, notes := [.incorrectPassword] } := by
  simp [program,Device.onRead,NewPasswordVC.truePassword,h.symm,bind,Except.bind]

theorem Underway.snapshot {qs : List Request} {q : Request} {c i : Nat} {r : Read K} {w : World K}
    (h : Underway qs q c r w) (hr : (w.clients c).reads[i]? = some ⟨r,none⟩) :
    Underway qs q c r (w.setClient c { w.clients c with
      reads := (w.clients c).reads.set i ⟨r,some (backend.view r w.store)⟩ }) where
  sessions := h.sessions.update rfl (h.sessions c)
  asking := h.asking.snapshot hr
  asks := by simpa using h.asks
  answered := h.answered

theorem Underway.serve_sessions {qs : List Request} {q : Request} {c : Nat} {r : Read K}
    {w : World K} (h : Underway qs q c r w) :
    ∀ t ∈ (w.clients c).locals.tabBarVCs, SessionOf ((empty.after qs).serve q).2 t.map.user :=
  fun t ht => (h.sessions c t ht).serve q

theorem Underway.finish {qs : List Request} {q : Request} {c : Nat} {r : Read K} {w : World K}
    {cl : Client K} {r' : DeviceReaction K} (h : Underway qs q c r w) (hcr : cl.reads = [])
    (hcw : cl.writes = [])
    (hsessions : ∀ t ∈ r'.locals.tabBarVCs, SessionOf ((empty.after qs).serve q).2 t.map.user)
    (hreads : r'.reads = [])
    (husers : Represents ((empty.after qs).serve q).2
      ((drain r'.writes w.store).getImmediateChild "users"))
    (hnotes : ∃ o, r'.notes.filterMap Note.outcome = [o] ∧
      Answers ((empty.after qs).serve q).1 o) :
    Done (qs ++ [q]) c (w.react c cl (.ok r')) := by
  refine ⟨?_,⟨?_,fun c' hc => ?_,?_⟩,?_⟩
  · rw [after_concat]
    exact (h.sessions.serve q).update rfl hsessions
  · rw [after_concat,react_clients_self]
    simpa [Client.absorb,hcw] using husers
  · rw [react_clients_ne w c _ _ hc]
    exact h.asking.others c' hc
  · simp [Client.absorb,hcr,hreads]
  · obtain ⟨o,hnotes,ho⟩ := hnotes
    refine h.answered.concat ?_ ho
    rw [outcomes_react,notesOf,hnotes]

theorem Done.apply {qs : List Request} {c : Nat} {x : Write K} {xs : List (Write K)}
    {w : World K} (h : Done qs c w) (hx : (w.clients c).writes = x :: xs) :
    Done qs c { w.setClient c { w.clients c with writes := xs } with
      store := backend.apply x w.store } := by
  refine ⟨h.sessions.update rfl (h.sessions c),⟨?_,fun c' hne => ?_,?_⟩,h.answered⟩
  · have husers := h.storing.users
    rw [hx,drain_cons] at husers
    rw [setClient_clients_self]
    exact husers
  · have hother := h.storing.others c' hne
    simpa only [setClient_clients_ne w c _ hne] using hother
  · simpa using h.storing.reads

theorem onEvent_request [LinearOrder K] {p : Platform K} {d : Device K} {e : Event K}
    {q : Request} {m : AccountMap} (h : d.request e = some q)
    (hs : ∀ t ∈ d.tabBarVCs, SessionOf m t.map.user) :
    ∃ d' r, d.onEvent p e = .ok { locals := d', reads := [r] } ∧ d'.tabBarVCs = d.tabBarVCs ∧
      Asks m d' r q := by
  cases e with
  | createAccountAction vc =>
    simp only [Device.request] at h
    split at h
    · next v hv =>
      cases h
      refine ⟨{ d with taps := d.taps+1 },.checkIfUserExists vc d.taps,?_,rfl,?_⟩
      · simp only [Device.onEvent,hv]
      · exact .checkIfUserExists hv
    · contradiction
  | loginAction =>
    cases h
    exact ⟨d,_,rfl,rfl,.loginIfValid⟩
  | changePasswordAction tab vc =>
    simp only [Device.request] at h
    split at h
    · next t ht =>
      split at h
      · next n hn =>
        cases h
        obtain ⟨a,ha,hid⟩ := (hs t (List.mem_of_getElem? ht)).account
        refine ⟨d,.changeIfValidPassword tab vc n.oldPasswordOutlet (stringOfInt a.number),?_,rfl,
          .changeIfValidPassword ht hn ha⟩
        simp only [Device.onEvent,ht,hn,hid]
      · contradiction
    · contradiction
  | _ => contradiction

section
variable [LinearOrder K] [FloorRing K]

theorem underway_of_event {p : Platform K} {qs : List Request} {q : Request} {c : Nat}
    {e : Event K} {w w' : World K} (hi : Serial qs w) (hq : w.Quiet)
    (hreq : (w.clients c).locals.request e = some q) (h : step p (.event c e) w = some w') :
    w'.store = w.store ∧ ∃ r, Underway qs q c r w' := by
  obtain ⟨_,rfl⟩ := step_event h
  obtain ⟨hs,husers,ho⟩ := hi.of_quiet hq
  obtain ⟨d',r,hr,htabs,hasks⟩ := onEvent_request (p := p) hreq (hs c)
  have hprog : (program p).onEvent e (w.clients c).locals =
      .ok { locals := d', reads := [r] } := hr
  rw [hprog,react_silent]
  refine ⟨rfl,r,hs.update rfl ?_,⟨husers,?_,?_,?_⟩,?_,ho⟩
  · rw [htabs]
    exact hs c
  · intro c' hc
    rw [setClient_clients_ne w c _ hc]
    exact hq c'
  · exact ⟨none,by simp [(hq c).1],fun s' hn => by contradiction⟩
  · simp [(hq c).2]
  · simpa using hasks

theorem Serial.event {p : Platform K} {qs : List Request} {c : Nat} {e : Event K}
    {w w' : World K} (hi : Serial qs w) (hq : w.Quiet) (h : step p (.event c e) w = some w') :
    Serial (qs ++ (request (.event c e) w).toList) w' := by
  cases hreq : (w.clients c).locals.request e with
  | none =>
    simp only [request,hreq,Option.toList_none,List.append_nil]
    obtain ⟨_,rfl⟩ := step_event h
    obtain ⟨hs,husers,ho⟩ := hi.of_quiet hq
    have hp := Playing.of_quiet husers hq
    exact Serial.react hs hp ho (hp.clients c) rfl
      (fun r hr => (onEvent_outcome hr).playing hreq (hs c))
  | some q =>
    simp only [request,hreq,Option.toList_some]
    obtain ⟨_,r,hr⟩ := underway_of_event hi hq hreq h
    exact .underway hr

theorem Serial.snapshot {p : Platform K} {qs : List Request} {c i : Nat} {w w' : World K}
    (hi : Serial qs w) (h : step p (.snapshot c i) w = some w') : Serial qs w' := by
  obtain ⟨r,hr,rfl⟩ := step_snapshot h
  cases hi with
  | playing hs hp ho =>
    refine .playing (hs.update rfl (hs c)) ⟨hp.users,?_⟩ ho
    refine forall_clients_update ⟨fun rd hrd => ?_,(hp.clients c).writes⟩
      (fun c' _ => hp.clients c')
    rcases List.mem_or_eq_of_mem_set hrd with hold | rfl
    · exact (hp.clients c).reads rd hold
    · refine ⟨((hp.clients c).reads _ (List.mem_of_getElem? hr)).1,fun s hs hpath => ?_⟩
      cases hs
      rw [view_users hpath]
      exact hp.users
  | @underway qs q c' r' w hu =>
    obtain ⟨rfl,_,rfl,_⟩ := hu.asking.only hr
    exact .underway (hu.snapshot hr)
  | done hd => simp [hd.no_reads c] at hr

theorem Serial.apply {p : Platform K} {qs : List Request} {c : Nat} {w w' : World K}
    (hi : Serial qs w) (h : step p (.apply c) w = some w') : Serial qs w' := by
  obtain ⟨x,xs,hx,rfl⟩ := step_apply h
  cases hi with
  | playing hs hp ho =>
    have hc := hp.clients c
    refine .playing (hs.update rfl (hs c)) ⟨?_,?_⟩ ho
    · exact hp.users.applyHarmless (hc.writes x (by rw [hx]; exact List.mem_cons_self))
    · refine forall_clients_update ⟨hc.reads,fun y hy => ?_⟩ (fun c' _ => hp.clients c')
      exact hc.writes y (hx ▸ List.mem_cons_of_mem x hy)
  | underway hu =>
    rw [hu.asking.no_writes c] at hx
    contradiction
  | @done _ c' _ hd =>
    by_cases hc : c = c'
    · subst hc
      exact .done (hd.apply hx)
    · rw [(hd.storing.others c hc).2] at hx
      contradiction

section
variable {p : Platform K} {qs : List Request} {c : Nat} {w : World K} {d : Draw K} {cl : Client K}

theorem Underway.checkIfUserExists {vc tap : Nat} {v : SignupVC}
    (h : Underway qs (.signup v.usernameOutlet v.passwordOutlet) c (.checkIfUserExists vc tap) w)
    (hv : (w.clients c).locals.signupVCs[vc]? = some v) (hcr : cl.reads = [])
    (hcw : cl.writes = []) :
    Underway qs (.signup v.usernameOutlet v.passwordOutlet) c
      (.addUserToFirebase vc tap v.usernameOutlet) (w.react c cl ((program p).onRead
        (.checkIfUserExists vc tap) (w.store.getImmediateChild "users") d (w.clients c).locals)) ∨
    Done (qs ++ [.signup v.usernameOutlet v.passwordOutlet]) c (w.react c cl ((program p).onRead
      (.checkIfUserExists vc tap) (w.store.getImmediateChild "users") d (w.clients c).locals)) := by
  have husers := h.asking.users
  have hscan := husers.checkIfUserExists v.usernameOutlet
  cases hf : (empty.after qs).find v.usernameOutlet with
  | some a =>
    have hprog : (program p).onRead (.checkIfUserExists vc tap)
        (w.store.getImmediateChild "users") d (w.clients c).locals =
          .ok { locals := (w.clients c).locals, notes := [.userAlreadyExists tap] } := by
      simp [program,Device.onRead,hv,hscan,hf,bind,Except.bind]
    rw [hprog]
    refine Or.inr (h.finish hcr hcw h.serve_sessions rfl ?_ ?_)
    · rw [serve_signup_some hf]
      exact husers
    · rw [serve_signup_some hf]
      exact ⟨_,rfl,.taken⟩
  | none =>
    have hprog : (program p).onRead (.checkIfUserExists vc tap)
        (w.store.getImmediateChild "users") d (w.clients c).locals =
          .ok { locals := (w.clients c).locals
                reads := [.addUserToFirebase vc tap v.usernameOutlet]
                notes := [.goToLogin tap v.usernameOutlet] } := by
      simp [program,Device.onRead,hv,hscan,hf,bind,Except.bind]
    rw [hprog]
    refine Or.inl ⟨h.sessions.update rfl (h.sessions c),⟨husers,fun c' hc => ?_,?_,?_⟩,?_,?_⟩
    · rw [react_clients_ne w c _ _ hc]
      exact h.asking.others c' hc
    · exact ⟨none,by simp [Client.absorb,hcr],fun s' hn => by contradiction⟩
    · simp [Client.absorb,hcw]
    · rw [react_clients_self]
      exact .addUserToFirebase hv hf
    · have hnone : [(Note.goToLogin tap v.usernameOutlet : Note K)].filterMap Note.outcome = [] :=
        rfl
      rw [Answered,outcomes_react,notesOf,hnone,List.append_nil]
      exact h.answered

theorem Underway.addUserToFirebase {vc tap : Nat} {name : String} {v : SignupVC}
    (h : Underway qs (.signup name v.passwordOutlet) c (.addUserToFirebase vc tap name) w)
    (hv : (w.clients c).locals.signupVCs[vc]? = some v) (hf : (empty.after qs).find name = none)
    (hcr : cl.reads = []) (hcw : cl.writes = []) :
    Done (qs ++ [.signup name v.passwordOutlet]) c (w.react c cl ((program p).onRead
      (.addUserToFirebase vc tap name) (w.store.getImmediateChild "users") d
        (w.clients c).locals)) := by
  have husers := h.asking.users
  have hcount := husers.keys.numChildren_eq
  have hprog : (program p).onRead (.addUserToFirebase vc tap name)
      (w.store.getImmediateChild "users") d (w.clients c).locals =
        .ok { locals := (w.clients c).locals
              writes := SignupVC.userWrites (stringOfInt (empty.after qs).count)
                (User.init name (some v.passwordOutlet) (empty.after qs).count 50 3.2 10)
              notes := [.addUserToFirebase tap
                (User.init name (some v.passwordOutlet) (empty.after qs).count 50 3.2 10)] } := by
    simp [program,Device.onRead,hv,addUserToFirebase_eq,hcount,bind,Except.bind]
  rw [hprog]
  refine h.finish hcr hcw h.serve_sessions rfl ?_ ?_
  · rw [serve_signup_none hf]
    exact husers.drainSignup hf
  · rw [serve_signup_none hf]
    exact ⟨_,rfl,.signedUp⟩

theorem Underway.loginIfValid {name password : String}
    (h : Underway qs (.login name password) c (.loginIfValid name password) w)
    (hcr : cl.reads = []) (hcw : cl.writes = []) :
    Done (qs ++ [.login name password]) c (w.react c cl ((program p).onRead
      (.loginIfValid name password) (w.store.getImmediateChild "users") d
        (w.clients c).locals)) := by
  have husers := h.asking.users
  by_cases hvalid : ∃ a, (empty.after qs).find name = some a ∧ a.password = password
  · obtain ⟨a,hf,hp⟩ := hvalid
    obtain ⟨n,hscan⟩ := husers.loginIfValid_some hf hp
    have hprog : (program p).onRead (.loginIfValid name password)
        (w.store.getImmediateChild "users") d (w.clients c).locals =
          .ok { locals := { (w.clients c).locals with
                  tabBarVCs := (w.clients c).locals.tabBarVCs ++
                    [{ map := { user := User.init name (some password) a.number 50 3.2 n } }] }
                notes := [.tabBarSegue (User.init name (some password) a.number 50 3.2 n)] } := by
      simp [program,Device.onRead,hscan,bind,Except.bind]
    rw [hprog]
    refine h.finish hcr hcw (fun t ht => ?_) rfl ?_ ?_
    · rcases List.mem_append.mp ht with hold | hnew
      · exact h.serve_sessions t hold
      · rw [List.mem_singleton.mp hnew,serve_login hf hp]
        exact ⟨⟨a,hf,rfl⟩,rfl,rfl⟩
    · rw [serve_login hf hp]
      exact husers
    · rw [serve_login hf hp]
      exact ⟨_,rfl,.session⟩
  · have hno : ∀ a, (empty.after qs).find name = some a → a.password ≠ password :=
      fun a hf hp => hvalid ⟨a,hf,hp⟩
    have hscan := husers.loginIfValid_none hno
    have hprog : (program p).onRead (.loginIfValid name password)
        (w.store.getImmediateChild "users") d (w.clients c).locals =
          .ok { locals := (w.clients c).locals, notes := [.couldNotVerify] } := by
      simp [program,Device.onRead,hscan,bind,Except.bind]
    rw [hprog]
    refine h.finish hcr hcw h.serve_sessions rfl ?_ ?_
    · rw [serve_login_rejected hno]
      exact husers
    · rw [serve_login_rejected hno]
      exact ⟨_,rfl,.rejected⟩

theorem Underway.changeIfValidPassword {tab vc : Nat} {oldPassword name : String} {t : TabBarVC K}
    {n : NewPasswordVC} {a : Account}
    (h : Underway qs (.changePassword name oldPassword n.newPasswordOutlet) c
      (.changeIfValidPassword tab vc oldPassword (stringOfInt a.number)) w)
    (ht : (w.clients c).locals.tabBarVCs[tab]? = some t) (hn : t.newPasswordVCs[vc]? = some n)
    (hf : (empty.after qs).find name = some a) (hcr : cl.reads = []) (hcw : cl.writes = []) :
    Done (qs ++ [.changePassword name oldPassword n.newPasswordOutlet]) c
      (w.react c cl ((program p).onRead
        (.changeIfValidPassword tab vc oldPassword (stringOfInt a.number))
          (.leaf (.string a.password)) d (w.clients c).locals)) := by
  have husers := h.asking.users
  by_cases hp : a.password = oldPassword
  · have hprog : (program p).onRead
        (.changeIfValidPassword tab vc oldPassword (stringOfInt a.number))
        (.leaf (.string a.password)) d (w.clients c).locals =
          .ok { locals := (w.clients c).locals
                writes := [setValue ["users",stringOfInt a.number,"password"]
                  (.string n.newPasswordOutlet)]
                notes := [.passwordChanged (stringOfInt a.number) oldPassword
                  n.newPasswordOutlet] } := by
      simp [program,Device.onRead,NewPasswordVC.truePassword,hp,ht,hn,bind,Except.bind]
    rw [hprog]
    refine h.finish hcr hcw h.serve_sessions rfl ?_ ?_
    · rw [serve_changePassword hf hp]
      exact husers.applyPassword hf
    · rw [serve_changePassword hf hp]
      exact ⟨_,rfl,.changed⟩
  · rw [onRead_refused hp]
    refine h.finish hcr hcw h.serve_sessions rfl ?_ ?_
    · rw [serve_changePassword_refused hf hp]
      exact husers
    · rw [serve_changePassword_refused hf hp]
      exact ⟨_,rfl,.refused⟩

/-- The answer to a request. Only the first scan of a signup asks once more. -/
theorem Underway.answer {q : Request} {r : Read K} {snapshot : FNode K} (cl : Client K)
    (h : Underway qs q c r w) (hcr : cl.reads = []) (hcw : cl.writes = [])
    (hsnap : snapshot = backend.view r w.store) :
    ((∃ vc tap, r = .checkIfUserExists vc tap) ∧
      ∃ vc tap name, Underway qs q c (.addUserToFirebase vc tap name)
        (w.react c cl ((program p).onRead r snapshot d (w.clients c).locals))) ∨
    Done (qs ++ [q]) c (w.react c cl ((program p).onRead r snapshot d (w.clients c).locals)) := by
  cases h.asks with
  | @checkIfUserExists vc tap v hv =>
    rw [hsnap,view_users rfl]
    rcases h.checkIfUserExists hv hcr hcw with hnext | hdone
    · exact Or.inl ⟨⟨vc,tap,rfl⟩,vc,tap,v.usernameOutlet,hnext⟩
    · exact Or.inr hdone
  | addUserToFirebase hv hf =>
    rw [hsnap,view_users rfl]
    exact Or.inr (h.addUserToFirebase hv hf hcr hcw)
  | loginIfValid =>
    rw [hsnap,view_users rfl]
    exact Or.inr (h.loginIfValid hcr hcw)
  | changeIfValidPassword ht hn hf =>
    rw [hsnap,h.asking.users.view_password hf]
    exact Or.inr (h.changeIfValidPassword ht hn hf hcr hcw)

end

theorem Serial.deliver {p : Platform K} {qs : List Request} {c i : Nat} {d : Draw K}
    {w w' : World K} (hi : Serial qs w) (h : step p (.deliver c i d) w = some w') :
    Serial qs w' := by
  obtain ⟨r,s,hr,rfl⟩ := step_deliver h
  cases hi with
  | playing hs hp ho =>
    obtain ⟨⟨tab,mq,rfl⟩,_⟩ := (hp.clients c).reads _ (List.mem_of_getElem? hr)
    refine Serial.react hs hp ho ⟨fun rd hrd => ?_,(hp.clients c).writes⟩ rfl ?_
    · exact (hp.clients c).reads rd (List.mem_of_mem_eraseIdx hrd)
    · intro r hout
      have hread : Device.onRead p (.map tab mq) s d (w.clients c).locals = .ok r := hout
      exact (onRead_outcome hread).playing (hs c)
  | @underway qs q c' r' w hu =>
    obtain ⟨rfl,hcr,rfl,hsnap⟩ := hu.asking.only hr
    have hanswer := hu.answer (p := p) (d := d)
      { w.clients c with reads := (w.clients c).reads.eraseIdx i } hcr hu.asking.writes
      (hsnap s rfl)
    rcases hanswer with ⟨_,_,_,_,hnext⟩ | hdone
    · exact .underway hnext
    · exact .done hdone
  | done hd => simp [hd.no_reads c] at hr

theorem Serial.step {p : Platform K} {qs : List Request} {l : Label K} {w w' : World K}
    (hi : Serial qs w) (hc : OneAtATime l w) (h : GFLGO.step p l w = some w') :
    Serial (qs ++ (request l w).toList) w' := by
  cases l with
  | event c e => exact hi.event hc h
  | snapshot c i => simpa [request] using hi.snapshot h
  | deliver c i d => simpa [request] using hi.deliver h
  | apply c => simpa [request] using hi.apply h

def Completes (p : Platform K) (w : World K) : Prop :=
  ∃ ls w', (∀ l ∈ ls, l.internal = true) ∧ run (GFLGO.step p) ls w = some w' ∧ w'.Quiet

theorem Completes.cons {p : Platform K} {l : Label K} {w w' : World K} (hl : l.internal = true)
    (hs : GFLGO.step p l w = some w') (h : Completes p w') : Completes p w := by
  obtain ⟨ls,u,hls,hr,hq⟩ := h
  exact ⟨l :: ls,u,List.forall_mem_cons.mpr ⟨hl,hls⟩,
    (run_cons_eq_some (GFLGO.step p)).mpr ⟨w',hs,hr⟩,hq⟩

theorem Done.completes {p : Platform K} {qs : List Request} {c : Nat} {w : World K}
    (h : Done qs c w) : Completes p w := by
  generalize hws : (w.clients c).writes = ws
  induction ws generalizing w with
  | nil =>
    refine ⟨[],w,by simp,rfl,fun c' => ?_⟩
    by_cases hc : c' = c
    · exact hc ▸ ⟨h.storing.reads,hws⟩
    · exact h.storing.others c' hc
  | cons x xs ih =>
    have hs : GFLGO.step p (.apply c) w = some
        { w.setClient c { w.clients c with writes := xs } with
          store := backend.apply x w.store } := by
      simp [GFLGO.step,Async.step,hws]
    exact (ih (h.apply hws) (by simp)).cons rfl hs

theorem Underway.exists_snapshot {p : Platform K} {qs : List Request} {q : Request} {c : Nat}
    {r : Read K} {w : World K} (h : Underway qs q c r w) :
    ∃ w', Underway qs q c r w' ∧
      (w'.clients c).reads[0]? = some ⟨r,some (backend.view r w'.store)⟩ ∧
      (Completes p w' → Completes p w) := by
  obtain ⟨s,hreads,hsnap⟩ := h.asking.reads
  cases s with
  | some s =>
    have hs := hsnap s rfl
    subst hs
    exact ⟨w,h,by simp [hreads],fun hc => hc⟩
  | none =>
    have hr : (w.clients c).reads[0]? = some ⟨r,none⟩ := by simp [hreads]
    refine ⟨_,h.snapshot hr,by simp [hreads],fun hc => hc.cons (l := .snapshot c 0) rfl ?_⟩
    simp [GFLGO.step,Async.step,hr]

theorem Underway.completes_of {p : Platform K} {qs : List Request} {q : Request} {c : Nat}
    {r : Read K} {w : World K} (h : Underway qs q c r w)
    (hnext : (∃ vc tap, r = .checkIfUserExists vc tap) → ∀ vc tap name w',
      Underway qs q c (.addUserToFirebase vc tap name) w' → Completes p w') : Completes p w := by
  obtain ⟨u,hu,hread,hback⟩ := h.exists_snapshot (p := p)
  obtain ⟨_,herase,_,_⟩ := hu.asking.only hread
  let d : Draw K := ⟨0,0,0,0,""⟩
  have hs : GFLGO.step p (.deliver c 0 d) u = some (u.react c
      { u.clients c with reads := (u.clients c).reads.eraseIdx 0 }
      ((program p).onRead r (backend.view r u.store) d (u.clients c).locals)) := by
    simp [GFLGO.step,Async.step,hread]
  refine hback ?_
  rcases hu.answer (p := p) (d := d) { u.clients c with reads := (u.clients c).reads.eraseIdx 0 }
    herase hu.asking.writes rfl with ⟨hcheck,vc,tap,name,hcount⟩ | hdone
  · exact (hnext hcheck vc tap name _ hcount).cons rfl hs
  · exact hdone.completes.cons rfl hs

theorem Underway.completes {p : Platform K} {qs : List Request} {q : Request} {c : Nat}
    {r : Read K} {w : World K} (h : Underway qs q c r w) : Completes p w := by
  refine h.completes_of (fun _ vc tap name w' hcount => ?_)
  exact hcount.completes_of (fun hcheck => by simp at hcheck)

end

end

end GFLGO
