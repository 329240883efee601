import GFLGO.Device
import GFLGO.Scans

/-! What the callbacks of a device can do, one case for each way they end. -/

set_option autoImplicit false

namespace GFLGO

section
variable {K : Type}

/-- Two objects for one account: they may differ in location and experience. -/
def User.SameAccount (u v : User K) : Prop :=
  u.username = v.username ∧ u.password = v.password ∧ u.userID = v.userID ∧
    u.health = v.health ∧ u.power = v.power

theorem User.SameAccount.refl (u : User K) : u.SameAccount u := ⟨rfl,rfl,rfl,rfl,rfl⟩

/-- The writes of a defeat, with the experience they pay. -/
def GameScene.defeatWrites (user : User K) (s : GameScene K) : List (Write K) :=
  [s.removeEnemyFromFirebase,(user.addExperience 1).2]

theorem truePassword_eq_ok {snapshot : FNode K} {s : String}
    (h : NewPasswordVC.truePassword snapshot = .ok s) : snapshot = .leaf (.string s) := by
  unfold NewPasswordVC.truePassword at h
  split at h
  · cases h
    rfl
  · contradiction

theorem addUserToFirebase_eq [Field K] (username password : String) (snapshot : FNode K) :
    SignupVC.addUserToFirebase username password snapshot =
      .ok (User.init username (some password) snapshot.numChildren 50 3.2 10,
        SignupVC.userWrites (stringOfInt snapshot.numChildren)
          (User.init username (some password) snapshot.numChildren 50 3.2 10)) := by
  simp [SignupVC.addUserToFirebase,bind,Except.bind]

theorem Device.mem_setTab {d : Device K} {tab : Nat} {t t' : TabBarVC K}
    (h : t' ∈ (d.setTab tab t).tabBarVCs) : t' = t ∨ t' ∈ d.tabBarVCs :=
  (List.mem_or_eq_of_mem_set h).symm

theorem Device.getElem?_setTab {d : Device K} {tab tab' : Nat} {u t' : TabBarVC K}
    (h : (d.setTab tab u).tabBarVCs[tab']? = some t') :
    (tab' = tab ∧ t' = u) ∨ d.tabBarVCs[tab']? = some t' := by
  simp only [setTab,List.getElem?_set] at h
  split at h
  · next he =>
    subst he
    split at h
    · exact Or.inl ⟨rfl,(Option.some.inj h).symm⟩
    · contradiction
  · exact Or.inr h

theorem Device.sameAccount_of_mem_setTab {d : Device K} {tab : Nat} {t u t' : TabBarVC K}
    (ht : d.tabBarVCs[tab]? = some t) (hu : u.map.user.SameAccount t.map.user)
    (h : t' ∈ (d.setTab tab u).tabBarVCs) :
    ∃ t ∈ d.tabBarVCs, t'.map.user.SameAccount t.map.user := by
  rcases mem_setTab h with rfl | hold
  · exact ⟨t,List.mem_of_getElem? ht,hu⟩
  · exact ⟨t',hold,.refl _⟩

theorem MapVC.onEvent_effect [Field K] {p : Platform K} {e : MapEvent K} {m : MapVC K}
    {r : MapReaction K} (h : m.onEvent p e = .ok r) :
    (∃ latitude longitude, r.locals.user = { m.user with latitude, longitude }) ∧
      r.writes = [] ∧ r.notes = [] := by
  cases e with
  | viewWillAppear =>
    cases h
    refine ⟨⟨m.user.latitude,m.user.longitude,?_⟩,?_,?_⟩ <;>
      cases hf : m.firstCenter <;> simp [viewWillAppear,hf,setUpAnnotations]
  | viewDidDisappear =>
    cases h
    exact ⟨⟨_,_,rfl⟩,rfl,rfl⟩
  | didUpdateLocations locations =>
    obtain ⟨c,_,h⟩ := bind_eq_ok.mp h
    obtain ⟨r',hr,h⟩ := bind_eq_ok.mp h
    cases h
    cases hf : m.firstCenter with
    | true =>
      simp only [setUserLocation,hf,if_true,centerMap,unwrap_some,bind,Except.bind] at hr
      cases hr
      exact ⟨⟨_,_,rfl⟩,rfl,rfl⟩
    | false =>
      simp only [setUserLocation,hf,Bool.false_eq_true,if_false] at hr
      cases hr
      exact ⟨⟨_,_,rfl⟩,rfl,rfl⟩
  | centerAction =>
    obtain ⟨m',hm,h⟩ := bind_eq_ok.mp h
    obtain ⟨location,_,hc⟩ := bind_eq_ok.mp hm
    cases hc
    cases h
    exact ⟨⟨_,_,rfl⟩,rfl,rfl⟩
  | addEnemyAction d =>
    obtain ⟨location,_,h⟩ := bind_eq_ok.mp h
    cases h
    exact ⟨⟨_,_,rfl⟩,rfl,rfl⟩
  | timerTick =>
    cases h
    exact ⟨⟨_,_,rfl⟩,rfl,rfl⟩
  | didSelect i =>
    cases h
    refine ⟨⟨m.user.latitude,m.user.longitude,?_⟩,rfl,rfl⟩
    simp only [didSelect]
    split <;> rfl
  | touchesBegan onCallout =>
    cases h
    refine ⟨⟨m.user.latitude,m.user.longitude,?_⟩,rfl,rfl⟩
    simp only [touchesBegan]
    split <;> rfl

theorem MapVC.onEvent_trap [Field K] {p : Platform K} {e : MapEvent K} {m : MapVC K} {t : Trap}
    (h : m.onEvent p e = .error t) : t = .userLocation ∨ t = .noLocations := by
  cases e with
  | didUpdateLocations locations =>
    rcases bind_eq_error.mp h with h | ⟨c,_,h⟩
    · exact Or.inr (unwrap_eq_error.mp h).2.symm
    · rcases bind_eq_error.mp h with h | ⟨_,_,h⟩
      · simp only [setUserLocation] at h
        split at h
        · rcases bind_eq_error.mp h with h | ⟨_,_,h⟩
          · simp [centerMap,bind,Except.bind] at h
          · contradiction
        · contradiction
      · contradiction
  | centerAction =>
    rcases bind_eq_error.mp h with h | ⟨_,_,h⟩
    · rcases bind_eq_error.mp h with h | ⟨_,_,h⟩
      · exact Or.inl (unwrap_eq_error.mp h).2.symm
      · contradiction
    · contradiction
  | addEnemyAction d =>
    rcases bind_eq_error.mp h with h | ⟨_,_,h⟩
    · exact Or.inl (unwrap_eq_error.mp h).2.symm
    · contradiction
  | viewWillAppear => contradiction
  | viewDidDisappear => contradiction
  | timerTick => contradiction
  | didSelect i => contradiction
  | touchesBegan onCallout => contradiction

variable [Field K] [LinearOrder K]

/-- The event is an attack that brings the copy of the enemy to zero. -/
def GameScene.defeats (user : User K) (s : GameScene K) (e : SceneEvent) : Bool :=
  s.attacks e ∧ ¬ 0 < s.currentEnemyHealth - user.power

inductive EventOutcome (p : Platform K) (d : Device K) : Event K → DeviceReaction K → Prop
  | idle {e : Event K} : EventOutcome p d e d.idle
  | signupAction :
    EventOutcome p d .signupAction { locals := { d with signupVCs := d.signupVCs ++ [{}] } }
  | editSignup {vc : Nat} {username password : String} :
    EventOutcome p d (.editSignup vc username password)
      { locals := { d with signupVCs := d.signupVCs.set vc ⟨username,password⟩ } }
  | createAccountAction {vc : Nat} {v : SignupVC} (hv : d.signupVCs[vc]? = some v) :
    EventOutcome p d (.createAccountAction vc)
      { locals := { d with taps := d.taps+1 }, reads := [.checkIfUserExists vc d.taps] }
  | editLogin {username password : String} :
    EventOutcome p d (.editLogin username password)
      { locals := { d with loginVC := ⟨username,password⟩ } }
  | loginAction :
    EventOutcome p d .loginAction
      { locals := d
        reads := [.loginIfValid d.loginVC.usernameOutlet d.loginVC.passwordOutlet] }
  | map {tab : Nat} {t : TabBarVC K} {e : MapEvent K} {r : MapReaction K}
    (ht : d.tabBarVCs[tab]? = some t) (hr : t.map.onEvent p e = .ok r) :
    EventOutcome p d (.map tab e) (d.ofMap tab t r)
  | battleAction {tab : Nat} {t : TabBarVC K} {enemy : Enemy K}
    (ht : d.tabBarVCs[tab]? = some t) (he : t.map.selectedEnemy = some enemy) :
    EventOutcome p d (.battleAction tab)
      { locals := d.setTab tab { t with
          scenes := t.scenes ++ [GameScene.didMove t.map.user enemy] } }
  | scene {tab scene : Nat} {t : TabBarVC K} {s : GameScene K} {e : SceneEvent}
    {r : SceneReaction K} (ht : d.tabBarVCs[tab]? = some t) (hs : t.scenes[scene]? = some s)
    (hr : s.receive t.map.user e = some r) :
    EventOutcome p d (.scene tab scene e) (d.ofScene tab scene t r)
  | newPassword {e : Event K} {tab : Nat} {t : TabBarVC K} {vcs : List NewPasswordVC}
    (ht : d.tabBarVCs[tab]? = some t) :
    EventOutcome p d e { locals := d.setTab tab { t with newPasswordVCs := vcs } }
  | changePasswordAction {tab vc : Nat} {t : TabBarVC K} {n : NewPasswordVC}
    (ht : d.tabBarVCs[tab]? = some t) (hn : t.newPasswordVCs[vc]? = some n) :
    EventOutcome p d (.changePasswordAction tab vc)
      { locals := d
        reads :=
          [.changeIfValidPassword tab vc n.oldPasswordOutlet (stringOfInt t.map.user.userID)] }
  | logout {tab : Nat} {t : TabBarVC K} (ht : d.tabBarVCs[tab]? = some t) :
    EventOutcome p d (.logout tab)
      { locals := d.setTab tab { t with timerValid := false, onStack := false } }

theorem onEvent_outcome {p : Platform K} {e : Event K} {d : Device K} {r : DeviceReaction K}
    (h : d.onEvent p e = .ok r) : EventOutcome p d e r := by
  cases e with
  | signupAction =>
    cases h
    exact .signupAction
  | editSignup vc username password =>
    cases h
    exact .editSignup
  | createAccountAction vc =>
    simp only [Device.onEvent] at h
    split at h
    · next v hv =>
      cases h
      exact .createAccountAction hv
    · cases h
      exact .idle
  | editLogin username password =>
    cases h
    exact .editLogin
  | loginAction =>
    cases h
    exact .loginAction
  | map tab e =>
    simp only [Device.onEvent] at h
    split at h
    · next t ht =>
      split at h
      · obtain ⟨m,hm,h⟩ := bind_eq_ok.mp h
        cases h
        exact .map ht hm
      · cases h
        exact .idle
    · cases h
      exact .idle
  | battleAction tab =>
    simp only [Device.onEvent] at h
    split at h
    · next t ht =>
      split at h
      · obtain ⟨enemy,he,h⟩ := bind_eq_ok.mp h
        cases h
        exact .battleAction ht (unwrap_eq_ok.mp he)
      · cases h
        exact .idle
    · cases h
      exact .idle
  | scene tab scene e =>
    simp only [Device.onEvent] at h
    split at h
    · next t ht =>
      split at h
      · next s hs =>
        split at h
        · next r' hr =>
          cases h
          exact .scene ht hs hr
        · cases h
          exact .idle
      · cases h
        exact .idle
    · cases h
      exact .idle
  | newPasswordSegue tab =>
    simp only [Device.onEvent] at h
    split at h
    · next t ht =>
      split at h
      · cases h
        exact .newPassword ht
      · cases h
        exact .idle
    · cases h
      exact .idle
  | editNewPassword tab vc oldPassword newPassword =>
    simp only [Device.onEvent] at h
    split at h
    · next t ht =>
      cases h
      exact .newPassword ht
    · cases h
      exact .idle
  | changePasswordAction tab vc =>
    simp only [Device.onEvent] at h
    split at h
    · next t ht =>
      split at h
      · next n hn =>
        cases h
        exact .changePasswordAction ht hn
      · cases h
        exact .idle
    · cases h
      exact .idle
  | logout tab =>
    simp only [Device.onEvent] at h
    split at h
    · next t ht =>
      split at h
      · cases h
        exact .logout ht
      · cases h
        exact .idle
    · cases h
      exact .idle

theorem GameScene.receive_effect {user : User K} {s : GameScene K} {e : SceneEvent}
    {r : SceneReaction K} (h : s.receive user e = some r) :
    (s.defeats user e = true ∧ r.user = (user.addExperience 1).1 ∧
        r.writes = s.defeatWrites user ∧
        r.notes = [.addExperience user.userID 1 s.enemy.identifier]) ∨
      (s.defeats user e = false ∧ r.user = user ∧ r.writes = [] ∧ r.notes = []) := by
  rcases receive_cases h with ⟨ha,t,_,rfl⟩ | ⟨ha,hu,hw,hn,_⟩
  · obtain ⟨_,_,_,⟨hp,_,hu,hw,hn⟩ | ⟨hp,_,hu,hw,hn⟩⟩ := attack_cases user s
    · exact Or.inr ⟨by simp [defeats,hp],hu,hw,hn⟩
    · exact Or.inl ⟨by simp [defeats,ha,hp],hu,hw,hn⟩
  · exact Or.inr ⟨by simp [defeats,ha],hu,hw,hn⟩

theorem GameScene.receive_sameAccount {user : User K} {s : GameScene K} {e : SceneEvent}
    {r : SceneReaction K} (h : s.receive user e = some r) : r.user.SameAccount user := by
  rcases receive_effect h with ⟨_,hu,_⟩ | ⟨_,hu,_⟩
  · rw [hu]
    exact ⟨rfl,rfl,rfl,rfl,rfl⟩
  · rw [hu]
    exact .refl user

theorem onEvent_trap {p : Platform K} {e : Event K} {d : Device K} {t : Trap}
    (h : d.onEvent p e = .error t) : t = .userLocation ∨ t = .noLocations ∨ t = .enemy := by
  cases e with
  | map tab e =>
    simp only [Device.onEvent] at h
    split at h
    · split at h
      · rcases bind_eq_error.mp h with h | ⟨_,_,h⟩
        · rcases MapVC.onEvent_trap h with ht | ht
          · exact Or.inl ht
          · exact Or.inr (Or.inl ht)
        · contradiction
      · contradiction
    · contradiction
  | battleAction tab =>
    simp only [Device.onEvent] at h
    split at h
    · split at h
      · rcases bind_eq_error.mp h with h | ⟨_,_,h⟩
        · exact Or.inr (Or.inr (unwrap_eq_error.mp h).2.symm)
        · contradiction
      · contradiction
    · contradiction
  | signupAction => contradiction
  | editSignup vc username password => contradiction
  | createAccountAction vc =>
    simp only [Device.onEvent] at h
    split at h <;> contradiction
  | editLogin username password => contradiction
  | loginAction => contradiction
  | scene tab scene e =>
    simp only [Device.onEvent] at h
    split at h
    · split at h
      · split at h <;> contradiction
      · contradiction
    · contradiction
  | newPasswordSegue tab =>
    simp only [Device.onEvent] at h
    split at h
    · split at h <;> contradiction
    · contradiction
  | editNewPassword tab vc oldPassword newPassword =>
    simp only [Device.onEvent] at h
    split at h <;> contradiction
  | changePasswordAction tab vc =>
    simp only [Device.onEvent] at h
    split at h
    · split at h <;> contradiction
    · contradiction
  | logout tab =>
    simp only [Device.onEvent] at h
    split at h
    · split at h <;> contradiction
    · contradiction

theorem EventOutcome.sessions {p : Platform K} {d : Device K} {e : Event K}
    {r : DeviceReaction K} (h : EventOutcome p d e r) :
    ∀ t' ∈ r.locals.tabBarVCs, ∃ t ∈ d.tabBarVCs, t'.map.user.SameAccount t.map.user := by
  intro t' ht'
  cases h with
  | map ht hr =>
    obtain ⟨⟨latitude,longitude,hu⟩,_⟩ := MapVC.onEvent_effect hr
    refine Device.sameAccount_of_mem_setTab ht ?_ ht'
    rw [hu]
    exact ⟨rfl,rfl,rfl,rfl,rfl⟩
  | battleAction ht he =>
    refine Device.sameAccount_of_mem_setTab ht ?_ ht'
    exact .refl _
  | scene ht hs hr =>
    exact Device.sameAccount_of_mem_setTab ht (GameScene.receive_sameAccount hr) ht'
  | newPassword ht =>
    refine Device.sameAccount_of_mem_setTab ht ?_ ht'
    exact .refl _
  | logout ht =>
    refine Device.sameAccount_of_mem_setTab ht ?_ ht'
    exact .refl _
  | _ => exact ⟨t',ht',.refl _⟩

variable [FloorRing K]

inductive ReadOutcome (p : Platform K) (snapshot : FNode K) (draw : Draw K) (d : Device K) :
    Read K → DeviceReaction K → Prop
  | idle {q : Read K} : ReadOutcome p snapshot draw d q d.idle
  | userExists {vc tap : Nat} {v : SignupVC} (hv : d.signupVCs[vc]? = some v)
    (hc : SignupVC.checkIfUserExists v.usernameOutlet snapshot.children = .ok true) :
    ReadOutcome p snapshot draw d (.checkIfUserExists vc tap)
      { locals := d, notes := [.userAlreadyExists tap] }
  | userIsNew {vc tap : Nat} {v : SignupVC} (hv : d.signupVCs[vc]? = some v)
    (hc : SignupVC.checkIfUserExists v.usernameOutlet snapshot.children = .ok false) :
    ReadOutcome p snapshot draw d (.checkIfUserExists vc tap)
      { locals := d
        reads := [.addUserToFirebase vc tap v.usernameOutlet]
        notes := [.goToLogin tap v.usernameOutlet] }
  | addUser {vc tap : Nat} {username : String} {v : SignupVC}
    (hv : d.signupVCs[vc]? = some v) :
    ReadOutcome p snapshot draw d (.addUserToFirebase vc tap username)
      { locals := d
        writes := SignupVC.userWrites (stringOfInt snapshot.numChildren)
          (User.init username (some v.passwordOutlet) snapshot.numChildren 50 3.2 10)
        notes := [.addUserToFirebase tap
          (User.init username (some v.passwordOutlet) snapshot.numChildren 50 3.2 10)] }
  | login {username password : String} {user : User K}
    (hl : LoginVC.loginIfValid username password snapshot.children = .ok (some user)) :
    ReadOutcome p snapshot draw d (.loginIfValid username password)
      { locals := { d with tabBarVCs := d.tabBarVCs ++ [{ map := { user } }] }
        notes := [.tabBarSegue user] }
  | couldNotVerify {username password : String}
    (hl : LoginVC.loginIfValid username password snapshot.children = .ok none) :
    ReadOutcome p snapshot draw d (.loginIfValid username password)
      { locals := d, notes := [.couldNotVerify] }
  | passwordChanged {tab vc : Nat} {oldPassword userID : String} {t : TabBarVC K}
    {n : NewPasswordVC} (hs : snapshot = .leaf (.string oldPassword))
    (ht : d.tabBarVCs[tab]? = some t) (hn : t.newPasswordVCs[vc]? = some n) :
    ReadOutcome p snapshot draw d (.changeIfValidPassword tab vc oldPassword userID)
      { locals := d
        writes := [setValue ["users",userID,"password"] (.string n.newPasswordOutlet)]
        notes := [.passwordChanged userID oldPassword n.newPasswordOutlet] }
  | incorrectPassword {tab vc : Nat} {oldPassword truePassword userID : String}
    (hs : snapshot = .leaf (.string truePassword)) (hp : oldPassword ≠ truePassword) :
    ReadOutcome p snapshot draw d (.changeIfValidPassword tab vc oldPassword userID)
      { locals := d, notes := [.incorrectPassword] }
  | map {tab : Nat} {t : TabBarVC K} {q : MapRead K} {r : MapReaction K}
    (ht : d.tabBarVCs[tab]? = some t) (hr : t.map.onRead p q snapshot draw = .ok r) :
    ReadOutcome p snapshot draw d (.map tab q) (d.ofMap tab t r)

section
variable {p : Platform K}

theorem onRead_outcome {q : Read K} {snapshot : FNode K} {draw : Draw K} {d : Device K}
    {r : DeviceReaction K} (h : d.onRead p q snapshot draw = .ok r) :
    ReadOutcome p snapshot draw d q r := by
  cases q with
  | checkIfUserExists vc tap =>
    simp only [Device.onRead] at h
    split at h
    · next v hv =>
      obtain ⟨userExists,hc,h⟩ := bind_eq_ok.mp h
      cases userExists with
      | true =>
        cases h
        exact .userExists hv hc
      | false =>
        cases h
        exact .userIsNew hv hc
    · cases h
      exact .idle
  | addUserToFirebase vc tap username =>
    simp only [Device.onRead] at h
    split at h
    · next v hv =>
      obtain ⟨a,ha,h⟩ := bind_eq_ok.mp h
      rw [addUserToFirebase_eq] at ha
      cases ha
      cases h
      exact .addUser hv
    · cases h
      exact .idle
  | loginIfValid username password =>
    obtain ⟨validUser,hl,h⟩ := bind_eq_ok.mp h
    cases validUser with
    | some user =>
      cases h
      exact .login hl
    | none =>
      cases h
      exact .couldNotVerify hl
  | changeIfValidPassword tab vc oldPassword userID =>
    obtain ⟨truePassword,hs,h⟩ := bind_eq_ok.mp h
    have hleaf := truePassword_eq_ok hs
    split at h
    · next hp =>
      subst hp
      split at h
      · next n hn =>
        obtain ⟨t,ht,hv⟩ := Option.bind_eq_some_iff.mp hn
        cases h
        exact .passwordChanged hleaf ht hv
      · cases h
        exact .idle
    · next hp =>
      cases h
      exact .incorrectPassword hleaf hp
  | map tab q =>
    simp only [Device.onRead] at h
    split at h
    · next t ht =>
      obtain ⟨m,hm,h⟩ := bind_eq_ok.mp h
      cases h
      exact .map ht hm
    · cases h
      exact .idle

end

theorem MapVC.onRead_effect {p : Platform K} {q : MapRead K} {snapshot : FNode K}
    {draw : Draw K} {m : MapVC K} {r : MapReaction K}
    (h : m.onRead p q snapshot draw = .ok r) :
    r.locals.user = m.user ∧
      ((∃ c, q = .didUpdateLocations c ∧ r.writes = locationWrites m.user c ∧
          r.notes = [.locationWritten m.user.userID]) ∨
        (∃ enemy, q = .addEnemyToFirebase enemy ∧ r.writes = enemyWrites enemy ∧ r.notes = []) ∨
        (r.writes = [] ∧ r.notes = [])) := by
  cases q with
  | didUpdateLocations c =>
    cases h
    exact ⟨rfl,Or.inl ⟨c,rfl,rfl,rfl⟩⟩
  | findEnemiesAroundUser =>
    obtain ⟨enemies,_,h⟩ := bind_eq_ok.mp h
    cases h
    exact ⟨rfl,Or.inr (Or.inr ⟨rfl,rfl⟩)⟩
  | findPlayersAroundUser =>
    obtain ⟨players,_,h⟩ := bind_eq_ok.mp h
    cases h
    exact ⟨rfl,Or.inr (Or.inr ⟨rfl,rfl⟩)⟩
  | getNumberOfEnemiesAroundUser =>
    obtain ⟨numEnemies,_,h⟩ := bind_eq_ok.mp h
    split at h
    · obtain ⟨location,_,h⟩ := bind_eq_ok.mp h
      cases h
      exact ⟨rfl,Or.inr (Or.inr ⟨rfl,rfl⟩)⟩
    · cases h
      exact ⟨rfl,Or.inr (Or.inr ⟨rfl,rfl⟩)⟩
  | addEnemyToFirebase enemy =>
    cases h
    exact ⟨rfl,Or.inr (Or.inl ⟨enemy,rfl,rfl,rfl⟩)⟩

theorem ReadOutcome.sessions {p : Platform K} {snapshot : FNode K} {draw : Draw K}
    {d : Device K} {q : Read K} {r : DeviceReaction K}
    (h : ReadOutcome p snapshot draw d q r) :
    ∀ t' ∈ r.locals.tabBarVCs, (∃ t ∈ d.tabBarVCs, t'.map.user = t.map.user) ∨
      ∃ username password, q = .loginIfValid username password ∧
        LoginVC.loginIfValid username password snapshot.children = .ok (some t'.map.user) := by
  intro t' ht'
  cases h with
  | login hl =>
    rcases List.mem_append.mp ht' with hold | hnew
    · exact Or.inl ⟨t',hold,rfl⟩
    · rw [List.mem_singleton.mp hnew]
      exact Or.inr ⟨_,_,rfl,hl⟩
  | map ht hr =>
    obtain ⟨hu,_⟩ := MapVC.onRead_effect hr
    rcases Device.mem_setTab ht' with rfl | hold
    · exact Or.inl ⟨_,List.mem_of_getElem? ht,hu⟩
    · exact Or.inl ⟨t',hold,rfl⟩
  | _ => exact Or.inl ⟨t',ht',rfl⟩

/-- What makes a callback trap: a child of its snapshot, or the missing location. -/
inductive ReadTrap (snapshot : FNode K) (d : Device K) : Read K → Trap → Prop
  | checkIfUserExists {vc tap : Nat} {c : String × FNode K} (hc : c ∈ snapshot.children)
    (hn : ¬ HoldsString "username" c.2) :
    ReadTrap snapshot d (.checkIfUserExists vc tap) (.cast .checkIfUserExists "username")
  | loginIfValid {username password field : String} {c : String × FNode K}
    (hc : c ∈ snapshot.children) (hn : ¬ LoginFields c.2) :
    ReadTrap snapshot d (.loginIfValid username password) (.cast .loginIfValid field)
  | loginUserID {username password : String} {c : String × FNode K}
    (hc : c ∈ snapshot.children) (hk : intOfString c.1 = none) :
    ReadTrap snapshot d (.loginIfValid username password) (.userID .loginIfValid)
  | changeIfValidPassword {tab vc : Nat} {oldPassword userID : String}
    (hs : ∀ s, snapshot ≠ .leaf (.string s)) :
    ReadTrap snapshot d (.changeIfValidPassword tab vc oldPassword userID)
      (.cast .changeIfValidPassword "password")
  | findEnemiesAroundUser {tab : Nat} {field : String} {c : String × FNode K}
    (hc : c ∈ snapshot.children) (hn : ¬ EnemyFields c.2) :
    ReadTrap snapshot d (.map tab .findEnemiesAroundUser) (.cast .findEnemiesAroundUser field)
  | findPlayersAroundUser {tab : Nat} {field : String} {c : String × FNode K} {t : TabBarVC K}
    (ht : d.tabBarVCs[tab]? = some t) (hc : c ∈ snapshot.children)
    (hk : intOfString c.1 ≠ some t.map.user.userID) (hn : ¬ PlayerFields c.2) :
    ReadTrap snapshot d (.map tab .findPlayersAroundUser) (.cast .findPlayersAroundUser field)
  | playersUserID {tab : Nat} {c : String × FNode K} (hc : c ∈ snapshot.children)
    (hk : intOfString c.1 = none) :
    ReadTrap snapshot d (.map tab .findPlayersAroundUser) (.userID .findPlayersAroundUser)
  | getNumberOfEnemiesAroundUser {tab : Nat} {field : String} {c : String × FNode K}
    (hc : c ∈ snapshot.children) (hn : ¬ CountFields c.2) :
    ReadTrap snapshot d (.map tab .getNumberOfEnemiesAroundUser)
      (.cast .getNumberOfEnemiesAroundUser field)
  | userLocation {tab : Nat} {q : MapRead K} {t : TabBarVC K}
    (ht : d.tabBarVCs[tab]? = some t) (hu : t.map.userLocation = none) :
    ReadTrap snapshot d (.map tab q) .userLocation

theorem onRead_trap {p : Platform K} {q : Read K} {snapshot : FNode K} {draw : Draw K}
    {d : Device K} {t : Trap} (h : d.onRead p q snapshot draw = .error t) :
    ReadTrap snapshot d q t := by
  cases q with
  | checkIfUserExists vc tap =>
    simp only [Device.onRead] at h
    split at h
    · rcases bind_eq_error.mp h with h | ⟨_,_,h⟩
      · obtain ⟨rfl,c,hc,hn⟩ := checkIfUserExists_eq_error h
        exact .checkIfUserExists hc hn
      · split at h <;> contradiction
    · contradiction
  | addUserToFirebase vc tap username =>
    simp only [Device.onRead] at h
    split at h
    · rw [addUserToFirebase_eq] at h
      contradiction
    · contradiction
  | loginIfValid username password =>
    rcases bind_eq_error.mp h with h | ⟨validUser,_,h⟩
    · rcases loginIfValid_eq_error h with ⟨field,rfl,c,hc,hn⟩ | ⟨rfl,c,hc,hk⟩
      · exact .loginIfValid hc hn
      · exact .loginUserID hc hk
    · cases validUser <;> contradiction
  | changeIfValidPassword tab vc oldPassword userID =>
    rcases bind_eq_error.mp h with h | ⟨_,_,h⟩
    · unfold NewPasswordVC.truePassword at h
      split at h
      · contradiction
      · next hs =>
        cases h
        exact .changeIfValidPassword hs
    · split at h
      · split at h <;> contradiction
      · contradiction
  | map tab q =>
    simp only [Device.onRead] at h
    split at h
    · next v hv =>
      rcases bind_eq_error.mp h with h | ⟨_,_,h⟩
      · cases q with
        | didUpdateLocations c => contradiction
        | findEnemiesAroundUser =>
          rcases bind_eq_error.mp h with h | ⟨_,_,h⟩
          · rcases findEnemiesAroundUser_eq_error h with ⟨field,rfl,c,hc,hn⟩ | ⟨rfl,hu⟩
            · exact .findEnemiesAroundUser hc hn
            · exact .userLocation hv hu
          · contradiction
        | findPlayersAroundUser =>
          rcases bind_eq_error.mp h with h | ⟨_,_,h⟩
          · rcases findPlayersAroundUser_eq_error h with
              ⟨field,rfl,c,hc,hk,hn⟩ | ⟨rfl,hu⟩ | ⟨rfl,c,hc,hk⟩
            · exact .findPlayersAroundUser hv hc hk hn
            · exact .userLocation hv hu
            · exact .playersUserID hc hk
          · contradiction
        | getNumberOfEnemiesAroundUser =>
          rcases bind_eq_error.mp h with h | ⟨_,_,h⟩
          · rcases getNumberOfEnemiesAroundUser_eq_error h with ⟨field,rfl,c,hc,hn⟩ | ⟨rfl,hu⟩
            · exact .getNumberOfEnemiesAroundUser hc hn
            · exact .userLocation hv hu
          · split at h
            · rcases bind_eq_error.mp h with h | ⟨_,_,h⟩
              · obtain ⟨hu,rfl⟩ := unwrap_eq_error.mp h
                exact .userLocation hv hu
              · contradiction
            · contradiction
        | addEnemyToFirebase enemy => contradiction
      · contradiction
    · contradiction

end

end GFLGO
