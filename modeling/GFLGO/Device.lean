import GFLGO.Accounts
import GFLGO.Map
import GFLGO.Battle

/-!
The app on one device, and any number of devices on one database. Screens that
were opened stay addressable, since their pending callbacks hold on to them. An
event for a screen that is not there does nothing.
-/

set_option autoImplicit false

namespace GFLGO

/-- The tab bar that a login pushes, with the screens opened from it. -/
structure TabBarVC (K : Type) where
  map : MapVC K
  timerValid : Bool := true
  scenes : List (GameScene K) := []
  newPasswordVCs : List NewPasswordVC := []
  onStack : Bool := true

structure Device (K : Type) where
  taps : Nat := 0
  signupVCs : List SignupVC := []
  loginVC : LoginVC := {}
  tabBarVCs : List (TabBarVC K) := []

inductive Event (K : Type) where
  | signupAction
  | editSignup (vc : Nat) (username password : String)
  | createAccountAction (vc : Nat)
  | editLogin (username password : String)
  | loginAction
  | map (tab : Nat) (e : MapEvent K)
  | battleAction (tab : Nat)
  | scene (tab scene : Nat) (e : SceneEvent)
  | newPasswordSegue (tab : Nat)
  | editNewPassword (tab vc : Nat) (oldPassword newPassword : String)
  | changePasswordAction (tab vc : Nat)
  | logout (tab : Nat)

/-- A pending `observeSingleEvent` with what its closure captured. -/
inductive Read (K : Type) where
  | checkIfUserExists (vc tap : Nat)
  | addUserToFirebase (vc tap : Nat) (username : String)
  | loginIfValid (usernameText passwordText : String)
  | changeIfValidPassword (tab vc : Nat) (oldPassword userID : String)
  | map (tab : Nat) (q : MapRead K)

abbrev DeviceReaction (K : Type) := Async.Reaction (Device K) (Read K) (Write K) (Note K)

section
variable {K : Type}

def MapRead.path : MapRead K → List String
  | .didUpdateLocations _ | .findPlayersAroundUser => ["users"]
  | .findEnemiesAroundUser | .getNumberOfEnemiesAroundUser | .addEnemyToFirebase _ => ["enemies"]

def Read.path : Read K → List String
  | .checkIfUserExists _ _ | .addUserToFirebase _ _ _ | .loginIfValid _ _ => ["users"]
  | .changeIfValidPassword _ _ _ userID => ["users",userID,"password"]
  | .map _ q => q.path

def Event.tab : Event K → Option Nat
  | .map tab _ | .battleAction tab | .scene tab _ _ | .newPasswordSegue tab
  | .editNewPassword tab _ _ _ | .changePasswordAction tab _ | .logout tab => some tab
  | _ => none

/-- An invalidated timer does not tick. -/
def TabBarVC.receives (t : TabBarVC K) : MapEvent K → Bool
  | .timerTick => t.timerValid
  | _ => t.onStack

namespace Device

def idle (d : Device K) : DeviceReaction K := { locals := d }

def newPasswordVC (d : Device K) (tab vc : Nat) : Option NewPasswordVC :=
  (d.tabBarVCs[tab]?).bind (fun t => t.newPasswordVCs[vc]?)

def setTab (d : Device K) (tab : Nat) (t : TabBarVC K) : Device K :=
  { d with tabBarVCs := d.tabBarVCs.set tab t }

def ofMap (d : Device K) (tab : Nat) (t : TabBarVC K) (r : MapReaction K) : DeviceReaction K :=
  { locals := d.setTab tab { t with map := r.locals }
    reads := r.reads.map (.map tab)
    writes := r.writes
    notes := r.notes }

def ofScene (d : Device K) (tab scene : Nat) (t : TabBarVC K) (r : SceneReaction K) :
    DeviceReaction K :=
  { locals := d.setTab tab { t with
      map := { t.map with user := r.user }
      scenes := t.scenes.set scene r.scene }
    writes := r.writes
    notes := r.notes }

variable [Field K] [LinearOrder K] [FloorRing K]

def onEvent (p : Platform K) (e : Event K) (d : Device K) : Except Trap (DeviceReaction K) :=
  match e with
  | .signupAction => .ok { locals := { d with signupVCs := d.signupVCs ++ [{}] } }
  | .editSignup vc username password =>
    .ok { locals := { d with signupVCs := d.signupVCs.set vc ⟨username,password⟩ } }
  | .createAccountAction vc =>
    match d.signupVCs[vc]? with
    | some _ =>
      .ok { locals := { d with taps := d.taps+1 }, reads := [.checkIfUserExists vc d.taps] }
    | none => .ok d.idle
  | .editLogin username password =>
    .ok { locals := { d with loginVC := ⟨username,password⟩ } }
  | .loginAction =>
    .ok {
      locals := d
      reads := [.loginIfValid d.loginVC.usernameOutlet d.loginVC.passwordOutlet] }
  | .map tab e =>
    match d.tabBarVCs[tab]? with
    | some t =>
      if t.receives e then do
        let r ← t.map.onEvent p e
        .ok (d.ofMap tab t r)
      else .ok d.idle
    | none => .ok d.idle
  | .battleAction tab =>
    match d.tabBarVCs[tab]? with
    | some t =>
      if t.onStack ∧ t.map.enemyCalloutHidden = false then do
        let enemy ← unwrap .enemy t.map.selectedEnemy
        let scene := GameScene.didMove t.map.user enemy
        .ok { locals := d.setTab tab { t with scenes := t.scenes ++ [scene] } }
      else .ok d.idle
    | none => .ok d.idle
  | .scene tab scene e =>
    match d.tabBarVCs[tab]? with
    | some t =>
      match t.scenes[scene]? with
      | some s =>
        match s.receive t.map.user e with
        | some r => .ok (d.ofScene tab scene t r)
        | none => .ok d.idle
      | none => .ok d.idle
    | none => .ok d.idle
  | .newPasswordSegue tab =>
    match d.tabBarVCs[tab]? with
    | some t =>
      if t.onStack then
        .ok { locals := d.setTab tab { t with newPasswordVCs := t.newPasswordVCs ++ [{}] } }
      else .ok d.idle
    | none => .ok d.idle
  | .editNewPassword tab vc oldPassword newPassword =>
    match d.tabBarVCs[tab]? with
    | some t =>
      .ok { locals := d.setTab tab { t with
              newPasswordVCs := t.newPasswordVCs.set vc ⟨oldPassword,newPassword⟩ } }
    | none => .ok d.idle
  | .changePasswordAction tab vc =>
    match d.tabBarVCs[tab]? with
    | some t =>
      match t.newPasswordVCs[vc]? with
      | some n =>
        let userID := stringOfInt t.map.user.userID
        .ok {
          locals := d
          reads := [.changeIfValidPassword tab vc n.oldPasswordOutlet userID] }
      | none => .ok d.idle
    | none => .ok d.idle
  | .logout tab =>
    match d.tabBarVCs[tab]? with
    | some t =>
      if t.onStack then
        .ok { locals := d.setTab tab { t with timerValid := false, onStack := false } }
      else .ok d.idle
    | none => .ok d.idle

/-- The text fields are read when the callback runs, not when it was asked for. -/
def onRead (p : Platform K) (q : Read K) (snapshot : FNode K) (draw : Draw K) (d : Device K) :
    Except Trap (DeviceReaction K) :=
  match q with
  | .checkIfUserExists vc tap =>
    match d.signupVCs[vc]? with
    | some v => do
      let userExists ← SignupVC.checkIfUserExists v.usernameOutlet snapshot.children
      if userExists then .ok { locals := d, notes := [.userAlreadyExists tap] }
      else
        .ok {
          locals := d
          reads := [.addUserToFirebase vc tap v.usernameOutlet]
          notes := [.goToLogin tap v.usernameOutlet] }
    | none => .ok d.idle
  | .addUserToFirebase vc tap username =>
    match d.signupVCs[vc]? with
    | some v => do
      let r ← SignupVC.addUserToFirebase username v.passwordOutlet snapshot
      .ok { locals := d, writes := r.2, notes := [.addUserToFirebase tap r.1] }
    | none => .ok d.idle
  | .loginIfValid usernameText passwordText => do
    let validUser ← LoginVC.loginIfValid usernameText passwordText snapshot.children
    match validUser with
    | some user =>
      .ok {
        locals := { d with tabBarVCs := d.tabBarVCs ++ [{ map := { user } }] }
        notes := [.tabBarSegue user] }
    | none => .ok { locals := d, notes := [.couldNotVerify] }
  | .changeIfValidPassword tab vc oldPassword userID => do
    let truePassword ← NewPasswordVC.truePassword snapshot
    if oldPassword = truePassword then
      match (d.tabBarVCs[tab]?).bind (fun t => t.newPasswordVCs[vc]?) with
      | some n =>
        .ok {
          locals := d
          writes := [setValue ["users",userID,"password"] (.string n.newPasswordOutlet)]
          notes := [.passwordChanged userID oldPassword n.newPasswordOutlet] }
      | none => .ok d.idle
    else .ok { locals := d, notes := [.incorrectPassword] }
  | .map tab q =>
    match d.tabBarVCs[tab]? with
    | some t => do
      let r ← t.map.onRead p q snapshot draw
      .ok (d.ofMap tab t r)
    | none => .ok d.idle

end Device

end

abbrev World (K : Type) :=
  Async.World (FNode K) (Device K) (Read K) (FNode K) (Write K) (Note K) Trap

abbrev Client (K : Type) := Async.Client (Device K) (Read K) (FNode K) (Write K) Trap

abbrev Label (K : Type) := Async.Label (Event K) (Draw K)

section
variable {K : Type}

/-- An idealisation: a snapshot is the store at one moment, where the library would lay the
client's own pending writes over it. The two are the same once those have arrived. -/
def backend : Async.Backend (FNode K) (Read K) (FNode K) (Write K) :=
  { view := fun q store => store.getChild q.path, apply := applyWrite }

theorem view_eq (q : Read K) (store : FNode K) :
    backend.view q store = store.getChild q.path := rfl

theorem view_users {q : Read K} (h : q.path = ["users"]) (store : FNode K) :
    backend.view q store = store.getImmediateChild "users" := by
  rw [view_eq,h,PathTree.getChild_singleton]

variable [Field K] [LinearOrder K] [FloorRing K]

def program (p : Platform K) :
    Async.Program (Device K) (Event K) (Read K) (FNode K) (Draw K) (Write K) (Note K) Trap :=
  { onEvent := Device.onEvent p, onRead := Device.onRead p }

def step (p : Platform K) : Label K → World K → Option (World K) :=
  Async.step (program p) backend

end

/-! Complete operations, label by label. -/

section
variable {K : Type} (c : Nat) (d : Draw K)

def answer : List (Label K) := [.snapshot c 0,.deliver c 0 d]

def applyAll (n : Nat) : List (Label K) := List.replicate n (.apply c)

def tapCreateAccount (vc : Nat) (username password : String) : List (Label K) :=
  [.event c .signupAction,.event c (.editSignup vc username password),
   .event c (.createAccountAction vc)]

def signup (vc : Nat) (username password : String) : List (Label K) :=
  tapCreateAccount c vc username password ++ answer c d ++ answer c d ++ applyAll c 6

def login (username password : String) : List (Label K) :=
  [.event c (.editLogin username password),.event c .loginAction] ++ answer c d

def askNewPassword (tab vc : Nat) (oldPassword newPassword : String) : List (Label K) :=
  [.event c (.newPasswordSegue tab),.event c (.editNewPassword tab vc oldPassword newPassword),
   .event c (.changePasswordAction tab vc)] ++ answer c d

def locate (tab : Nat) (fix : Coordinate K) : List (Label K) :=
  .event c (.map tab (.didUpdateLocations [fix])) ::
    (answer c d ++ answer c d ++ answer c d ++ applyAll c 2)

def addEnemy (tab : Nat) : List (Label K) :=
  .event c (.map tab (.addEnemyAction d)) :: (answer c d ++ applyAll c 6)

def battle (tab enemy : Nat) : List (Label K) :=
  [.event c (.map tab (.didSelect enemy)),.event c (.battleAction tab)]

def tapAttack (tab scene : Nat) : List (Label K) :=
  [.event c (.scene tab scene (.touch (.touchesBegan [0]))),
   .event c (.scene tab scene (.touch (.touchesEnded [0] true)))]

def defeat (tab scene survived : Nat) : List (Label K) :=
  (List.replicate survived
    (tapAttack c tab scene ++ [.event c (.scene tab scene .waitCompleted)])).flatten ++
    tapAttack c tab scene ++ applyAll c 2

end

def World.start {K : Type} (store : FNode K) : World K :=
  { store, clients := fun _ => { locals := {} } }

end GFLGO
