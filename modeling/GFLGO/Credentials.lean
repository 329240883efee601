import GFLGO.Histories
import GFLGO.Stats

/-!
Where a session comes from. Its name and password were put on record by a
signup or a change of password, stood there in one account when a snapshot was
taken, and had been typed into the login form of the same client before.
-/

set_option autoImplicit false

namespace GFLGO

open Runs Async PathTree

section
variable {K : Type} [Field K] [LinearOrder K] [FloorRing K]

/-! What has to happen in a run. All of them start from an empty database. -/

def Happened (p : Platform K) (Q : List (Label K) → Label K → World K → Prop)
    (ls : List (Label K)) : Prop :=
  Took (step p) Q ls (World.start .empty)

def Tapped (p : Platform K) (c : Nat) (username password : String) : List (Label K) → Prop :=
  Happened p (fun _ l w => l = .event c .loginAction ∧
    (w.clients c).locals.loginVC = ⟨username,password⟩)

/-- The name stood in a signup form when nobody was found to have it. -/
def Checked (p : Platform K) (c vc : Nat) (username : String) : List (Label K) → Prop :=
  Happened p (fun _ l w => ∃ i d tap snapshot v, l = .deliver c i d ∧
    (w.clients c).reads[i]? = some ⟨.checkIfUserExists vc tap,some snapshot⟩ ∧
    (w.clients c).locals.signupVCs[vc]? = some v ∧ v.usernameOutlet = username ∧
    SignupVC.checkIfUserExists username snapshot.children = .ok false)

/-- An account was added under the key, with the name of an earlier check and the password
that stood in the form by then. -/
def SignedUp (p : Platform K) (key username password : String) : List (Label K) → Prop :=
  Happened p (fun as l w => ∃ c i d vc tap snapshot v, l = .deliver c i d ∧
    (w.clients c).reads[i]? = some ⟨.addUserToFirebase vc tap username,some snapshot⟩ ∧
    (w.clients c).locals.signupVCs[vc]? = some v ∧ v.passwordOutlet = password ∧
    stringOfInt snapshot.numChildren = key ∧ Checked p c vc username as)

def Changed (p : Platform K) (key password : String) : List (Label K) → Prop :=
  Happened p (fun _ l w => ∃ c i d tab vc oldPassword t n, l = .deliver c i d ∧
    (w.clients c).reads[i]? =
      some ⟨.changeIfValidPassword tab vc oldPassword key,some (.leaf (.string oldPassword))⟩ ∧
    (w.clients c).locals.tabBarVCs[tab]? = some t ∧ t.newPasswordVCs[vc]? = some n ∧
    n.newPasswordOutlet = password)

def Chosen (p : Platform K) (key password : String) (ls : List (Label K)) : Prop :=
  (∃ username, SignedUp p key username password ls) ∨ Changed p key password ls

structure Verified (users : FNode K) (key : String) (user : User K) (password : String) :
    Prop where
  record : ∃ child ∈ users.children, child.1 = key ∧
    child.2.getImmediateChild "username" = .leaf (.string user.username) ∧
    child.2.getImmediateChild "password" = .leaf (.string password)
  userID : intOfString key = some user.userID
  password : user.password = some password

def Admitted (p : Platform K) (c : Nat) (user : User K) : List (Label K) → Prop :=
  Happened p (fun as l w => ∃ i key password, l = .snapshot c i ∧
    Verified (w.store.getChild ["users"]) key user password ∧
    Tapped p c user.username password as ∧ Chosen p key password as ∧
    ∃ former, SignedUp p key user.username former as)

variable {p : Platform K} {ls : List (Label K)} {l : Label K}

theorem Chosen.concat {key password : String} (h : Chosen p key password ls) (l : Label K) :
    Chosen p key password (ls ++ [l]) := by
  rcases h with ⟨username,h⟩ | h
  · exact Or.inl ⟨username,Took.concat h l⟩
  · exact Or.inr (Took.concat h l)

theorem Admitted.congr {c : Nat} {user user' : User K} (h : Admitted p c user ls)
    (hu : user'.SameAccount user) : Admitted p c user' ls := by
  obtain ⟨hname,hpassword,hid,_,_⟩ := hu
  refine Took.mono h (fun as l w hq => ?_)
  obtain ⟨i,key,password,hl,hv,htap,hchosen,hsigned⟩ := hq
  exact ⟨i,key,password,hl,⟨hname ▸ hv.record,hid ▸ hv.userID,hpassword ▸ hv.password⟩,
    hname ▸ htap,hchosen,hname ▸ hsigned⟩

inductive Recorded (p : Platform K) (ls : List (Label K)) : List String → Value K → Prop
  | username {key username password : String} (h : SignedUp p key username password ls) :
    Recorded p ls ["users",key,"username"] (.string username)
  | password {key password : String} (h : Chosen p key password ls) :
    Recorded p ls ["users",key,"password"] (.string password)
  | other {path : List String} {v : Value K}
    (h : ∀ key, path ≠ ["users",key,"username"] ∧ path ≠ ["users",key,"password"]) :
    Recorded p ls path v

theorem Recorded.concat {path : List String} {v : Value K} (h : Recorded p ls path v)
    (l : Label K) : Recorded p (ls ++ [l]) path v := by
  cases h with
  | username h => exact .username (Took.concat h l)
  | password h => exact .password (h.concat l)
  | other h => exact .other h

theorem Recorded.signedUp {key username : String}
    (h : Recorded p ls ["users",key,"username"] (.string username)) :
    ∃ password, SignedUp p key username password ls := by
  generalize hp : ["users",key,"username"] = path at h
  generalize hv : (Value.string username : Value K) = v at h
  cases h with
  | username h =>
    cases hp
    cases hv
    exact ⟨_,h⟩
  | password h => simp at hp
  | other h => exact absurd hp.symm (h key).1

theorem Recorded.chosen {key password : String}
    (h : Recorded p ls ["users",key,"password"] (.string password)) :
    Chosen p key password ls := by
  generalize hp : ["users",key,"password"] = path at h
  generalize hv : (Value.string password : Value K) = v at h
  cases h with
  | username h => simp at hp
  | password h =>
    cases hp
    cases hv
    exact h
  | other h => exact absurd hp.symm (h key).2

def Write.Recorded (p : Platform K) (ls : List (Label K)) (x : Write K) : Prop :=
  Conforms (GFLGO.Recorded p ls) x.path x.node

theorem Write.recorded_of_leaf {path : List String} {v : Value K}
    (h : ∀ key, path ≠ ["users",key,"username"] ∧ path ≠ ["users",key,"password"]) :
    Write.Recorded p ls (setValue path v) := .leaf (.other h)

theorem Write.recorded_userWrites {key password : String} {user : User K}
    (h : SignedUp p key user.username password ls) (hp : user.password = some password) :
    ∀ x ∈ SignupVC.userWrites key user, x.Recorded p ls := by
  simp only [SignupVC.userWrites,List.forall_mem_cons]
  refine ⟨recorded_of_leaf (by simp),.leaf (.username h),?_,recorded_of_leaf (by simp),
    recorded_of_leaf (by simp),recorded_of_leaf (by simp),by simp⟩
  rw [hp]
  exact .leaf (.password (Or.inl ⟨_,h⟩))

theorem Write.recorded_enemyWrites (enemy : Enemy K) :
    ∀ x ∈ MapVC.enemyWrites enemy, x.Recorded p ls := by
  simp only [MapVC.enemyWrites,List.forall_mem_cons]
  refine ⟨recorded_of_leaf (by simp),?_,recorded_of_leaf (by simp),recorded_of_leaf (by simp),
    recorded_of_leaf (by simp),recorded_of_leaf (by simp),by simp⟩
  cases enemy.name with
  | none => exact .empty
  | some name => exact recorded_of_leaf (by simp)

theorem Write.recorded_locationWrites (user : User K) (c : Coordinate K) :
    ∀ x ∈ MapVC.locationWrites user c, x.Recorded p ls := by
  simp only [MapVC.locationWrites,List.forall_mem_cons]
  exact ⟨recorded_of_leaf (by simp),recorded_of_leaf (by simp),by simp⟩

theorem Write.recorded_defeatWrites (user : User K) (s : GameScene K) :
    ∀ x ∈ s.defeatWrites user, x.Recorded p ls := by
  simp only [GameScene.defeatWrites,List.forall_mem_cons]
  exact ⟨.empty,recorded_of_leaf (by simp),by simp⟩

variable {d : Device K} {r : DeviceReaction K}

omit [FloorRing K] in
theorem EventOutcome.tapped_reads {e : Event K} (h : EventOutcome p d e r) :
    ∀ q ∈ r.reads, (∀ vc tap username, q ≠ .addUserToFirebase vc tap username) ∧
      ∀ username password, q = .loginIfValid username password →
        e = .loginAction ∧ d.loginVC = ⟨username,password⟩ := by
  intro q hq
  cases h with
  | createAccountAction hv =>
    rw [List.mem_singleton.mp hq]
    exact ⟨by simp,by simp⟩
  | loginAction =>
    rw [List.mem_singleton.mp hq]
    refine ⟨by simp,fun username password he => ?_⟩
    cases he
    exact ⟨rfl,rfl⟩
  | map ht hr =>
    obtain ⟨mq,_,rfl⟩ := List.mem_map.mp hq
    exact ⟨by simp,by simp⟩
  | changePasswordAction ht hn =>
    rw [List.mem_singleton.mp hq]
    exact ⟨by simp,by simp⟩
  | _ => contradiction

theorem ReadOutcome.checked_reads {snapshot : FNode K} {draw : Draw K} {q : Read K}
    (h : ReadOutcome p snapshot draw d q r) :
    ∀ q' ∈ r.reads, (∀ username password, q' ≠ .loginIfValid username password) ∧
      ∀ vc tap username, q' = .addUserToFirebase vc tap username →
        q = .checkIfUserExists vc tap ∧ ∃ v, d.signupVCs[vc]? = some v ∧
          v.usernameOutlet = username ∧
          SignupVC.checkIfUserExists username snapshot.children = .ok false := by
  intro q' hq'
  cases h with
  | userIsNew hv hc =>
    rw [List.mem_singleton.mp hq']
    refine ⟨by simp,fun vc tap username he => ?_⟩
    cases he
    exact ⟨rfl,_,hv,rfl,hc⟩
  | map ht hr =>
    obtain ⟨mq,_,rfl⟩ := List.mem_map.mp hq'
    exact ⟨by simp,by simp⟩
  | _ => contradiction

theorem EventOutcome.recorded_writes {e : Event K} (h : EventOutcome p d e r) :
    ∀ x ∈ r.writes, x.Recorded p ls := by
  cases h with
  | map ht hr =>
    have hw := (MapVC.onEvent_effect hr).2.1
    simp [Device.ofMap,hw]
  | @scene _ _ t s _ _ ht hs hr =>
    rcases GameScene.receive_effect hr with ⟨_,_,hw,_⟩ | ⟨_,_,hw,_⟩
    · simp only [Device.ofScene,hw]
      exact Write.recorded_defeatWrites _ s
    · simp [Device.ofScene,hw]
  | _ => simp [Device.idle]

structure Traced (p : Platform K) (ls : List (Label K)) (w : World K) : Prop where
  store : Conforms (Recorded p ls) [] w.store
  writes : ∀ c, ∀ x ∈ (w.clients c).writes, x.Recorded p ls
  checked : ∀ c, ∀ rd ∈ (w.clients c).reads, ∀ vc tap username,
    rd.read = .addUserToFirebase vc tap username → Checked p c vc username ls
  tapped : ∀ c, ∀ rd ∈ (w.clients c).reads, ∀ username password,
    rd.read = .loginIfValid username password → Tapped p c username password ls
  answered : ∀ c, ∀ rd ∈ (w.clients c).reads, ∀ username password snapshot user,
    rd.read = .loginIfValid username password → rd.snapshot = some snapshot →
    LoginVC.loginIfValid username password snapshot.children = .ok (some user) →
    Admitted p c user ls
  sessions : ∀ c, ∀ t ∈ (w.clients c).locals.tabBarVCs, Admitted p c t.map.user ls

variable {w w' : World K}

theorem Traced.recorded (h : Traced p ls w)
    (hu : run (step p) ls (World.start .empty) = some w) {c : Nat}
    (hr : Reacts (program p) w c r l) : ∀ x ∈ r.writes, x.Recorded p (ls ++ [l]) := by
  cases hr with
  | event hr => exact (onEvent_outcome hr).recorded_writes
  | @deliver i draw q snapshot hq hr =>
    cases onRead_outcome hr with
    | @addUser vc tap username v hv =>
      have hcheck := h.checked c _ (List.mem_of_getElem? hq) vc tap username rfl
      have hsigned : SignedUp p (stringOfInt snapshot.numChildren) username v.passwordOutlet
          (ls ++ [.deliver c i draw]) :=
        took_last hu ⟨c,i,draw,vc,tap,snapshot,v,rfl,hq,hv,rfl,rfl,hcheck⟩
      exact Write.recorded_userWrites hsigned rfl
    | @passwordChanged tab vc oldPassword userID t n hleaf ht hn =>
      subst hleaf
      have hchanged : Changed p userID n.newPasswordOutlet (ls ++ [.deliver c i draw]) :=
        took_last hu ⟨c,i,draw,tab,vc,oldPassword,t,n,rfl,hq,ht,hn,rfl⟩
      intro x hx
      rw [List.mem_singleton.mp hx]
      exact .leaf (.password (Or.inr hchanged))
    | map ht hm =>
      obtain ⟨_,⟨fix,_,hw,_⟩ | ⟨enemy,_,hw,_⟩ | ⟨hw,_⟩⟩ := MapVC.onRead_effect hm
      · simp only [Device.ofMap,hw]
        exact Write.recorded_locationWrites _ fix
      · simp only [Device.ofMap,hw]
        exact Write.recorded_enemyWrites enemy
      · simp [Device.ofMap,hw]
    | _ => simp [Device.idle]

theorem Traced.admitted (h : Traced p ls w)
    (hu : run (step p) ls (World.start .empty) = some w) {c i : Nat}
    {username password : String} {user : User K}
    (hq : (w.clients c).reads[i]? = some ⟨.loginIfValid username password,none⟩)
    (hl : LoginVC.loginIfValid username password (w.store.getChild ["users"]).children =
      .ok (some user)) : Admitted p c user (ls ++ [.snapshot c i]) := by
  obtain ⟨child,hc,hname,hpassword,userID,health,power,totalExp,hid,_,_,_,rfl⟩ :=
    loginIfValid_eq_some hl
  have hchild := (h.store.getChild ["users"]).child hc
  have hsigned := hchild.getImmediateChild "username"
  have hchosen := hchild.getImmediateChild "password"
  rw [hname] at hsigned
  rw [hpassword] at hchosen
  exact took_last hu ⟨i,child.1,password,rfl,⟨⟨child,hc,rfl,hname,hpassword⟩,hid,rfl⟩,
    h.tapped c _ (List.mem_of_getElem? hq) _ _ rfl,hchosen.of_leaf.chosen,
    hsigned.of_leaf.signedUp⟩

theorem Traced.step (h : Traced p ls w)
    (hu : run (step p) ls (World.start .empty) = some w) (hs : GFLGO.step p l w = some w') :
    Traced p (ls ++ [l]) w' where
  store := by
    have hold := h.store.mono (fun _ _ hv => hv.concat l)
    rcases step_store hs with hsame | ⟨c,x,xs,-,hx,hstore⟩
    · exact hsame ▸ hold
    · rw [hstore]
      have hx' := h.writes c x (by rw [hx]; exact List.mem_cons_self)
      exact hold.updateChild (hx'.mono (fun _ _ hv => hv.concat l))
  writes := fun c x hx => by
    rcases mem_writes_step hs hx with hold | ⟨r,hr,hnew⟩
    · exact (h.writes c x hold).mono (fun _ _ hv => hv.concat l)
    · exact h.recorded hu hr x hnew
  checked := fun c rd hrd vc tap username he => by
    rcases mem_reads_step hs hrd with ⟨rd',hrd',hsame⟩ | ⟨r,hr,hnew⟩
    · exact Took.concat (h.checked c rd' hrd' vc tap username (hsame ▸ he)) l
    · cases hr with
      | event hr =>
        exact absurd he (((onEvent_outcome hr).tapped_reads _ hnew).1 vc tap username)
      | @deliver i draw q snapshot hq hr =>
        obtain ⟨rfl,v,hv,hname,hfree⟩ :=
          ((onRead_outcome hr).checked_reads _ hnew).2 vc tap username he
        exact took_last hu ⟨i,draw,tap,snapshot,v,rfl,hq,hv,hname,hfree⟩
  tapped := fun c rd hrd username password he => by
    rcases mem_reads_step hs hrd with ⟨rd',hrd',hsame⟩ | ⟨r,hr,hnew⟩
    · exact Took.concat (h.tapped c rd' hrd' username password (hsame ▸ he)) l
    · cases hr with
      | event hr =>
        obtain ⟨rfl,hform⟩ := ((onEvent_outcome hr).tapped_reads _ hnew).2 username password he
        exact took_last hu ⟨rfl,hform⟩
      | deliver hq hr =>
        exact absurd he (((onRead_outcome hr).checked_reads _ hnew).1 username password)
  answered := fun c rd hrd username password snapshot user he hsn hl => by
    rcases snapshot_of_step hs hrd hsn with hold | ⟨i,rfl,hq,hview⟩
    · exact Took.concat (h.answered c rd hold username password snapshot user he hsn hl) l
    · rw [he] at hq hview
      subst hview
      exact h.admitted hu hq hl
  sessions := fun c t ht => by
    rcases locals_of_step hs c with hsame | ⟨r,hr,hsame⟩
    · exact Took.concat (h.sessions c t (hsame ▸ ht)) l
    · rw [hsame] at ht
      cases hr with
      | event hr =>
        obtain ⟨t',ht',hsame⟩ := (onEvent_outcome hr).sessions t ht
        exact Took.concat ((h.sessions c t' ht').congr hsame) _
      | deliver hq hr =>
        rcases (onRead_outcome hr).sessions t ht with ⟨t',ht',hsame⟩ | ⟨username,password,rfl,hl⟩
        · rw [hsame]
          exact Took.concat (h.sessions c t' ht') _
        · exact Took.concat (h.answered c _ (List.mem_of_getElem? hq) _ _ _ _ rfl rfl hl) _

theorem traced_of_run (hr : run (step p) ls (World.start .empty) = some w) : Traced p ls w := by
  refine run_history ?_ (fun as a u u' hu h hs => h.step hu hs) hr
  exact ⟨.empty,by simp [World.start],by simp [World.start],by simp [World.start],
    by simp [World.start],by simp [World.start]⟩

/-- Nobody plays without having typed the name and the password of an account that the
database held at the time, and that somebody had signed up for before. -/
theorem admitted_of_run (hr : run (step p) ls (World.start .empty) = some w) {c : Nat}
    {t : TabBarVC K} (ht : t ∈ (w.clients c).locals.tabBarVCs) : Admitted p c t.map.user ls :=
  (traced_of_run hr).sessions c t ht

/-- Every name in the database was signed up for under its key, and every password was
chosen for the account it stands in. -/
theorem recorded_of_run (hr : run (step p) ls (World.start .empty) = some w) (key : String) :
    (∀ username, w.store.getChild ["users",key,"username"] = .leaf (.string username) →
      ∃ password, SignedUp p key username password ls) ∧
    ∀ password, w.store.getChild ["users",key,"password"] = .leaf (.string password) →
      Chosen p key password ls := by
  have h := (traced_of_run hr).store
  constructor
  · intro username hv
    have hleaf := h.getChild ["users",key,"username"]
    rw [hv] at hleaf
    exact hleaf.of_leaf.signedUp
  · intro password hv
    have hleaf := h.getChild ["users",key,"password"]
    rw [hv] at hleaf
    exact hleaf.of_leaf.chosen

end

/-- A password changed on one device and used on another. -/
def newPasswordElsewhere : List (Label ℚ) :=
  signup 0 sampleDraw 0 "ann" "pw" ++ login 0 sampleDraw "ann" "pw" ++
    askNewPassword 0 sampleDraw 0 0 "pw" "secret" ++ applyAll 0 1 ++
    login 1 sampleDraw "ann" "secret"

theorem admitted_of_run_elsewhere : ∃ w,
    run (step planePlatform) newPasswordElsewhere (World.start .empty) = some w ∧
    ∃ t ∈ (w.clients 1).locals.tabBarVCs,
      Admitted planePlatform 1 t.map.user newPasswordElsewhere := by
  have hrun : (run (step planePlatform) newPasswordElsewhere (World.start .empty)).map
      (fun w => (w.clients 1).locals.tabBarVCs.isEmpty) = some false := by
    decide +kernel
  obtain ⟨w,hw,hne⟩ := Option.map_eq_some_iff.mp hrun
  obtain ⟨t,ht⟩ := List.exists_mem_of_ne_nil _ (List.isEmpty_eq_false_iff.mp hne)
  exact ⟨w,hw,t,ht,admitted_of_run hw ht⟩

theorem recorded_of_run_elsewhere :
    Chosen planePlatform "0" "secret" newPasswordElsewhere := by
  have hrun : (run (step planePlatform) newPasswordElsewhere (World.start .empty)).map
      (fun w => leafString (w.store.getChild ["users","0","password"])) =
        some (some "secret") := by
    decide +kernel
  obtain ⟨w,hw,hv⟩ := Option.map_eq_some_iff.mp hrun
  exact (recorded_of_run hw "0").2 "secret" (leafString_eq_some.mp hv)

end GFLGO
