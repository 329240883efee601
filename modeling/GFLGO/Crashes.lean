import GFLGO.Stats
import GFLGO.UserKeys

/-!
What can make the app crash. The database never holds a value of a wrong type,
a key that is no number or a callout without its enemy: what is missing is a
field of a record that is not complete, or the location.
-/

set_option autoImplicit false

namespace GFLGO

open Runs Async PathTree

section
variable {K : Type} {N : String → Prop}

/-- Where there is a value, it has the type that its field is cast to. -/
structure WellTyped (node : FNode K) : Prop where
  strings : ∀ f ∈ ["username","password","name"], ∀ v, node.getImmediateChild f = .leaf v →
    ∃ s, v = .string s
  ints : ∀ v, node.getImmediateChild "totalExp" = .leaf v → ∃ n, v = .int n
  doubles : ∀ f ∈ ["health","power","latitude","longitude"], ∀ v,
    node.getImmediateChild f = .leaf v → ∃ x, v = .double x

theorem wellTyped_of_user [Field K] {key : String} {node : FNode K}
    (h : Conforms (Stored N) ["users",key] node) : WellTyped node where
  strings := fun f hf v hv => by
    cases userField_of_leaf h hv with
    | username s => exact ⟨s,rfl⟩
    | password s => exact ⟨s,rfl⟩
    | _ => simp at hf
  ints := fun v hv => by
    obtain ⟨n,-,hn⟩ := (userField_of_leaf h hv).of_totalExp
    exact ⟨n,hn⟩
  doubles := fun f hf v hv => by
    cases userField_of_leaf h hv with
    | username s => simp at hf
    | password s => simp at hf
    | totalExp h => simp at hf
    | _ => exact ⟨_,rfl⟩

theorem wellTyped_of_enemy [Field K] {key : String} {node : FNode K}
    (h : Conforms (Stored N) ["enemies",key] node) : WellTyped node where
  strings := fun f hf v hv => by
    cases enemyField_of_leaf h hv with
    | name hs => exact ⟨_,rfl⟩
    | _ => simp at hf
  ints := fun v hv => by
    have hfield := enemyField_of_leaf h hv
    generalize hf : "totalExp" = f at hfield
    cases hfield <;> simp at hf
  doubles := fun f hf v hv => by
    cases enemyField_of_leaf h hv with
    | name hs => simp at hf
    | _ => exact ⟨_,rfl⟩

/-- The trap names a field that has no value in the record. -/
inductive Unfilled (node : FNode K) (reader : Reader) : Trap → Prop
  | cast {field : String} (h : ∀ v, node.getImmediateChild field ≠ .leaf v) :
    Unfilled node reader (.cast reader field)

namespace WellTyped

variable {node : FNode K} {reader : Reader} {f : String} {t : Trap}

theorem unfilled_of_asString (h : WellTyped node) (hf : f ∈ ["username","password","name"])
    (ht : asString reader f node = .error t) : Unfilled node reader t := by
  obtain ⟨hn,rfl⟩ := asString_eq_error_iff.mp ht
  refine .cast (fun v hv => hn ?_)
  obtain ⟨s,rfl⟩ := h.strings f hf v hv
  exact ⟨s,hv⟩

theorem unfilled_of_asDouble [Field K] (h : WellTyped node)
    (hf : f ∈ ["health","power","latitude","longitude"])
    (ht : asDouble reader f node = .error t) : Unfilled node reader t := by
  obtain ⟨hn,rfl⟩ := asDouble_eq_error_iff.mp ht
  refine .cast (fun v hv => hn ?_)
  obtain ⟨x,rfl⟩ := h.doubles f hf v hv
  exact Or.inl ⟨x,hv⟩

theorem unfilled_of_asInt [Field K] [LinearOrder K] [FloorRing K] (h : WellTyped node)
    (ht : asInt reader "totalExp" node = .error t) : Unfilled node reader t := by
  obtain ⟨hn,rfl⟩ := asInt_eq_error_iff.mp ht
  refine .cast (fun v hv => hn ?_)
  obtain ⟨n,rfl⟩ := h.ints v hv
  exact holdsInt_of_leaf hv

end WellTyped

section
variable {cs : List (String × FNode K)} {t : Trap}

/-- The scan came to a record without the field that it names. -/
def Stumbles (reader : Reader) (cs : List (String × FNode K)) (t : Trap) : Prop :=
  ∃ c ∈ cs, Unfilled c.2 reader t

theorem Stumbles.head {reader : Reader} {c : String × FNode K} (h : Unfilled c.2 reader t) :
    Stumbles reader (c :: cs) t := ⟨c,List.mem_cons_self,h⟩

theorem Stumbles.tail {reader : Reader} {c : String × FNode K} (h : Stumbles reader cs t) :
    Stumbles reader (c :: cs) t := by
  obtain ⟨c',hc',ht⟩ := h
  exact ⟨c',List.mem_cons_of_mem c hc',ht⟩

theorem stumbles_of_checkIfUserExists {u : String} (hw : ∀ c ∈ cs, WellTyped c.2)
    (h : SignupVC.checkIfUserExists u cs = .error t) : Stumbles .checkIfUserExists cs t := by
  obtain ⟨rfl,c,hc,hn⟩ := checkIfUserExists_eq_error h
  exact ⟨c,hc,(hw c hc).unfilled_of_asString (by simp) (asString_eq_error_iff.mpr ⟨hn,rfl⟩)⟩

variable [Field K] [LinearOrder K]

theorem stumbles_of_findEnemiesAroundUser {p : Platform K} {location : Option (Coordinate K)}
    {name : String} (hw : ∀ c ∈ cs, WellTyped c.2)
    (h : MapVC.findEnemiesAroundUser p location name cs = .error t) :
    Stumbles .findEnemiesAroundUser cs t ∨ (t = .userLocation ∧ location = none) := by
  induction cs with
  | nil => contradiction
  | cons child rest ih =>
    obtain ⟨hchild,hrest⟩ := List.forall_mem_cons.mp hw
    simp only [MapVC.findEnemiesAroundUser,bind_eq_error,unwrap_eq_error] at h
    rcases h with h | ⟨_,_,h | ⟨_,_,h | ⟨_,_,h | ⟨_,_,h | ⟨_,_,h | ⟨_,_,h | ⟨_,_,h⟩⟩⟩⟩⟩⟩⟩
    · exact Or.inl (.head (hchild.unfilled_of_asString (by simp) h))
    · exact Or.inl (.head (hchild.unfilled_of_asDouble (by simp) h))
    · exact Or.inl (.head (hchild.unfilled_of_asDouble (by simp) h))
    · exact Or.inl (.head (hchild.unfilled_of_asDouble (by simp) h))
    · exact Or.inl (.head (hchild.unfilled_of_asDouble (by simp) h))
    · exact Or.inr ⟨h.2.symm,h.1⟩
    · exact (ih hrest h).imp Stumbles.tail id
    · split at h <;> contradiction

theorem stumbles_of_getNumberOfEnemiesAroundUser {p : Platform K}
    {location : Option (Coordinate K)} (hw : ∀ c ∈ cs, WellTyped c.2)
    (h : MapVC.getNumberOfEnemiesAroundUser p location cs = .error t) :
    Stumbles .getNumberOfEnemiesAroundUser cs t ∨ (t = .userLocation ∧ location = none) := by
  induction cs with
  | nil => contradiction
  | cons child rest ih =>
    obtain ⟨hchild,hrest⟩ := List.forall_mem_cons.mp hw
    simp only [MapVC.getNumberOfEnemiesAroundUser,bind_eq_error,unwrap_eq_error] at h
    rcases h with h | ⟨_,_,h | ⟨_,_,h | ⟨_,_,h | ⟨_,_,h⟩⟩⟩⟩
    · exact Or.inl (.head (hchild.unfilled_of_asDouble (by simp) h))
    · exact Or.inl (.head (hchild.unfilled_of_asDouble (by simp) h))
    · exact Or.inr ⟨h.2.symm,h.1⟩
    · exact (ih hrest h).imp Stumbles.tail id
    · split at h <;> contradiction

variable [FloorRing K]

theorem stumbles_of_findPlayersAroundUser {p : Platform K} {self : User K}
    {location : Option (Coordinate K)} (hw : ∀ c ∈ cs, WellTyped c.2)
    (hk : ∀ c ∈ cs, intOfString c.1 ≠ none)
    (h : MapVC.findPlayersAroundUser p self location cs = .error t) :
    Stumbles .findPlayersAroundUser cs t ∨ (t = .userLocation ∧ location = none) := by
  induction cs with
  | nil => contradiction
  | cons child rest ih =>
    obtain ⟨hchild,hrest⟩ := List.forall_mem_cons.mp hw
    obtain ⟨hkey,hkeys⟩ := List.forall_mem_cons.mp hk
    simp only [MapVC.findPlayersAroundUser] at h
    split at h
    · exact (ih hrest hkeys h).imp Stumbles.tail id
    · simp only [bind_eq_error,unwrap_eq_error] at h
      rcases h with h | ⟨_,_,h | ⟨_,_,h | ⟨_,_,h | ⟨_,_,h | ⟨_,_,h | ⟨_,_,h | ⟨_,_,h⟩⟩⟩⟩⟩⟩⟩
      · exact Or.inl (.head (hchild.unfilled_of_asString (by simp) h))
      · exact Or.inl (.head (hchild.unfilled_of_asDouble (by simp) h))
      · exact Or.inl (.head (hchild.unfilled_of_asDouble (by simp) h))
      · exact Or.inl (.head (hchild.unfilled_of_asInt h))
      · exact Or.inl (.head (hchild.unfilled_of_asDouble (by simp) h))
      · exact Or.inl (.head (hchild.unfilled_of_asDouble (by simp) h))
      · exact Or.inr ⟨h.2.symm,h.1⟩
      · split at h
        · simp only [bind_eq_error,unwrap_eq_error] at h
          rcases h with ⟨hnone,-⟩ | ⟨_,_,h | ⟨_,_,h⟩⟩
          · exact absurd hnone hkey
          · exact (ih hrest hkeys h).imp Stumbles.tail id
          · contradiction
        · exact (ih hrest hkeys h).imp Stumbles.tail id

theorem stumbles_of_loginIfValid {u pw : String} (hw : ∀ c ∈ cs, WellTyped c.2)
    (hk : ∀ c ∈ cs, intOfString c.1 ≠ none)
    (h : LoginVC.loginIfValid u pw cs = .error t) : Stumbles .loginIfValid cs t := by
  induction cs with
  | nil => contradiction
  | cons child rest ih =>
    obtain ⟨hchild,hrest⟩ := List.forall_mem_cons.mp hw
    obtain ⟨hkey,hkeys⟩ := List.forall_mem_cons.mp hk
    simp only [LoginVC.loginIfValid,bind_eq_error] at h
    rcases h with h | ⟨_,_,h | ⟨_,_,h | ⟨_,_,h | ⟨_,_,h | ⟨_,_,h⟩⟩⟩⟩⟩
    · exact .head (hchild.unfilled_of_asString (by simp) h)
    · exact .head (hchild.unfilled_of_asString (by simp) h)
    · exact .head (hchild.unfilled_of_asDouble (by simp) h)
    · exact .head (hchild.unfilled_of_asDouble (by simp) h)
    · exact .head (hchild.unfilled_of_asInt h)
    · split at h
      · rcases bind_eq_error.mp h with hnone | ⟨_,_,h⟩
        · exact absurd (unwrap_eq_error.mp hnone).1 hkey
        · contradiction
      · exact (ih hrest hkeys h).tail

end

/-- A callout that is shown is about an enemy. -/
def MapVC.Pointed (m : MapVC K) : Prop := m.enemyCalloutHidden = false → m.selectedEnemy ≠ none

namespace MapVC

theorem Pointed.congr {m m' : MapVC K} (h : m.Pointed)
    (hh : m'.enemyCalloutHidden = m.enemyCalloutHidden) (hs : m'.selectedEnemy = m.selectedEnemy) :
    m'.Pointed := by
  intro hshown
  rw [hs]
  exact h (hh ▸ hshown)

variable [Field K] {p : Platform K} {m : MapVC K} {r : MapReaction K}

theorem Pointed.onEvent (h : m.Pointed) {e : MapEvent K} (hr : m.onEvent p e = .ok r) :
    r.locals.Pointed := by
  cases e with
  | viewWillAppear =>
    cases hr
    intro hshown
    simp [viewWillAppear] at hshown
  | viewDidDisappear =>
    cases hr
    exact h
  | didUpdateLocations locations =>
    obtain ⟨c,_,hr⟩ := bind_eq_ok.mp hr
    obtain ⟨r',hr',hr⟩ := bind_eq_ok.mp hr
    cases hr
    simp only [setUserLocation] at hr'
    split at hr'
    · obtain ⟨m',hm',hr'⟩ := bind_eq_ok.mp hr'
      obtain ⟨location,_,hm'⟩ := bind_eq_ok.mp hm'
      cases hm'
      cases hr'
      exact h.congr rfl rfl
    · cases hr'
      exact h.congr rfl rfl
  | centerAction =>
    obtain ⟨m',hm',hr⟩ := bind_eq_ok.mp hr
    obtain ⟨location,_,hm'⟩ := bind_eq_ok.mp hm'
    cases hm'
    cases hr
    exact h.congr rfl rfl
  | addEnemyAction d =>
    obtain ⟨enemy,hs⟩ := spawn_of_ok hr
    rw [hs.locals]
    exact h.congr rfl rfl
  | timerTick =>
    cases hr
    exact h
  | didSelect i =>
    cases hr
    simp only [didSelect]
    split
    · simp [Pointed]
    · exact h
  | touchesBegan onCallout =>
    cases hr
    simp only [touchesBegan]
    split
    · exact h
    · simp [Pointed]

theorem Pointed.onRead [LinearOrder K] [FloorRing K] (h : m.Pointed) {q : MapRead K}
    {snapshot : FNode K} {d : Draw K} (hr : m.onRead p q snapshot d = .ok r) :
    r.locals.Pointed := by
  cases q with
  | didUpdateLocations c =>
    cases hr
    exact h
  | findEnemiesAroundUser =>
    obtain ⟨enemies,_,hr⟩ := bind_eq_ok.mp hr
    cases hr
    exact h.congr rfl rfl
  | findPlayersAroundUser =>
    obtain ⟨players,_,hr⟩ := bind_eq_ok.mp hr
    cases hr
    exact h.congr rfl rfl
  | getNumberOfEnemiesAroundUser =>
    rcases onRead_count hr with ⟨-,enemy,hs⟩ | ⟨-,rfl⟩
    · rw [hs.locals]
      exact h.congr rfl rfl
    · exact h
  | addEnemyToFirebase enemy =>
    cases hr
    exact h

end MapVC

variable [Field K] [LinearOrder K] {p : Platform K} {d : Device K} {r : DeviceReaction K}

omit [Field K] [LinearOrder K] in
theorem Device.pointed_setTab (hd : ∀ t ∈ d.tabBarVCs, t.map.Pointed) {tab : Nat}
    {t : TabBarVC K} (ht : t.map.Pointed) :
    ∀ t' ∈ (d.setTab tab t).tabBarVCs, t'.map.Pointed := by
  intro t' ht'
  rcases mem_setTab ht' with rfl | hold
  · exact ht
  · exact hd t' hold

theorem EventOutcome.pointed {e : Event K} (h : EventOutcome p d e r)
    (hd : ∀ t ∈ d.tabBarVCs, t.map.Pointed) : ∀ t ∈ r.locals.tabBarVCs, t.map.Pointed := by
  cases h with
  | map ht hr =>
    exact Device.pointed_setTab hd ((hd _ (List.mem_of_getElem? ht)).onEvent hr)
  | battleAction ht he =>
    exact Device.pointed_setTab hd ((hd _ (List.mem_of_getElem? ht)).congr rfl rfl)
  | scene ht hs hr =>
    exact Device.pointed_setTab hd ((hd _ (List.mem_of_getElem? ht)).congr rfl rfl)
  | newPassword ht =>
    exact Device.pointed_setTab hd ((hd _ (List.mem_of_getElem? ht)).congr rfl rfl)
  | logout ht =>
    exact Device.pointed_setTab hd ((hd _ (List.mem_of_getElem? ht)).congr rfl rfl)
  | _ => exact hd

variable [FloorRing K]

theorem ReadOutcome.pointed {q : Read K} {snapshot : FNode K} {draw : Draw K}
    (h : ReadOutcome p snapshot draw d q r) (hd : ∀ t ∈ d.tabBarVCs, t.map.Pointed) :
    ∀ t ∈ r.locals.tabBarVCs, t.map.Pointed := by
  cases h with
  | login hl =>
    refine List.forall_mem_append.mpr ⟨hd,?_⟩
    simp [MapVC.Pointed]
  | map ht hr =>
    exact Device.pointed_setTab hd ((hd _ (List.mem_of_getElem? ht)).onRead hr)
  | _ => exact hd

def Read.scanner : Read K → Option Reader
  | .checkIfUserExists _ _ => some .checkIfUserExists
  | .loginIfValid _ _ => some .loginIfValid
  | .map _ .findEnemiesAroundUser => some .findEnemiesAroundUser
  | .map _ .findPlayersAroundUser => some .findPlayersAroundUser
  | .map _ .getNumberOfEnemiesAroundUser => some .getNumberOfEnemiesAroundUser
  | _ => none

inductive Crash (w : World K) (c : Nat) : Label K → Trap → Prop
  | noLocations {tab : Nat} :
    Crash w c (.event c (.map tab (.didUpdateLocations []))) .noLocations
  | unlocated {tab : Nat} {e : MapEvent K} {t : TabBarVC K}
    (ht : (w.clients c).locals.tabBarVCs[tab]? = some t) (hu : t.map.userLocation = none) :
    Crash w c (.event c (.map tab e)) .userLocation
  | unlocatedScan {i tab : Nat} {draw : Draw K} {q : MapRead K} {snapshot : FNode K}
    {t : TabBarVC K} (hq : (w.clients c).reads[i]? = some ⟨.map tab q,some snapshot⟩)
    (ht : (w.clients c).locals.tabBarVCs[tab]? = some t) (hu : t.map.userLocation = none) :
    Crash w c (.deliver c i draw) .userLocation
  | unfilled {i : Nat} {draw : Draw K} {q : Read K} {snapshot : FNode K} {reader : Reader}
    {t : Trap} (hq : (w.clients c).reads[i]? = some ⟨q,some snapshot⟩)
    (hr : q.scanner = some reader) (h : Stumbles reader snapshot.children t) :
    Crash w c (.deliver c i draw) t
  | noPassword {i tab vc : Nat} {draw : Draw K} {oldPassword userID : String}
    {snapshot : FNode K} (hq : (w.clients c).reads[i]? =
      some ⟨.changeIfValidPassword tab vc oldPassword userID,some snapshot⟩)
    (h : ∀ v, snapshot ≠ .leaf v) :
    Crash w c (.deliver c i draw) (.cast .changeIfValidPassword "password")

variable {w w' : World K} {c : Nat} {l : Label K} {t : Trap}

omit [LinearOrder K] [FloorRing K] in
theorem MapVC.onEvent_crash {e : MapEvent K} {m : MapVC K} (h : m.onEvent p e = .error t) :
    (e = .didUpdateLocations [] ∧ t = .noLocations) ∨
      (m.userLocation = none ∧ t = .userLocation) := by
  cases e with
  | didUpdateLocations locations =>
    rcases bind_eq_error.mp h with h | ⟨c,_,h⟩
    · obtain ⟨hnone,rfl⟩ := unwrap_eq_error.mp h
      exact Or.inl ⟨by rw [List.getLast?_eq_none_iff.mp hnone],rfl⟩
    · rcases bind_eq_error.mp h with h | ⟨_,_,h⟩
      · simp only [setUserLocation] at h
        split at h
        · rcases bind_eq_error.mp h with h | ⟨_,_,h⟩
          · simp [centerMap,bind,Except.bind] at h
          · contradiction
        · contradiction
      · contradiction
  | centerAction =>
    rcases bind_eq_error.mp h with h | ⟨_,_,h⟩
    · rcases bind_eq_error.mp h with h | ⟨_,_,h⟩
      · obtain ⟨hnone,rfl⟩ := unwrap_eq_error.mp h
        exact Or.inr ⟨hnone,rfl⟩
      · contradiction
    · contradiction
  | addEnemyAction d =>
    rcases bind_eq_error.mp h with h | ⟨_,_,h⟩
    · obtain ⟨hnone,rfl⟩ := unwrap_eq_error.mp h
      exact Or.inr ⟨hnone,rfl⟩
    · contradiction
  | _ => contradiction

omit [FloorRing K] in
theorem crash_of_onEvent [FloorRing K] {e : Event K}
    (hp : ∀ t ∈ (w.clients c).locals.tabBarVCs, t.map.Pointed)
    (h : (w.clients c).locals.onEvent p e = .error t) : Crash w c (.event c e) t := by
  cases e with
  | map tab e =>
    simp only [Device.onEvent] at h
    split at h
    · next v hv =>
      split at h
      · rcases bind_eq_error.mp h with h | ⟨_,_,h⟩
        · rcases MapVC.onEvent_crash h with ⟨rfl,rfl⟩ | ⟨hu,rfl⟩
          · exact .noLocations
          · exact .unlocated hv hu
        · contradiction
      · contradiction
    · contradiction
  | battleAction tab =>
    simp only [Device.onEvent] at h
    split at h
    · next v hv =>
      split at h
      · next hshown =>
        rcases bind_eq_error.mp h with h | ⟨_,_,h⟩
        · have hsome := hp v (List.mem_of_getElem? hv) hshown.2
          exact absurd (unwrap_eq_error.mp h).1 hsome
        · contradiction
      · contradiction
    · contradiction
  | signupAction => contradiction
  | editSignup vc username password => contradiction
  | createAccountAction vc =>
    simp only [Device.onEvent] at h
    split at h <;> contradiction
  | editLogin username password => contradiction
  | loginAction => contradiction
  | scene tab scene e =>
    simp only [Device.onEvent] at h
    split at h
    · split at h
      · split at h <;> contradiction
      · contradiction
    · contradiction
  | newPasswordSegue tab =>
    simp only [Device.onEvent] at h
    split at h
    · split at h <;> contradiction
    · contradiction
  | editNewPassword tab vc oldPassword newPassword =>
    simp only [Device.onEvent] at h
    split at h <;> contradiction
  | changePasswordAction tab vc =>
    simp only [Device.onEvent] at h
    split at h
    · split at h <;> contradiction
    · contradiction
  | logout tab =>
    simp only [Device.onEvent] at h
    split at h
    · split at h <;> contradiction
    · contradiction

theorem crash_of_onRead {i : Nat} {draw : Draw K} {q : Read K} {snapshot : FNode K}
    (hq : (w.clients c).reads[i]? = some ⟨q,some snapshot⟩)
    (hc : Conforms (Stored N) q.path snapshot)
    (hk : q.path = ["users"] → ∀ child ∈ snapshot.children, intOfString child.1 ≠ none)
    (h : (w.clients c).locals.onRead p q snapshot draw = .error t) :
    Crash w c (.deliver c i draw) t := by
  have husers (hp : q.path = ["users"]) : ∀ child ∈ snapshot.children, WellTyped child.2 := by
    intro child hchild
    rw [hp] at hc
    exact wellTyped_of_user (hc.child hchild)
  have henemies (hp : q.path = ["enemies"]) :
      ∀ child ∈ snapshot.children, WellTyped child.2 := by
    intro child hchild
    rw [hp] at hc
    exact wellTyped_of_enemy (hc.child hchild)
  cases q with
  | checkIfUserExists vc tap =>
    simp only [Device.onRead] at h
    split at h
    · rcases bind_eq_error.mp h with h | ⟨_,_,h⟩
      · exact .unfilled hq rfl (stumbles_of_checkIfUserExists (husers rfl) h)
      · split at h <;> contradiction
    · contradiction
  | addUserToFirebase vc tap username =>
    simp only [Device.onRead] at h
    split at h
    · rw [addUserToFirebase_eq] at h
      contradiction
    · contradiction
  | loginIfValid username password =>
    rcases bind_eq_error.mp h with h | ⟨validUser,_,h⟩
    · exact .unfilled hq rfl (stumbles_of_loginIfValid (husers rfl) (hk rfl) h)
    · cases validUser <;> contradiction
  | changeIfValidPassword tab vc oldPassword userID =>
    rcases bind_eq_error.mp h with h | ⟨_,_,h⟩
    · unfold NewPasswordVC.truePassword at h
      split at h
      · contradiction
      · next hs =>
        cases h
        refine .noPassword hq (fun v hv => ?_)
        subst hv
        obtain ⟨s,rfl⟩ := hc.of_leaf.userField.of_password
        exact hs s rfl
    · split at h
      · split at h <;> contradiction
      · contradiction
  | map tab q =>
    simp only [Device.onRead] at h
    split at h
    · next v hv =>
      rcases bind_eq_error.mp h with h | ⟨_,_,h⟩
      · cases q with
        | didUpdateLocations c => contradiction
        | findEnemiesAroundUser =>
          rcases bind_eq_error.mp h with h | ⟨_,_,h⟩
          · rcases stumbles_of_findEnemiesAroundUser (henemies rfl) h with hs | ⟨rfl,hu⟩
            · exact .unfilled hq rfl hs
            · exact .unlocatedScan hq hv hu
          · contradiction
        | findPlayersAroundUser =>
          rcases bind_eq_error.mp h with h | ⟨_,_,h⟩
          · rcases stumbles_of_findPlayersAroundUser (husers rfl) (hk rfl) h with hs | ⟨rfl,hu⟩
            · exact .unfilled hq rfl hs
            · exact .unlocatedScan hq hv hu
          · contradiction
        | getNumberOfEnemiesAroundUser =>
          rcases bind_eq_error.mp h with h | ⟨_,_,h⟩
          · rcases stumbles_of_getNumberOfEnemiesAroundUser (henemies rfl) h with hs | ⟨rfl,hu⟩
            · exact .unfilled hq rfl hs
            · exact .unlocatedScan hq hv hu
          · split at h
            · rcases bind_eq_error.mp h with h | ⟨_,_,h⟩
              · obtain ⟨hu,rfl⟩ := unwrap_eq_error.mp h
                exact .unlocatedScan hq hv hu
              · contradiction
            · contradiction
        | addEnemyToFirebase enemy => contradiction
      · contradiction
    · contradiction

variable {ls : List (Label K)}

theorem keysInv_of_run (hr : run (step p) ls (World.start .empty) = some w) :
    ∃ n, KeysInv n w := by
  have hstart : InitialSegment 0 ((.empty : FNode K).getChild ["users"]) := .empty
  exact run_invariant (C := fun _ _ => True) (I := fun w => ∃ n, KeysInv n w) (step p)
    (fun _ _ _ hi _ hs => hi.elim (fun _ hn => hn.step hs)) ⟨0,keysInv_start hstart⟩
    (along_of_forall_mem (step p) (A := fun _ => True) (fun _ _ => trivial) _) hr

theorem pointed_of_run (hr : run (step p) ls (World.start .empty) = some w) :
    ∀ c, ∀ t ∈ (w.clients c).locals.tabBarVCs, t.map.Pointed := by
  refine run_invariant (C := fun _ _ => True)
    (I := fun w : World K => ∀ c, ∀ t ∈ (w.clients c).locals.tabBarVCs, t.map.Pointed) (step p)
    (fun l w w' hi _ hs c => ?_) (by simp [World.start])
    (along_of_forall_mem (step p) (A := fun _ => True) (fun _ _ => trivial) _) hr
  rcases locals_of_step hs c with hsame | ⟨r,hr,hsame⟩
  · exact hsame ▸ hi c
  · rw [hsame]
    cases hr with
    | event hr => exact (onEvent_outcome hr).pointed (hi c)
    | deliver hq hr => exact (onRead_outcome hr).pointed (hi c)

variable [IsStrictOrderedRing K]

/-- A client crashes on an empty list of locations, without a location, or on a record that
does not have the field that the trap names. -/
theorem crash_of_run (hr : run (step p) ls (World.start .empty) = some w)
    (hs : step p l w = some w') (hnone : (w.clients c).trap = none)
    (ht : (w'.clients c).trap = some t) : Crash w c l t := by
  rcases trap_of_step hs ht with hold | hfail
  · rw [hnone] at hold
    cases hold
  · cases hfail with
    | event he => exact crash_of_onEvent (pointed_of_run hr c) he
    | @deliver i draw q snapshot hq he =>
      have hmem := List.mem_of_getElem? hq
      obtain ⟨n,hkeys⟩ := keysInv_of_run hr
      refine crash_of_onRead hq ((inPlay_of_anyNames hr).snapshots c _ hmem _ rfl)
        (fun hpath child hchild => ?_) he
      have hsome := hkeys.inOrder.userIDs c _ snapshot hmem rfl hpath child.1
        (List.mem_map_of_mem hchild)
      intro hk
      simp [hk] at hsome

end

/-- A login that meets the first write of a signup. -/
def firstWriteSeen : List (Label ℚ) :=
  tapCreateAccount 0 0 "ann" "pw" ++ answer 0 sampleDraw ++ answer 0 sampleDraw ++
    applyAll 0 1 ++
    [.event 1 (.editLogin "ann" "pw"),.event 1 .loginAction,.snapshot 1 0]

theorem crash_of_run_firstWrite : ∃ w w',
    run (step planePlatform) firstWriteSeen (World.start .empty) = some w ∧
    step planePlatform (.deliver 1 0 sampleDraw) w = some w' ∧
    Crash w 1 (.deliver 1 0 sampleDraw) (.cast .loginIfValid "username") := by
  have hrun : (run (step planePlatform) firstWriteSeen (World.start .empty)).bind
      (fun w => (step planePlatform (.deliver 1 0 sampleDraw) w).map
        (fun w' => ((w.clients 1).trap,(w'.clients 1).trap))) =
        some (none,some (.cast .loginIfValid "username")) := by
    decide +kernel
  obtain ⟨w,hw,hstep⟩ := Option.bind_eq_some_iff.mp hrun
  obtain ⟨w',hw',htrap⟩ := Option.map_eq_some_iff.mp hstep
  obtain ⟨hnone,ht⟩ := Prod.mk.inj htrap
  exact ⟨w,w',hw,hw',crash_of_run hw hw' hnone ht⟩

end GFLGO
