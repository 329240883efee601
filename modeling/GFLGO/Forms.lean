import Mathlib.Data.Rat.Floor
import GFLGO.Chains
import GFLGO.Outcomes

/-!
The two account forms. Their text fields are read at different moments: some at
the tap, some when a callback runs.
-/

set_option autoImplicit false

namespace GFLGO

open Runs Async

section
variable {K : Type}

abbrev DeviceChain (K : Type) := Chain (Device K) (Event K)

abbrev FormProcess (K : Type) := Chained (Device K) (Event K) (Read K) Trap

abbrev DeviceInput (K : Type) := Input (Event K) (FNode K) (Draw K)

def submittedSignup (chain : DeviceChain K) : Option SignupVC :=
  match chain.event with
  | .createAccountAction vc => chain.start.signupVCs[vc]?
  | _ => none

def submittedPasswords (chain : DeviceChain K) : Option NewPasswordVC :=
  match chain.event with
  | .changePasswordAction tab vc => chain.start.newPasswordVC tab vc
  | _ => none

inductive FromForm : Read K → DeviceChain K → Prop
  | checkIfUserExists {vc tap : Nat} {d : Device K} {form : SignupVC}
    (hf : d.signupVCs[vc]? = some form) :
    FromForm (.checkIfUserExists vc tap) { event := .createAccountAction vc, start := d }
  | addUserToFirebase {vc tap : Nat} {d d₁ : Device K} {form form₁ : SignupVC}
    (hf : d.signupVCs[vc]? = some form) (hf₁ : d₁.signupVCs[vc]? = some form₁) :
    FromForm (.addUserToFirebase vc tap form₁.usernameOutlet)
      { event := .createAccountAction vc, start := d, links := [d₁] }
  | changeIfValidPassword {tab vc : Nat} {userID : String} {d : Device K} {form : NewPasswordVC}
    (hf : d.newPasswordVC tab vc = some form) :
    FromForm (.changeIfValidPassword tab vc form.oldPasswordOutlet userID)
      { event := .changePasswordAction tab vc, start := d }
  | loginIfValid {username password : String} {chain : DeviceChain K} :
    FromForm (.loginIfValid username password) chain
  | map {tab : Nat} {q : MapRead K} {chain : DeviceChain K} : FromForm (.map tab q) chain

variable [Field K] [LinearOrder K] {p : Platform K}

theorem fromForm_of_event {e : Event K} {d : Device K} {r : DeviceReaction K}
    (h : d.onEvent p e = .ok r) : ∀ q ∈ r.reads, FromForm q { event := e, start := d } := by
  intro q hq
  cases onEvent_outcome h with
  | createAccountAction hv =>
    obtain rfl := List.mem_singleton.mp hq
    exact .checkIfUserExists hv
  | loginAction =>
    obtain rfl := List.mem_singleton.mp hq
    exact .loginIfValid
  | map ht hr =>
    obtain ⟨q',_,rfl⟩ := List.mem_map.mp hq
    exact .map
  | changePasswordAction ht hn =>
    obtain rfl := List.mem_singleton.mp hq
    exact .changeIfValidPassword (by simp [Device.newPasswordVC,ht,hn])
  | _ => contradiction

variable [FloorRing K]

theorem FromForm.read {q : Read K} {chain : DeviceChain K} (hc : FromForm q chain)
    {snapshot : FNode K} {draw : Draw K} {d : Device K} {r : DeviceReaction K}
    (h : d.onRead p q snapshot draw = .ok r) : ∀ q' ∈ r.reads,
      FromForm q' { chain with links := chain.links ++ [d] } := by
  intro q' hq
  cases onRead_outcome h with
  | userIsNew hv hn =>
    obtain rfl := List.mem_singleton.mp hq
    cases hc with
    | checkIfUserExists hf => exact .addUserToFirebase hf hv
  | map ht hr =>
    obtain ⟨q'',_,rfl⟩ := List.mem_map.mp hq
    exact .map
  | _ => contradiction

/-- A form that goes through stores and compares what was submitted. -/
structure StoresSubmitted (chain : DeviceChain K) (snapshot : FNode K) (r : DeviceReaction K) :
    Prop where
  signup : ∀ tap user, Note.addUserToFirebase tap user ∈ r.notes →
    ∃ form key, submittedSignup chain = some form ∧ user.username = form.usernameOutlet ∧
      user.password = some form.passwordOutlet ∧ r.writes = SignupVC.userWrites key user
  password : ∀ userID oldPassword newPassword,
    Note.passwordChanged userID oldPassword newPassword ∈ r.notes →
    ∃ form, submittedPasswords chain = some form ∧ oldPassword = form.oldPasswordOutlet ∧
      snapshot = .leaf (.string form.oldPasswordOutlet) ∧
      newPassword = form.newPasswordOutlet ∧
      r.writes = [setValue ["users",userID,"password"] (.string form.newPasswordOutlet)]

def ActsOnSubmitted (p : Platform K) : DeviceInput K → FormProcess K → Prop
  | .event _, _ => True
  | .deliver i snapshot draw, st => ∀ q chain r, st.pending[i]? = some (q,chain) →
    st.locals.onRead p q snapshot draw = .ok r → StoresSubmitted chain snapshot r

omit [Field K] [LinearOrder K] [FloorRing K] in
/-- The fields that a callback uses hold what they held at the tap: the name in
the first callback of a signup, the password in the second, and the new password
in the callback that finds the old one right. -/
def Unedited (snapshot : FNode K) (d : Device K) (chain : DeviceChain K) : Read K → Prop
  | .addUserToFirebase vc _ _ => ∀ form now, submittedSignup chain = some form →
    d.signupVCs[vc]? = some now → now.passwordOutlet = form.passwordOutlet ∧
      ∀ d₁ ∈ chain.links, ∀ first, d₁.signupVCs[vc]? = some first →
        first.usernameOutlet = form.usernameOutlet
  | .changeIfValidPassword tab vc oldPassword _ => snapshot = .leaf (.string oldPassword) →
    ∀ form now, submittedPasswords chain = some form → d.newPasswordVC tab vc = some now →
      now.newPasswordOutlet = form.newPasswordOutlet
  | _ => True

omit [Field K] [LinearOrder K] [FloorRing K] in
def FieldsKept : DeviceInput K → FormProcess K → Prop
  | .event _, _ => True
  | .deliver i snapshot _, st => ∀ q chain, st.pending[i]? = some (q,chain) →
    Unedited snapshot st.locals chain q

omit [Field K] [LinearOrder K] [FloorRing K] in
/-- The notes of a form that goes through. -/
def Note.goesThrough : Note K → Bool
  | .addUserToFirebase _ _ | .passwordChanged _ _ _ => true
  | _ => false

omit [Field K] [LinearOrder K] [FloorRing K] in
theorem storesSubmitted_of_silent {chain : DeviceChain K} {snapshot : FNode K}
    {r : DeviceReaction K} (h : ∀ n ∈ r.notes, n.goesThrough = false) :
    StoresSubmitted chain snapshot r :=
  ⟨fun _ _ hn => absurd (h _ hn) (by simp [Note.goesThrough]),
    fun _ _ _ hn => absurd (h _ hn) (by simp [Note.goesThrough])⟩

theorem onRead_addUserToFirebase {vc tap : Nat} {username : String} {snapshot : FNode K}
    {draw : Draw K} {d : Device K} {form : SignupVC} (hf : d.signupVCs[vc]? = some form) :
    d.onRead p (.addUserToFirebase vc tap username) snapshot draw = .ok
      { locals := d
        writes := SignupVC.userWrites (stringOfInt snapshot.numChildren)
          (User.init username (some form.passwordOutlet) snapshot.numChildren 50 3.2 10)
        notes := [.addUserToFirebase tap
          (User.init username (some form.passwordOutlet) snapshot.numChildren 50 3.2 10)] } := by
  simp only [Device.onRead,hf,addUserToFirebase_eq,bind,Except.bind]

theorem onRead_changeIfValidPassword {tab vc : Nat} {oldPassword userID : String}
    {draw : Draw K} {d : Device K} {form : NewPasswordVC}
    (hf : d.newPasswordVC tab vc = some form) :
    d.onRead p (.changeIfValidPassword tab vc oldPassword userID) (.leaf (.string oldPassword))
      draw = .ok
      { locals := d
        writes := [setValue ["users",userID,"password"] (.string form.newPasswordOutlet)]
        notes := [.passwordChanged userID oldPassword form.newPasswordOutlet] } := by
  rw [Device.newPasswordVC] at hf
  simp only [Device.onRead,NewPasswordVC.truePassword,bind,Except.bind,if_true]
  rw [hf]

theorem storesSubmitted_addUserToFirebase_iff {vc tap : Nat} {d₀ d₁ : Device K}
    {form form₁ : SignupVC} (hf : d₀.signupVCs[vc]? = some form)
    (hf₁ : d₁.signupVCs[vc]? = some form₁) (snapshot : FNode K) (draw : Draw K) (d : Device K) :
    (∀ r, d.onRead p (.addUserToFirebase vc tap form₁.usernameOutlet) snapshot draw = .ok r →
        StoresSubmitted { event := .createAccountAction vc, start := d₀, links := [d₁] }
          snapshot r) ↔
      Unedited snapshot d { event := .createAccountAction vc, start := d₀, links := [d₁] }
        (.addUserToFirebase vc tap form₁.usernameOutlet) := by
  have hsubmitted : submittedSignup (Chain.mk (.createAccountAction vc) d₀ [d₁]) = some form := hf
  cases hnow : d.signupVCs[vc]? with
  | none =>
    refine iff_of_true (fun r hr => ?_) (fun _ _ _ hn => by rw [hnow] at hn; contradiction)
    cases onRead_outcome hr with
    | idle => exact storesSubmitted_of_silent (by simp [Device.idle])
    | addUser hv =>
      rw [hnow] at hv
      contradiction
  | some now =>
    constructor
    · intro h form' now' hform hnow'
      obtain ⟨form'',_,hs,hname,hpassword,_⟩ :=
        (h _ (onRead_addUserToFirebase hnow)).signup tap _ (List.mem_singleton_self _)
      obtain rfl : now = now' := Option.some.inj (hnow.symm.trans hnow')
      obtain rfl : form' = form'' := Option.some.inj (hform.symm.trans hs)
      refine ⟨Option.some.inj hpassword,fun d' hd first hfirst => ?_⟩
      obtain rfl := List.mem_singleton.mp hd
      obtain rfl : form₁ = first := Option.some.inj (hf₁.symm.trans hfirst)
      exact hname
    · intro h r hr
      rw [onRead_addUserToFirebase hnow] at hr
      cases hr
      obtain ⟨hpassword,hname⟩ := h form now hsubmitted hnow
      refine ⟨fun tap' user hn => ?_,fun _ _ _ hn => by simp at hn⟩
      simp only [List.mem_singleton,Note.addUserToFirebase.injEq] at hn
      obtain ⟨rfl,rfl⟩ := hn
      exact ⟨form,_,hsubmitted,hname d₁ (List.mem_singleton_self _) form₁ hf₁,
        congrArg some hpassword,rfl⟩

theorem storesSubmitted_changeIfValidPassword_iff {tab vc : Nat} {userID : String}
    {d₀ : Device K} {form : NewPasswordVC} (hf : d₀.newPasswordVC tab vc = some form)
    (snapshot : FNode K) (draw : Draw K) (d : Device K) :
    (∀ r, d.onRead p (.changeIfValidPassword tab vc form.oldPasswordOutlet userID) snapshot draw =
        .ok r → StoresSubmitted { event := .changePasswordAction tab vc, start := d₀ } snapshot r) ↔
      Unedited snapshot d { event := .changePasswordAction tab vc, start := d₀ }
        (.changeIfValidPassword tab vc form.oldPasswordOutlet userID) := by
  have hsubmitted : submittedPasswords { event := .changePasswordAction tab vc, start := d₀ } =
      some form := hf
  constructor
  · intro h hright form' now hform hnow
    subst hright
    obtain ⟨form'',hs,_,_,hnew,_⟩ :=
      (h _ (onRead_changeIfValidPassword hnow)).password userID _ _ (List.mem_singleton_self _)
    obtain rfl : form' = form'' := Option.some.inj (hform.symm.trans hs)
    exact hnew
  · intro h r hr
    cases onRead_outcome hr with
    | idle => exact storesSubmitted_of_silent (by simp [Device.idle])
    | incorrectPassword hs hp => exact storesSubmitted_of_silent (by simp [Note.goesThrough])
    | @passwordChanged _ _ _ _ t now hs ht hn =>
      have hnow : d.newPasswordVC tab vc = some now := by simp [Device.newPasswordVC,ht,hn]
      have hnew := h hs form now hsubmitted hnow
      refine ⟨fun _ _ hn => by simp at hn,fun userID' old new hn => ?_⟩
      simp only [List.mem_singleton,Note.passwordChanged.injEq] at hn
      obtain ⟨rfl,rfl,rfl⟩ := hn
      exact ⟨form,hsubmitted,rfl,hs,hnew,by rw [hnew]⟩

/-- What one callback stores is what was submitted exactly when the fields it
uses have not changed. -/
theorem storesSubmitted_iff_unedited {q : Read K} {chain : DeviceChain K} (hc : FromForm q chain)
    (snapshot : FNode K) (draw : Draw K) (d : Device K) :
    (∀ r, d.onRead p q snapshot draw = .ok r → StoresSubmitted chain snapshot r) ↔
      Unedited snapshot d chain q := by
  cases hc with
  | checkIfUserExists hf =>
    refine iff_of_true (fun r hr => storesSubmitted_of_silent ?_) trivial
    cases onRead_outcome hr <;> simp [Note.goesThrough,Device.idle]
  | addUserToFirebase hf hf₁ =>
    exact storesSubmitted_addUserToFirebase_iff hf hf₁ snapshot draw d
  | changeIfValidPassword hf =>
    exact storesSubmitted_changeIfValidPassword_iff hf snapshot draw d
  | loginIfValid =>
    refine iff_of_true (fun r hr => storesSubmitted_of_silent ?_) trivial
    cases onRead_outcome hr <;> simp [Note.goesThrough,Device.idle]
  | map =>
    refine iff_of_true (fun r hr => storesSubmitted_of_silent ?_) trivial
    cases onRead_outcome hr with
    | idle => simp [Device.idle]
    | map ht hm =>
      obtain ⟨_,⟨_,_,_,hn⟩ | ⟨_,_,_,hn⟩ | ⟨_,hn⟩⟩ := MapVC.onRead_effect hm
      · simp [Device.ofMap,hn,Note.goesThrough]
      · simp [Device.ofMap,hn]
      · simp [Device.ofMap,hn]

/-- The forms act on what was submitted exactly when the fields still hold it
where the callbacks use them. -/
theorem actsOnSubmitted_iff_fieldsKept (p : Platform K) (d : Device K)
    (inps : List (DeviceInput K)) :
    Along (Chained.step (program p)) (ActsOnSubmitted p) inps { locals := d } ↔
      Along (Chained.step (program p)) FieldsKept inps { locals := d } := by
  have hstep (C : DeviceInput K → FormProcess K → Prop) (inp : DeviceInput K)
      (st st' : FormProcess K) (hi : ∀ x ∈ st.pending, FromForm x.1 x.2) (_ : C inp st)
      (hs : Chained.step (program p) inp st = some st') : ∀ x ∈ st'.pending, FromForm x.1 x.2 :=
    Chained.pending_step (fun _ _ _ h => fromForm_of_event h)
      (fun _ _ _ _ _ _ hc h => hc.read h) hi hs
  have hiff (inp : DeviceInput K) (st : FormProcess K)
      (hi : ∀ x ∈ st.pending, FromForm x.1 x.2) :
      ActsOnSubmitted p inp st ↔ FieldsKept inp st := by
    cases inp with
    | event e => exact Iff.rfl
    | deliver i snapshot draw =>
      constructor
      · intro h q chain hq
        exact (storesSubmitted_iff_unedited (hi _ (List.mem_of_getElem? hq)) snapshot draw _).mp
          (fun r hr => h q chain r hq hr)
      · intro h q chain r hq hr
        exact (storesSubmitted_iff_unedited (hi _ (List.mem_of_getElem? hq)) snapshot draw _).mpr
          (h q chain hq) r hr
  have hstart : ∀ x ∈ ({ locals := d } : FormProcess K).pending, FromForm x.1 x.2 := by simp
  constructor
  · exact Along.mono_of_invariant _ (hstep _) (fun inp st hi => (hiff inp st hi).mp) hstart
  · exact Along.mono_of_invariant _ (hstep _) (fun inp st hi => (hiff inp st hi).mpr) hstart

end

/-- A signup whose password is edited before its second callback runs. -/
def editedSignup : List (DeviceInput ℚ) :=
  [.event .signupAction,.event (.editSignup 0 "ann" "pw"),.event (.createAccountAction 0),
    .deliver 0 .empty sampleDraw,.event (.editSignup 0 "ann" "other")]

def awaitingSecond : FormProcess ℚ :=
  { locals := { taps := 1, signupVCs := [⟨"ann","other"⟩] }
    pending := [(.addUserToFirebase 0 0 "ann",
      { event := .createAccountAction 0
        start := { signupVCs := [⟨"ann","pw"⟩] }
        links := [{ taps := 1, signupVCs := [⟨"ann","pw"⟩] }] })] }

theorem run_editedSignup : run (Chained.step (program planePlatform)) editedSignup
    { locals := {} } = some awaitingSecond := rfl

/-- The account gets the edited password. -/
theorem not_actsOnSubmitted : ¬ ∀ (d : Device ℚ) (inps : List (DeviceInput ℚ)),
    Along (Chained.step (program planePlatform)) (ActsOnSubmitted planePlatform) inps
      { locals := d } := by
  intro h
  have hall := h {} (editedSignup ++ [.deliver 0 .empty sampleDraw])
  refine not_along_of_run _ run_editedSignup (fun hacts => ?_) hall
  obtain ⟨form,_,hs,_,hpassword,_⟩ :=
    (hacts _ _ _ rfl (onRead_addUserToFirebase rfl)).signup 0 _ (List.mem_singleton_self _)
  cases hs
  exact absurd (Option.some.inj hpassword) (by decide)

end GFLGO
