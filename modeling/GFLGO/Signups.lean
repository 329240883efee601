import GFLGO.UserKeys

/-! Runs in which any number of clients do nothing but sign up. -/

set_option autoImplicit false

namespace GFLGO

open Runs Async

section
variable {K : Type}

def Read.checksFor : Read K → Option Nat
  | .checkIfUserExists vc _ => some vc
  | _ => none

def Event.isSignup : Event K → Bool
  | .signupAction | .editSignup _ _ _ | .createAccountAction _ => true
  | _ => false

def SignupLabel : Label K → Prop
  | .event _ e => e.isSignup = true
  | _ => True

instance (l : Label K) : Decidable (SignupLabel l) :=
  match l with
  | .event _ e => inferInstanceAs (Decidable (e.isSignup = true))
  | .snapshot _ _ | .deliver _ _ _ | .apply _ => isTrue trivial

def SignupRead (d : Device K) : Read K → Prop
  | .checkIfUserExists vc _ | .addUserToFirebase vc _ _ => vc < d.signupVCs.length
  | _ => False

structure SignupsOnly (cl : Client K) : Prop where
  tabs : cl.locals.tabBarVCs = []
  reads : ∀ r ∈ cl.reads, SignupRead cl.locals r.read

theorem signupsOnly_start (store : FNode K) (c : Nat) :
    SignupsOnly ((World.start store).clients c) :=
  { tabs := rfl
    reads := fun r hr => by simp [World.start] at hr }

theorem SignupRead.mono {d d' : Device K} {q : Read K}
    (hd : d.signupVCs.length ≤ d'.signupVCs.length) (h : SignupRead d q) : SignupRead d' q := by
  cases q with
  | checkIfUserExists vc tap => exact Nat.lt_of_lt_of_le h hd
  | addUserToFirebase vc tap username => exact Nat.lt_of_lt_of_le h hd
  | loginIfValid username password => exact h
  | changeIfValidPassword tab vc old userID => exact h
  | map tab q => exact h

variable [Field K]

inductive SignupStep (w : World K) : Label K → World K → Prop
  | tapped {c : Nat} {e : Event K} {d : Device K} {reads : List (Pending (Read K) (FNode K))}
    (hd : (w.clients c).locals.signupVCs.length ≤ d.signupVCs.length)
    (hr : reads = [] ∨ ∃ vc tap, vc < d.signupVCs.length ∧
      reads = [⟨.checkIfUserExists vc tap,none⟩]) (ht : d.tabBarVCs = []) :
    SignupStep w (.event c e) (w.setClient c { w.clients c with
      locals := d, reads := (w.clients c).reads ++ reads })
  | checking {c i vc tap : Nat}
    (h : (w.clients c).reads[i]? = some ⟨.checkIfUserExists vc tap,none⟩) :
    SignupStep w (.snapshot c i) (w.setClient c { w.clients c with
      reads := (w.clients c).reads.set i
        ⟨.checkIfUserExists vc tap,some (w.store.getImmediateChild "users")⟩ })
  | counting {c i vc tap : Nat} {username : String}
    (h : (w.clients c).reads[i]? = some ⟨.addUserToFirebase vc tap username,none⟩) :
    SignupStep w (.snapshot c i) (w.setClient c { w.clients c with
      reads := (w.clients c).reads.set i
        ⟨.addUserToFirebase vc tap username,some (w.store.getImmediateChild "users")⟩ })
  | trapped {c i vc tap : Nat} {d : Draw K} {v : SignupVC} {snapshot : FNode K} {t : Trap}
    (h : (w.clients c).reads[i]? = some ⟨.checkIfUserExists vc tap,some snapshot⟩)
    (hv : (w.clients c).locals.signupVCs[vc]? = some v)
    (ht : SignupVC.checkIfUserExists v.usernameOutlet snapshot.children = .error t) :
    SignupStep w (.deliver c i d)
      (w.setClient c { w.clients c with reads := [], trap := some t })
  | found {c i vc tap : Nat} {d : Draw K} {snapshot : FNode K}
    (h : (w.clients c).reads[i]? = some ⟨.checkIfUserExists vc tap,some snapshot⟩) :
    SignupStep w (.deliver c i d)
      { w.setClient c { w.clients c with reads := (w.clients c).reads.eraseIdx i } with
        notes := w.notes ++ [(c,.userAlreadyExists tap)] }
  | approved {c i vc tap : Nat} {d : Draw K} {v : SignupVC} {snapshot : FNode K}
    (h : (w.clients c).reads[i]? = some ⟨.checkIfUserExists vc tap,some snapshot⟩)
    (hv : (w.clients c).locals.signupVCs[vc]? = some v)
    (hc : SignupVC.checkIfUserExists v.usernameOutlet snapshot.children = .ok false) :
    SignupStep w (.deliver c i d)
      { w.setClient c { w.clients c with
          reads := (w.clients c).reads.eraseIdx i ++
            [⟨.addUserToFirebase vc tap v.usernameOutlet,none⟩] } with
        notes := w.notes ++ [(c,.goToLogin tap v.usernameOutlet)] }
  | added {c i vc tap : Nat} {d : Draw K} {v : SignupVC} {username : String}
    {snapshot : FNode K}
    (h : (w.clients c).reads[i]? = some ⟨.addUserToFirebase vc tap username,some snapshot⟩)
    (hv : (w.clients c).locals.signupVCs[vc]? = some v) :
    SignupStep w (.deliver c i d)
      { w.setClient c { w.clients c with
          reads := (w.clients c).reads.eraseIdx i
          writes := (w.clients c).writes ++
            SignupVC.userWrites (stringOfInt snapshot.numChildren)
              (signedUp username v.passwordOutlet snapshot) } with
        notes := w.notes ++
          [(c,.addUserToFirebase tap (signedUp username v.passwordOutlet snapshot))] }
  | applied {c : Nat} {x : Write K} {xs : List (Write K)} (h : (w.clients c).writes = x :: xs) :
    SignupStep w (.apply c)
      { w.setClient c { w.clients c with writes := xs } with store := applyWrite x w.store }

variable [LinearOrder K] [FloorRing K]

theorem signupStep_of_event {p : Platform K} {c : Nat} {e : Event K} {w w' : World K}
    (hi : SignupsOnly (w.clients c)) (hl : e.isSignup = true)
    (h : step p (.event c e) w = some w') : SignupStep w (.event c e) w' := by
  obtain ⟨_,rfl⟩ := step_event h
  have htabs := hi.tabs
  cases e with
  | signupAction =>
    have hr : (program p).onEvent .signupAction (w.clients c).locals = .ok { locals := _ } := rfl
    rw [hr,react_silent]
    exact .tapped (by simp) (Or.inl rfl) htabs
  | editSignup vc username password =>
    have hr : (program p).onEvent (.editSignup vc username password) (w.clients c).locals =
      .ok { locals := _ } := rfl
    rw [hr,react_silent]
    exact .tapped (by simp) (Or.inl rfl) htabs
  | createAccountAction vc =>
    cases hv : (w.clients c).locals.signupVCs[vc]? with
    | some v =>
      have hlen := (List.getElem?_eq_some_iff.mp hv).1
      have hr : (program p).onEvent (.createAccountAction vc) (w.clients c).locals =
          .ok { locals := { (w.clients c).locals with taps := (w.clients c).locals.taps+1 }
                reads := [.checkIfUserExists vc (w.clients c).locals.taps] } := by
        simp [program,Device.onEvent,hv]
      rw [hr,react_silent]
      exact .tapped (le_refl _) (Or.inr ⟨vc,_,hlen,rfl⟩) htabs
    | none =>
      have hr : (program p).onEvent (.createAccountAction vc) (w.clients c).locals =
          .ok { locals := (w.clients c).locals } := by
        simp [program,Device.onEvent,hv,Device.idle]
      rw [hr,react_silent]
      exact .tapped (le_refl _) (Or.inl rfl) htabs
  | _ => contradiction

theorem signupStep_of_snapshot {p : Platform K} {c i : Nat} {w w' : World K}
    (hi : SignupsOnly (w.clients c)) (h : step p (.snapshot c i) w = some w') :
    SignupStep w (.snapshot c i) w' := by
  obtain ⟨q,hq,rfl⟩ := step_snapshot h
  have hread := hi.reads _ (List.mem_of_getElem? hq)
  cases q with
  | checkIfUserExists vc tap =>
    rw [view_users rfl]
    exact .checking hq
  | addUserToFirebase vc tap username =>
    rw [view_users rfl]
    exact .counting hq
  | _ => exact absurd hread id

theorem signupStep_of_deliver {p : Platform K} {c i : Nat} {d : Draw K} {w w' : World K}
    (hi : SignupsOnly (w.clients c)) (h : step p (.deliver c i d) w = some w') :
    SignupStep w (.deliver c i d) w' := by
  obtain ⟨q,snapshot,hq,rfl⟩ := step_deliver h
  have hread := hi.reads _ (List.mem_of_getElem? hq)
  cases q with
  | checkIfUserExists vc tap =>
    have hv : (w.clients c).locals.signupVCs[vc]? = some ((w.clients c).locals.signupVCs[vc]) :=
      List.getElem?_eq_getElem hread
    generalize (w.clients c).locals.signupVCs[vc] = v at hv
    cases hs : SignupVC.checkIfUserExists v.usernameOutlet snapshot.children with
    | error t =>
      have hr : (program p).onRead (.checkIfUserExists vc tap) snapshot d (w.clients c).locals =
          .error t := by
        simp [program,Device.onRead,hv,hs,bind,Except.bind]
      rw [hr,react_error]
      exact .trapped hq hv hs
    | ok userExists =>
      cases userExists with
      | true =>
        have hr : (program p).onRead (.checkIfUserExists vc tap) snapshot d (w.clients c).locals =
            .ok { locals := (w.clients c).locals, notes := [.userAlreadyExists tap] } := by
          simp [program,Device.onRead,hv,hs,bind,Except.bind]
        rw [hr,react_ok]
        simpa using SignupStep.found hq (d := d)
      | false =>
        have hr : (program p).onRead (.checkIfUserExists vc tap) snapshot d (w.clients c).locals =
            .ok { locals := (w.clients c).locals
                  reads := [.addUserToFirebase vc tap v.usernameOutlet]
                  notes := [.goToLogin tap v.usernameOutlet] } := by
          simp [program,Device.onRead,hv,hs,bind,Except.bind]
        rw [hr,react_ok]
        simpa using SignupStep.approved hq hv hs (d := d)
  | addUserToFirebase vc tap username =>
    have hv : (w.clients c).locals.signupVCs[vc]? = some ((w.clients c).locals.signupVCs[vc]) :=
      List.getElem?_eq_getElem hread
    generalize (w.clients c).locals.signupVCs[vc] = v at hv
    have hr : (program p).onRead (.addUserToFirebase vc tap username) snapshot d
        (w.clients c).locals =
          .ok { locals := (w.clients c).locals
                writes := SignupVC.userWrites (stringOfInt snapshot.numChildren)
                  (signedUp username v.passwordOutlet snapshot)
                notes := [.addUserToFirebase tap
                  (signedUp username v.passwordOutlet snapshot)] } := by
      simp [program,Device.onRead,hv,addUserToFirebase_eq,signedUp,bind,Except.bind]
    rw [hr,react_ok]
    simpa using SignupStep.added hq hv (d := d)
  | _ => exact absurd hread id

theorem signupStep_of_step {p : Platform K} {l : Label K} {w w' : World K}
    (hi : ∀ c, SignupsOnly (w.clients c)) (hl : SignupLabel l) (h : step p l w = some w') :
    SignupStep w l w' := by
  cases l with
  | event c e => exact signupStep_of_event (hi c) hl h
  | snapshot c i => exact signupStep_of_snapshot (hi c) h
  | deliver c i d => exact signupStep_of_deliver (hi c) h
  | apply c =>
    obtain ⟨x,xs,hx,rfl⟩ := step_apply h
    exact .applied hx

omit [LinearOrder K] [FloorRing K] in
theorem SignupStep.signupsOnly {l : Label K} {w w' : World K} (h : SignupStep w l w')
    (hi : ∀ c, SignupsOnly (w.clients c)) : ∀ c, SignupsOnly (w'.clients c) := by
  cases h with
  | @tapped c e d reads hd hr ht =>
    refine forall_clients_update ⟨ht,fun r hmem => ?_⟩ (fun c' _ => hi c')
    rcases List.mem_append.mp hmem with hold | hnew
    · exact ((hi c).reads r hold).mono hd
    · rcases hr with rfl | ⟨vc,tap,hvc,rfl⟩
      · contradiction
      · rw [List.mem_singleton.mp hnew]
        exact hvc
  | @checking c i vc tap h =>
    refine forall_clients_update ⟨(hi c).tabs,fun r hmem => ?_⟩ (fun c' _ => hi c')
    rcases List.mem_or_eq_of_mem_set hmem with hold | rfl
    · exact (hi c).reads r hold
    · have hread := (hi c).reads _ (List.mem_of_getElem? h)
      exact hread
  | @counting c i vc tap username h =>
    refine forall_clients_update ⟨(hi c).tabs,fun r hmem => ?_⟩ (fun c' _ => hi c')
    rcases List.mem_or_eq_of_mem_set hmem with hold | rfl
    · exact (hi c).reads r hold
    · have hread := (hi c).reads _ (List.mem_of_getElem? h)
      exact hread
  | @trapped c i vc tap d v snapshot t h hv ht =>
    exact forall_clients_update ⟨(hi c).tabs,by simp⟩ (fun c' _ => hi c')
  | @found c i vc tap d snapshot h =>
    exact forall_clients_update
      ⟨(hi c).tabs,fun r hmem => (hi c).reads r (List.mem_of_mem_eraseIdx hmem)⟩
      (fun c' _ => hi c')
  | @approved c i vc tap d v snapshot h hv hc =>
    refine forall_clients_update ⟨(hi c).tabs,fun r hmem => ?_⟩ (fun c' _ => hi c')
    rcases List.mem_append.mp hmem with hold | hnew
    · exact (hi c).reads r (List.mem_of_mem_eraseIdx hold)
    · have hread := (hi c).reads _ (List.mem_of_getElem? h)
      rw [List.mem_singleton.mp hnew]
      exact hread
  | @added c i vc tap d v username snapshot h hv =>
    exact forall_clients_update
      ⟨(hi c).tabs,fun r hmem => (hi c).reads r (List.mem_of_mem_eraseIdx hmem)⟩
      (fun c' _ => hi c')
  | @applied c x xs h =>
    exact forall_clients_update ⟨(hi c).tabs,(hi c).reads⟩ (fun c' _ => hi c')

end

/-- Bob is told that his name is free before ann's account is stored. -/
def signupsInTurn : List (Label ℚ) :=
  tapCreateAccount 0 0 "ann" "pw" ++ tapCreateAccount 1 0 "bob" "pw" ++
    answer 0 sampleDraw ++ answer 0 sampleDraw ++
    [.snapshot 1 0,.apply 0,.deliver 1 0 sampleDraw,.apply 0,.snapshot 1 0,.apply 0,
     .deliver 1 0 sampleDraw,.apply 1,.apply 0,.apply 1,.apply 0,.apply 1,.apply 0] ++ applyAll 1 3

end GFLGO
