import GFLGO.Records
import GFLGO.Signups

/-! Usernames under simultaneous signups: check, then act. -/

set_option autoImplicit false

namespace GFLGO

open Runs Async

section
variable {K : Type}

def HasUsername (k username : String) (store : FNode K) : Prop :=
  (record "users" k store).getImmediateChild "username" = .leaf (.string username)

def isString (s : String) : FNode K → Bool
  | .leaf (.string u) => u = s
  | _ => false

theorem isString_iff {s : String} {t : FNode K} : isString s t = true ↔ t = .leaf (.string s) := by
  unfold isString
  split
  · simp
  · next ht =>
    constructor
    · intro h
      contradiction
    · intro h
      exact absurd h (ht s)

instance (k username : String) (store : FNode K) : Decidable (HasUsername k username store) :=
  decidable_of_iff _ isString_iff

/-- No two distinct children of /users have the same username. -/
def UsernamesUnique (store : FNode K) : Prop :=
  ∀ k k' username, HasUsername k username store → HasUsername k' username store → k = k'

def asksFor (username : String) (r : Pending (Read K) (FNode K)) : Bool :=
  match r.read with
  | .addUserToFirebase _ _ u => u = username
  | _ => false

def storesName (username : String) (x : Write K) : Bool :=
  match x.path, x.node with
  | ["users",_,"username"], .leaf (.string u) => u = username
  | _, _ => false

/-- Signups of the client that carry the name: approved, and not yet stored. -/
def carries (username : String) (cl : Client K) : Nat :=
  cl.reads.countP (asksFor username) + cl.writes.countP (storesName username)

def NameFree (username : String) (w : World K) : Prop :=
  (∀ k, ¬ HasUsername k username w.store) ∧ ∀ c, carries username (w.clients c) = 0

/-- A signup is approved while its name is still neither stored nor carried by another one. -/
def ApprovedWhileFree : Label K → World K → Prop
  | .deliver c i _, w => ∀ vc tap snapshot v,
    (w.clients c).reads[i]? = some ⟨.checkIfUserExists vc tap,some snapshot⟩ →
      (w.clients c).locals.signupVCs[vc]? = some v →
      SignupVC.checkIfUserExists v.usernameOutlet snapshot.children = .ok false →
      NameFree v.usernameOutlet w
  | _, _ => True

/-- The writes of a signup, by what they do to the username. -/
inductive SignupWrite : Write K → Prop
  | node {k : String} {v : Value K} : SignupWrite (setValue ["users",k] v)
  | username {k u : String} : SignupWrite (setValue ["users",k,"username"] (.string u))
  | field {k f : String} {v : Value K} (hf : f ≠ "username") :
    SignupWrite (setValue ["users",k,f] v)

structure Reserved (w : World K) : Prop where
  stored : UsernamesUnique w.store
  carried : ∀ username, AtMostOne (carries username) w.clients
  free : ∀ username c, 0 < carries username (w.clients c) → ∀ k, ¬ HasUsername k username w.store
  writes : ∀ c, ∀ x ∈ (w.clients c).writes, SignupWrite x

theorem signupWrite_userWrites (key : String) {user : User K} {pw : String}
    (hp : user.password = some pw) : ∀ x ∈ SignupVC.userWrites key user, SignupWrite x := by
  rw [SignupVC.userWrites,hp]
  simp only [List.forall_mem_cons,List.not_mem_nil,false_implies,implies_true,and_true]
  exact ⟨.node,.username,.field (by decide),.field (by decide),.field (by decide),
    .field (by decide)⟩

theorem countP_storesName_userWrites (key username : String) {user : User K} {pw : String}
    (hp : user.password = some pw) :
    (SignupVC.userWrites key user).countP (storesName username) =
      (decide (user.username = username)).toNat := by
  rw [SignupVC.userWrites,hp]
  by_cases hu : user.username = username <;> simp [storesName,setValue,setOptional,hu]

theorem storesName_field {k f u : String} {v : Value K} (hf : f ≠ "username") :
    storesName u (setValue ["users",k,f] v) = false := by
  unfold storesName
  split
  · next hp _ =>
    simp only [setValue,List.cons.injEq] at hp
    exact absurd hp.2.2.1 hf
  · rfl

theorem SignupWrite.addressed {x : Write K} (h : SignupWrite x) : x.Addressed := by
  cases h <;> exact ⟨_,_,_,rfl⟩

theorem SignupWrite.hasUsername {x : Write K} (h : SignupWrite x)
    (hs : ∀ u, storesName u x = false) {k username : String} {store : FNode K}
    (hk : HasUsername k username (applyWrite x store)) : HasUsername k username store := by
  unfold HasUsername at hk ⊢
  cases hb : x.isBelow "users" k with
  | false => rwa [record_applyWrite_of_ne h.addressed hb] at hk
  | true =>
    rw [record_applyWrite hb] at hk
    cases h with
    | node => simp [Write.inRecord,setValue] at hk
    | @username _ u => simp [storesName,setValue] at hs
    | field hf =>
      simpa [Write.inRecord,setValue,PathTree.updateChild_cons,
        PathTree.getImmediateChild_updateImmediateChild,Ne.symm hf] using hk

theorem hasUsername_apply_username {k u k' username : String} {store : FNode K}
    (h : HasUsername k' username (applyWrite (setValue ["users",k,"username"] (.string u)) store)) :
    (k' = k ∧ username = u) ∨ (k' ≠ k ∧ HasUsername k' username store) := by
  unfold HasUsername at h ⊢
  by_cases hk : k' = k
  · subst hk
    rw [record_applyWrite (by simp [Write.isBelow,setValue])] at h
    simp only [Write.inRecord,setValue,List.drop_succ_cons,List.drop_zero,
      PathTree.updateChild_cons,PathTree.updateChild_nil,
      PathTree.getImmediateChild_updateImmediateChild_self,PathTree.leaf.injEq,
      Value.string.injEq] at h
    exact Or.inl ⟨rfl,h.symm⟩
  · rw [record_applyWrite_of_ne ⟨_,_,_,rfl⟩ (by simpa [Write.isBelow,setValue] using Ne.symm hk)]
      at h
    exact Or.inr ⟨hk,h⟩

theorem Reserved.update {w : World K} {c : Nat} {cl : Client K} {notes : List (Nat × Note K)}
    (h : Reserved w) (hc : ∀ username, carries username cl ≤ carries username (w.clients c))
    (hw : ∀ x ∈ cl.writes, SignupWrite x) :
    Reserved { w.setClient c cl with notes := notes } := by
  refine ⟨h.stored,fun username => (h.carried username).update (hc username),?_,?_⟩
  · intro username c' hpos
    by_cases he : c' = c
    · subst he
      simp only [setClient_clients_self] at hpos
      have := hc username
      exact h.free username c' (by omega)
    · simp only [setClient_clients_ne w c cl he] at hpos
      exact h.free username c' hpos
  · exact forall_clients_update (R := fun _ cl => ∀ x ∈ cl.writes, SignupWrite x) hw
      (fun c' _ => h.writes c')

/-- An approved signup is the only one with its name. -/
theorem Reserved.approve {w : World K} {c : Nat} {cl : Client K} {notes : List (Nat × Note K)}
    {name : String} (h : Reserved w) (hfree : NameFree name w)
    (hc : ∀ username, carries username cl =
      carries username (w.clients c) + (decide (name = username)).toNat)
    (hw : cl.writes = (w.clients c).writes) :
    Reserved { w.setClient c cl with notes := notes } := by
  have hcarries (username : String) :
      AtMostOne (carries username) (Function.update w.clients c cl) := by
    have hcl := hc username
    by_cases hn : name = username
    · subst hn
      have := hfree.2 c
      simp only [decide_true,Bool.toNat_true] at hcl
      exact .of_others (fun c' _ => hfree.2 c') (by omega)
    · simp only [hn,decide_false,Bool.toNat_false] at hcl
      exact (h.carried username).update (by omega)
  refine ⟨h.stored,hcarries,?_,?_⟩
  · intro username c' hpos
    by_cases hn : name = username
    · exact hn ▸ hfree.1
    · by_cases he : c' = c
      · subst he
        have hcl := hc username
        simp only [hn,decide_false,Bool.toNat_false] at hcl
        simp only [setClient_clients_self] at hpos
        exact h.free username c' (by omega)
      · simp only [setClient_clients_ne w c cl he] at hpos
        exact h.free username c' hpos
  · exact forall_clients_update (R := fun _ cl => ∀ x ∈ cl.writes, SignupWrite x)
      (hw ▸ h.writes c) (fun c' _ => h.writes c')

theorem Reserved.applyWrite {w : World K} {c : Nat} {x : Write K} {xs : List (Write K)}
    (h : Reserved w) (hx : (w.clients c).writes = x :: xs) :
    Reserved { w.setClient c { w.clients c with writes := xs } with
      store := GFLGO.applyWrite x w.store } := by
  have hwrite : SignupWrite x := h.writes c x (by simp [hx])
  have hxs : ∀ y ∈ xs, SignupWrite y := fun y hy => h.writes c y (by simp [hx,hy])
  have hcarries (username : String) : carries username (w.clients c) =
      carries username { w.clients c with writes := xs } + (storesName username x).toNat := by
    simp only [carries,hx,List.countP_cons]
    cases storesName username x <;> simp [Nat.add_assoc]
  have hcarried (username : String) :
      AtMostOne (carries username)
        (Function.update w.clients c { w.clients c with writes := xs }) :=
    (h.carried username).update (by have := hcarries username; omega)
  have hbefore (username : String) (c' : Nat)
      (hpos : 0 < carries username
        ((w.setClient c { w.clients c with writes := xs }).clients c')) :
      0 < carries username (w.clients c') ∧ storesName username x = false := by
    by_cases he : c' = c
    · subst he
      have hone := (h.carried username).one c'
      have hc := hcarries username
      simp only [setClient_clients_self] at hpos hc
      cases hs : storesName username x with
      | true =>
        simp only [hs,Bool.toNat_true] at hc
        omega
      | false =>
        exact ⟨by omega,rfl⟩
    · simp only [setClient_clients_ne w c _ he] at hpos
      refine ⟨hpos,?_⟩
      cases hs : storesName username x with
      | true =>
        have hc := hcarries username
        simp only [hs,Bool.toNat_true] at hc
        exact absurd ((h.carried username).only c' c hpos (by omega)) he
      | false => rfl
  refine ⟨?_,hcarried,?_,?_⟩
  · cases hwrite with
    | @username k u =>
      have hpos : 0 < carries u (w.clients c) := by
        have hc := hcarries u
        simp only [storesName,setValue,decide_true,Bool.toNat_true] at hc
        omega
      have hfree := h.free u c hpos
      intro k₁ k₂ username h₁ h₂
      rcases hasUsername_apply_username h₁ with ⟨hk₁,hu₁⟩ | ⟨_,hold₁⟩ <;>
        rcases hasUsername_apply_username h₂ with ⟨hk₂,hu₂⟩ | ⟨_,hold₂⟩
      · rw [hk₁,hk₂]
      · exact absurd (hu₁ ▸ hold₂) (hfree k₂)
      · exact absurd (hu₂ ▸ hold₁) (hfree k₁)
      · exact h.stored k₁ k₂ username hold₁ hold₂
    | node =>
      intro k₁ k₂ username h₁ h₂
      exact h.stored k₁ k₂ username (SignupWrite.node.hasUsername (fun _ => rfl) h₁)
        (SignupWrite.node.hasUsername (fun _ => rfl) h₂)
    | @field k f v hf =>
      intro k₁ k₂ username h₁ h₂
      exact h.stored k₁ k₂ username
        ((SignupWrite.field hf).hasUsername (fun _ => storesName_field hf) h₁)
        ((SignupWrite.field hf).hasUsername (fun _ => storesName_field hf) h₂)
  · intro username c' hpos k hk
    obtain ⟨hold,hs⟩ := hbefore username c' hpos
    refine h.free username c' hold k ?_
    cases hwrite with
    | @username j u =>
      have hne : u ≠ username := by simpa [storesName,setValue] using hs
      rcases hasUsername_apply_username hk with ⟨_,rfl⟩ | ⟨_,hk⟩
      · exact absurd rfl hne
      · exact hk
    | node => exact SignupWrite.node.hasUsername (fun _ => rfl) hk
    | field hf => exact (SignupWrite.field hf).hasUsername (fun _ => storesName_field hf) hk
  · exact forall_clients_update (R := fun _ cl => ∀ x ∈ cl.writes, SignupWrite x) hxs
      (fun c' _ => h.writes c')

theorem Reserved.step [Field K] {l : Label K} {w w' : World K} (h : Reserved w)
    (hc : ApprovedWhileFree l w) (hs : SignupStep w l w') : Reserved w' := by
  cases hs with
  | @tapped c e d reads hd hr ht =>
    refine h.update (fun username => ?_) (h.writes c)
    rcases hr with rfl | ⟨vc,tap,_,rfl⟩ <;> simp [carries,asksFor,List.countP_append]
  | @checking c i vc tap hr =>
    refine h.update (fun username => ?_) (h.writes c)
    have := countP_set (asksFor username) hr
      (b := ⟨.checkIfUserExists vc tap,some (w.store.getImmediateChild "users")⟩)
    simp only [asksFor,Bool.toNat_false] at this
    simp only [carries]
    omega
  | @counting c i vc tap name hr =>
    refine h.update (fun username => ?_) (h.writes c)
    have := countP_set (asksFor username) hr
      (b := ⟨.addUserToFirebase vc tap name,some (w.store.getImmediateChild "users")⟩)
    simp only [asksFor] at this
    simp only [carries]
    omega
  | @trapped c i vc tap d v snapshot t hr hv ht =>
    refine h.update (fun username => ?_) (h.writes c)
    simp only [carries,List.countP_nil]
    omega
  | @found c i vc tap d snapshot hr =>
    refine h.update (fun username => ?_) (h.writes c)
    have := countP_eraseIdx (asksFor username) hr
    simp only [carries]
    omega
  | @approved c i vc tap d v snapshot hr hv hs =>
    refine h.approve (hc vc tap snapshot v hr hv hs) (fun username => ?_) rfl
    have := countP_eraseIdx (asksFor username) hr
    simp only [asksFor,Bool.toNat_false] at this
    have hnew : [(⟨.addUserToFirebase vc tap v.usernameOutlet,none⟩ :
        Pending (Read K) (FNode K))].countP (asksFor username) =
          (decide (v.usernameOutlet = username)).toNat := by
      by_cases hu : v.usernameOutlet = username <;> simp [asksFor,hu]
    simp only [carries,List.countP_append]
    omega
  | @added c i vc tap d v name snapshot hr hv =>
    refine h.update (fun username => ?_) ?_
    · have := countP_eraseIdx (asksFor username) hr
      simp only [asksFor] at this
      have hstores : (SignupVC.userWrites (stringOfInt snapshot.numChildren)
          (signedUp name v.passwordOutlet snapshot)).countP (storesName username) =
            (decide (name = username)).toNat :=
        countP_storesName_userWrites _ _ rfl
      simp only [carries,List.countP_append]
      omega
    · intro x hx
      rcases List.mem_append.mp hx with hold | hnew
      · exact h.writes c x hold
      · exact signupWrite_userWrites _ rfl x hnew
  | @applied c x xs hx => exact h.applyWrite hx

theorem reserved_start {store : FNode K} (h : UsernamesUnique store) :
    Reserved (World.start store) :=
  { stored := h
    carried := fun username =>
      ⟨fun c => by simp [World.start,carries],fun c c' hc => by simp [World.start,carries] at hc⟩
    free := fun username c hc => by simp [World.start,carries] at hc
    writes := fun c x hx => by simp [World.start] at hx }

variable [Field K] [LinearOrder K] [FloorRing K]

/-- If every signup is approved while its name is free, the usernames are
unique in every state that is reached. -/
theorem usernamesUnique_of_approvedWhileFree (p : Platform K) (store : FNode K)
    (hs : UsernamesUnique store) (ls : List (Label K)) (hl : ∀ l ∈ ls, SignupLabel l)
    (hc : Along (step p) ApprovedWhileFree ls (World.start store)) (w : World K)
    (hr : run (step p) ls (World.start store) = some w) : UsernamesUnique w.store := by
  have hlabels := along_of_forall_mem (step p) hl (World.start store)
  have hstep (l : Label K) (u u' : World K)
      (hu : (∀ c, SignupsOnly (u.clients c)) ∧ Reserved u)
      (hcond : SignupLabel l ∧ ApprovedWhileFree l u) (h : step p l u = some u') :
      (∀ c, SignupsOnly (u'.clients c)) ∧ Reserved u' := by
    have hs := signupStep_of_step hu.1 hcond.1 h
    exact ⟨hs.signupsOnly hu.1,hu.2.step hcond.2 hs⟩
  exact (run_invariant (step p) hstep ⟨signupsOnly_start store,reserved_start hs⟩
    (hlabels.and (step p) hc) hr).2.stored

end

theorem usernamesUnique_empty : UsernamesUnique (.empty : FNode ℚ) := by
  intro k k' username h
  simp [HasUsername,record] at h

section
variable {K : Type}

theorem mem_childKeys_of_hasUsername {k username : String} {store : FNode K}
    (h : HasUsername k username store) : k ∈ (store.getImmediateChild "users").childKeys := by
  by_contra hk
  rw [HasUsername,record_eq,PathTree.getImmediateChild_of_not_mem hk] at h
  simp at h

def ApprovedWhileFreeAmong (A : List Nat) : Label K → World K → Prop
  | .deliver c i _, w => ∀ rd ∈ (w.clients c).reads[i]?, ∀ vc ∈ rd.read.checksFor,
    ∀ snapshot ∈ rd.snapshot, ∀ v ∈ (w.clients c).locals.signupVCs[vc]?,
      (SignupVC.checkIfUserExists v.usernameOutlet snapshot.children).toOption = some false →
        (∀ k ∈ (w.store.getImmediateChild "users").childKeys,
          ¬ HasUsername k v.usernameOutlet w.store) ∧
        ∀ c' ∈ A, carries v.usernameOutlet (w.clients c') = 0
  | _, _ => True

instance (A : List Nat) (l : Label K) (w : World K) :
    Decidable (ApprovedWhileFreeAmong A l w) :=
  match l with
  | .deliver c i _ => inferInstanceAs (Decidable (∀ rd ∈ (w.clients c).reads[i]?, _))
  | .event _ _ | .snapshot _ _ | .apply _ => isTrue trivial

theorem approvedWhileFree_of_among {A : List Nat} {store : FNode K} {l : Label K} {w : World K}
    (hw : ∀ c, c ∉ A → w.clients c = (World.start store).clients c)
    (h : ApprovedWhileFreeAmong A l w) : ApprovedWhileFree l w := by
  cases l with
  | deliver c i d =>
    intro vc tap snapshot v hr hv hs
    obtain ⟨hstored,hcarried⟩ := h _ hr vc rfl snapshot rfl v hv (by rw [hs]; rfl)
    refine ⟨fun k hk => hstored k (mem_childKeys_of_hasUsername hk) hk,?_⟩
    exact forall_clients_of_mem (R := fun cl => carries v.usernameOutlet cl = 0) hw (fun _ => rfl)
      hcarried
  | event c e => trivial
  | snapshot c i => trivial
  | apply c => trivial

end

def thirdTurnedDown : List (Label ℚ) :=
  signupsInTurn ++ tapCreateAccount 2 0 "ann" "pw" ++ answer 2 sampleDraw

theorem usernamesUnique_thirdTurnedDown : ∃ w,
    run (step planePlatform) thirdTurnedDown (World.start .empty) = some w ∧
      (w.store.getImmediateChild "users").childKeys = ["0","1"] ∧ UsernamesUnique w.store := by
  have hrun : (run (step planePlatform) thirdTurnedDown (World.start .empty)).map
      (fun w => (w.store.getImmediateChild "users").childKeys) = some ["0","1"] := by
    decide +kernel
  obtain ⟨w,hw,he⟩ := Option.map_eq_some_iff.mp hrun
  have hfree : Along (step planePlatform) (ApprovedWhileFreeAmong [0,1,2]) thirdTurnedDown
      (World.start .empty) := by
    decide +kernel
  exact ⟨w,hw,he,usernamesUnique_of_approvedWhileFree planePlatform .empty usernamesUnique_empty
    _ (by decide) (along_of_clients (A := [0,1,2]) (by decide)
      (fun _ _ hu hl => approvedWhileFree_of_among hu hl) hfree) w hw⟩

/-- Two taps on one device, both checked before the first account is stored. -/
def twoTaps : List (Label ℚ) :=
  tapCreateAccount 0 0 "ann" "pw" ++ [.event 0 (.createAccountAction 0)] ++
    [.snapshot 0 0,.snapshot 0 1,.deliver 0 0 sampleDraw,.deliver 0 0 sampleDraw] ++
    answer 0 sampleDraw ++ applyAll 0 6 ++ answer 0 sampleDraw ++ applyAll 0 6

/-- The accounts 0 and 1 get the same name. -/
theorem not_usernamesUnique : ¬ ∀ (ls : List (Label ℚ)) (w : World ℚ),
    (∀ l ∈ ls, SignupLabel l) → run (step planePlatform) ls (World.start .empty) = some w →
      UsernamesUnique w.store := by
  intro h
  have hrun : (run (step planePlatform) twoTaps (World.start .empty)).map (fun w =>
      (decide (HasUsername "0" "ann" w.store),decide (HasUsername "1" "ann" w.store))) =
      some (true,true) := by
    decide +kernel
  obtain ⟨w,hw,he⟩ := Option.map_eq_some_iff.mp hrun
  simp only [Prod.mk.injEq,decide_eq_true_eq] at he
  have hkeys : "0" = "1" := h twoTaps w (by decide) hw "0" "1" "ann" he.1 he.2
  exact absurd hkeys (by decide)

end GFLGO
