import GFLGO.Records
import GFLGO.Signups

/-! Accounts under simultaneous signups: when no account is lost or merged. -/

set_option autoImplicit false

namespace GFLGO

open Runs Async

section
variable {K : Type}

/-- Every signup that reported success owns a key of its own, and the record
there is the one it wrote. -/
structure AccountsKept (w : World K) : Prop where
  recorded : ∀ c tap username, (c,.goToLogin tap username) ∈ w.notes →
    ∃ user, (c,.addUserToFirebase tap user) ∈ w.notes ∧ user.username = username ∧
      IsRecord user (w.store.getChild ["users",stringOfInt user.userID])
  distinct : ∀ c tap user c' tap' user', (c,.addUserToFirebase tap user) ∈ w.notes →
    (c',.addUserToFirebase tap' user') ∈ w.notes → (c,tap) ≠ (c',tap') →
    user.userID ≠ user'.userID

def isCounted (r : Pending (Read K) (FNode K)) : Bool :=
  match r with
  | ⟨.addUserToFirebase _ _ _,some _⟩ => true
  | _ => false

def isNodeWrite (x : Write K) : Bool :=
  match x.path with
  | ["users",_] => true
  | _ => false

/-- Signups of the client that have read their count and not yet stored their node. -/
def windows (cl : Client K) : Nat := cl.reads.countP isCounted + cl.writes.countP isNodeWrite

/-- A signup reads its count when no other one is between its count and its
node, and no scan crashes a client that still has to store an account it reported. -/
def CountsAlone : Label K → World K → Prop
  | .snapshot c i, w => ∀ vc tap username,
    (w.clients c).reads[i]? = some ⟨.addUserToFirebase vc tap username,none⟩ →
      ∀ c', windows (w.clients c') = 0
  | .deliver c i _, w => ∀ vc tap snapshot v t,
    (w.clients c).reads[i]? = some ⟨.checkIfUserExists vc tap,some snapshot⟩ →
      (w.clients c).locals.signupVCs[vc]? = some v →
      SignupVC.checkIfUserExists v.usernameOutlet snapshot.children = .error t →
      ∀ vc tap username s, ⟨.addUserToFirebase vc tap username,s⟩ ∉ (w.clients c).reads
  | _, _ => True

abbrev OneWindow (clients : Nat → Client K) : Prop := AtMostOne windows clients

structure Allocated (n : Nat) (w : World K) : Prop where
  counted : ∀ c vc tap username snapshot,
    ⟨.addUserToFirebase vc tap username,some snapshot⟩ ∈ (w.clients c).reads →
      snapshot.numChildren = n
  node : ∀ c x, x ∈ (w.clients c).writes → isNodeWrite x = true →
    x.isBelow "users" (stringOfInt n) = true
  ids : ∀ c tap user, (c,.addUserToFirebase tap user) ∈ w.notes →
    ∃ k : Nat, user.userID = (k : Int) ∧
      (k < n ∨ k = n ∧ 0 < (w.clients c).writes.countP isNodeWrite)
  unique : ∀ c tap user c' tap' user', (c,.addUserToFirebase tap user) ∈ w.notes →
    (c',.addUserToFirebase tap' user') ∈ w.notes → user.userID = user'.userID →
    (c,tap) = (c',tap')
  settles : ∀ c tap user, (c,.addUserToFirebase tap user) ∈ w.notes →
    IsRecord user (settle "users" (stringOfInt user.userID) (w.clients c).writes
      (record "users" (stringOfInt user.userID) w.store))
  owned : ∀ c tap user, (c,.addUserToFirebase tap user) ∈ w.notes →
    ∀ c', c' ≠ c → ∀ x ∈ (w.clients c').writes,
      x.isBelow "users" (stringOfInt user.userID) = false
  reported : ∀ c tap username, (c,.goToLogin tap username) ∈ w.notes →
    (∃ user, (c,.addUserToFirebase tap user) ∈ w.notes ∧ user.username = username) ∨
      ∃ vc s, ⟨.addUserToFirebase vc tap username,s⟩ ∈ (w.clients c).reads

theorem Allocated.kept {n : Nat} {w : World K} (h : Allocated n w) (hq : w.Quiet) :
    AccountsKept w := by
  constructor
  · intro c tap username hn
    rcases h.reported c tap username hn with ⟨user,hu,hname⟩ | ⟨vc,s,hr⟩
    · have hset := h.settles c tap user hu
      rw [(hq c).2] at hset
      exact ⟨user,hu,hname,hset⟩
    · rw [(hq c).1] at hr
      contradiction
  · intro c tap user c' tap' user' hu hu' hne he
    exact hne (h.unique c tap user c' tap' user' hu hu' he)

theorem KeysOk.not_below {n m k : Nat} {ws : List (Write K)} (h : KeysOk n m ws)
    (hn : ws.countP isNodeWrite = 0) (hk : m ≤ k) :
    ∀ x ∈ ws, x.isBelow "users" (stringOfInt k) = false := by
  induction h with
  | nil => simp
  | record _ _ ih => simp [isNodeWrite,setValue] at hn
  | @field m j f v ws hj _ ih =>
    rw [List.countP_cons] at hn
    intro x hx
    rcases List.mem_cons.mp hx with rfl | hrest
    · have hne : stringOfInt j ≠ stringOfInt k := fun he => by
        have := stringOfInt_injective he
        omega
      simpa [Write.isBelow,setValue] using hne
    · exact ih (by omega) hk x hrest
  | @enemy m key rest node ws _ ih =>
    rw [List.countP_cons] at hn
    intro x hx
    rcases List.mem_cons.mp hx with rfl | hrest
    · simp [Write.isBelow]
    · exact ih (by omega) hk x hrest

theorem InitialSegment.unique {n m : Nat} {users : FNode K} (h : InitialSegment n users)
    (h' : InitialSegment m users) : n = m :=
  h.numChildren_eq.symm.trans h'.numChildren_eq

theorem Allocated.setReads {n : Nat} {w : World K} (h : Allocated n w) (c : Nat) (cl : Client K)
    (notes : List (Nat × Note K)) (hw : cl.writes = (w.clients c).writes)
    (hcounted : ∀ vc tap username snapshot,
      ⟨.addUserToFirebase vc tap username,some snapshot⟩ ∈ cl.reads → snapshot.numChildren = n)
    (hkeep : ∀ vc tap username s, ⟨.addUserToFirebase vc tap username,s⟩ ∈ (w.clients c).reads →
      ∃ s', ⟨.addUserToFirebase vc tap username,s'⟩ ∈ cl.reads)
    (hadd : ∀ c' tap user, (c',.addUserToFirebase tap user) ∈ w.notes ++ notes →
      (c',.addUserToFirebase tap user) ∈ w.notes)
    (hgo : ∀ c' tap username, (c',.goToLogin tap username) ∈ notes →
      c' = c ∧ ∃ vc s, ⟨.addUserToFirebase vc tap username,s⟩ ∈ cl.reads) :
    Allocated n { w.setClient c cl with notes := w.notes ++ notes } := by
  have hwrites (c' : Nat) : ((w.setClient c cl).clients c').writes = (w.clients c').writes :=
    clients_update_congr Client.writes hw c'
  constructor
  · intro c' vc tap username snapshot hr
    by_cases he : c' = c
    · subst he
      simp only [setClient_clients_self] at hr
      exact hcounted vc tap username snapshot hr
    · simp only [setClient_clients_ne w c cl he] at hr
      exact h.counted c' vc tap username snapshot hr
  · intro c' x hx
    simp only [hwrites c'] at hx
    exact h.node c' x hx
  · intro c' tap user hn
    simp only [hwrites c']
    exact h.ids c' tap user (hadd c' tap user hn)
  · intro c₁ tap₁ user₁ c₂ tap₂ user₂ h₁ h₂
    exact h.unique _ _ _ _ _ _ (hadd _ _ _ h₁) (hadd _ _ _ h₂)
  · intro c' tap user hn
    simp only [hwrites c']
    exact h.settles c' tap user (hadd c' tap user hn)
  · intro c' tap user hn c'' hne
    simp only [hwrites c'']
    exact h.owned c' tap user (hadd c' tap user hn) c'' hne
  · intro c' tap username hn
    rcases List.mem_append.mp hn with hold | hnew
    · rcases h.reported c' tap username hold with ⟨user,hu,hname⟩ | ⟨vc,s,hr⟩
      · exact Or.inl ⟨user,List.mem_append_left _ hu,hname⟩
      · right
        by_cases he : c' = c
        · subst he
          obtain ⟨s',hs⟩ := hkeep vc tap username s hr
          exact ⟨vc,s',by simpa using hs⟩
        · simp only [setClient_clients_ne w c cl he]
          exact ⟨vc,s,hr⟩
    · obtain ⟨rfl,vc,s,hr⟩ := hgo c' tap username hnew
      exact Or.inr ⟨vc,s,by simpa using hr⟩

theorem countP_isNodeWrite_userWrites (key : String) (user : User K) :
    (SignupVC.userWrites key user).countP isNodeWrite = 1 := by
  unfold SignupVC.userWrites
  cases user.password <;> rfl

theorem no_node_of_counted {clients : Nat → Client K} (ho : OneWindow clients) {c i vc tap : Nat}
    {username : String} {snapshot : FNode K}
    (hr : (clients c).reads[i]? = some ⟨.addUserToFirebase vc tap username,some snapshot⟩)
    (c' : Nat) : (clients c').writes.countP isNodeWrite = 0 := by
  have hone := ho.one c
  have hcount := countP_eraseIdx isCounted hr
  simp only [isCounted,Bool.toNat_true] at hcount
  simp only [windows] at hone
  by_cases he : c' = c
  · subst he
    omega
  · by_contra hpos
    exact he (ho.only c' c (by simp only [windows]; omega) (by simp only [windows]; omega))

theorem stringOfInt_ne {j k : Nat} (h : j ≠ k) : stringOfInt j ≠ stringOfInt k := fun he => by
  have := stringOfInt_injective he
  omega

theorem Allocated.key_lt {n : Nat} {w : World K} {c i vc tap : Nat} {username : String}
    {snapshot : FNode K} (h : Allocated n w) (ho : OneWindow w.clients)
    (hr : (w.clients c).reads[i]? = some ⟨.addUserToFirebase vc tap username,some snapshot⟩)
    {c' tap' : Nat} {user : User K} (hn : (c',.addUserToFirebase tap' user) ∈ w.notes) :
    ∃ k < n, user.userID = (k : Nat) := by
  obtain ⟨k,hu,hlt | ⟨_,hpos⟩⟩ := h.ids c' tap' user hn
  · exact ⟨k,hlt,hu⟩
  · have := no_node_of_counted ho hr c'
    omega

theorem userWrites_not_below [Field K] {n k : Nat} (hk : k < n) (user : User K) :
    ∀ x ∈ SignupVC.userWrites (stringOfInt n) user, x.isBelow "users" (stringOfInt k) = false := by
  intro x hx
  exact isBelow_of_ne (userWrites_below user _ x hx) (stringOfInt_ne (by omega))

theorem Allocated.addUser [Field K] {n : Nat} {w : World K} {c i vc tap : Nat} {v : SignupVC}
    {username : String} {snapshot : FNode K} (h : Allocated n w) (hk : KeysInv n w)
    (ho : OneWindow w.clients)
    (hr : (w.clients c).reads[i]? = some ⟨.addUserToFirebase vc tap username,some snapshot⟩) :
    Allocated n
      { w.setClient c { w.clients c with
          reads := (w.clients c).reads.eraseIdx i
          writes := (w.clients c).writes ++
            SignupVC.userWrites (stringOfInt snapshot.numChildren)
              (signedUp username v.passwordOutlet snapshot) } with
        notes := w.notes ++
          [(c,.addUserToFirebase tap (signedUp username v.passwordOutlet snapshot))] } := by
  have hcount := h.counted c vc tap username snapshot (List.mem_of_getElem? hr)
  have hnone := no_node_of_counted ho hr
  subst hcount
  have hids {c' tap' : Nat} {user : User K}
      (hn : (c',.addUserToFirebase tap' user) ∈ w.notes) := h.key_lt ho hr hn
  -- a note is of an earlier account or of the new one
  have hnotes {c' tap' : Nat} {user : User K} (hn : (c',.addUserToFirebase tap' user) ∈ w.notes ++
      [(c,.addUserToFirebase tap (signedUp username v.passwordOutlet snapshot))]) :
      (c',.addUserToFirebase tap' user) ∈ w.notes ∨ (c' = c ∧ tap' = tap ∧
        user = signedUp username v.passwordOutlet snapshot) := by
    simpa using hn
  have hapart {c' tap' : Nat} {user : User K} (hn : (c',.addUserToFirebase tap' user) ∈ w.notes) :
      ∀ x ∈ SignupVC.userWrites (stringOfInt snapshot.numChildren)
        (signedUp username v.passwordOutlet snapshot),
        x.isBelow "users" (stringOfInt user.userID) = false := by
    obtain ⟨k,hlt,hu⟩ := hids hn
    rw [hu]
    exact userWrites_not_below hlt _
  constructor
  case counted =>
    refine forall_clients_update (R := fun _ (cl : Client K) => ∀ vc tap username s,
      ⟨.addUserToFirebase vc tap username,some s⟩ ∈ cl.reads →
        s.numChildren = snapshot.numChildren) ?_ (fun c' _ => h.counted c')
    exact fun vc' tap' username' s hs => h.counted c _ _ _ s (List.mem_of_mem_eraseIdx hs)
  case node =>
    refine forall_clients_update (R := fun _ (cl : Client K) => ∀ x ∈ cl.writes,
      isNodeWrite x = true → x.isBelow "users" (stringOfInt snapshot.numChildren) = true)
      (fun x hx hnode => ?_) (fun c' _ => h.node c')
    rcases List.mem_append.mp hx with hold | hadd
    · exact h.node c x hold hnode
    · exact userWrites_below _ _ x hadd
  case ids =>
    intro c' tap' user hn
    rcases hnotes hn with hold | ⟨rfl,rfl,rfl⟩
    · obtain ⟨k,hlt,hu⟩ := hids hold
      exact ⟨k,hu,Or.inl hlt⟩
    · refine ⟨snapshot.numChildren,rfl,Or.inr ⟨rfl,?_⟩⟩
      simp only [setClient_clients_self,List.countP_append,countP_isNodeWrite_userWrites]
      omega
  case unique =>
    intro c₁ tap₁ user₁ c₂ tap₂ user₂ h₁ h₂ he
    rcases hnotes h₁ with hold₁ | ⟨rfl,rfl,rfl⟩ <;> rcases hnotes h₂ with hold₂ | ⟨rfl,rfl,rfl⟩
    · exact h.unique _ _ _ _ _ _ hold₁ hold₂ he
    · obtain ⟨k,hlt,hu⟩ := hids hold₁
      rw [hu,signedUp,User.init,Nat.cast_inj] at he
      omega
    · obtain ⟨k,hlt,hu⟩ := hids hold₂
      rw [hu,signedUp,User.init,Nat.cast_inj] at he
      omega
    · rfl
  case settles =>
    intro c' tap' user hn
    rcases hnotes hn with hold | ⟨rfl,rfl,rfl⟩
    · refine forall_clients_update (R := fun c' (cl : Client K) =>
        (c',.addUserToFirebase tap' user) ∈ w.notes → IsRecord user (settle _ _ cl.writes _))
        (fun hn => ?_) (fun c' _ => h.settles c' tap' user) c' hold
      rw [settle_append,settle_of_forall_ne (hapart hn)]
      exact h.settles c tap' user hn
    · simp only [setClient_clients_self,settle_append]
      exact isRecord_settle_userWrites _ _ _
  case owned =>
    intro c' tap' user hn
    rcases hnotes hn with hold | ⟨rfl,rfl,rfl⟩
    · refine forall_clients_update (R := fun c'' (cl : Client K) => c'' ≠ c' → ∀ x ∈ cl.writes,
        x.isBelow "users" (stringOfInt user.userID) = false) (fun hne x hx => ?_)
        (fun c'' _ => h.owned c' tap' user hold c'')
      rcases List.mem_append.mp hx with hx | hx
      · exact h.owned c' tap' user hold c hne x hx
      · exact hapart hold x hx
    · intro c'' hne x hx
      simp only [setClient_clients_ne w c' _ hne] at hx
      exact (hk.clients c'').writes.not_below (hnone c'') (le_refl _) x hx
  case reported =>
    intro c' tap' username' hn
    have hold : (c',.goToLogin tap' username') ∈ w.notes := by
      simpa using hn
    rcases h.reported c' tap' username' hold with ⟨user,hu,hname⟩ | ⟨vc',s,hpending⟩
    · exact Or.inl ⟨user,List.mem_append_left _ hu,hname⟩
    · by_cases he : c' = c
      · subst he
        by_cases hsame : (⟨.addUserToFirebase vc' tap' username',s⟩ : Pending (Read K) (FNode K)) =
            ⟨.addUserToFirebase vc tap username,some snapshot⟩
        · cases hsame
          exact Or.inl ⟨_,List.mem_append_right _ (List.mem_singleton.mpr rfl),rfl⟩
        · have hmem := mem_eraseIdx_of_ne hr hpending hsame
          exact Or.inr ⟨vc',s,by simpa using hmem⟩
      · right
        simp only [setClient_clients_ne w c _ he]
        exact ⟨vc',s,hpending⟩

/-- Only a node stored at the count adds a key. -/
theorem KeysOk.count_apply {n n' : Nat} {x : Write K} {xs : List (Write K)} {store : FNode K}
    (h : KeysOk n n (x :: xs)) (hs : InitialSegment n (store.getImmediateChild "users"))
    (hs' : InitialSegment n' ((applyWrite x store).getImmediateChild "users")) :
    (isNodeWrite x = false → n' = n) ∧
      (isNodeWrite x = true → x.isBelow "users" (stringOfInt n) = true → n' = n+1) := by
  cases h with
  | @record _ k v _ hk h =>
    refine ⟨fun hf => by simp [isNodeWrite,setValue] at hf,fun _ hb => ?_⟩
    have hkn : k = n := by
      by_contra hne
      have hother := isBelow_of_ne hb (stringOfInt_ne (Ne.symm hne))
      simp [Write.isBelow,setValue] at hother
    subst hkn
    rw [setValue,collection_applyWrite] at hs'
    exact hs'.unique (hs.update_next rfl)
  | field hk h =>
    rw [setValue,collection_applyWrite] at hs'
    refine ⟨fun _ => ?_,fun ht => by simp [isNodeWrite,setValue] at ht⟩
    exact hs'.unique (hs.update_of_lt hk (PathTree.isEmpty_updateChild _ _ rfl))
  | enemy h =>
    rw [collection_applyWrite_of_ne _ _ _ (by decide)] at hs'
    refine ⟨fun _ => hs'.unique hs,fun _ hb => ?_⟩
    simp [Write.isBelow] at hb

theorem no_window_of_node {w : World K} (ho : OneWindow w.clients) {c : Nat} {x : Write K}
    {xs : List (Write K)} (hx : (w.clients c).writes = x :: xs) (hnode : isNodeWrite x = true)
    (c' : Nat) : (w.clients c').reads.countP isCounted = 0 ∧
      ((w.setClient c { w.clients c with writes := xs }).clients c').writes.countP
        isNodeWrite = 0 := by
  have hone := ho.one c
  simp only [windows,hx,List.countP_cons,hnode,if_true] at hone
  by_cases he : c' = c
  · subst he
    simp only [setClient_clients_self]
    omega
  · rw [setClient_clients_ne w c _ he]
    by_contra hpos
    refine he (ho.only c' c (by simp only [windows]; omega) ?_)
    simp only [windows,hx,List.countP_cons,hnode,if_true]
    omega

theorem Allocated.applyWrite {n n' : Nat} {w : World K} {c : Nat} {x : Write K}
    {xs : List (Write K)} (h : Allocated n w) (hk : KeysInv n w) (ho : OneWindow w.clients)
    (hx : (w.clients c).writes = x :: xs)
    (hk' : InitialSegment n' ((GFLGO.applyWrite x w.store).getImmediateChild "users")) :
    Allocated n'
      { w.setClient c { w.clients c with writes := xs } with
        store := GFLGO.applyWrite x w.store } := by
  have hkeys : KeysOk n n (x :: xs) := hx ▸ (hk.clients c).writes
  have haddr : x.Addressed := hkeys.addressed x (by simp)
  obtain ⟨hsame,hnext⟩ := hkeys.count_apply hk.store hk'
  have hsub (c' : Nat) (y : Write K)
      (hy : y ∈ ((w.setClient c { w.clients c with writes := xs }).clients c').writes) :
      y ∈ (w.clients c').writes := by
    refine forall_clients_update (R := fun c' (cl : Client K) => ∀ y ∈ cl.writes,
      y ∈ (w.clients c').writes) (fun y hy => ?_) (fun _ _ _ hy => hy) c' y hy
    rw [hx]
    exact List.mem_cons_of_mem x hy
  have hreads (c' : Nat) :
      ((w.setClient c { w.clients c with writes := xs }).clients c').reads =
        (w.clients c').reads :=
    clients_update_congr Client.reads (by rfl) c'
  have hrecord : ∀ c' tap user, (c',.addUserToFirebase tap user) ∈ w.notes → c' ≠ c →
      record "users" (stringOfInt user.userID) (GFLGO.applyWrite x w.store) =
        record "users" (stringOfInt user.userID) w.store := by
    intro c' tap user hn hne
    exact record_applyWrite_of_ne haddr
      (h.owned c' tap user hn c (Ne.symm hne) x (by simp [hx])) _
  constructor
  · intro c' vc tap username snapshot hr
    simp only [hreads c'] at hr
    cases hnode : isNodeWrite x with
    | true =>
      have hzero := List.countP_eq_zero.mp (no_window_of_node ho hx hnode c').1 _ hr
      simp [isCounted] at hzero
    | false =>
      rw [hsame hnode]
      exact h.counted c' vc tap username snapshot hr
  · intro c' y hy hnode'
    cases hnode : isNodeWrite x with
    | true =>
      have hzero := List.countP_eq_zero.mp (no_window_of_node ho hx hnode c').2 _ hy
      contradiction
    | false =>
      rw [hsame hnode]
      exact h.node c' y (hsub c' y hy) hnode'
  · intro c' tap user hn
    obtain ⟨k,hu,hk⟩ := h.ids c' tap user hn
    cases hnode : isNodeWrite x with
    | true =>
      have := hnext hnode (h.node c x (by simp [hx]) hnode)
      exact ⟨k,hu,Or.inl (by omega)⟩
    | false =>
      refine ⟨k,hu,?_⟩
      rw [hsame hnode]
      by_cases he : c' = c
      · subst he
        simpa [hx,hnode] using hk
      · simpa only [setClient_clients_ne w c _ he] using hk
  · exact h.unique
  · intro c' tap user hn
    by_cases he : c' = c
    · subst he
      simp only [setClient_clients_self]
      rw [settle_applyWrite haddr,← hx]
      exact h.settles c' tap user hn
    · simp only [setClient_clients_ne w c _ he]
      rw [hrecord c' tap user hn he]
      exact h.settles c' tap user hn
  · intro c' tap user hn c'' hne y hy
    exact h.owned c' tap user hn c'' hne y (hsub c'' y hy)
  · intro c' tap username hn
    simp only [hreads c']
    exact h.reported c' tap username hn

theorem oneWindow_step [Field K] {l : Label K} {w w' : World K} (ho : OneWindow w.clients)
    (hc : CountsAlone l w) (h : SignupStep w l w') : OneWindow w'.clients := by
  cases h with
  | @tapped c e d reads hd hr ht =>
    refine ho.update ?_
    rcases hr with rfl | ⟨vc,tap,_,rfl⟩ <;> simp [windows,isCounted,List.countP_append]
  | @checking c i vc tap h =>
    refine ho.update ?_
    have := countP_set isCounted h
      (b := ⟨.checkIfUserExists vc tap,some (w.store.getImmediateChild "users")⟩)
    simp only [isCounted,Bool.toNat_false] at this
    simp only [windows]
    omega
  | @counting c i vc tap username h =>
    have hzero := hc vc tap username h
    refine AtMostOne.of_others (fun c' _ => hzero c') ?_
    have := countP_set isCounted h
      (b := ⟨.addUserToFirebase vc tap username,some (w.store.getImmediateChild "users")⟩)
    have := hzero c
    simp only [windows,isCounted,Bool.toNat_false,Bool.toNat_true] at *
    omega
  | @trapped c i vc tap d v snapshot t h hv ht =>
    refine ho.update ?_
    simp only [windows,List.countP_nil]
    omega
  | @found c i vc tap d snapshot h =>
    refine ho.update ?_
    have := countP_eraseIdx isCounted h
    simp only [windows]
    omega
  | @approved c i vc tap d v snapshot h hv hs =>
    refine ho.update ?_
    have := countP_eraseIdx isCounted h
    simp only [windows,List.countP_append,List.countP_singleton,isCounted,Bool.toNat_false,
      Bool.false_eq_true,if_false] at *
    omega
  | @added c i vc tap d v username snapshot h hv =>
    refine ho.update ?_
    have := countP_eraseIdx isCounted h
    simp only [windows,List.countP_append,countP_isNodeWrite_userWrites,isCounted,
      Bool.toNat_true] at *
    omega
  | @applied c x xs h =>
    refine ho.update ?_
    simp only [windows,h,List.countP_cons]
    omega

theorem Allocated.step [Field K] {n n' : Nat} {l : Label K} {w w' : World K}
    (ha : Allocated n w) (hk : KeysInv n w) (ho : OneWindow w.clients) (hc : CountsAlone l w)
    (h : SignupStep w l w') (hk' : InitialSegment n' (w'.store.getImmediateChild "users")) :
    Allocated n' w' := by
  have hsame (hstore : w'.store = w.store) : n' = n := hk'.unique (hstore ▸ hk.store)
  cases h with
  | @tapped c e d reads hd hr ht =>
    rw [hsame rfl]
    have hcl := ha.setReads c { w.clients c with
      locals := d, reads := (w.clients c).reads ++ reads } [] rfl
    simp only [List.append_nil] at hcl
    refine hcl ?_ ?_ (fun _ _ _ hn => hn) (by simp)
    · intro vc tap username snapshot hmem
      rcases List.mem_append.mp hmem with hold | hnew
      · exact ha.counted c vc tap username snapshot hold
      · rcases hr with rfl | ⟨_,_,_,rfl⟩ <;> simp at hnew
    · exact fun vc tap username s hmem => ⟨s,List.mem_append_left _ hmem⟩
  | @checking c i vc tap h =>
    rw [hsame rfl]
    have hcl := ha.setReads c { w.clients c with
      reads := (w.clients c).reads.set i
        ⟨.checkIfUserExists vc tap,some (w.store.getImmediateChild "users")⟩ } [] rfl
    simp only [List.append_nil] at hcl
    refine hcl ?_ ?_ (fun _ _ _ hn => hn) (by simp)
    · intro vc' tap' username snapshot hmem
      rcases List.mem_or_eq_of_mem_set hmem with hold | hnew
      · exact ha.counted c vc' tap' username snapshot hold
      · simp at hnew
    · exact fun vc' tap' username s hmem => ⟨s,mem_set_of_ne h hmem (by simp)⟩
  | @counting c i vc tap username h =>
    rw [hsame rfl]
    have hcl := ha.setReads c { w.clients c with
      reads := (w.clients c).reads.set i
        ⟨.addUserToFirebase vc tap username,some (w.store.getImmediateChild "users")⟩ } [] rfl
    simp only [List.append_nil] at hcl
    refine hcl ?_ ?_ (fun _ _ _ hn => hn) (by simp)
    · intro vc' tap' username' snapshot hmem
      rcases List.mem_or_eq_of_mem_set hmem with hold | hnew
      · exact ha.counted c vc' tap' username' snapshot hold
      · simp only [Pending.mk.injEq,Option.some.injEq] at hnew
        rw [hnew.2]
        exact hk.store.numChildren_eq
    · intro vc' tap' username' s hmem
      by_cases hread : (⟨.addUserToFirebase vc' tap' username',s⟩ : Pending (Read K) (FNode K)) =
          ⟨.addUserToFirebase vc tap username,none⟩
      · simp only [Pending.mk.injEq,Read.addUserToFirebase.injEq] at hread
        obtain ⟨⟨rfl,rfl,rfl⟩,_⟩ := hread
        exact ⟨_,mem_set_self h⟩
      · exact ⟨s,mem_set_of_ne h hmem hread⟩
  | @trapped c i vc tap d v snapshot t h hv ht =>
    rw [hsame rfl]
    have hcl := ha.setReads c { w.clients c with reads := [], trap := some t } [] rfl
    simp only [List.append_nil] at hcl
    refine hcl (by simp) ?_ (fun _ _ _ hn => hn) (by simp)
    exact fun vc' tap' username s hmem =>
      absurd hmem (hc vc tap snapshot v t h hv ht vc' tap' username s)
  | @found c i vc tap d snapshot h =>
    rw [hsame rfl]
    refine ha.setReads c { w.clients c with reads := (w.clients c).reads.eraseIdx i }
      [(c,.userAlreadyExists tap)] rfl ?_ ?_ (by simp) (by simp)
    · exact fun vc' tap' username snapshot hmem =>
        ha.counted c vc' tap' username snapshot (List.mem_of_mem_eraseIdx hmem)
    · exact fun vc' tap' username s hmem => ⟨s,mem_eraseIdx_of_ne h hmem (by simp)⟩
  | @approved c i vc tap d v snapshot h hv hs =>
    rw [hsame rfl]
    refine ha.setReads c
      { w.clients c with
        reads := (w.clients c).reads.eraseIdx i ++
          [⟨.addUserToFirebase vc tap v.usernameOutlet,none⟩] }
      [(c,.goToLogin tap v.usernameOutlet)] rfl ?_ ?_ (by simp) ?_
    · intro vc' tap' username snapshot hmem
      rcases List.mem_append.mp hmem with hold | hnew
      · exact ha.counted c vc' tap' username snapshot (List.mem_of_mem_eraseIdx hold)
      · simp at hnew
    · exact fun vc' tap' username s hmem =>
        ⟨s,List.mem_append_left _ (mem_eraseIdx_of_ne h hmem (by simp))⟩
    · intro c' tap' username hn
      simp only [List.mem_singleton,Prod.mk.injEq,Note.goToLogin.injEq] at hn
      obtain ⟨rfl,rfl,rfl⟩ := hn
      exact ⟨rfl,vc,none,by simp⟩
  | @added c i vc tap d v username snapshot h hv =>
    rw [hsame rfl]
    exact ha.addUser hk ho h
  | @applied c x xs h => exact ha.applyWrite hk ho h hk'

structure Orderly (w : World K) : Prop where
  signups : ∀ c, SignupsOnly (w.clients c)
  window : OneWindow w.clients
  allocated : ∃ n, KeysInv n w ∧ Allocated n w

theorem orderly_start {store : FNode K} {n : Nat}
    (h : InitialSegment n (store.getChild ["users"])) : Orderly (World.start store) :=
  { signups := signupsOnly_start store
    window :=
      ⟨fun c => by simp [World.start,windows],fun c c' h => by simp [World.start,windows] at h⟩
    allocated := ⟨n,keysInv_start h,by constructor <;> simp [World.start]⟩ }

section
variable [Field K] [LinearOrder K] [FloorRing K]

theorem Orderly.step {p : Platform K} {l : Label K} {w w' : World K} (hi : Orderly w)
    (hl : SignupLabel l) (hc : CountsAlone l w) (h : step p l w = some w') : Orderly w' := by
  obtain ⟨n,hk,ha⟩ := hi.allocated
  obtain ⟨n',hk'⟩ := hk.step h
  have hs := signupStep_of_step hi.signups hl h
  exact
    { signups := hs.signupsOnly hi.signups
      window := oneWindow_step hi.window hc hs
      allocated := ⟨n',hk',ha.step hk hi.window hc hs hk'.store⟩ }

/-- If counts are taken alone, then once all steps of all signups are done every
reported signup owns its key and its record. -/
theorem accountsKept_of_countsAlone (p : Platform K) (store : FNode K) (n : Nat)
    (hs : InitialSegment n (store.getChild ["users"])) (ls : List (Label K))
    (hl : ∀ l ∈ ls, SignupLabel l) (hc : Along (step p) CountsAlone ls (World.start store))
    (w : World K) (hr : run (step p) ls (World.start store) = some w) (hq : w.Quiet) :
    AccountsKept w := by
  have hlabels := along_of_forall_mem (step p) hl (World.start store)
  have hinv := run_invariant (step p) (fun l w w' hi hcond h => Orderly.step hi hcond.1 hcond.2 h)
    (orderly_start hs) (hlabels.and (step p) hc) hr
  obtain ⟨m,_,ha⟩ := hinv.allocated
  exact ha.kept hq

end

end

section
variable {K : Type}

def Read.isCount : Read K → Bool
  | .addUserToFirebase _ _ _ => true
  | _ => false

/-- The condition when all others are as they were started. -/
def CountsAloneAmong (A : List Nat) : Label K → World K → Prop
  | .snapshot c i, w => ∀ rd ∈ (w.clients c).reads[i]?, rd.read.isCount = true →
    ∀ c' ∈ A, windows (w.clients c') = 0
  | .deliver c i _, w => ∀ rd ∈ (w.clients c).reads[i]?, ∀ vc ∈ rd.read.checksFor,
    ∀ snapshot ∈ rd.snapshot, ∀ v ∈ (w.clients c).locals.signupVCs[vc]?,
      (SignupVC.checkIfUserExists v.usernameOutlet snapshot.children).toOption = none →
        ∀ rd ∈ (w.clients c).reads, rd.read.isCount = false
  | _, _ => True

instance (A : List Nat) (l : Label K) (w : World K) : Decidable (CountsAloneAmong A l w) :=
  match l with
  | .snapshot c i => inferInstanceAs (Decidable (∀ rd ∈ (w.clients c).reads[i]?, _))
  | .deliver c i _ => inferInstanceAs (Decidable (∀ rd ∈ (w.clients c).reads[i]?, _))
  | .event _ _ | .apply _ => isTrue trivial

theorem countsAlone_of_among {A : List Nat} {store : FNode K} {l : Label K} {w : World K}
    (hw : ∀ c, c ∉ A → w.clients c = (World.start store).clients c)
    (h : CountsAloneAmong A l w) : CountsAlone l w := by
  cases l with
  | snapshot c i =>
    intro vc tap username hr
    exact forall_clients_of_mem (R := fun cl => windows cl = 0) hw (fun _ => rfl) (h _ hr rfl)
  | deliver c i d =>
    intro vc tap snapshot v t hr hv ht vc' tap' username s hmem
    have hcount := h _ hr vc rfl snapshot rfl v hv (by rw [ht]; rfl) _ hmem
    contradiction
  | event c e => trivial
  | apply c => trivial

end

theorem accountsKept_signupsInTurn : ∃ w,
    run (step planePlatform) signupsInTurn (World.start .empty) = some w ∧
      w.notes.length = 4 ∧ AccountsKept w := by
  have hrun : (run (step planePlatform) signupsInTurn (World.start .empty)).map (fun w =>
      (w.notes.length,decide (∀ l ∈ signupsInTurn, (w.clients l.client).Quiet))) =
        some (4,true) := by
    decide +kernel
  obtain ⟨w,hw,he⟩ := Option.map_eq_some_iff.mp hrun
  simp only [Prod.mk.injEq,decide_eq_true_eq] at he
  have halone : Along (step planePlatform) (CountsAloneAmong [0,1]) signupsInTurn
      (World.start .empty) := by
    decide +kernel
  exact ⟨w,hw,he.1,accountsKept_of_countsAlone planePlatform .empty 0 .empty _ (by decide)
    (along_of_clients (A := [0,1]) (by decide) (fun _ _ hu hl => countsAlone_of_among hu hl) halone)
    w hw (quiet_of_run (fun _ => ⟨rfl,rfl⟩) hw he.2)⟩

/-- Two devices count before either of them stores its node. -/
def twoSignups : List (Label ℚ) :=
  tapCreateAccount 0 0 "ann" "pw" ++ tapCreateAccount 1 0 "bob" "pw" ++
    answer 0 sampleDraw ++ answer 1 sampleDraw ++
    [.snapshot 0 0,.snapshot 1 0,.deliver 0 0 sampleDraw,.deliver 1 0 sampleDraw] ++
    applyAll 0 6 ++ applyAll 1 6

/-- Both devices report success for the account with the key 0. -/
theorem not_accountsKept : ¬ ∀ (ls : List (Label ℚ)) (w : World ℚ), (∀ l ∈ ls, SignupLabel l) →
    run (step planePlatform) ls (World.start .empty) = some w → w.Quiet → AccountsKept w := by
  intro h
  have hrun : (run (step planePlatform) twoSignups (World.start .empty)).map (fun w =>
      (decide ((0,.addUserToFirebase 0 (User.init "ann" (some "pw") 0 50 3.2 10)) ∈ w.notes),
        decide ((1,.addUserToFirebase 0 (User.init "bob" (some "pw") 0 50 3.2 10)) ∈ w.notes),
        decide (∀ l ∈ twoSignups, (w.clients l.client).Quiet))) = some (true,true,true) := by
    decide +kernel
  obtain ⟨w,hw,he⟩ := Option.map_eq_some_iff.mp hrun
  simp only [Prod.mk.injEq,decide_eq_true_eq] at he
  obtain ⟨hann,hbob,hquiet⟩ := he
  have hq : w.Quiet := quiet_of_run (fun _ => ⟨rfl,rfl⟩) hw hquiet
  exact (h twoSignups w (by decide) hw hq).distinct _ _ _ _ _ _ hann hbob (by simp) rfl

end GFLGO
