import GFLGO.AccountMap
import GFLGO.UserKeys

/-! What /users has to look like to stand for an account map. -/

set_option autoImplicit false

namespace GFLGO

section
variable {K : Type}

theorem InitialSegment.drain_fields {n k : Nat} {ws : List (Write K)} (hk : k < n)
    (hw : ∀ x ∈ ws, ∃ f v, x = setValue ["users",stringOfInt k,f] v) {store : FNode K}
    (h : InitialSegment n (store.getImmediateChild "users")) :
    InitialSegment n ((drain ws store).getImmediateChild "users") := by
  induction ws generalizing store with
  | nil => exact h
  | cons x ws ih =>
    obtain ⟨hx,hrest⟩ := List.forall_mem_cons.mp hw
    obtain ⟨f,v,rfl⟩ := hx
    refine ih hrest ?_
    rw [setValue,collection_applyWrite]
    exact h.update_of_lt hk (PathTree.isEmpty_updateChild _ _ rfl)

variable [Field K]

/-- The record of an account, whatever experience and location it has. -/
structure IsAccount (name password : String) (node : FNode K) : Prop where
  username : node.getImmediateChild "username" = .leaf (.string name)
  password : node.getImmediateChild "password" = .leaf (.string password)
  health : node.getImmediateChild "health" = .leaf (.double 50)
  power : node.getImmediateChild "power" = .leaf (.double 3.2)
  totalExp : ∃ n, node.getImmediateChild "totalExp" = .leaf (.int n)

theorem IsAccount.loginFields [LinearOrder K] [FloorRing K] {name password : String}
    {node : FNode K} (h : IsAccount name password node) : LoginFields node := by
  obtain ⟨n,hn⟩ := h.totalExp
  exact ⟨⟨_,h.username⟩,⟨_,h.password⟩,Or.inl ⟨_,h.health⟩,Or.inl ⟨_,h.power⟩,
    holdsInt_of_leaf hn⟩

section
variable {name password : String} {node : FNode K}

theorem IsAccount.update_other (h : IsAccount name password node) {f : String} (t : FNode K)
    (hf : f ∉ ["username","password","health","power","totalExp"]) :
    IsAccount name password (node.updateImmediateChild f t) := by
  simp only [List.mem_cons,List.not_mem_nil,or_false,not_or] at hf
  obtain ⟨hu,hp,hh,hpow,hexp⟩ := hf
  constructor
  · rw [PathTree.getImmediateChild_updateImmediateChild_ne _ _ (Ne.symm hu),h.username]
  · rw [PathTree.getImmediateChild_updateImmediateChild_ne _ _ (Ne.symm hp),h.password]
  · rw [PathTree.getImmediateChild_updateImmediateChild_ne _ _ (Ne.symm hh),h.health]
  · rw [PathTree.getImmediateChild_updateImmediateChild_ne _ _ (Ne.symm hpow),h.power]
  · rw [PathTree.getImmediateChild_updateImmediateChild_ne _ _ (Ne.symm hexp)]
    exact h.totalExp

theorem IsAccount.update_totalExp (h : IsAccount name password node) (n : Int) :
    IsAccount name password (node.updateImmediateChild "totalExp" (.leaf (.int n))) := by
  constructor
  · rw [PathTree.getImmediateChild_updateImmediateChild_ne _ _ (by decide),h.username]
  · rw [PathTree.getImmediateChild_updateImmediateChild_ne _ _ (by decide),h.password]
  · rw [PathTree.getImmediateChild_updateImmediateChild_ne _ _ (by decide),h.health]
  · rw [PathTree.getImmediateChild_updateImmediateChild_ne _ _ (by decide),h.power]
  · exact ⟨n,PathTree.getImmediateChild_updateImmediateChild_self _ _ _⟩

theorem IsAccount.update_password (h : IsAccount name password node) (new : String) :
    IsAccount name new (node.updateImmediateChild "password" (.leaf (.string new))) := by
  constructor
  · rw [PathTree.getImmediateChild_updateImmediateChild_ne _ _ (by decide),h.username]
  · exact PathTree.getImmediateChild_updateImmediateChild_self _ _ _
  · rw [PathTree.getImmediateChild_updateImmediateChild_ne _ _ (by decide),h.health]
  · rw [PathTree.getImmediateChild_updateImmediateChild_ne _ _ (by decide),h.power]
  · rw [PathTree.getImmediateChild_updateImmediateChild_ne _ _ (by decide)]
    exact h.totalExp

theorem isAccount_of_isRecord {n : Nat}
    (h : IsRecord (User.init name (some password) n 50 3.2 10) node) :
    IsAccount name password node := by
  constructor
  · rw [h]; rfl
  · rw [h]; rfl
  · rw [h]; rfl
  · rw [h]; rfl
  · exact ⟨10,by rw [h]; rfl⟩

end

/-- Every account has its record under its number, and there are no other keys. -/
structure Represents (m : AccountMap) (users : FNode K) : Prop where
  keys : InitialSegment m.count users
  accounts : ∀ name a, m.find name = some a →
    IsAccount name a.password (users.getImmediateChild (stringOfInt a.number))

namespace Represents

variable {m : AccountMap} {users : FNode K}

theorem empty : Represents .empty (.empty : FNode K) :=
  { keys := InitialSegment.empty
    accounts := fun name a h => by contradiction }

theorem child (h : Represents m users) {c : String × FNode K} (hc : c ∈ users.children) :
    ∃ name a, m.find name = some a ∧ c.1 = stringOfInt a.number ∧
      IsAccount name a.password c.2 := by
  obtain ⟨i,hi,he⟩ := (h.keys.mem_iff c.1).mp (List.mem_map_of_mem hc)
  obtain ⟨name,a,ha,hn⟩ := m.numbered i hi
  have hnode : users.getImmediateChild c.1 = c.2 :=
    PathTree.getImmediateChild_of_mem h.keys.nodup hc
  refine ⟨name,a,ha,by rw [he,hn],?_⟩
  have hacc := h.accounts name a ha
  rwa [hn,← he,hnode] at hacc

theorem exists_child (h : Represents m users) {name : String} {a : Account}
    (ha : m.find name = some a) : ∃ c ∈ users.children, IsAccount name a.password c.2 := by
  have hkey := h.keys.key_mem.mpr (m.number_lt name a ha)
  obtain ⟨c,hc,he⟩ := List.mem_map.mp hkey
  have hnode : users.getImmediateChild c.1 = c.2 :=
    PathTree.getImmediateChild_of_mem h.keys.nodup hc
  refine ⟨c,hc,?_⟩
  have hacc := h.accounts name a ha
  rwa [← he,hnode] at hacc

/-- The scan of a signup finds exactly the names that are taken. -/
theorem checkIfUserExists (h : Represents m users) (name : String) :
    SignupVC.checkIfUserExists name users.children = .ok (m.find name).isSome := by
  cases hr : SignupVC.checkIfUserExists name users.children with
  | error t =>
    obtain ⟨_,c,hc,hn⟩ := checkIfUserExists_eq_error hr
    obtain ⟨_,_,_,_,hacc⟩ := h.child hc
    exact absurd ⟨_,hacc.username⟩ hn
  | ok found =>
    cases found with
    | true =>
      obtain ⟨c,hc,hu⟩ := checkIfUserExists_eq_true hr
      obtain ⟨name',a,ha,_,hacc⟩ := h.child hc
      have he := hacc.username.symm.trans hu
      simp only [PathTree.leaf.injEq,Value.string.injEq] at he
      rw [← he,ha]
      rfl
    | false =>
      cases ha : m.find name with
      | none => rfl
      | some a =>
        obtain ⟨c,hc,hacc⟩ := h.exists_child ha
        exact absurd hacc.username (checkIfUserExists_eq_false hr c hc)

section
variable [LinearOrder K] [FloorRing K]

theorem loginIfValid_ok (h : Represents m users) (name password : String) :
    ∃ validUser, LoginVC.loginIfValid name password users.children = .ok validUser := by
  cases hr : LoginVC.loginIfValid name password users.children with
  | ok validUser => exact ⟨validUser,rfl⟩
  | error t =>
    rcases loginIfValid_eq_error hr with ⟨field,_,c,hc,hn⟩ | ⟨_,c,hc,hn⟩
    · obtain ⟨_,_,_,_,hacc⟩ := h.child hc
      exact absurd hacc.loginFields hn
    · obtain ⟨_,_,_,he,_⟩ := h.child hc
      simp [he] at hn

/-- The scan of a login opens a session for the account with the name and the password. -/
theorem loginIfValid_some (h : Represents m users) {name password : String} {a : Account}
    (ha : m.find name = some a) (hp : a.password = password) :
    ∃ n, LoginVC.loginIfValid name password users.children =
      .ok (some (User.init name (some password) a.number 50 3.2 n)) := by
  obtain ⟨validUser,hr⟩ := h.loginIfValid_ok name password
  cases validUser with
  | none =>
    obtain ⟨c,hc,hacc⟩ := h.exists_child ha
    exact absurd ⟨hacc.username,hp ▸ hacc.password⟩ (loginIfValid_eq_none hr c hc)
  | some user =>
    obtain ⟨c,hc,hu,_,userID,health,power,n,hid,hh,hpow,_,rfl⟩ := loginIfValid_eq_some hr
    obtain ⟨name',a',ha',hkey,hacc⟩ := h.child hc
    have hname := hacc.username.symm.trans hu
    simp only [PathTree.leaf.injEq,Value.string.injEq] at hname
    subst hname
    rw [ha,Option.some.injEq] at ha'
    subst ha'
    rw [hkey,intOfString_stringOfInt,Option.some.injEq] at hid
    rw [asDouble,hacc.health,Except.ok.injEq] at hh
    rw [asDouble,hacc.power,Except.ok.injEq] at hpow
    exact ⟨n,by rw [hr,← hid,← hh,← hpow]⟩

theorem loginIfValid_none (h : Represents m users) {name password : String}
    (ha : ∀ a, m.find name = some a → a.password ≠ password) :
    LoginVC.loginIfValid name password users.children = .ok none := by
  obtain ⟨validUser,hr⟩ := h.loginIfValid_ok name password
  cases validUser with
  | none => exact hr
  | some user =>
    obtain ⟨c,hc,hu,hp,_⟩ := loginIfValid_eq_some hr
    obtain ⟨name',a,hfind,_,hacc⟩ := h.child hc
    have hname := hacc.username.symm.trans hu
    have hpass := hacc.password.symm.trans hp
    simp only [PathTree.leaf.injEq,Value.string.injEq] at hname hpass
    exact absurd hpass (ha a (hname ▸ hfind))

end

theorem update (h : Represents m users) {m' : AccountMap} {k : Nat} {node : FNode K}
    (hk : k < m.count) (hcount : m'.count = m.count) (hn : node.isEmpty = false)
    (hother : ∀ name a, m'.find name = some a → a.number ≠ k → m.find name = some a)
    (hself : ∀ name a, m'.find name = some a → a.number = k → IsAccount name a.password node) :
    Represents m' (users.updateImmediateChild (stringOfInt k) node) := by
  refine ⟨hcount ▸ h.keys.update_of_lt hk hn,fun name a ha => ?_⟩
  by_cases he : a.number = k
  · rw [he,PathTree.getImmediateChild_updateImmediateChild_self]
    exact hself name a ha he
  · have hne : stringOfInt (a.number : Int) ≠ stringOfInt k := fun hs => he (by
      have := stringOfInt_injective hs
      omega)
    rw [PathTree.getImmediateChild_updateImmediateChild_ne _ _ hne]
    exact h.accounts name a (hother name a ha he)

end Represents

/-- A write of a session that leaves the account map as it is: something about
enemies, a location, or an experience. -/
inductive Write.Harmless (n : Nat) : Write K → Prop
  | enemies {key : String} {rest : List String} {node : FNode K} :
    Harmless n ⟨"enemies" :: key :: rest,node⟩
  | location {k : Nat} {f : String} {x : K} (hk : k < n) (hf : f = "latitude" ∨ f = "longitude") :
    Harmless n (setValue ["users",stringOfInt k,f] (.double x))
  | totalExp {k : Nat} {x : Int} (hk : k < n) :
    Harmless n (setValue ["users",stringOfInt k,"totalExp"] (.int x))

theorem Represents.applyField {m m' : AccountMap} {store : FNode K} {name f : String}
    {a : Account} {v : Value K} (h : Represents m (store.getImmediateChild "users"))
    (ha : m.find name = some a) (hcount : m'.count = m.count)
    (hother : ∀ u b, m'.find u = some b → b.number ≠ a.number → m.find u = some b)
    (hself : ∀ u b, m'.find u = some b → b.number = a.number → ∀ node,
      IsAccount name a.password node →
        IsAccount u b.password (node.updateImmediateChild f (.leaf v))) :
    Represents m' ((applyWrite (setValue ["users",stringOfInt a.number,f] v)
      store).getImmediateChild "users") := by
  rw [setValue,collection_applyWrite,PathTree.updateChild_cons,PathTree.updateChild_nil]
  refine h.update (m.number_lt name a ha) hcount (PathTree.isEmpty_updateImmediateChild _ _ rfl)
    hother (fun u b hb hn => ?_)
  exact hself u b hb hn _ (h.accounts name a ha)

theorem Represents.applySame {m : AccountMap} {store : FNode K} {k : Nat} {f : String}
    {v : Value K} (h : Represents m (store.getImmediateChild "users")) (hk : k < m.count)
    (hsame : ∀ name password node, IsAccount name password node →
      IsAccount name password (node.updateImmediateChild f (.leaf v))) :
    Represents m ((applyWrite (setValue ["users",stringOfInt k,f] v) store).getImmediateChild
      "users") := by
  obtain ⟨name,a,ha,rfl⟩ := m.numbered k hk
  refine h.applyField ha rfl (fun _ _ hb _ => hb) (fun u b hb hn node hacc => ?_)
  have hu := m.number_inj u name b a hb ha hn
  subst hu
  rw [ha,Option.some.injEq] at hb
  subst hb
  exact hsame u a.password node hacc

theorem Represents.applyHarmless {m : AccountMap} {store : FNode K} {x : Write K}
    (h : Represents m (store.getImmediateChild "users")) (hx : x.Harmless m.count) :
    Represents m ((applyWrite x store).getImmediateChild "users") := by
  cases hx with
  | enemies =>
    rw [collection_applyWrite_of_ne _ _ _ (by decide)]
    exact h
  | @location k f x hk hf =>
    refine h.applySame hk (fun name password node hacc => hacc.update_other _ ?_)
    rcases hf with rfl | rfl <;> decide
  | @totalExp k x hk =>
    exact h.applySame hk (fun name password node hacc => hacc.update_totalExp x)

theorem Represents.applyPassword {m : AccountMap} {store : FNode K} {name new : String}
    {a : Account} (h : Represents m (store.getImmediateChild "users"))
    (ha : m.find name = some a) :
    Represents (m.setPassword name new) ((applyWrite (setValue
      ["users",stringOfInt a.number,"password"] (.string new)) store).getImmediateChild
        "users") := by
  refine h.applyField ha rfl (fun u b hb hn => ?_) (fun u b hb hn node hacc => ?_)
  · obtain ⟨b',hb',rfl⟩ := Option.map_eq_some_iff.mp hb
    by_cases hu : u = name
    · subst hu
      rw [ha,Option.some.injEq] at hb'
      subst hb'
      simp at hn
    · rw [if_neg hu,hb']
  · obtain ⟨b',hb',rfl⟩ := Option.map_eq_some_iff.mp hb
    have hu : u = name := by
      refine m.number_inj u name b' a hb' ha ?_
      split at hn <;> exact hn
    subst hu
    rw [if_pos rfl]
    exact hacc.update_password new

theorem Represents.drainSignup {m : AccountMap} {store : FNode K} {name password : String}
    (h : Represents m (store.getImmediateChild "users")) (hf : m.find name = none) :
    Represents (m.insert name password hf) ((drain (SignupVC.userWrites (stringOfInt m.count)
      (User.init name (some password) m.count 50 3.2 10)) store).getImmediateChild "users") := by
  have hkeys : KeysOk m.count m.count (SignupVC.userWrites (stringOfInt m.count)
      (User.init name (some password) m.count 50 3.2 10 : User K)) :=
    keysOk_userWrites (le_refl _) rfl
  constructor
  · rw [SignupVC.userWrites,drain_cons]
    refine InitialSegment.drain_fields (k := m.count) (Nat.lt_succ_self _) ?_ ?_
    · simp [User.init,setOptional,setValue]
    · rw [setValue,collection_applyWrite]
      exact h.keys.update_next rfl
  · intro u a ha
    rw [← record_eq,record_drain hkeys.addressed]
    by_cases hn : a.number = m.count
    · have hu : u = name := by
        refine (m.insert name password hf).number_inj u name a ⟨m.count,password⟩ ha ?_ hn
        simp [AccountMap.insert]
      subst hu
      have he : a = ⟨m.count,password⟩ := by simpa [AccountMap.insert] using ha.symm
      subst he
      exact isAccount_of_isRecord (isRecord_settle_userWrites _ _ _)
    · have hu : u ≠ name := by
        rintro rfl
        have he : a = ⟨m.count,password⟩ := by simpa [AccountMap.insert] using ha.symm
        exact hn (congrArg Account.number he)
      have hold : m.find u = some a := by simpa [AccountMap.insert,hu] using ha
      have hkey : stringOfInt (m.count : Int) ≠ stringOfInt a.number := fun hs => hn (by
        have := stringOfInt_injective hs
        omega)
      rw [settle_of_forall_ne (fun x hx => isBelow_of_ne (userWrites_below _ _ x hx) hkey)]
      exact h.accounts u a hold

end

end GFLGO
