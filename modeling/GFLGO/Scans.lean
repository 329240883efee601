import GFLGO.Accounts
import GFLGO.Map

/-!
The scans over the children of a snapshot: which fields they cast, what makes
them trap and what their results say about the children.
-/

set_option autoImplicit false

namespace GFLGO

section
variable {K : Type}

def HoldsString (field : String) (child : FNode K) : Prop :=
  ∃ s, child.getImmediateChild field = .leaf (.string s)

def HoldsNumber (field : String) (child : FNode K) : Prop :=
  (∃ x, child.getImmediateChild field = .leaf (.double x)) ∨
    ∃ n, child.getImmediateChild field = .leaf (.int n)

def HoldsInt [Field K] [LinearOrder K] [FloorRing K] (field : String) (child : FNode K) : Prop :=
  ∃ n, asInt .loginIfValid field child = .ok n

instance (field : String) (child : FNode K) : Decidable (HoldsString field child) :=
  match h : child.getImmediateChild field with
  | .leaf (.string s) => isTrue ⟨s,h⟩
  | .leaf (.int _) | .leaf (.double _) | .branch _ => isFalse (by simp [HoldsString,h])

instance (field : String) (child : FNode K) : Decidable (HoldsNumber field child) :=
  match h : child.getImmediateChild field with
  | .leaf (.double x) => isTrue (Or.inl ⟨x,h⟩)
  | .leaf (.int n) => isTrue (Or.inr ⟨n,h⟩)
  | .leaf (.string _) | .branch _ => isFalse (by simp [HoldsNumber,h])

instance [Field K] [LinearOrder K] [FloorRing K] (field : String) (child : FNode K) :
    Decidable (HoldsInt field child) :=
  match h : asInt .loginIfValid field child with
  | .ok n => isTrue ⟨n,h⟩
  | .error _ => isFalse (by simp [HoldsInt,h])

theorem asString_eq_ok {reader : Reader} {field : String} {child : FNode K} {s : String} :
    asString reader field child = .ok s ↔
      child.getImmediateChild field = .leaf (.string s) := by
  unfold asString
  split
  · next s' hs => simp [hs]
  · next hs =>
    constructor
    · intro h
      contradiction
    · intro h
      exact absurd h (hs s)

theorem asString_eq_error_iff {reader : Reader} {field : String} {child : FNode K} {t : Trap} :
    asString reader field child = .error t ↔
      ¬ HoldsString field child ∧ t = .cast reader field := by
  constructor
  · intro h
    refine ⟨fun ⟨s,hs⟩ => ?_,asString_eq_error h⟩
    rw [asString_eq_ok.mpr hs] at h
    contradiction
  · rintro ⟨hn,rfl⟩
    cases h : asString reader field child with
    | error t => rw [asString_eq_error h]
    | ok s => exact absurd ⟨s,asString_eq_ok.mp h⟩ hn

section
variable [Field K]

theorem asDouble_of_holdsNumber (reader : Reader) {field : String} {child : FNode K}
    (h : HoldsNumber field child) : ∃ x, asDouble reader field child = .ok x := by
  rcases h with ⟨x,hx⟩ | ⟨n,hn⟩
  · exact ⟨x,by rw [asDouble,hx]⟩
  · exact ⟨(n : K),by rw [asDouble,hn]⟩

theorem asDouble_eq_error_iff {reader : Reader} {field : String} {child : FNode K} {t : Trap} :
    asDouble reader field child = .error t ↔
      ¬ HoldsNumber field child ∧ t = .cast reader field := by
  constructor
  · intro h
    refine ⟨fun hn => ?_,asDouble_eq_error h⟩
    obtain ⟨x,hx⟩ := asDouble_of_holdsNumber reader hn
    rw [hx] at h
    contradiction
  · rintro ⟨hn,rfl⟩
    unfold asDouble
    split
    · next x hx => exact absurd (Or.inl ⟨x,hx⟩) hn
    · next n hx => exact absurd (Or.inr ⟨n,hx⟩) hn
    · rfl

theorem holdsNumber_of_asDouble {reader : Reader} {field : String} {child : FNode K} {x : K}
    (h : asDouble reader field child = .ok x) : HoldsNumber field child := by
  by_contra hn
  rw [asDouble_eq_error_iff.mpr ⟨hn,rfl⟩] at h
  contradiction

variable [LinearOrder K] [FloorRing K]

theorem asInt_eq_ok_congr {reader reader' : Reader} {field : String} {child : FNode K} {n : Int}
    (h : asInt reader field child = .ok n) : asInt reader' field child = .ok n := by
  unfold asInt at h ⊢
  split at h
  · exact h
  · split at h
    · next hx => rw [if_pos hx]; exact h
    · contradiction
  · contradiction

theorem asInt_eq_error_iff {reader : Reader} {field : String} {child : FNode K} {t : Trap} :
    asInt reader field child = .error t ↔
      ¬ HoldsInt field child ∧ t = .cast reader field := by
  constructor
  · intro h
    refine ⟨fun ⟨n,hn⟩ => ?_,asInt_eq_error h⟩
    rw [asInt_eq_ok_congr hn] at h
    contradiction
  · rintro ⟨hn,rfl⟩
    cases h : asInt reader field child with
    | error t => rw [asInt_eq_error h]
    | ok n => exact absurd ⟨n,asInt_eq_ok_congr h⟩ hn

theorem holdsInt_of_leaf {field : String} {child : FNode K} {n : Int}
    (h : child.getImmediateChild field = .leaf (.int n)) : HoldsInt field child :=
  ⟨n,by rw [asInt,h]⟩

def LoginFields (child : FNode K) : Prop :=
  HoldsString "username" child ∧ HoldsString "password" child ∧ HoldsNumber "health" child ∧
    HoldsNumber "power" child ∧ HoldsInt "totalExp" child

def PlayerFields (child : FNode K) : Prop :=
  HoldsString "username" child ∧ HoldsNumber "health" child ∧ HoldsNumber "power" child ∧
    HoldsInt "totalExp" child ∧ HoldsNumber "latitude" child ∧ HoldsNumber "longitude" child

instance (child : FNode K) : Decidable (LoginFields child) := inferInstanceAs (Decidable (_ ∧ _))

instance (child : FNode K) : Decidable (PlayerFields child) := inferInstanceAs (Decidable (_ ∧ _))

end

def EnemyFields (child : FNode K) : Prop :=
  HoldsString "name" child ∧ HoldsNumber "latitude" child ∧ HoldsNumber "longitude" child ∧
    HoldsNumber "health" child ∧ HoldsNumber "power" child

def CountFields (child : FNode K) : Prop :=
  HoldsNumber "latitude" child ∧ HoldsNumber "longitude" child

instance (child : FNode K) : Decidable (EnemyFields child) := inferInstanceAs (Decidable (_ ∧ _))

instance (child : FNode K) : Decidable (CountFields child) := inferInstanceAs (Decidable (_ ∧ _))

theorem checkIfUserExists_eq_error {u : String} {cs : List (String × FNode K)} {t : Trap}
    (h : SignupVC.checkIfUserExists u cs = .error t) :
    t = .cast .checkIfUserExists "username" ∧ ∃ c ∈ cs, ¬ HoldsString "username" c.2 := by
  induction cs with
  | nil => contradiction
  | cons child rest ih =>
    rcases bind_eq_error.mp h with hu | ⟨username,_,h⟩
    · obtain ⟨hn,rfl⟩ := asString_eq_error_iff.mp hu
      exact ⟨rfl,child,by simp,hn⟩
    · split at h
      · contradiction
      · obtain ⟨ht,c,hc,hn⟩ := ih h
        exact ⟨ht,c,by simp [hc],hn⟩

theorem checkIfUserExists_eq_true {u : String} {cs : List (String × FNode K)}
    (h : SignupVC.checkIfUserExists u cs = .ok true) :
    ∃ c ∈ cs, c.2.getImmediateChild "username" = .leaf (.string u) := by
  induction cs with
  | nil => simp [SignupVC.checkIfUserExists] at h
  | cons child rest ih =>
    obtain ⟨username,hu,h⟩ := bind_eq_ok.mp h
    split at h
    · next he =>
      subst he
      exact ⟨child,by simp,asString_eq_ok.mp hu⟩
    · obtain ⟨c,hc,he⟩ := ih h
      exact ⟨c,by simp [hc],he⟩

theorem checkIfUserExists_eq_false {u : String} {cs : List (String × FNode K)}
    (h : SignupVC.checkIfUserExists u cs = .ok false) :
    ∀ c ∈ cs, c.2.getImmediateChild "username" ≠ .leaf (.string u) := by
  induction cs with
  | nil => simp
  | cons child rest ih =>
    obtain ⟨username,hu,h⟩ := bind_eq_ok.mp h
    split at h
    · contradiction
    · next he =>
      intro c hc
      rcases List.mem_cons.mp hc with rfl | hc
      · rw [asString_eq_ok.mp hu]
        simpa using Ne.symm he
      · exact ih h c hc

section
variable [Field K] [LinearOrder K]

theorem findEnemiesAroundUser_eq_error {p : Platform K} {location : Option (Coordinate K)}
    {name : String} {cs : List (String × FNode K)} {t : Trap}
    (h : MapVC.findEnemiesAroundUser p location name cs = .error t) :
    (∃ field, t = .cast .findEnemiesAroundUser field ∧ ∃ c ∈ cs, ¬ EnemyFields c.2) ∨
      (t = .userLocation ∧ location = none) := by
  induction cs with
  | nil => contradiction
  | cons child rest ih =>
    simp only [MapVC.findEnemiesAroundUser,bind_eq_error,unwrap_eq_error] at h
    rcases h with h | ⟨_,_,h | ⟨_,_,h | ⟨_,_,h | ⟨_,_,h | ⟨_,_,h | ⟨_,_,h | ⟨_,_,h⟩⟩⟩⟩⟩⟩⟩
    · obtain ⟨hn,rfl⟩ := asString_eq_error_iff.mp h
      exact Or.inl ⟨_,rfl,child,by simp,fun hf => hn hf.1⟩
    · obtain ⟨hn,rfl⟩ := asDouble_eq_error_iff.mp h
      exact Or.inl ⟨_,rfl,child,by simp,fun hf => hn hf.2.1⟩
    · obtain ⟨hn,rfl⟩ := asDouble_eq_error_iff.mp h
      exact Or.inl ⟨_,rfl,child,by simp,fun hf => hn hf.2.2.1⟩
    · obtain ⟨hn,rfl⟩ := asDouble_eq_error_iff.mp h
      exact Or.inl ⟨_,rfl,child,by simp,fun hf => hn hf.2.2.2.1⟩
    · obtain ⟨hn,rfl⟩ := asDouble_eq_error_iff.mp h
      exact Or.inl ⟨_,rfl,child,by simp,fun hf => hn hf.2.2.2.2⟩
    · exact Or.inr ⟨h.2.symm,h.1⟩
    · rcases ih h with ⟨field,ht,c,hc,hf⟩ | ht
      · exact Or.inl ⟨field,ht,c,by simp [hc],hf⟩
      · exact Or.inr ht
    · split at h <;> contradiction

theorem getNumberOfEnemiesAroundUser_eq_error {p : Platform K}
    {location : Option (Coordinate K)} {cs : List (String × FNode K)} {t : Trap}
    (h : MapVC.getNumberOfEnemiesAroundUser p location cs = .error t) :
    (∃ field, t = .cast .getNumberOfEnemiesAroundUser field ∧ ∃ c ∈ cs, ¬ CountFields c.2) ∨
      (t = .userLocation ∧ location = none) := by
  induction cs with
  | nil => contradiction
  | cons child rest ih =>
    simp only [MapVC.getNumberOfEnemiesAroundUser,bind_eq_error,unwrap_eq_error] at h
    rcases h with h | ⟨_,_,h | ⟨_,_,h | ⟨_,_,h | ⟨_,_,h⟩⟩⟩⟩
    · obtain ⟨hn,rfl⟩ := asDouble_eq_error_iff.mp h
      exact Or.inl ⟨_,rfl,child,by simp,fun hf => hn hf.1⟩
    · obtain ⟨hn,rfl⟩ := asDouble_eq_error_iff.mp h
      exact Or.inl ⟨_,rfl,child,by simp,fun hf => hn hf.2⟩
    · exact Or.inr ⟨h.2.symm,h.1⟩
    · rcases ih h with ⟨field,ht,c,hc,hf⟩ | ht
      · exact Or.inl ⟨field,ht,c,by simp [hc],hf⟩
      · exact Or.inr ht
    · split at h <;> contradiction

variable [FloorRing K]

theorem findPlayersAroundUser_eq_error {p : Platform K} {self : User K}
    {location : Option (Coordinate K)} {cs : List (String × FNode K)} {t : Trap}
    (h : MapVC.findPlayersAroundUser p self location cs = .error t) :
    (∃ field, t = .cast .findPlayersAroundUser field ∧
        ∃ c ∈ cs, intOfString c.1 ≠ some self.userID ∧ ¬ PlayerFields c.2) ∨
      (t = .userLocation ∧ location = none) ∨
      (t = .userID .findPlayersAroundUser ∧ ∃ c ∈ cs, intOfString c.1 = none) := by
  induction cs with
  | nil => contradiction
  | cons child rest ih =>
    have hrest (h : MapVC.findPlayersAroundUser p self location rest = .error t) :
        (∃ field, t = .cast .findPlayersAroundUser field ∧ ∃ c ∈ child :: rest,
            intOfString c.1 ≠ some self.userID ∧ ¬ PlayerFields c.2) ∨
          (t = .userLocation ∧ location = none) ∨
          (t = .userID .findPlayersAroundUser ∧
            ∃ c ∈ child :: rest, intOfString c.1 = none) := by
      rcases ih h with ⟨field,ht,c,hc,hf⟩ | ht | ⟨ht,c,hc,hk⟩
      · exact Or.inl ⟨field,ht,c,by simp [hc],hf⟩
      · exact Or.inr (Or.inl ht)
      · exact Or.inr (Or.inr ⟨ht,c,by simp [hc],hk⟩)
    simp only [MapVC.findPlayersAroundUser] at h
    split at h
    · exact hrest h
    · next hself =>
      simp only [bind_eq_error,unwrap_eq_error] at h
      rcases h with h | ⟨_,_,h | ⟨_,_,h | ⟨_,_,h | ⟨_,_,h | ⟨_,_,h | ⟨_,_,h | ⟨_,_,h⟩⟩⟩⟩⟩⟩⟩
      · obtain ⟨hn,rfl⟩ := asString_eq_error_iff.mp h
        exact Or.inl ⟨_,rfl,child,by simp,hself,fun hf => hn hf.1⟩
      · obtain ⟨hn,rfl⟩ := asDouble_eq_error_iff.mp h
        exact Or.inl ⟨_,rfl,child,by simp,hself,fun hf => hn hf.2.1⟩
      · obtain ⟨hn,rfl⟩ := asDouble_eq_error_iff.mp h
        exact Or.inl ⟨_,rfl,child,by simp,hself,fun hf => hn hf.2.2.1⟩
      · obtain ⟨hn,rfl⟩ := asInt_eq_error_iff.mp h
        exact Or.inl ⟨_,rfl,child,by simp,hself,fun hf => hn hf.2.2.2.1⟩
      · obtain ⟨hn,rfl⟩ := asDouble_eq_error_iff.mp h
        exact Or.inl ⟨_,rfl,child,by simp,hself,fun hf => hn hf.2.2.2.2.1⟩
      · obtain ⟨hn,rfl⟩ := asDouble_eq_error_iff.mp h
        exact Or.inl ⟨_,rfl,child,by simp,hself,fun hf => hn hf.2.2.2.2.2⟩
      · exact Or.inr (Or.inl ⟨h.2.symm,h.1⟩)
      · split at h
        · simp only [bind_eq_error,unwrap_eq_error] at h
          rcases h with ⟨hk,rfl⟩ | ⟨_,_,h | ⟨_,_,h⟩⟩
          · exact Or.inr (Or.inr ⟨rfl,child,by simp,hk⟩)
          · exact hrest h
          · contradiction
        · exact hrest h

theorem findPlayersAroundUser_eq_ok {p : Platform K} {self : User K}
    {location : Option (Coordinate K)} {cs : List (String × FNode K)} {users : List (User K)}
    (h : MapVC.findPlayersAroundUser p self location cs = .ok users) :
    ∀ c ∈ cs, intOfString c.1 ≠ some self.userID → PlayerFields c.2 := by
  induction cs generalizing users with
  | nil => simp
  | cons child rest ih =>
    intro c hc hself
    simp only [MapVC.findPlayersAroundUser] at h
    rcases List.mem_cons.mp hc with rfl | hc
    · rw [if_neg hself] at h
      obtain ⟨username,hu,h⟩ := bind_eq_ok.mp h
      obtain ⟨health,hh,h⟩ := bind_eq_ok.mp h
      obtain ⟨power,hp,h⟩ := bind_eq_ok.mp h
      obtain ⟨totalExp,he,h⟩ := bind_eq_ok.mp h
      obtain ⟨latitude,hlat,h⟩ := bind_eq_ok.mp h
      obtain ⟨longitude,hlong,_⟩ := bind_eq_ok.mp h
      exact ⟨⟨username,asString_eq_ok.mp hu⟩,holdsNumber_of_asDouble hh,
        holdsNumber_of_asDouble hp,⟨totalExp,asInt_eq_ok_congr he⟩,
        holdsNumber_of_asDouble hlat,holdsNumber_of_asDouble hlong⟩
    · split at h
      · exact ih h c hc hself
      · obtain ⟨_,_,h⟩ := bind_eq_ok.mp h
        obtain ⟨_,_,h⟩ := bind_eq_ok.mp h
        obtain ⟨_,_,h⟩ := bind_eq_ok.mp h
        obtain ⟨_,_,h⟩ := bind_eq_ok.mp h
        obtain ⟨_,_,h⟩ := bind_eq_ok.mp h
        obtain ⟨_,_,h⟩ := bind_eq_ok.mp h
        obtain ⟨_,_,h⟩ := bind_eq_ok.mp h
        split at h
        · obtain ⟨_,_,h⟩ := bind_eq_ok.mp h
          obtain ⟨_,hr,_⟩ := bind_eq_ok.mp h
          exact ih hr c hc hself
        · exact ih h c hc hself

theorem loginIfValid_eq_error {u pw : String} {cs : List (String × FNode K)} {t : Trap}
    (h : LoginVC.loginIfValid u pw cs = .error t) :
    (∃ field, t = .cast .loginIfValid field ∧ ∃ c ∈ cs, ¬ LoginFields c.2) ∨
      (t = .userID .loginIfValid ∧ ∃ c ∈ cs, intOfString c.1 = none) := by
  induction cs with
  | nil => contradiction
  | cons child rest ih =>
    simp only [LoginVC.loginIfValid,bind_eq_error] at h
    rcases h with h | ⟨_,_,h | ⟨_,_,h | ⟨_,_,h | ⟨_,_,h | ⟨_,_,h⟩⟩⟩⟩⟩
    · obtain ⟨hn,rfl⟩ := asString_eq_error_iff.mp h
      exact Or.inl ⟨_,rfl,child,by simp,fun hf => hn hf.1⟩
    · obtain ⟨hn,rfl⟩ := asString_eq_error_iff.mp h
      exact Or.inl ⟨_,rfl,child,by simp,fun hf => hn hf.2.1⟩
    · obtain ⟨hn,rfl⟩ := asDouble_eq_error_iff.mp h
      exact Or.inl ⟨_,rfl,child,by simp,fun hf => hn hf.2.2.1⟩
    · obtain ⟨hn,rfl⟩ := asDouble_eq_error_iff.mp h
      exact Or.inl ⟨_,rfl,child,by simp,fun hf => hn hf.2.2.2.1⟩
    · obtain ⟨hn,rfl⟩ := asInt_eq_error_iff.mp h
      exact Or.inl ⟨_,rfl,child,by simp,fun hf => hn hf.2.2.2.2⟩
    · split at h
      · rcases bind_eq_error.mp h with hk | ⟨_,_,h⟩
        · obtain ⟨hnone,rfl⟩ := unwrap_eq_error.mp hk
          exact Or.inr ⟨rfl,child,by simp,hnone⟩
        · contradiction
      · rcases ih h with ⟨field,ht,c,hc,hf⟩ | ⟨ht,c,hc,hk⟩
        · exact Or.inl ⟨field,ht,c,by simp [hc],hf⟩
        · exact Or.inr ⟨ht,c,by simp [hc],hk⟩

theorem loginIfValid_eq_some {u pw : String} {cs : List (String × FNode K)} {user : User K}
    (h : LoginVC.loginIfValid u pw cs = .ok (some user)) :
    ∃ c ∈ cs, c.2.getImmediateChild "username" = .leaf (.string u) ∧
      c.2.getImmediateChild "password" = .leaf (.string pw) ∧
      ∃ userID health power totalExp, intOfString c.1 = some userID ∧
        asDouble .loginIfValid "health" c.2 = .ok health ∧
        asDouble .loginIfValid "power" c.2 = .ok power ∧
        asInt .loginIfValid "totalExp" c.2 = .ok totalExp ∧
        user = User.init u (some pw) userID health power totalExp := by
  induction cs with
  | nil => simp [LoginVC.loginIfValid] at h
  | cons child rest ih =>
    obtain ⟨username,hu,h⟩ := bind_eq_ok.mp h
    obtain ⟨password,hp,h⟩ := bind_eq_ok.mp h
    obtain ⟨health,hh,h⟩ := bind_eq_ok.mp h
    obtain ⟨power,hpow,h⟩ := bind_eq_ok.mp h
    obtain ⟨totalExp,hexp,h⟩ := bind_eq_ok.mp h
    split at h
    · next he =>
      obtain ⟨userID,hk,hr⟩ := bind_eq_ok.mp h
      obtain ⟨rfl,rfl⟩ := he
      simp only [Except.ok.injEq,Option.some.injEq] at hr
      exact ⟨child,by simp,asString_eq_ok.mp hu,asString_eq_ok.mp hp,userID,health,power,
        totalExp,unwrap_eq_ok.mp hk,hh,hpow,hexp,hr.symm⟩
    · obtain ⟨c,hc,hrest⟩ := ih h
      exact ⟨c,by simp [hc],hrest⟩

theorem loginIfValid_eq_none {u pw : String} {cs : List (String × FNode K)}
    (h : LoginVC.loginIfValid u pw cs = .ok none) :
    ∀ c ∈ cs, ¬ (c.2.getImmediateChild "username" = .leaf (.string u) ∧
      c.2.getImmediateChild "password" = .leaf (.string pw)) := by
  induction cs with
  | nil => simp
  | cons child rest ih =>
    obtain ⟨username,hu,h⟩ := bind_eq_ok.mp h
    obtain ⟨password,hp,h⟩ := bind_eq_ok.mp h
    obtain ⟨health,hh,h⟩ := bind_eq_ok.mp h
    obtain ⟨power,hpow,h⟩ := bind_eq_ok.mp h
    obtain ⟨totalExp,hexp,h⟩ := bind_eq_ok.mp h
    split at h
    · obtain ⟨userID,hk,h⟩ := bind_eq_ok.mp h
      simp at h
    · next he =>
      intro c hc
      rcases List.mem_cons.mp hc with rfl | hc
      · rw [asString_eq_ok.mp hu,asString_eq_ok.mp hp]
        simpa using he
      · exact ih h c hc

end

end

end GFLGO
