import Mathlib.Tactic.Linarith
import Mathlib.Tactic.NormNum.OfScientific
import GFLGO.EnemyStore
import GFLGO.Fight
import GFLGO.Nearby
import GFLGO.Removal
import GFLGO.TreeSchema

/-!
The schema of the database, which no rule enforces: what the app stores at which
path, and what that says about everybody who plays.
-/

set_option autoImplicit false

namespace GFLGO

open PathTree

section
variable {K : Type} [Field K] {N : String → Prop}

/-- Health and power are never changed, and experience is only added to. -/
inductive UserField : String → Value K → Prop
  | username (s : String) : UserField "username" (.string s)
  | password (s : String) : UserField "password" (.string s)
  | health : UserField "health" (.double 50)
  | power : UserField "power" (.double 3.2)
  | totalExp {n : Int} (h : 10 ≤ n) : UserField "totalExp" (.int n)
  | latitude (x : K) : UserField "latitude" (.double x)
  | longitude (x : K) : UserField "longitude" (.double x)

inductive EnemyField (N : String → Prop) : String → Value K → Prop
  | name {s : String} (h : N s) : EnemyField N "name" (.string s)
  | health : EnemyField N "health" (.double 30)
  | power : EnemyField N "power" (.double 2)
  | latitude (x : K) : EnemyField N "latitude" (.double x)
  | longitude (x : K) : EnemyField N "longitude" (.double x)

theorem UserField.of_password {v : Value K} (h : UserField "password" v) : ∃ s, v = .string s := by
  generalize hf : "password" = f at h
  cases h with
  | password s => exact ⟨s,rfl⟩
  | _ => simp at hf

theorem UserField.of_health {v : Value K} (h : UserField "health" v) : v = .double 50 := by
  generalize hf : "health" = f at h
  cases h with
  | health => rfl
  | _ => simp at hf

theorem UserField.of_power {v : Value K} (h : UserField "power" v) : v = .double 3.2 := by
  generalize hf : "power" = f at h
  cases h with
  | power => rfl
  | _ => simp at hf

theorem UserField.of_totalExp {v : Value K} (h : UserField "totalExp" v) :
    ∃ n : Int, 10 ≤ n ∧ v = .int n := by
  generalize hf : "totalExp" = f at h
  cases h with
  | totalExp h => exact ⟨_,h,rfl⟩
  | _ => simp at hf

theorem EnemyField.of_name {s : String} (h : EnemyField N "name" (.string s : Value K)) : N s := by
  generalize hf : "name" = f at h
  generalize hv : (.string s : Value K) = v at h
  cases h with
  | name h =>
    cases hv
    exact h
  | _ => simp at hf

theorem EnemyField.of_health {v : Value K} (h : EnemyField N "health" v) : v = .double 30 := by
  generalize hf : "health" = f at h
  cases h with
  | health => rfl
  | _ => simp at hf

theorem EnemyField.of_power {v : Value K} (h : EnemyField N "power" v) : v = .double 2 := by
  generalize hf : "power" = f at h
  cases h with
  | power => rfl
  | _ => simp at hf

/-- What may stand where in the database. A record starts as its own key. -/
inductive Stored (N : String → Prop) : List String → Value K → Prop
  | userID (n : Int) : Stored N ["users",stringOfInt n] (.int n)
  | user (key : String) {f : String} {v : Value K} (h : UserField f v) :
    Stored N ["users",key,f] v
  | identifier (key : String) : Stored N ["enemies",key] (.string key)
  | enemy (key : String) {f : String} {v : Value K} (h : EnemyField N f v) :
    Stored N ["enemies",key,f] v

theorem Stored.userField {key f : String} {v : Value K} (h : Stored N ["users",key,f] v) :
    UserField f v := by
  generalize hp : ["users",key,f] = path at h
  cases h with
  | userID n => simp at hp
  | user key h =>
    simp only [List.cons.injEq,and_true,true_and] at hp
    exact hp.2 ▸ h
  | identifier key => simp at hp
  | enemy key h => simp at hp

theorem Stored.enemyField {key f : String} {v : Value K} (h : Stored N ["enemies",key,f] v) :
    EnemyField N f v := by
  generalize hp : ["enemies",key,f] = path at h
  cases h with
  | userID n => simp at hp
  | user key h => simp at hp
  | identifier key => simp at hp
  | enemy key h =>
    simp only [List.cons.injEq,and_true,true_and] at hp
    exact hp.2 ▸ h

structure User.Playing (user : User K) : Prop where
  health : user.health = 50
  power : user.power = 3.2
  totalExp : 10 ≤ user.totalExp
  exp : user.exp = user.totalExp.tmod 5
  level : user.level = user.totalExp.tdiv 5

structure Enemy.Roaming (enemy : Enemy K) (N : String → Prop) : Prop where
  health : enemy.health = 30
  power : enemy.power = 2
  name : ∀ name, enemy.name = some name → N name

theorem User.playing_init (username : String) (password : Option String) (userID : Int)
    {totalExp : Int} (h : 10 ≤ totalExp) :
    (User.init username password userID (50 : K) 3.2 totalExp).Playing :=
  ⟨rfl,rfl,h,rfl,rfl⟩

theorem User.Playing.addExperience {user : User K} (h : user.Playing) :
    (user.addExperience 1).1.Playing := by
  have hexp := h.totalExp
  refine ⟨h.health,h.power,?_,rfl,rfl⟩
  simp only [User.addExperience]
  omega

section
variable {key : String} {node : FNode K} {reader : Reader}

theorem value_of_asDouble {f : String} {x : K} (h : asDouble reader f node = .ok x) :
    ∃ v, node.getImmediateChild f = .leaf v ∧ (v = .double x ∨ ∃ n : Int, v = .int n) := by
  unfold asDouble at h
  split at h
  · next y hy =>
    cases h
    exact ⟨_,hy,Or.inl rfl⟩
  · next n hy => exact ⟨_,hy,Or.inr ⟨n,rfl⟩⟩
  · cases h

theorem userField_of_leaf (h : Conforms (Stored N) ["users",key] node) {f : String} {v : Value K}
    (hv : node.getImmediateChild f = .leaf v) : UserField f v := by
  have hc := h.getImmediateChild f
  rw [hv] at hc
  exact hc.of_leaf.userField

theorem enemyField_of_leaf (h : Conforms (Stored N) ["enemies",key] node) {f : String} {v : Value K}
    (hv : node.getImmediateChild f = .leaf v) : EnemyField N f v := by
  have hc := h.getImmediateChild f
  rw [hv] at hc
  exact hc.of_leaf.enemyField

theorem userStats_of_asDouble (h : Conforms (Stored N) ["users",key] node) {x y : K}
    (hx : asDouble reader "health" node = .ok x) (hy : asDouble reader "power" node = .ok y) :
    x = 50 ∧ y = 3.2 := by
  obtain ⟨v,hv,hvx⟩ := value_of_asDouble hx
  obtain ⟨u,hu,huy⟩ := value_of_asDouble hy
  cases (userField_of_leaf h hv).of_health
  cases (userField_of_leaf h hu).of_power
  simpa [eq_comm] using And.intro hvx huy

theorem enemyStats_of_asDouble (h : Conforms (Stored N) ["enemies",key] node) {x y : K}
    (hx : asDouble reader "health" node = .ok x) (hy : asDouble reader "power" node = .ok y) :
    x = 30 ∧ y = 2 := by
  obtain ⟨v,hv,hvx⟩ := value_of_asDouble hx
  obtain ⟨u,hu,huy⟩ := value_of_asDouble hy
  cases (enemyField_of_leaf h hv).of_health
  cases (enemyField_of_leaf h hu).of_power
  simpa [eq_comm] using And.intro hvx huy

theorem totalExp_of_asInt [LinearOrder K] [FloorRing K] (h : Conforms (Stored N) ["users",key] node)
    {n : Int} (hn : asInt reader "totalExp" node = .ok n) : 10 ≤ n := by
  unfold asInt at hn
  split at hn
  · next m hm =>
    cases hn
    simpa using (userField_of_leaf h hm).of_totalExp
  · next x hx => simpa using (userField_of_leaf h hx).of_totalExp
  · cases hn

theorem playing_of_login [LinearOrder K] [FloorRing K] {users : FNode K}
    (h : Conforms (Stored N) ["users"] users) {username password : String} {user : User K}
    (hl : LoginVC.loginIfValid username password users.children = .ok (some user)) :
    user.Playing := by
  obtain ⟨c,hc,_,_,userID,health,power,totalExp,_,hhealth,hpower,hexp,rfl⟩ :=
    loginIfValid_eq_some hl
  obtain ⟨rfl,rfl⟩ := userStats_of_asDouble (h.child hc) hhealth hpower
  exact User.playing_init username _ userID (totalExp_of_asInt (h.child hc) hexp)

theorem roaming_of_decodes {child : String × FNode K} {enemy : Enemy K}
    (h : Conforms (Stored N) ["enemies",child.1] child.2) (hd : Decodes child enemy) :
    enemy.Roaming N := by
  obtain ⟨hhealth,hpower⟩ := enemyStats_of_asDouble h hd.health hd.power
  refine ⟨hhealth,hpower,fun name hname => ?_⟩
  obtain ⟨stored,hstored,hleaf⟩ := hd.name
  obtain rfl : stored = name := Option.some.inj (hstored.symm.trans hname)
  exact (enemyField_of_leaf h hleaf).of_name

theorem roaming_of_scan [LinearOrder K] {p : Platform K} {location : Option (Coordinate K)}
    {randomName : String} {tree : FNode K} (h : Conforms (Stored N) ["enemies"] tree)
    {enemies : List (Enemy K)}
    (hf : MapVC.findEnemiesAroundUser p location randomName tree.children = .ok enemies) :
    ∀ enemy ∈ enemies, enemy.Roaming N := by
  intro enemy he
  obtain ⟨c,hc,hd⟩ := exists_of_mem_right (findEnemiesAroundUser_eq_ok hf).2 he
  exact roaming_of_decodes (h.child (nearChildren_sublist.subset hc)) hd

end

def Write.Conforming (x : Write K) (N : String → Prop) : Prop := Conforms (Stored N) x.path x.node

theorem conforming_setValue {path : List String} {v : Value K} (h : Stored N path v) :
    (setValue path v).Conforming N := .leaf h

theorem conforming_setOptional {path : List String} {o : Option (Value K)}
    (h : ∀ v ∈ o, Stored N path v) : (setOptional path o).Conforming N := by
  cases o with
  | none => exact .empty
  | some v => exact conforming_setValue (h v rfl)

theorem conforming_userWrites {user : User K} (h : user.Playing) :
    ∀ x ∈ SignupVC.userWrites (stringOfInt user.userID) user, x.Conforming N := by
  simp only [SignupVC.userWrites,List.forall_mem_cons]
  refine ⟨conforming_setValue (.userID _),?_,conforming_setOptional (fun v hv => ?_),?_,?_,?_,
    by simp⟩
  · exact conforming_setValue (.user _ (.username _))
  · obtain ⟨pw,-,rfl⟩ := Option.map_eq_some_iff.mp hv
    exact .user _ (.password pw)
  · exact conforming_setValue (.user _ (h.health ▸ .health))
  · exact conforming_setValue (.user _ (h.power ▸ .power))
  · exact conforming_setValue (.user _ (.totalExp h.totalExp))

theorem conforming_enemyWrites {enemy : Enemy K} (h : enemy.Roaming N) :
    ∀ x ∈ MapVC.enemyWrites enemy, x.Conforming N := by
  simp only [MapVC.enemyWrites,List.forall_mem_cons]
  refine ⟨conforming_setValue (.identifier _),conforming_setOptional (fun v hv => ?_),?_,?_,?_,?_,
    by simp⟩
  · obtain ⟨name,hname,rfl⟩ := Option.map_eq_some_iff.mp hv
    exact .enemy _ (.name (h.name name hname))
  · exact conforming_setValue (.enemy _ (h.health ▸ .health))
  · exact conforming_setValue (.enemy _ (h.power ▸ .power))
  · exact conforming_setValue (.enemy _ (.latitude _))
  · exact conforming_setValue (.enemy _ (.longitude _))

theorem conforming_locationWrites (user : User K) (c : Coordinate K) :
    ∀ x ∈ MapVC.locationWrites user c, x.Conforming N := by
  simp only [MapVC.locationWrites,List.forall_mem_cons]
  refine ⟨?_,?_,by simp⟩
  · exact conforming_setValue (.user _ (.latitude _))
  · exact conforming_setValue (.user _ (.longitude _))

theorem conforming_defeatWrites {user : User K} (h : user.Playing) (s : GameScene K) :
    ∀ x ∈ s.defeatWrites user, x.Conforming N := by
  have hexp := h.addExperience.totalExp
  simp only [GameScene.defeatWrites,List.forall_mem_cons]
  refine ⟨.empty,conforming_setValue (.user _ ?_),by simp⟩
  exact .totalExp hexp

end

def leafString {K : Type} : FNode K → Option String
  | .leaf (.string s) => some s
  | _ => none

theorem leafString_eq_some {K : Type} {node : FNode K} {s : String} :
    leafString node = some s ↔ node = .leaf (.string s) := by
  unfold leafString
  split
  · simp
  · next h =>
    simp only [reduceCtorEq,false_iff]
    exact h s

end GFLGO
