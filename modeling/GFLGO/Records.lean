import GFLGO.Accounts
import GFLGO.Map

/-! One record of a collection, and what the writes on their way make of it. -/

set_option autoImplicit false

namespace GFLGO

section
variable {K : Type}

theorem collection_applyWrite (store : FNode K) (coll key : String) (rest : List String)
    (node : FNode K) :
    (applyWrite ⟨coll :: key :: rest,node⟩ store).getImmediateChild coll =
      (store.getImmediateChild coll).updateImmediateChild key
        (((store.getImmediateChild coll).getImmediateChild key).updateChild rest node) := by
  rw [applyWrite,PathTree.updateChild_cons,PathTree.getImmediateChild_updateImmediateChild_self,
    PathTree.updateChild_cons]

theorem collection_applyWrite_of_ne (store : FNode K) {coll coll' : String} (rest : List String)
    (node : FNode K) (h : coll ≠ coll') :
    (applyWrite ⟨coll' :: rest,node⟩ store).getImmediateChild coll =
      store.getImmediateChild coll := by
  rw [applyWrite,PathTree.updateChild_cons,
    PathTree.getImmediateChild_updateImmediateChild_ne _ _ h]

/-- Writes elsewhere leave a field alone: in another collection, below another
key, or of another field. -/
theorem getChild_applyWrite_coll (store : FNode K) {coll coll' : String}
    (rest rest' : List String) (node : FNode K) (h : coll ≠ coll') :
    (applyWrite ⟨coll' :: rest',node⟩ store).getChild (coll :: rest) =
      store.getChild (coll :: rest) :=
  PathTree.getChild_updateChild_of_diverge store node [] rest' rest h

theorem getChild_applyWrite_key (store : FNode K) (coll : String) {key key' : String}
    (rest rest' : List String) (node : FNode K) (h : key ≠ key') :
    (applyWrite ⟨coll :: key' :: rest',node⟩ store).getChild (coll :: key :: rest) =
      store.getChild (coll :: key :: rest) :=
  PathTree.getChild_updateChild_of_diverge store node [coll] rest' rest h

theorem getChild_applyWrite_field (store : FNode K) (coll key key' : String) {f f' : String}
    (node : FNode K) (h : f ≠ f') :
    (applyWrite ⟨[coll,key',f'],node⟩ store).getChild [coll,key,f] =
      store.getChild [coll,key,f] := by
  by_cases hk : key = key'
  · subst hk
    exact PathTree.getChild_updateChild_of_diverge store node [coll,key] [] [] h
  · exact getChild_applyWrite_key store coll [f] [f'] node hk

theorem getChild_applyWrite_self (store : FNode K) (path : List String) (node : FNode K) :
    (applyWrite ⟨path,node⟩ store).getChild path = node :=
  PathTree.getChild_updateChild_self store node path

def record (coll key : String) (store : FNode K) : FNode K := store.getChild [coll,key]

theorem record_eq (coll key : String) (store : FNode K) :
    record coll key store = (store.getImmediateChild coll).getImmediateChild key := rfl

def Write.isBelow (coll key : String) (x : Write K) : Bool := x.path.take 2 = [coll,key]

theorem isBelow_of_ne {coll key key' : String} {x : Write K} (h : x.isBelow coll key = true)
    (hne : key ≠ key') : x.isBelow coll key' = false := by
  have htake : x.path.take 2 = [coll,key] := by simpa [Write.isBelow] using h
  simpa [Write.isBelow,htake] using hne

def Write.inRecord (x : Write K) (node : FNode K) : FNode K :=
  node.updateChild (x.path.drop 2) x.node

/-- The record once all writes of the list have been applied. -/
def settle (coll key : String) (ws : List (Write K)) (node : FNode K) : FNode K :=
  (ws.filter (fun x => x.isBelow coll key)).foldl (fun node x => x.inRecord node) node

theorem record_applyWrite {coll key : String} {x : Write K} (h : x.isBelow coll key = true)
    (store : FNode K) :
    record coll key (applyWrite x store) = x.inRecord (record coll key store) := by
  have htake : x.path.take 2 = [coll,key] := by simpa [Write.isBelow] using h
  have hpath : x.path = [coll,key] ++ x.path.drop 2 := by
    rw [← htake,List.take_append_drop]
  rw [record,applyWrite,hpath,PathTree.getChild_updateChild_append,Write.inRecord,record]

def Write.Addressed (x : Write K) : Prop := ∃ coll key rest, x.path = coll :: key :: rest

theorem record_applyWrite_of_ne {coll key : String} {x : Write K} (ha : x.Addressed)
    (h : x.isBelow coll key = false) (store : FNode K) :
    record coll key (applyWrite x store) = record coll key store := by
  obtain ⟨coll',key',rest,hpath⟩ := ha
  rw [record,applyWrite,hpath]
  by_cases hcoll : coll = coll'
  · subst hcoll
    have hkey : key ≠ key' := by
      rintro rfl
      simp [Write.isBelow,hpath] at h
    exact PathTree.getChild_updateChild_of_diverge store x.node [coll] rest [] hkey
  · exact PathTree.getChild_updateChild_of_diverge store x.node [] (key' :: rest) [key] hcoll

section
variable {coll key : String} {x : Write K} {ws vs : List (Write K)} {node : FNode K}

@[simp] theorem settle_nil : settle coll key [] node = node := rfl

theorem settle_cons (h : x.isBelow coll key = true) :
    settle coll key (x :: ws) node = settle coll key ws (x.inRecord node) := by
  rw [settle,List.filter_cons_of_pos h]
  rfl

theorem settle_cons_of_ne (h : x.isBelow coll key = false) :
    settle coll key (x :: ws) node = settle coll key ws node := by
  rw [settle,List.filter_cons_of_neg (by simp [h])]
  rfl

theorem settle_append :
    settle coll key (ws ++ vs) node = settle coll key vs (settle coll key ws node) := by
  rw [settle,List.filter_append,List.foldl_append]
  rfl

theorem settle_of_forall_ne (h : ∀ x ∈ ws, x.isBelow coll key = false) :
    settle coll key ws node = node := by
  rw [settle,List.filter_eq_nil_iff.mpr (fun x hx => by simp [h x hx])]
  rfl

theorem settle_applyWrite (ha : x.Addressed) (store : FNode K) :
    settle coll key ws (record coll key (applyWrite x store)) =
      settle coll key (x :: ws) (record coll key store) := by
  cases h : x.isBelow coll key with
  | true => rw [record_applyWrite h,settle_cons h]
  | false => rw [record_applyWrite_of_ne ha h,settle_cons_of_ne h]

end

/-- What the writes of one client make of the store. -/
def drain (ws : List (Write K)) (store : FNode K) : FNode K :=
  ws.foldl (fun store x => applyWrite x store) store

@[simp] theorem drain_nil (store : FNode K) : drain [] store = store := rfl

@[simp] theorem drain_cons (x : Write K) (ws : List (Write K)) (store : FNode K) :
    drain (x :: ws) store = drain ws (applyWrite x store) := rfl

theorem drain_append (ws vs : List (Write K)) (store : FNode K) :
    drain (ws ++ vs) store = drain vs (drain ws store) := List.foldl_append

theorem record_drain {coll key : String} {ws : List (Write K)} (ha : ∀ x ∈ ws, x.Addressed)
    (store : FNode K) :
    record coll key (drain ws store) = settle coll key ws (record coll key store) := by
  induction ws generalizing store with
  | nil => rfl
  | cons x ws ih =>
    obtain ⟨hx,hrest⟩ := List.forall_mem_cons.mp ha
    rw [drain_cons,ih hrest,settle_applyWrite hx]

def User.field (user : User K) (f : String) : FNode K :=
  if f = "username" then .leaf (.string user.username)
  else if f = "password" then (user.password.map (fun pw => .leaf (.string pw))).getD .empty
  else if f = "health" then .leaf (.double user.health)
  else if f = "power" then .leaf (.double user.power)
  else if f = "totalExp" then .leaf (.int user.totalExp)
  else .empty

def IsRecord (user : User K) (node : FNode K) : Prop :=
  ∀ f, node.getImmediateChild f = user.field f

theorem userWrites_path (user : User K) (key : String) : ∀ x ∈ SignupVC.userWrites key user,
    x.path = ["users",key] ∨
      ∃ f ∈ ["username","password","health","power","totalExp"], x.path = ["users",key,f] := by
  unfold SignupVC.userWrites
  cases user.password <;> simp [setOptional,setValue,removeValue]

theorem userWrites_below (user : User K) (key : String) :
    ∀ x ∈ SignupVC.userWrites key user, x.isBelow "users" key = true := by
  intro x hx
  rcases userWrites_path user key x hx with hpath | ⟨f,_,hpath⟩
  · simp [Write.isBelow,hpath]
  · simp [Write.isBelow,hpath]

theorem enemyWrites_path (enemy : Enemy K) : ∀ x ∈ MapVC.enemyWrites enemy,
    ∃ rest, x.path = "enemies" :: enemy.identifier :: rest := by
  unfold MapVC.enemyWrites
  cases enemy.name <;> simp [setOptional,setValue,removeValue]

theorem isRecord_settle_userWrites (user : User K) (key : String) (node : FNode K) :
    IsRecord user (settle "users" key (SignupVC.userWrites key user) node) := by
  intro f
  rw [settle,List.filter_eq_self.mpr (userWrites_below user key)]
  unfold SignupVC.userWrites
  cases hp : user.password with
  | none =>
    simp only [Option.map_none,setOptional,setValue,removeValue,List.foldl_cons,List.foldl_nil,
      Write.inRecord,List.drop_succ_cons,List.drop_zero,PathTree.updateChild_nil,
      PathTree.updateChild_cons,PathTree.getImmediateChild_updateImmediateChild,
      PathTree.getImmediateChild_leaf,User.field,hp]
    grind
  | some pw =>
    simp only [Option.map_some,setOptional,setValue,List.foldl_cons,List.foldl_nil,
      Write.inRecord,List.drop_succ_cons,List.drop_zero,PathTree.updateChild_nil,
      PathTree.updateChild_cons,PathTree.getImmediateChild_updateImmediateChild,
      PathTree.getImmediateChild_leaf,User.field,hp]
    grind

end

end GFLGO
