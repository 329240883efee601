import Mathlib.Data.List.Nodup
import Mathlib.Data.List.Perm.Basic

/-!
A tree addressed by paths of keys. Leaves hold values; a branch holds its
children in the order of their keys. Writing at a path replaces the subtree
there: a leaf on the way becomes a branch, and a branch that is left without
children disappears.
-/

set_option autoImplicit false

class KeyOrder (κ : Type) where
  precedes : κ → κ → Bool

namespace Dictionary

variable {κ α : Type}

def keys (cs : List (κ × α)) : List κ := cs.map Prod.fst

@[simp] theorem keys_nil : keys ([] : List (κ × α)) = [] := rfl

@[simp] theorem keys_cons (c : κ × α) (cs : List (κ × α)) :
    keys (c :: cs) = c.1 :: keys cs := rfl

def insertObject [KeyOrder κ] (k : κ) (v : α) : List (κ × α) → List (κ × α)
  | [] => [(k,v)]
  | c :: cs =>
    if KeyOrder.precedes k c.1 then (k,v) :: c :: cs else c :: insertObject k v cs

theorem insertObject_perm [KeyOrder κ] (k : κ) (v : α) (cs : List (κ × α)) :
    (insertObject k v cs).Perm ((k,v) :: cs) := by
  induction cs with
  | nil => exact List.Perm.refl _
  | cons c cs ih =>
    unfold insertObject
    split
    · exact List.Perm.refl _
    · exact (List.Perm.cons c ih).trans (List.Perm.swap _ _ _)

variable [DecidableEq κ]

def removeObject (k : κ) (cs : List (κ × α)) : List (κ × α) :=
  cs.filter (fun c => c.1 ≠ k)

theorem nodup_keys_removeObject {k : κ} {cs : List (κ × α)} (h : (keys cs).Nodup) :
    (keys (removeObject k cs)).Nodup :=
  h.sublist (List.filter_sublist.map Prod.fst)

theorem mem_keys_removeObject {k j : κ} {cs : List (κ × α)} :
    j ∈ keys (removeObject k cs) ↔ j ≠ k ∧ j ∈ keys cs := by
  simp only [keys,removeObject,List.mem_map,List.mem_filter,decide_eq_true_eq]
  constructor
  · rintro ⟨c,⟨hc,hk⟩,rfl⟩
    exact ⟨hk,c,hc,rfl⟩
  · rintro ⟨hk,c,hc,rfl⟩
    exact ⟨c,⟨hc,hk⟩,rfl⟩

theorem lookup_cons_ite (k : κ) (c : κ × α) (cs : List (κ × α)) :
    (c :: cs).lookup k = if k = c.1 then some c.2 else cs.lookup k := by
  obtain ⟨j,v⟩ := c
  by_cases h : k = j
  · simp [h]
  · rw [List.lookup_cons,show (k == j) = false by simp [h],if_neg h]

theorem lookup_removeObject (k j : κ) (cs : List (κ × α)) :
    (removeObject k cs).lookup j = if j = k then none else cs.lookup j := by
  induction cs with
  | nil => simp [removeObject]
  | cons c cs ih =>
    by_cases hc : c.1 = k
    · have hr : removeObject k (c :: cs) = removeObject k cs := by simp [removeObject,hc]
      rw [hr,ih,lookup_cons_ite,hc]
      by_cases hj : j = k <;> simp [hj]
    · have hr : removeObject k (c :: cs) = c :: removeObject k cs := by
        simp [removeObject,hc]
      rw [hr,lookup_cons_ite,lookup_cons_ite,ih]
      by_cases hj : j = k
      · have hne : j ≠ c.1 := fun he => hc (he.symm.trans hj)
        rw [if_neg hne,if_pos hj,if_pos hj]
      · simp [hj]

theorem lookup_of_mem {k : κ} {v : α} {cs : List (κ × α)} (hn : (keys cs).Nodup)
    (h : (k,v) ∈ cs) : cs.lookup k = some v := by
  induction cs with
  | nil => simp at h
  | cons c cs ih =>
    rw [keys_cons,List.nodup_cons] at hn
    rcases List.mem_cons.mp h with rfl | ht
    · simp
    · have hk : k ≠ c.1 := fun he => hn.1 (he ▸ List.mem_map_of_mem ht)
      rw [lookup_cons_ite,if_neg hk]
      exact ih hn.2 ht

theorem map_replace_of_not_mem {k : κ} (v : α) {cs : List (κ × α)} (h : k ∉ keys cs) :
    cs.map (fun c => if c.1 = k then (k,v) else c) = cs := by
  conv_rhs => rw [← List.map_id cs]
  apply List.map_congr_left
  intro c hc
  have hne : c.1 ≠ k := fun he => h (he ▸ List.mem_map_of_mem hc)
  simp [hne]

theorem lookup_map_replace {k j : κ} {v : α} {cs : List (κ × α)} (h : k ∈ keys cs) :
    (cs.map (fun c => if c.1 = k then (k,v) else c)).lookup j =
      if j = k then some v else cs.lookup j := by
  induction cs with
  | nil => simp at h
  | cons c cs ih =>
    rw [List.map_cons,lookup_cons_ite,lookup_cons_ite]
    by_cases hm : k ∈ keys cs
    · rw [ih hm]
      by_cases hc : c.1 = k
      · by_cases hj : j = k <;> simp [hc,hj]
      · by_cases hj : j = k
        · have hne : j ≠ c.1 := fun he => hc (he.symm.trans hj)
          rw [if_neg hc,if_neg hne,if_pos hj,if_pos hj]
        · simp [hc,hj]
    · have hc : c.1 = k := by
        rw [keys_cons,List.mem_cons] at h
        exact (h.resolve_right hm).symm
      rw [map_replace_of_not_mem v hm,if_pos hc,hc]
      by_cases hj : j = k <;> simp [hj]

/-- What setting a key that is there and removing one have in common. -/
def replaceObject (k : κ) (v : Option α) (cs : List (κ × α)) : List (κ × α) :=
  cs.filterMap (fun c => if c.1 = k then v.map (fun x => (k,x)) else some c)

theorem replaceObject_none (k : κ) (cs : List (κ × α)) :
    replaceObject k none cs = removeObject k cs := by
  rw [replaceObject,removeObject,← List.filterMap_eq_filter]
  refine List.filterMap_congr (fun c _ => ?_)
  by_cases h : c.1 = k <;> simp [h,Option.guard]

theorem replaceObject_comm {j k : κ} (h : j ≠ k) (u v : Option α) (cs : List (κ × α)) :
    replaceObject j u (replaceObject k v cs) = replaceObject k v (replaceObject j u cs) := by
  simp only [replaceObject,List.filterMap_filterMap]
  refine List.filterMap_congr (fun c _ => ?_)
  by_cases hj : c.1 = j
  · cases u <;> simp [hj,h]
  · by_cases hk : c.1 = k
    · cases v <;> simp [hk,Ne.symm h]
    · simp [hj,hk]

theorem replaceObject_replaceObject (k : κ) {u v : Option α} (h : u = none → v = none)
    (cs : List (κ × α)) : replaceObject k v (replaceObject k u cs) = replaceObject k v cs := by
  simp only [replaceObject,List.filterMap_filterMap]
  refine List.filterMap_congr (fun c _ => ?_)
  by_cases hk : c.1 = k
  · cases u with
    | none => simp [hk,h rfl]
    | some x => simp [hk]
  · simp [hk]

variable [KeyOrder κ]

/-- An existing key keeps its place, a new one is put in order. -/
def setObject (k : κ) (v : α) (cs : List (κ × α)) : List (κ × α) :=
  if k ∈ keys cs then cs.map (fun c => if c.1 = k then (k,v) else c)
  else insertObject k v cs

theorem lookup_insertObject_of_not_mem {k j : κ} {v : α} {cs : List (κ × α)}
    (h : k ∉ keys cs) :
    (insertObject k v cs).lookup j = if j = k then some v else cs.lookup j := by
  induction cs with
  | nil => simp [insertObject,lookup_cons_ite]
  | cons c cs ih =>
    rw [keys_cons,List.mem_cons,not_or] at h
    unfold insertObject
    split
    · rw [lookup_cons_ite]
    · rw [lookup_cons_ite,lookup_cons_ite,ih h.2]
      by_cases hj : j = k
      · subst hj
        simp [h.1]
      · simp [hj]

theorem lookup_setObject (k j : κ) (v : α) (cs : List (κ × α)) :
    (setObject k v cs).lookup j = if j = k then some v else cs.lookup j := by
  unfold setObject
  split
  · next h => exact lookup_map_replace h
  · next h => exact lookup_insertObject_of_not_mem h

theorem keys_setObject_of_mem {k : κ} {cs : List (κ × α)} (v : α) (h : k ∈ keys cs) :
    keys (setObject k v cs) = keys cs := by
  rw [setObject,if_pos h,keys,keys,List.map_map]
  apply List.map_congr_left
  intro c hc
  by_cases hk : c.1 = k <;> simp [hk]

theorem keys_setObject_of_not_mem {k : κ} {cs : List (κ × α)} (v : α) (h : k ∉ keys cs) :
    (keys (setObject k v cs)).Perm (k :: keys cs) := by
  rw [setObject,if_neg h]
  exact (insertObject_perm k v cs).map Prod.fst

theorem mem_keys_setObject {k j : κ} {v : α} {cs : List (κ × α)} :
    j ∈ keys (setObject k v cs) ↔ j = k ∨ j ∈ keys cs := by
  by_cases h : k ∈ keys cs
  · rw [keys_setObject_of_mem v h]
    constructor
    · exact Or.inr
    · rintro (rfl | hj)
      · exact h
      · exact hj
  · rw [(keys_setObject_of_not_mem v h).mem_iff,List.mem_cons]

theorem nodup_keys_setObject {k : κ} {v : α} {cs : List (κ × α)} (h : (keys cs).Nodup) :
    (keys (setObject k v cs)).Nodup := by
  by_cases hk : k ∈ keys cs
  · rw [keys_setObject_of_mem v hk]
    exact h
  · rw [(keys_setObject_of_not_mem v hk).nodup_iff]
    exact List.nodup_cons.mpr ⟨hk,h⟩

theorem replaceObject_some {k : κ} {cs : List (κ × α)} (h : k ∈ keys cs) (v : α) :
    replaceObject k (some v) cs = setObject k v cs := by
  rw [replaceObject,setObject,if_pos h,← List.filterMap_eq_map]
  refine List.filterMap_congr (fun c _ => ?_)
  by_cases hc : c.1 = k <;> simp [hc]

end Dictionary

inductive PathTree (κ ν : Type) where
  | leaf : ν → PathTree κ ν
  | branch : List (κ × PathTree κ ν) → PathTree κ ν

namespace PathTree

variable {κ ν : Type}

def empty : PathTree κ ν := .branch []

def isEmpty : PathTree κ ν → Bool
  | .branch [] => true
  | _ => false

theorem isEmpty_iff {t : PathTree κ ν} : t.isEmpty = true ↔ t = empty := by
  cases t with
  | leaf v => simp [isEmpty,empty]
  | branch cs => cases cs <;> simp [isEmpty,empty]

@[simp] theorem isEmpty_leaf (v : ν) : (leaf v : PathTree κ ν).isEmpty = false := rfl

@[simp] theorem isEmpty_empty : (empty : PathTree κ ν).isEmpty = true := rfl

def children : PathTree κ ν → List (κ × PathTree κ ν)
  | .leaf _ => []
  | .branch cs => cs

def numChildren (t : PathTree κ ν) : Nat := t.children.length

@[simp] theorem empty_ne_leaf (v : ν) : (empty : PathTree κ ν) ≠ leaf v := by
  simp [empty]

@[simp] theorem children_leaf (v : ν) : (leaf v : PathTree κ ν).children = [] := rfl

@[simp] theorem children_empty : (empty : PathTree κ ν).children = [] := rfl

@[simp] theorem children_branch (cs : List (κ × PathTree κ ν)) :
    (branch cs).children = cs := rfl

def childKeys (t : PathTree κ ν) : List κ := Dictionary.keys t.children

theorem numChildren_eq (t : PathTree κ ν) : t.numChildren = t.childKeys.length := by
  simp [numChildren,childKeys,Dictionary.keys]

variable [DecidableEq κ]

def getImmediateChild (t : PathTree κ ν) (k : κ) : PathTree κ ν :=
  (t.children.lookup k).getD empty

def getChild (t : PathTree κ ν) : List κ → PathTree κ ν
  | [] => t
  | k :: path => (t.getImmediateChild k).getChild path

@[simp] theorem getImmediateChild_leaf (v : ν) (k : κ) :
    (leaf v).getImmediateChild k = empty := rfl

@[simp] theorem getImmediateChild_empty (k : κ) :
    (empty : PathTree κ ν).getImmediateChild k = empty := rfl

@[simp] theorem getChild_nil (t : PathTree κ ν) : t.getChild [] = t := rfl

theorem getChild_cons (t : PathTree κ ν) (k : κ) (path : List κ) :
    t.getChild (k :: path) = (t.getImmediateChild k).getChild path := rfl

@[simp] theorem getChild_singleton (t : PathTree κ ν) (k : κ) :
    t.getChild [k] = t.getImmediateChild k := rfl

theorem getChild_append (t : PathTree κ ν) (p q : List κ) :
    t.getChild (p ++ q) = (t.getChild p).getChild q := by
  induction p generalizing t with
  | nil => rfl
  | cons k p ih => exact ih _

@[simp] theorem getChild_empty (path : List κ) :
    (empty : PathTree κ ν).getChild path = empty := by
  induction path with
  | nil => rfl
  | cons k path ih => exact ih

variable [KeyOrder κ]

/-- An empty child is removed. Below a leaf a non-empty child makes a branch. -/
def updateImmediateChild (t : PathTree κ ν) (k : κ) (child : PathTree κ ν) :
    PathTree κ ν :=
  match t with
  | .leaf v => if child.isEmpty then .leaf v else .branch [(k,child)]
  | .branch cs =>
    if child.isEmpty then .branch (Dictionary.removeObject k cs)
    else .branch (Dictionary.setObject k child cs)

def updateChild (t : PathTree κ ν) : List κ → PathTree κ ν → PathTree κ ν
  | [], child => child
  | k :: path, child =>
    t.updateImmediateChild k ((t.getImmediateChild k).updateChild path child)

@[simp] theorem updateChild_nil (t child : PathTree κ ν) : t.updateChild [] child = child := rfl

theorem isEmpty_updateImmediateChild (t : PathTree κ ν) (k : κ) {child : PathTree κ ν}
    (h : child.isEmpty = false) : (t.updateImmediateChild k child).isEmpty = false := by
  cases t with
  | leaf v =>
    simp only [updateImmediateChild,h,Bool.false_eq_true,if_false]
    rfl
  | branch cs =>
    simp only [updateImmediateChild,h,Bool.false_eq_true,if_false]
    have hk : k ∈ Dictionary.keys (Dictionary.setObject k child cs) :=
      Dictionary.mem_keys_setObject.mpr (Or.inl rfl)
    cases hs : Dictionary.setObject k child cs with
    | nil => simp [hs] at hk
    | cons c rest => rfl

theorem updateChild_cons (t : PathTree κ ν) (k : κ) (path : List κ) (child : PathTree κ ν) :
    t.updateChild (k :: path) child =
      t.updateImmediateChild k ((t.getImmediateChild k).updateChild path child) := rfl

theorem isEmpty_updateChild (t : PathTree κ ν) (path : List κ) {child : PathTree κ ν}
    (h : child.isEmpty = false) : (t.updateChild path child).isEmpty = false := by
  induction path generalizing t with
  | nil => exact h
  | cons k path ih => exact isEmpty_updateImmediateChild t k (ih _)

theorem getImmediateChild_updateImmediateChild (t child : PathTree κ ν) (k j : κ) :
    (t.updateImmediateChild k child).getImmediateChild j =
      if j = k then child else t.getImmediateChild j := by
  cases he : child.isEmpty with
  | true =>
    have hc := isEmpty_iff.mp he
    subst hc
    cases t with
    | leaf v => simp [updateImmediateChild]
    | branch cs =>
      simp only [updateImmediateChild,isEmpty_empty,if_true,getImmediateChild,
        children_branch,Dictionary.lookup_removeObject]
      split <;> rfl
  | false =>
    cases t with
    | leaf v =>
      by_cases hj : j = k <;>
        simp [updateImmediateChild,he,getImmediateChild,Dictionary.lookup_cons_ite,hj]
    | branch cs =>
      simp only [updateImmediateChild,he,Bool.false_eq_true,if_false,getImmediateChild,
        children_branch,Dictionary.lookup_setObject]
      split <;> rfl

@[simp] theorem getImmediateChild_updateImmediateChild_self (t child : PathTree κ ν) (k : κ) :
    (t.updateImmediateChild k child).getImmediateChild k = child := by
  rw [getImmediateChild_updateImmediateChild,if_pos rfl]

theorem getImmediateChild_updateImmediateChild_ne (t child : PathTree κ ν) {k j : κ}
    (h : j ≠ k) :
    (t.updateImmediateChild k child).getImmediateChild j = t.getImmediateChild j := by
  rw [getImmediateChild_updateImmediateChild,if_neg h]

/-- An update below a path is the same update in the subtree at that path. -/
theorem getChild_updateChild_append (t child : PathTree κ ν) (p q : List κ) :
    (t.updateChild (p ++ q) child).getChild p = (t.getChild p).updateChild q child := by
  induction p generalizing t with
  | nil => rfl
  | cons k p ih =>
    rw [List.cons_append,updateChild_cons,getChild_cons,
      getImmediateChild_updateImmediateChild_self,ih,getChild_cons]

@[simp] theorem getChild_updateChild_self (t child : PathTree κ ν) (p : List κ) :
    (t.updateChild p child).getChild p = child := by
  simpa using getChild_updateChild_append t child p []

theorem getChild_updateChild_of_diverge (t child : PathTree κ ν) (p : List κ) {k j : κ}
    (q r : List κ) (h : j ≠ k) :
    (t.updateChild (p ++ k :: q) child).getChild (p ++ j :: r) = t.getChild (p ++ j :: r) := by
  rw [getChild_append,getChild_updateChild_append,getChild_append,updateChild_cons,
    getChild_cons,getChild_cons,getImmediateChild_updateImmediateChild_ne _ _ h]

theorem childKeys_updateImmediateChild_of_mem {t child : PathTree κ ν} {k : κ}
    (hc : child.isEmpty = false) (h : k ∈ t.childKeys) :
    (t.updateImmediateChild k child).childKeys = t.childKeys := by
  cases t with
  | leaf v => simp [childKeys] at h
  | branch cs =>
    simp only [updateImmediateChild,hc,Bool.false_eq_true,if_false,childKeys,children_branch]
      at h ⊢
    exact Dictionary.keys_setObject_of_mem child h

theorem childKeys_updateImmediateChild_of_not_mem {t child : PathTree κ ν} {k : κ}
    (hc : child.isEmpty = false) (h : k ∉ t.childKeys) :
    (t.updateImmediateChild k child).childKeys.Perm (k :: t.childKeys) := by
  cases t with
  | leaf v => simp [updateImmediateChild,hc,childKeys]
  | branch cs =>
    simp only [updateImmediateChild,hc,Bool.false_eq_true,if_false,childKeys,children_branch]
      at h ⊢
    exact Dictionary.keys_setObject_of_not_mem child h

theorem mem_childKeys_updateImmediateChild {t child : PathTree κ ν} {k j : κ}
    (hc : child.isEmpty = false) :
    j ∈ (t.updateImmediateChild k child).childKeys ↔ j = k ∨ j ∈ t.childKeys := by
  by_cases hk : k ∈ t.childKeys
  · rw [childKeys_updateImmediateChild_of_mem hc hk]
    constructor
    · exact Or.inr
    · rintro (rfl | hj)
      · exact hk
      · exact hj
  · rw [(childKeys_updateImmediateChild_of_not_mem hc hk).mem_iff,List.mem_cons]

theorem mem_childKeys_updateImmediateChild_empty {t : PathTree κ ν} {k j : κ} :
    j ∈ (t.updateImmediateChild k empty).childKeys ↔ j ≠ k ∧ j ∈ t.childKeys := by
  cases t with
  | leaf v => simp [updateImmediateChild,childKeys]
  | branch cs =>
    simp only [updateImmediateChild,isEmpty_empty,if_true,childKeys,children_branch]
    exact Dictionary.mem_keys_removeObject

omit [KeyOrder κ] in
theorem getImmediateChild_of_not_mem {t : PathTree κ ν} {k : κ} (h : k ∉ t.childKeys) :
    t.getImmediateChild k = empty := by
  have hnone : t.children.lookup k = none := by
    rw [List.lookup_eq_none_iff]
    intro c hc
    simpa using fun he : k = c.1 => h (he ▸ List.mem_map_of_mem hc)
  rw [getImmediateChild,hnone]
  rfl

@[simp] theorem updateChild_empty (path : List κ) :
    (empty : PathTree κ ν).updateChild path empty = empty := by
  induction path with
  | nil => rfl
  | cons k path ih =>
    rw [updateChild_cons,getImmediateChild_empty,ih]
    simp [updateImmediateChild,empty,isEmpty,Dictionary.removeObject]

theorem nodup_childKeys_updateImmediateChild {t : PathTree κ ν} (k : κ)
    (child : PathTree κ ν) (h : t.childKeys.Nodup) :
    (t.updateImmediateChild k child).childKeys.Nodup := by
  cases t with
  | leaf v => cases hc : child.isEmpty <;> simp [updateImmediateChild,hc,childKeys]
  | branch cs =>
    cases hc : child.isEmpty with
    | true =>
      simp only [updateImmediateChild,hc,if_true]
      exact Dictionary.nodup_keys_removeObject h
    | false =>
      simp only [updateImmediateChild,hc,Bool.false_eq_true,if_false]
      exact Dictionary.nodup_keys_setObject h

omit [KeyOrder κ] in
theorem getImmediateChild_of_mem {t child : PathTree κ ν} {k : κ} (hn : t.childKeys.Nodup)
    (h : (k,child) ∈ t.children) : t.getImmediateChild k = child := by
  rw [getImmediateChild,Dictionary.lookup_of_mem hn h]
  rfl

section
variable {t a b : PathTree κ ν} {j k : κ} {p q : List κ}

/-- The update removes the key, or finds it there. -/
def AddsNoKey (t : PathTree κ ν) (k : κ) (child : PathTree κ ν) : Prop :=
  child.isEmpty = true ∨ k ∈ t.childKeys

theorem mem_childKeys_updateImmediateChild_ne (h : j ≠ k) (child : PathTree κ ν) :
    j ∈ (t.updateImmediateChild k child).childKeys ↔ j ∈ t.childKeys := by
  cases he : child.isEmpty with
  | true =>
    rw [isEmpty_iff.mp he,mem_childKeys_updateImmediateChild_empty]
    simp [h]
  | false =>
    rw [mem_childKeys_updateImmediateChild he]
    simp [h]

theorem updateImmediateChild_leaf_of_addsNoKey {v : ν} (h : AddsNoKey (leaf v) k a) :
    (leaf v).updateImmediateChild k a = leaf v := by
  rcases h with he | hk
  · simp [updateImmediateChild,he]
  · simp [childKeys] at hk

theorem updateImmediateChild_branch_of_addsNoKey {cs : List (κ × PathTree κ ν)}
    (h : AddsNoKey (branch cs) k a) : (branch cs).updateImmediateChild k a =
      branch (Dictionary.replaceObject k (if a.isEmpty then none else some a) cs) := by
  cases he : a.isEmpty with
  | true => simp [updateImmediateChild,he,Dictionary.replaceObject_none]
  | false =>
    have hk : k ∈ Dictionary.keys cs := h.resolve_left (by simp [he])
    simp [updateImmediateChild,he,Dictionary.replaceObject_some hk]

theorem updateImmediateChild_comm (h : j ≠ k) (ha : AddsNoKey t j a) (hb : AddsNoKey t k b) :
    (t.updateImmediateChild j a).updateImmediateChild k b =
      (t.updateImmediateChild k b).updateImmediateChild j a := by
  have hb' : AddsNoKey (t.updateImmediateChild j a) k b :=
    hb.imp_right (mem_childKeys_updateImmediateChild_ne h.symm a).mpr
  have ha' : AddsNoKey (t.updateImmediateChild k b) j a :=
    ha.imp_right (mem_childKeys_updateImmediateChild_ne h b).mpr
  cases t with
  | leaf v =>
    rw [updateImmediateChild_leaf_of_addsNoKey ha] at hb' ⊢
    rw [updateImmediateChild_leaf_of_addsNoKey hb] at ha' ⊢
    rw [updateImmediateChild_leaf_of_addsNoKey ha]
  | branch cs =>
    rw [updateImmediateChild_branch_of_addsNoKey ha] at hb' ⊢
    rw [updateImmediateChild_branch_of_addsNoKey hb] at ha' ⊢
    rw [updateImmediateChild_branch_of_addsNoKey ha',updateImmediateChild_branch_of_addsNoKey hb',
      Dictionary.replaceObject_comm h.symm]

theorem updateImmediateChild_updateImmediateChild (ha : AddsNoKey t k a)
    (h : a.isEmpty = true → b.isEmpty = true) :
    (t.updateImmediateChild k a).updateImmediateChild k b = t.updateImmediateChild k b := by
  have hb : AddsNoKey t k b := ha.imp_left h
  have hb' : AddsNoKey (t.updateImmediateChild k a) k b := by
    cases he : a.isEmpty with
    | true => exact Or.inl (h he)
    | false => exact Or.inr ((mem_childKeys_updateImmediateChild he).mpr (Or.inl rfl))
  cases t with
  | leaf v => rw [updateImmediateChild_leaf_of_addsNoKey ha]
  | branch cs =>
    rw [updateImmediateChild_branch_of_addsNoKey ha] at hb' ⊢
    rw [updateImmediateChild_branch_of_addsNoKey hb',updateImmediateChild_branch_of_addsNoKey hb,
      Dictionary.replaceObject_replaceObject]
    intro hnone
    cases he : a.isEmpty with
    | true => simp [h he]
    | false => simp [he] at hnone

theorem updateChild_comm_of_ne (h : j ≠ k)
    (ha : AddsNoKey t j ((t.getImmediateChild j).updateChild p a))
    (hb : AddsNoKey t k ((t.getImmediateChild k).updateChild q b)) :
    (t.updateChild (j :: p) a).updateChild (k :: q) b =
      (t.updateChild (k :: q) b).updateChild (j :: p) a := by
  simp only [updateChild_cons,getImmediateChild_updateImmediateChild_ne _ _ h,
    getImmediateChild_updateImmediateChild_ne _ _ h.symm]
  exact updateImmediateChild_comm h ha hb

theorem updateChild_comm_of_eq
    (h : ((t.getImmediateChild k).updateChild p a).updateChild q b =
      ((t.getImmediateChild k).updateChild q b).updateChild p a)
    (ha : AddsNoKey t k ((t.getImmediateChild k).updateChild p a))
    (hb : AddsNoKey t k ((t.getImmediateChild k).updateChild q b))
    (hae : ((t.getImmediateChild k).updateChild p a).isEmpty = true →
      (((t.getImmediateChild k).updateChild p a).updateChild q b).isEmpty = true)
    (hbe : ((t.getImmediateChild k).updateChild q b).isEmpty = true →
      (((t.getImmediateChild k).updateChild q b).updateChild p a).isEmpty = true) :
    (t.updateChild (k :: p) a).updateChild (k :: q) b =
      (t.updateChild (k :: q) b).updateChild (k :: p) a := by
  simp only [updateChild_cons,getImmediateChild_updateImmediateChild_self]
  rw [updateImmediateChild_updateImmediateChild ha hae,
    updateImmediateChild_updateImmediateChild hb hbe,h]

omit [KeyOrder κ] in
theorem addsNoKey_of_mem_child (h : j ∈ (t.getImmediateChild k).childKeys) : AddsNoKey t k a := by
  refine Or.inr ?_
  by_contra hno
  rw [getImmediateChild_of_not_mem hno] at h
  simp [childKeys] at h

theorem addsNoKey_remove (t : PathTree κ ν) (k : κ) (path : List κ) :
    AddsNoKey t k ((t.getImmediateChild k).updateChild path empty) := by
  by_cases h : k ∈ t.childKeys
  · exact Or.inr h
  · refine Or.inl ?_
    rw [getImmediateChild_of_not_mem h,updateChild_empty]
    rfl

/-- Removals commute wherever they are made. -/
theorem updateChild_empty_comm (t : PathTree κ ν) (p q : List κ) :
    (t.updateChild p empty).updateChild q empty = (t.updateChild q empty).updateChild p empty := by
  have hstays : ∀ {c : PathTree κ ν} (q : List κ), c.isEmpty = true →
      (c.updateChild q empty).isEmpty = true := by
    intro c q hc
    rw [isEmpty_iff.mp hc,updateChild_empty]
    rfl
  induction p generalizing t q with
  | nil => simp
  | cons j p ih =>
    cases q with
    | nil => simp
    | cons k q =>
      by_cases h : j = k
      · subst h
        exact updateChild_comm_of_eq (ih _ q) (addsNoKey_remove t j p) (addsNoKey_remove t j q)
          (hstays q) (hstays p)
      · exact updateChild_comm_of_ne h (addsNoKey_remove t j p) (addsNoKey_remove t k q)

end

end PathTree
