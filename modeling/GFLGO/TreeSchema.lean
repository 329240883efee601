import GFLGO.PathTree

/-!
A schema says which values may stand at which paths. What conforms to it keeps
doing so under conforming updates, and so does every part of it.
-/

set_option autoImplicit false

namespace Dictionary

variable {κ α : Type} [DecidableEq κ] {k : κ} {v : α} {cs : List (κ × α)}

theorem mem_of_lookup (h : cs.lookup k = some v) : (k,v) ∈ cs := by
  obtain ⟨as,bs,rfl,-⟩ := List.lookup_eq_some_iff.mp h
  exact List.mem_append_right as List.mem_cons_self

theorem mem_setObject [KeyOrder κ] {c : κ × α} (h : c ∈ setObject k v cs) :
    c = (k,v) ∨ c ∈ cs := by
  rw [setObject] at h
  split at h
  · obtain ⟨d,hd,rfl⟩ := List.mem_map.mp h
    split
    · exact Or.inl rfl
    · exact Or.inr hd
  · exact List.mem_cons.mp ((insertObject_perm k v cs).mem_iff.mp h)

end Dictionary

namespace PathTree

section
variable {κ ν : Type} [DecidableEq κ] {t u : PathTree κ ν} {k : κ}

theorem mem_children_of_mem (h : k ∈ t.childKeys) : (k,t.getImmediateChild k) ∈ t.children := by
  rw [getImmediateChild]
  cases hl : t.children.lookup k with
  | some u => exact Dictionary.mem_of_lookup hl
  | none =>
    obtain ⟨c,hc,rfl⟩ := List.mem_map.mp h
    have := List.lookup_eq_none_iff.mp hl c hc
    simp at this

theorem mem_children_updateImmediateChild [KeyOrder κ] {c : κ × PathTree κ ν}
    (h : c ∈ (t.updateImmediateChild k u).children) :
    c = (k,u) ∧ u.isEmpty = false ∨ c ∈ t.children := by
  cases hu : u.isEmpty with
  | true =>
    cases t with
    | leaf v => simp [updateImmediateChild,hu] at h
    | branch cs =>
      simp only [updateImmediateChild,hu,if_true,children_branch] at h
      exact Or.inr (List.mem_of_mem_filter h)
  | false =>
    cases t with
    | leaf v =>
      simp only [updateImmediateChild,hu,Bool.false_eq_true,if_false,children_branch,
        List.mem_singleton] at h
      exact Or.inl ⟨h,rfl⟩
    | branch cs =>
      simp only [updateImmediateChild,hu,Bool.false_eq_true,if_false,children_branch] at h
      exact (Dictionary.mem_setObject h).imp_left (fun he => ⟨he,rfl⟩)

end

variable {κ ν : Type} {S : List κ → ν → Prop}

/-- Every value of the tree, which hangs at the path, stands where the schema has it. -/
inductive Conforms (S : List κ → ν → Prop) : List κ → PathTree κ ν → Prop
  | leaf {base : List κ} {v : ν} (h : S base v) : Conforms S base (.leaf v)
  | branch {base : List κ} {cs : List (κ × PathTree κ ν)}
    (h : ∀ c ∈ cs, Conforms S (base ++ [c.1]) c.2) : Conforms S base (.branch cs)

namespace Conforms

variable {base : List κ} {t u : PathTree κ ν} {k : κ} {v : ν}

theorem empty : Conforms S base PathTree.empty := .branch (by simp)

theorem of_leaf (h : Conforms S base (.leaf v)) : S base v := by
  cases h with
  | leaf h => exact h

theorem mono {S' : List κ → ν → Prop} (hS : ∀ path v, S path v → S' path v)
    (h : Conforms S base t) : Conforms S' base t := by
  induction h with
  | leaf h => exact .leaf (hS _ _ h)
  | branch _ ih => exact .branch ih

theorem child (h : Conforms S base t) {c : κ × PathTree κ ν} (hc : c ∈ t.children) :
    Conforms S (base ++ [c.1]) c.2 := by
  cases h with
  | leaf h => cases hc
  | branch h => exact h c hc

variable [DecidableEq κ]

theorem getImmediateChild (h : Conforms S base t) (k : κ) :
    Conforms S (base ++ [k]) (t.getImmediateChild k) := by
  rw [PathTree.getImmediateChild]
  cases hl : t.children.lookup k with
  | none => exact .empty
  | some u =>
    exact h.child (Dictionary.mem_of_lookup hl)

theorem getChild (h : Conforms S base t) (path : List κ) :
    Conforms S (base ++ path) (t.getChild path) := by
  induction path generalizing base t with
  | nil => simpa using h
  | cons k path ih =>
    rw [List.append_cons]
    exact ih (h.getImmediateChild k)

variable [KeyOrder κ]

theorem updateImmediateChild (h : Conforms S base t) (hu : Conforms S (base ++ [k]) u) :
    Conforms S base (t.updateImmediateChild k u) := by
  cases h with
  | leaf h =>
    rw [PathTree.updateImmediateChild]
    split
    · exact .leaf h
    · exact .branch (by simpa using hu)
  | branch h =>
    rw [PathTree.updateImmediateChild]
    split
    · exact .branch (fun c hc => h c (List.mem_of_mem_filter hc))
    · refine .branch (fun c hc => ?_)
      rcases Dictionary.mem_setObject hc with rfl | hold
      · exact hu
      · exact h c hold

theorem updateChild {path : List κ} (h : Conforms S base t)
    (hu : Conforms S (base ++ path) u) : Conforms S base (t.updateChild path u) := by
  induction path generalizing base t with
  | nil => simpa using hu
  | cons k path ih =>
    rw [PathTree.updateChild_cons]
    exact h.updateImmediateChild (ih (h.getImmediateChild k) (by simpa using hu))

end Conforms

end PathTree
