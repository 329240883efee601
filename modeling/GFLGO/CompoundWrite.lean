import GFLGO.Overlay
import GFLGO.SortedEntries

/-!
`FImmutableTree` and `FCompoundWrite`: writes at paths, kept as a tree. The
children of a node are the entries of a sorted dictionary under the order `cmp`
of the keys, without the way the dictionary is kept.
-/

set_option autoImplicit false

namespace GFLGO

open SortedEntries Overlay

inductive FImmutableTree (κ α : Type) where
  | node (value : Option α) (children : List (κ × FImmutableTree κ α))

namespace FImmutableTree

variable {κ α : Type}

def empty : FImmutableTree κ α := .node none []

def value : FImmutableTree κ α → Option α
  | .node value _ => value

def children : FImmutableTree κ α → List (κ × FImmutableTree κ α)
  | .node _ children => children

def isEmpty : FImmutableTree κ α → Bool
  | .node none [] => true
  | _ => false

section
variable (cmp : κ → κ → Ordering)

/-- The first value on the way along the path, and the way to it. -/
def findRootMostValueAndPath : FImmutableTree κ α → List κ → Option (List κ × α)
  | .node (some value) _, _ => some ([],value)
  | .node none _, [] => none
  | .node none children, front :: path =>
    match find cmp front children with
    | some child =>
      (child.findRootMostValueAndPath path).map (fun found => (front :: found.1,found.2))
    | none => none

def subtreeAtPath : FImmutableTree κ α → List κ → FImmutableTree κ α
  | t, [] => t
  | .node _ children, front :: path =>
    match find cmp front children with
    | some child => child.subtreeAtPath path
    | none => empty

def setValue : FImmutableTree κ α → α → List κ → FImmutableTree κ α
  | .node _ children, newValue, [] => .node (some newValue) children
  | .node value children, newValue, front :: path =>
    let child := (find cmp front children).getD empty
    .node value (SortedEntries.insert cmp front (setValue child newValue path) children)

def setTree : FImmutableTree κ α → FImmutableTree κ α → List κ → FImmutableTree κ α
  | _, newTree, [] => newTree
  | .node value children, newTree, front :: path =>
    let child := (find cmp front children).getD empty
    let newChild := setTree child newTree path
    .node value
      (if newChild.isEmpty then SortedEntries.remove cmp front children
        else SortedEntries.insert cmp front newChild children)

end

mutual

/-- The values in the order of `forEach:`, those of the children before the own. -/
def forEach : FImmutableTree κ α → List (List κ × α)
  | .node value children => forEachChild children ++ (value.map (fun v => ([],v))).toList

def forEachChild : List (κ × FImmutableTree κ α) → List (List κ × α)
  | [] => []
  | (childKey,childTree) :: children =>
    (forEach childTree).map (fun e => (childKey :: e.1,e.2)) ++ forEachChild children

end

end FImmutableTree

/-- The writes of a tree do not overlap, as far as the client makes them. -/
abbrev FCompoundWrite (κ ν : Type) := FImmutableTree κ (PathTree κ ν)

namespace FCompoundWrite

open FImmutableTree

variable {κ ν : Type} [DecidableEq κ] [KeyOrder κ] (cmp : κ → κ → Ordering)

def emptyWrite : FCompoundWrite κ ν := .node none []

/-- Below a write there is the written node to change, else a tree to set. -/
def addWrite (write : FCompoundWrite κ ν) (path : List κ) (node : PathTree κ ν) :
    FCompoundWrite κ ν :=
  if path = [] then .node (some node) []
  else
    match findRootMostValueAndPath cmp write path with
    | some rootMost =>
      let relativePath := path.drop rootMost.1.length
      FImmutableTree.setValue cmp write (rootMost.2.updateChild relativePath node) rootMost.1
    | none => setTree cmp write (.node (some node) []) path

def addCompoundWrite (write compoundWrite : FCompoundWrite κ ν) (path : List κ) :
    FCompoundWrite κ ν :=
  compoundWrite.forEach.foldl (fun newWrite e => addWrite cmp newWrite (path ++ e.1) e.2) write

def removeWriteAtPath (write : FCompoundWrite κ ν) (path : List κ) : FCompoundWrite κ ν :=
  if path = [] then emptyWrite else setTree cmp write .empty path

def completeNodeAtPath (write : FCompoundWrite κ ν) (path : List κ) : Option (PathTree κ ν) :=
  (findRootMostValueAndPath cmp write path).map
    (fun rootMost => rootMost.2.getChild (path.drop rootMost.1.length))

def hasCompleteWriteAtPath (write : FCompoundWrite κ ν) (path : List κ) : Bool :=
  (completeNodeAtPath cmp write path).isSome

def childCompoundWriteAtPath (write : FCompoundWrite κ ν) (path : List κ) :
    FCompoundWrite κ ν :=
  if path = [] then write
  else
    match completeNodeAtPath cmp write path with
    | some shadowingNode => .node (some shadowingNode) []
    | none => subtreeAtPath cmp write path

mutual

def applySubtreeWrite : FCompoundWrite κ ν → List κ → PathTree κ ν → PathTree κ ν
  | .node (some value) _, relativePath, n => n.updateChild relativePath value
  | .node none children, relativePath, n => applyChildWrites children relativePath n

/-- The enumeration of the children in `applySubtreeWrite:atPath:toNode:`. -/
def applyChildWrites : List (κ × FCompoundWrite κ ν) → List κ → PathTree κ ν → PathTree κ ν
  | [], _, n => n
  | (childKey,childTree) :: children, relativePath, n =>
    applyChildWrites children relativePath
      (applySubtreeWrite childTree (relativePath ++ [childKey]) n)

end

def applyToNode (write : FCompoundWrite κ ν) (n : PathTree κ ν) : PathTree κ ν :=
  applySubtreeWrite write [] n

end FCompoundWrite

namespace FImmutableTree

inductive Ordered {κ α : Type} (cmp : κ → κ → Ordering) : FImmutableTree κ α → Prop
  | node {value : Option α} {children : List (κ × FImmutableTree κ α)}
    (own : Ascending cmp children) (below : ∀ c ∈ children, Ordered cmp c.2) :
    Ordered cmp (.node value children)

variable {κ α : Type} {cmp : κ → κ → Ordering} {t newTree : FImmutableTree κ α}
  {cs : List (κ × FImmutableTree κ α)} {k : κ}

theorem ordered_empty : Ordered cmp (empty : FImmutableTree κ α) :=
  .node ascending_nil (fun _ h => absurd h List.not_mem_nil)

theorem ordered_value (v : Option α) : Ordered cmp (.node v []) :=
  .node ascending_nil (fun _ h => absurd h List.not_mem_nil)

theorem isEmpty_iff : t.isEmpty = true ↔ t = empty := by
  obtain ⟨v,cs⟩ := t
  cases v <;> cases cs <;> simp [isEmpty,empty]

theorem mem_of_find {c : FImmutableTree κ α} (h : find cmp k cs = some c) :
    ∃ e ∈ cs, e.2 = c := by
  obtain ⟨e,he,rfl⟩ := Option.map_eq_some_iff.mp h
  exact ⟨e,List.mem_of_find?_eq_some he,rfl⟩

theorem ordered_child (hc : ∀ c ∈ cs, Ordered cmp c.2) (k : κ) :
    Ordered cmp ((find cmp k cs).getD empty) := by
  cases hf : find cmp k cs with
  | none => exact ordered_empty
  | some c =>
    obtain ⟨e,he,rfl⟩ := mem_of_find hf
    exact hc e he

def setChild (cmp : κ → κ → Ordering) (k : κ) (child : FImmutableTree κ α)
    (cs : List (κ × FImmutableTree κ α)) : List (κ × FImmutableTree κ α) :=
  if child.isEmpty then SortedEntries.remove cmp k cs else SortedEntries.insert cmp k child cs

section
variable [Std.TransCmp cmp]

theorem ordered_insert {v : Option α} {child : FImmutableTree κ α} (h : Ascending cmp cs)
    (hc : ∀ c ∈ cs, Ordered cmp c.2) (hchild : Ordered cmp child) :
    Ordered cmp (.node v (SortedEntries.insert cmp k child cs)) := by
  refine .node (ascending_insert h) (fun c hm => ?_)
  rcases snd_mem_upsert hm with he | ⟨a,ha,he⟩
  · exact he ▸ hchild
  · exact he ▸ hc a ha

theorem ordered_setChild {v : Option α} {child : FImmutableTree κ α} (h : Ascending cmp cs)
    (hc : ∀ c ∈ cs, Ordered cmp c.2) (hchild : Ordered cmp child) :
    Ordered cmp (.node v (setChild cmp k child cs)) := by
  rw [setChild]
  split
  · exact .node (ascending_select h) (fun c hm => hc c (List.mem_of_mem_filter hm))
  · exact ordered_insert h hc hchild

theorem ordered_setTree (h : Ordered cmp t) (hn : Ordered cmp newTree) (path : List κ) :
    Ordered cmp (t.setTree cmp newTree path) := by
  induction path generalizing t with
  | nil => obtain ⟨v,cs⟩ := t; exact hn
  | cons k path ih =>
    obtain ⟨own,below⟩ := h
    exact ordered_setChild own below (ih (ordered_child below k))

theorem ordered_setValue (h : Ordered cmp t) (v : α) (path : List κ) :
    Ordered cmp (t.setValue cmp v path) := by
  induction path generalizing t with
  | nil =>
    obtain ⟨own,below⟩ := h
    exact .node own below
  | cons k path ih =>
    obtain ⟨own,below⟩ := h
    exact ordered_insert own below (ih (ordered_child below k))

end

theorem isEmpty_setValue (v : α) (path : List κ) :
    (t.setValue cmp v path).isEmpty = false := by
  obtain ⟨w,cs⟩ := t
  cases path with
  | nil => rfl
  | cons k path =>
    rw [setValue,Bool.eq_false_iff]
    intro he
    exact insert_ne_nil (congrArg children (isEmpty_iff.mp he))

theorem setValue_cons (v : α) (w : Option α) (cs : List (κ × FImmutableTree κ α)) (k : κ)
    (path : List κ) : FImmutableTree.setValue cmp (.node w cs) v (k :: path) =
      .node w (setChild cmp k
        (FImmutableTree.setValue cmp ((find cmp k cs).getD empty) v path) cs) := by
  rw [setValue,setChild,isEmpty_setValue,if_neg Bool.false_ne_true]

section
variable [Std.TransCmp cmp] [Std.LawfulEqCmp cmp]

theorem find_insert_child {child : FImmutableTree κ α} (h : Ascending cmp cs) [DecidableEq κ]
    (j : κ) : find cmp j (SortedEntries.insert cmp k child cs) =
      if j = k then some child else find cmp j cs := by
  rw [find_insert h]
  simp only [Std.LawfulEqCmp.compare_eq_iff_eq]

theorem find_remove_child [DecidableEq κ] (j : κ) :
    find cmp j (SortedEntries.remove cmp k cs) = if j = k then none else find cmp j cs := by
  rw [find_remove]
  simp only [Std.LawfulEqCmp.compare_eq_iff_eq]

end

end FImmutableTree

namespace FCompoundWrite

open FImmutableTree

variable {κ ν : Type} [DecidableEq κ] [KeyOrder κ] {cmp : κ → κ → Ordering}
  {W : FCompoundWrite κ ν} {cs : List (κ × FCompoundWrite κ ν)} {k : κ} {p q : List κ}

section

omit [KeyOrder κ]

theorem completeNodeAtPath_some (v : PathTree κ ν) (cs : List (κ × FCompoundWrite κ ν))
    (p : List κ) : completeNodeAtPath cmp (.node (some v) cs) p = some (v.getChild p) := by
  cases p <;> rfl

@[simp] theorem completeNodeAtPath_nil (cs : List (κ × FCompoundWrite κ ν)) :
    completeNodeAtPath cmp (.node none cs) [] = none := rfl

theorem completeNodeAtPath_cons (cs : List (κ × FCompoundWrite κ ν)) (k : κ) (p : List κ) :
    completeNodeAtPath cmp (.node none cs) (k :: p) =
      (find cmp k cs).bind (fun child => completeNodeAtPath cmp child p) := by
  rw [completeNodeAtPath,findRootMostValueAndPath]
  cases find cmp k cs with
  | none => rfl
  | some child =>
    rw [Option.bind_some,completeNodeAtPath,Option.map_map]
    rfl

@[simp] theorem completeNodeAtPath_empty (p : List κ) :
    completeNodeAtPath cmp (FImmutableTree.empty : FCompoundWrite κ ν) p = none := by
  cases p <;> rfl

omit [DecidableEq κ] in
theorem findRootMost_spec {r : List κ} {v : PathTree κ ν}
    (h : findRootMostValueAndPath cmp W p = some (r,v)) :
    r <+: p ∧ findRootMostValueAndPath cmp W r = some (r,v) := by
  induction p generalizing W r with
  | nil =>
    obtain ⟨w,cs⟩ := W
    cases w with
    | none => cases h
    | some w => cases h; exact ⟨List.prefix_refl _,rfl⟩
  | cons k p ih =>
    obtain ⟨w,cs⟩ := W
    cases w with
    | some w => cases h; exact ⟨List.nil_prefix,rfl⟩
    | none =>
      rw [findRootMostValueAndPath] at h
      cases hf : find cmp k cs with
      | none => simp [hf] at h
      | some child =>
        simp only [hf] at h
        obtain ⟨⟨r',v'⟩,hr,he⟩ := Option.map_eq_some_iff.mp h
        cases he
        obtain ⟨hp,hs⟩ := ih hr
        refine ⟨List.cons_prefix_cons.mpr ⟨rfl,hp⟩,?_⟩
        simp only [findRootMostValueAndPath,hf,hs,Option.map_some]

omit [DecidableEq κ] in
/-- A value on the way along a path is on the way further on. -/
theorem findRootMost_append {found : List κ × PathTree κ ν}
    (h : findRootMostValueAndPath cmp W p = some found) (q : List κ) :
    findRootMostValueAndPath cmp W (p ++ q) = some found := by
  induction p generalizing W found with
  | nil =>
    obtain ⟨v,cs⟩ := W
    cases v with
    | none => cases h
    | some v =>
      cases h
      cases q <;> rfl
  | cons k p ih =>
    obtain ⟨v,cs⟩ := W
    cases v with
    | some v => exact h
    | none =>
      rw [List.cons_append]
      rw [findRootMostValueAndPath] at h ⊢
      cases hf : find cmp k cs with
      | none => simp [hf] at h
      | some child =>
        simp only [hf] at h ⊢
        obtain ⟨found',hr,he⟩ := Option.map_eq_some_iff.mp h
        rw [ih hr,Option.map_some,he]

theorem completeNodeAtPath_append {n : PathTree κ ν} (h : completeNodeAtPath cmp W p = some n)
    (q : List κ) : completeNodeAtPath cmp W (p ++ q) = some (n.getChild q) := by
  obtain ⟨⟨r,v⟩,hf,rfl⟩ := Option.map_eq_some_iff.mp h
  obtain ⟨s,rfl⟩ := (findRootMost_spec hf).1
  rw [completeNodeAtPath,findRootMost_append hf,Option.map_some,List.append_assoc,
    List.drop_left,List.drop_left,PathTree.getChild_append]

theorem completeNodeAtPath_of_findRootMost {r : List κ} {v : PathTree κ ν}
    (h : findRootMostValueAndPath cmp W p = some (r,v)) (hq : q <+: r) (hne : q ≠ r) :
    completeNodeAtPath cmp W q = none := by
  rw [completeNodeAtPath,Option.map_eq_none_iff]
  cases hf : findRootMostValueAndPath cmp W q with
  | none => rfl
  | some found =>
    obtain ⟨s,hs⟩ := hq.trans (findRootMost_spec h).1
    have ha := findRootMost_append hf s
    rw [hs,h] at ha
    have hr : r <+: q := (findRootMost_spec (ha ▸ hf)).1
    exact absurd (hq.eq_of_length_le hr.length_le) hne

end

section
variable [Std.TransCmp cmp] [Std.LawfulEqCmp cmp]

omit [KeyOrder κ] in
theorem completeNodeAtPath_setChild (child : FCompoundWrite κ ν) (h : Ascending cmp cs) (j : κ)
    (p : List κ) : completeNodeAtPath cmp (.node none (setChild cmp k child cs)) (j :: p) =
      if j = k then completeNodeAtPath cmp child p
      else completeNodeAtPath cmp (.node none cs) (j :: p) := by
  rw [completeNodeAtPath_cons,completeNodeAtPath_cons,setChild]
  cases he : child.isEmpty with
  | true =>
    rw [if_pos rfl,find_remove_child,FImmutableTree.isEmpty_iff.mp he]
    split <;> simp
  | false =>
    rw [if_neg Bool.false_ne_true,find_insert_child h]
    split <;> simp

omit [KeyOrder κ] [Std.TransCmp cmp] [Std.LawfulEqCmp cmp] in
theorem completeNodeAtPath_child (cs : List (κ × FCompoundWrite κ ν)) (k : κ) (p : List κ) :
    completeNodeAtPath cmp ((find cmp k cs).getD FImmutableTree.empty) p =
      completeNodeAtPath cmp (.node none cs) (k :: p) := by
  rw [completeNodeAtPath_cons]
  cases find cmp k cs with
  | none => exact completeNodeAtPath_empty p
  | some child => rfl

omit [KeyOrder κ] in
theorem completeNodeAtPath_update
    (op : FCompoundWrite κ ν → List κ → FCompoundWrite κ ν) {g : List κ → Option (PathTree κ ν)}
    (hnil : ∀ W q, completeNodeAtPath cmp (op W []) q = g q)
    (hcons : ∀ v cs k p, op (.node v cs) (k :: p) =
      .node v (setChild cmp k (op ((find cmp k cs).getD FImmutableTree.empty) p) cs))
    (h : Ordered cmp W)
    (hn : ∀ q, q <+: p → q ≠ p → completeNodeAtPath cmp W q = none) (q : List κ) :
    completeNodeAtPath cmp (op W p) q =
      if p <+: q then g (q.drop p.length) else completeNodeAtPath cmp W q := by
  induction p generalizing W q with
  | nil =>
    rw [if_pos List.nil_prefix,hnil]
    rfl
  | cons k p ih =>
    obtain @⟨v,cs,own,below⟩ := h
    have hv := hn [] List.nil_prefix (by simp)
    cases v with
    | some v => simp [completeNodeAtPath_some] at hv
    | none =>
      rw [hcons]
      cases q with
      | nil => simp
      | cons j q =>
        rw [completeNodeAtPath_setChild _ own]
        by_cases hj : j = k
        · subst hj
          rw [if_pos rfl,ih (ordered_child below j) (fun r hr hne => ?_),
            completeNodeAtPath_child]
          · simp [List.cons_prefix_cons]
          · rw [completeNodeAtPath_child]
            exact hn (j :: r) (List.cons_prefix_cons.mpr ⟨rfl,hr⟩) (by simpa using hne)
        · have hne : ¬ (k :: p <+: j :: q) := fun hp =>
            hj (List.cons_prefix_cons.mp hp).1.symm
          rw [if_neg hj,if_neg hne]

omit [KeyOrder κ] in
theorem completeNodeAtPath_setTree (newTree : FCompoundWrite κ ν) (h : Ordered cmp W)
    (hn : ∀ q, q <+: p → q ≠ p → completeNodeAtPath cmp W q = none) (q : List κ) :
    completeNodeAtPath cmp (W.setTree cmp newTree p) q =
      if p <+: q then completeNodeAtPath cmp newTree (q.drop p.length)
      else completeNodeAtPath cmp W q :=
  completeNodeAtPath_update (fun W p => W.setTree cmp newTree p)
    (fun _ _ => rfl) (fun _ _ _ _ => rfl) h hn q

omit [KeyOrder κ] in
theorem completeNodeAtPath_setValue (v : PathTree κ ν) (h : Ordered cmp W)
    (hn : ∀ q, q <+: p → q ≠ p → completeNodeAtPath cmp W q = none) (q : List κ) :
    completeNodeAtPath cmp (W.setValue cmp v p) q =
      if p <+: q then some (v.getChild (q.drop p.length)) else completeNodeAtPath cmp W q :=
  completeNodeAtPath_update (fun W p => W.setValue cmp v p)
    (fun W q => by obtain ⟨w,cs⟩ := W; exact completeNodeAtPath_some v cs q)
    (fun w cs k p => setValue_cons v w cs k p) h hn q

/-- To the tree a write is one more step of the overlay. -/
theorem completeNodeAtPath_addWrite (path : List κ) (n : PathTree κ ν) (h : Ordered cmp W)
    (q : List κ) : completeNodeAtPath cmp (addWrite cmp W path n) q =
      cover q (completeNodeAtPath cmp W q) (path,n) := by
  rw [addWrite]
  split
  · next hp =>
    subst hp
    rw [completeNodeAtPath_some,cover_above List.nil_prefix]
    rfl
  · cases hf : findRootMostValueAndPath cmp W path with
    | some found =>
      obtain ⟨r,v⟩ := found
      obtain ⟨hpre,hself⟩ := findRootMost_spec hf
      obtain ⟨s,rfl⟩ := hpre
      have hr : ∀ x, x <+: r → x ≠ r → completeNodeAtPath cmp W x = none :=
        fun x hx hne => completeNodeAtPath_of_findRootMost hf hx hne
      simp only [List.drop_left]
      rw [completeNodeAtPath_setValue _ h hr]
      by_cases hrq : r <+: q
      · obtain ⟨x,rfl⟩ := hrq
        have hc : completeNodeAtPath cmp W r = some v := by
          simp [completeNodeAtPath,hself]
        rw [if_pos (List.prefix_append _ _),List.drop_left,cover_append,
          completeNodeAtPath_append hc,cover_some]
      · rw [if_neg hrq]
        by_cases hq : q <+: r ++ s
        · have hqr : q <+: r :=
            (List.prefix_or_prefix_of_prefix hq (List.prefix_append r s)).resolve_right hrq
          have hn := hr q hqr (fun he => hrq (he ▸ List.prefix_refl _))
          rw [hn,cover_none (fun hp => hrq ((List.prefix_append _ _).trans hp))]
        · exact (cover_of_apart ⟨fun hp => hrq ((List.prefix_append _ _).trans hp),hq⟩).symm
    | none =>
      have hn : ∀ x, x <+: path → completeNodeAtPath cmp W x = none := by
        rintro x ⟨s,rfl⟩
        cases hx : completeNodeAtPath cmp W x with
        | none => rfl
        | some m =>
          have hc := completeNodeAtPath_append hx s
          rw [completeNodeAtPath,hf] at hc
          cases hc
      simp only []
      rw [completeNodeAtPath_setTree _ h (fun x hx _ => hn x hx),completeNodeAtPath_some]
      by_cases hp : path <+: q
      · rw [if_pos hp,cover_above hp]
      · rw [if_neg hp]
        by_cases hq : q <+: path
        · rw [hn q hq,cover_none hp]
        · exact (cover_of_apart ⟨hp,hq⟩).symm

omit [Std.LawfulEqCmp cmp] in
theorem ordered_addWrite (path : List κ) (n : PathTree κ ν) (h : Ordered cmp W) :
    Ordered cmp (addWrite cmp W path n) := by
  rw [addWrite]
  split
  · exact ordered_value _
  · split
    · exact ordered_setValue h _ _
    · exact ordered_setTree h (ordered_value _) _

theorem completeNodeAtPath_addWrites (ws : List (List κ × PathTree κ ν))
    {W : FCompoundWrite κ ν} (h : Ordered cmp W) :
    Ordered cmp (ws.foldl (fun W w => addWrite cmp W w.1 w.2) W) ∧
    ∀ q, completeNodeAtPath cmp (ws.foldl (fun W w => addWrite cmp W w.1 w.2) W) q =
      ws.foldl (cover q) (completeNodeAtPath cmp W q) := by
  induction ws generalizing W with
  | nil => exact ⟨h,fun q => rfl⟩
  | cons w ws ih =>
    obtain ⟨ho,hc⟩ := ih (ordered_addWrite w.1 w.2 h)
    refine ⟨ho,fun q => ?_⟩
    rw [List.foldl_cons,hc,completeNodeAtPath_addWrite _ _ h]
    rfl

omit [KeyOrder κ] in
theorem completeNodeAtPath_removeWriteAtPath (h : Ordered cmp W)
    (hn : ∀ q, q <+: p → q ≠ p → completeNodeAtPath cmp W q = none) (q : List κ) :
    completeNodeAtPath cmp (removeWriteAtPath cmp W p) q =
      if p <+: q then none else completeNodeAtPath cmp W q := by
  rw [removeWriteAtPath]
  split
  · next hp =>
    subst hp
    rw [if_pos List.nil_prefix]
    exact completeNodeAtPath_empty q
  · rw [completeNodeAtPath_setTree _ h hn,completeNodeAtPath_empty]

omit [DecidableEq κ] [KeyOrder κ] [Std.LawfulEqCmp cmp] in
theorem ordered_removeWriteAtPath (h : Ordered cmp W) (path : List κ) :
    Ordered cmp (removeWriteAtPath cmp W path) := by
  rw [removeWriteAtPath]
  split
  · exact ordered_empty
  · exact ordered_setTree h ordered_empty _

end

mutual

def topmost : FCompoundWrite κ ν → List (List κ × PathTree κ ν)
  | .node (some value) _ => [([],value)]
  | .node none children => topmostBelow children

def topmostBelow : List (κ × FCompoundWrite κ ν) → List (List κ × PathTree κ ν)
  | [] => []
  | (childKey,childTree) :: children =>
    (topmost childTree).map (fun w => ([childKey] ++ w.1,w.2)) ++ topmostBelow children

end

mutual

theorem applySubtreeWrite_eq (W : FCompoundWrite κ ν) (r : List κ) (n : PathTree κ ν) :
    applySubtreeWrite W r n = replay ((topmost W).map (fun w => (r ++ w.1,w.2))) n :=
  match W with
  | .node (some v) cs => by simp [applySubtreeWrite,topmost,replay]
  | .node none cs => applyChildWrites_eq cs r n

theorem applyChildWrites_eq (cs : List (κ × FCompoundWrite κ ν)) (r : List κ)
    (n : PathTree κ ν) :
    applyChildWrites cs r n = replay ((topmostBelow cs).map (fun w => (r ++ w.1,w.2))) n :=
  match cs with
  | [] => rfl
  | (k,c) :: cs => by
    rw [applyChildWrites,applySubtreeWrite_eq c,applyChildWrites_eq cs,topmostBelow,
      List.map_append,replay,replay,replay,List.foldl_append,List.map_map]
    simp only [Function.comp_def,List.append_assoc]

end

theorem applyToNode_eq (W : FCompoundWrite κ ν) (n : PathTree κ ν) :
    applyToNode W n = replay (topmost W) n := by
  rw [applyToNode,applySubtreeWrite_eq]
  simp

omit [DecidableEq κ] [KeyOrder κ] in
theorem prefix_of_mem_topmostBelow {w : List κ × PathTree κ ν} (h : w ∈ topmostBelow cs) :
    ∃ c ∈ cs, [c.1] <+: w.1 := by
  induction cs with
  | nil => cases h
  | cons c cs ih =>
    obtain ⟨k,t⟩ := c
    rw [topmostBelow,List.mem_append] at h
    rcases h with h | h
    · obtain ⟨v,-,rfl⟩ := List.mem_map.mp h
      exact ⟨(k,t),List.mem_cons_self,List.prefix_append _ _⟩
    · obtain ⟨c,hc,hp⟩ := ih h
      exact ⟨c,List.mem_cons_of_mem _ hc,hp⟩

omit [DecidableEq κ] [KeyOrder κ] in
theorem apart_of_ne {j k : κ} (h : j ≠ k) {x : List κ} (hx : [j] <+: x) (q : List κ) :
    Apart x (k :: q) := by
  obtain ⟨r,rfl⟩ := hx
  refine ⟨fun hp => h ?_,fun hp => h ?_⟩
  · exact (List.cons_prefix_cons.mp hp).1
  · exact (List.cons_prefix_cons.mp hp).1.symm

section
variable [Std.LawfulEqCmp cmp]

theorem overlay_topmostBelow (h : Ascending cmp cs)
    (ih : ∀ c ∈ cs, ∀ q, overlay (topmost c.2) q = completeNodeAtPath cmp c.2 q) (k : κ)
    (q : List κ) : overlay (topmostBelow cs) (k :: q) =
      completeNodeAtPath cmp (.node none cs) (k :: q) := by
  rw [completeNodeAtPath_cons]
  induction cs with
  | nil => rfl
  | cons c cs ihcs =>
    obtain ⟨j,t⟩ := c
    obtain ⟨hj,ht⟩ := List.pairwise_cons.mp h
    have hrest := ihcs ht (fun c hc => ih c (List.mem_cons_of_mem _ hc))
    rw [topmostBelow,overlay_append,find_cons]
    by_cases hk : k = j
    · subst hk
      have hkk : cmp k k = .eq := Std.ReflCmp.compare_self
      rw [if_pos hkk,Option.bind_some,foldl_cover_of_apart (fun w hw => ?_)]
      · exact (overlay_map_append [k] (topmost t)).trans (ih (k,t) List.mem_cons_self q)
      · obtain ⟨c,hc,hp⟩ := prefix_of_mem_topmostBelow hw
        refine apart_of_ne (fun he => ?_) hp q
        have hlt := hj c hc
        rw [he,hkk] at hlt
        cases hlt
    · have hn : overlay ((topmost t).map (fun w => ([j] ++ w.1,w.2))) (k :: q) = none := by
        refine foldl_cover_of_apart (fun w hw => ?_)
        obtain ⟨v,-,rfl⟩ := List.mem_map.mp hw
        exact apart_of_ne (Ne.symm hk) (List.prefix_append _ _) q
      rw [if_neg (by simpa [Std.LawfulEqCmp.compare_eq_iff_eq] using hk),hn]
      exact hrest

theorem overlay_topmost (h : Ordered cmp W) (q : List κ) :
    overlay (topmost W) q = completeNodeAtPath cmp W q := by
  induction h generalizing q with
  | @node v cs own below ih =>
    cases v with
    | some v =>
      rw [completeNodeAtPath_some]
      change cover q none ([],v) = _
      rw [cover_above List.nil_prefix]
      rfl
    | none =>
      cases q with
      | nil =>
        refine overlay_eq_none_iff.mpr (fun w hw hp => ?_)
        obtain ⟨c,-,hc⟩ := prefix_of_mem_topmostBelow hw
        cases hc.trans hp |>.length_le
      | cons k q => exact overlay_topmostBelow own ih k q

/-- The writes of a tree leave the values behind that any writes leave which fix the same
below the node. -/
theorem leaf?_applyToNode (h : Ordered cmp W) {ws : List (List κ × PathTree κ ν)}
    (hc : ∀ q, completeNodeAtPath cmp W q = overlay ws (p ++ q)) {t : PathTree κ ν}
    (hf : Compatible (overlay ws) t) (q : List κ) :
    leaf? ((applyToNode W (t.getChild p)).getChild q) =
      leaf? ((replay ws t).getChild (p ++ q)) := by
  rw [applyToNode_eq]
  exact leaf?_replay_getChild hf (fun q => (overlay_topmost h q).trans (hc q)) q

omit [KeyOrder κ] [Std.LawfulEqCmp cmp] in
theorem completeNodeAtPath_subtreeAtPath (h : completeNodeAtPath cmp W p = none) (q : List κ) :
    completeNodeAtPath cmp (W.subtreeAtPath cmp p) q = completeNodeAtPath cmp W (p ++ q) := by
  induction p generalizing W with
  | nil => obtain ⟨v,cs⟩ := W; rfl
  | cons k p ih =>
    obtain ⟨v,cs⟩ := W
    cases v with
    | some v => simp [completeNodeAtPath_some] at h
    | none =>
      rw [completeNodeAtPath_cons] at h
      rw [subtreeAtPath,List.cons_append,completeNodeAtPath_cons]
      cases hf : find cmp k cs with
      | none => exact completeNodeAtPath_empty q
      | some child =>
        rw [hf] at h
        exact ih h

omit [DecidableEq κ] [KeyOrder κ] [Std.LawfulEqCmp cmp] in
theorem ordered_subtreeAtPath (h : Ordered cmp W) (path : List κ) :
    Ordered cmp (W.subtreeAtPath cmp path) := by
  induction path generalizing W with
  | nil => obtain ⟨own,below⟩ := h; exact .node own below
  | cons k path ih =>
    obtain @⟨v,cs,own,below⟩ := h
    rw [subtreeAtPath]
    split
    · next child hf =>
      obtain ⟨e,he,rfl⟩ := mem_of_find hf
      exact ih (below e he)
    · exact ordered_empty

omit [KeyOrder κ] [Std.LawfulEqCmp cmp] in
theorem completeNodeAtPath_childCompoundWriteAtPath (q : List κ) :
    completeNodeAtPath cmp (childCompoundWriteAtPath cmp W p) q =
      completeNodeAtPath cmp W (p ++ q) := by
  rw [childCompoundWriteAtPath]
  split
  · next hp => rw [hp,List.nil_append]
  · cases hc : completeNodeAtPath cmp W p with
    | some m =>
      rw [completeNodeAtPath_append hc]
      exact completeNodeAtPath_some m [] q
    | none => exact completeNodeAtPath_subtreeAtPath hc q

omit [KeyOrder κ] [Std.LawfulEqCmp cmp] in
theorem ordered_childCompoundWriteAtPath (h : Ordered cmp W) (path : List κ) :
    Ordered cmp (childCompoundWriteAtPath cmp W path) := by
  rw [childCompoundWriteAtPath]
  split
  · exact h
  · split
    · exact ordered_value _
    · exact ordered_subtreeAtPath h path

end

end FCompoundWrite

end GFLGO
