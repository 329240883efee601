import Mathlib.Algebra.Group.Nat.Defs
import GFLGO.SortedEntries

/-!
The left-leaning red-black tree under the database's sorted dictionaries. A
node is never changed: every operation copies the nodes on its way.
-/

set_option autoImplicit false

namespace GFLGO

structure NSException where
  name : String
  reason : String
  deriving DecidableEq, Repr

inductive FLLRBColor where
  | red
  | black
  deriving DecidableEq, Repr

inductive FLLRBNode (κ α : Type) where
  | emptyNode
  | valueNode (key : κ) (value : α) (color : FLLRBColor) (left right : FLLRBNode κ α)
  deriving DecidableEq, Repr

namespace FLLRBNode

variable {κ α : Type}

def key : FLLRBNode κ α → Option κ
  | emptyNode => none
  | valueNode k _ _ _ _ => some k

def value : FLLRBNode κ α → Option α
  | emptyNode => none
  | valueNode _ v _ _ _ => some v

/-- The empty node's color is `nil`, which counts as black. -/
def color : FLLRBNode κ α → FLLRBColor
  | emptyNode => .black
  | valueNode _ _ c _ _ => c

/-- The empty node's children are `nil`; like the empty node, `nil` is not red. -/
def left : FLLRBNode κ α → FLLRBNode κ α
  | emptyNode => emptyNode
  | valueNode _ _ _ l _ => l

def right : FLLRBNode κ α → FLLRBNode κ α
  | emptyNode => emptyNode
  | valueNode _ _ _ _ r => r

def isEmpty : FLLRBNode κ α → Bool
  | emptyNode => true
  | valueNode _ _ _ _ _ => false

def isRed (n : FLLRBNode κ α) : Bool := n.color = .red

def count : FLLRBNode κ α → Nat
  | emptyNode => 0
  | valueNode _ _ _ l r => l.count + 1 + r.count

/-- `nil` keeps what the node has. -/
def copyWith (n : FLLRBNode κ α) (aKey : Option κ) (aValue : Option α)
    (aColor : Option FLLRBColor) (aLeft aRight : Option (FLLRBNode κ α)) : FLLRBNode κ α :=
  match n with
  | emptyNode => emptyNode
  | valueNode k v c l r =>
    valueNode (aKey.getD k) (aValue.getD v) (aColor.getD c) (aLeft.getD l) (aRight.getD r)

section
variable {k : κ} {v : α} {c : FLLRBColor} {l r : FLLRBNode κ α}

@[simp] theorem key_valueNode : (valueNode k v c l r).key = some k := rfl
@[simp] theorem value_valueNode : (valueNode k v c l r).value = some v := rfl
@[simp] theorem color_valueNode : (valueNode k v c l r).color = c := rfl
@[simp] theorem left_valueNode : (valueNode k v c l r).left = l := rfl
@[simp] theorem right_valueNode : (valueNode k v c l r).right = r := rfl
@[simp] theorem isEmpty_valueNode : (valueNode k v c l r).isEmpty = false := rfl
@[simp] theorem isEmpty_emptyNode : (emptyNode : FLLRBNode κ α).isEmpty = true := rfl
@[simp] theorem left_emptyNode : (emptyNode : FLLRBNode κ α).left = emptyNode := rfl
@[simp] theorem right_emptyNode : (emptyNode : FLLRBNode κ α).right = emptyNode := rfl
@[simp] theorem isRed_emptyNode : (emptyNode : FLLRBNode κ α).isRed = false := rfl
@[simp] theorem isRed_red : (valueNode k v .red l r).isRed = true := rfl
@[simp] theorem isRed_black : (valueNode k v .black l r).isRed = false := rfl
@[simp] theorem count_emptyNode : (emptyNode : FLLRBNode κ α).count = 0 := rfl
@[simp] theorem count_valueNode : (valueNode k v c l r).count = l.count + 1 + r.count := rfl

@[simp] theorem copyWith_emptyNode (aKey : Option κ) (aValue : Option α)
    (aColor : Option FLLRBColor) (aLeft aRight : Option (FLLRBNode κ α)) :
    (emptyNode : FLLRBNode κ α).copyWith aKey aValue aColor aLeft aRight = emptyNode := rfl

@[simp] theorem copyWith_valueNode (aKey : Option κ) (aValue : Option α)
    (aColor : Option FLLRBColor) (aLeft aRight : Option (FLLRBNode κ α)) :
    (valueNode k v c l r).copyWith aKey aValue aColor aLeft aRight =
      valueNode (aKey.getD k) (aValue.getD v) (aColor.getD c) (aLeft.getD l)
        (aRight.getD r) := rfl

theorem eq_valueNode_of_isEmpty {n : FLLRBNode κ α} (h : n.isEmpty = false) :
    ∃ k v c l r, n = valueNode k v c l r := by
  cases n with
  | emptyNode => simp at h
  | valueNode k v c l r => exact ⟨k,v,c,l,r,rfl⟩

theorem isEmpty_of_left {n : FLLRBNode κ α} (h : n.left.isEmpty = false) :
    n.isEmpty = false := by
  cases n with
  | emptyNode => exact h
  | valueNode k v c l r => rfl

theorem isEmpty_of_right {n : FLLRBNode κ α} (h : n.right.isEmpty = false) :
    n.isEmpty = false := by
  cases n with
  | emptyNode => exact h
  | valueNode k v c l r => rfl

theorem isEmpty_of_isRed {n : FLLRBNode κ α} (h : n.isRed = true) : n.isEmpty = false := by
  cases n with
  | emptyNode => simp at h
  | valueNode k v c l r => rfl

end

def rotateLeft (n : FLLRBNode κ α) : FLLRBNode κ α :=
  let nl := n.copyWith none none (some .red) none (some n.right.left)
  n.right.copyWith none none (some n.color) (some nl) none

def rotateRight (n : FLLRBNode κ α) : FLLRBNode κ α :=
  let nr := n.copyWith none none (some .red) (some n.left.right) none
  n.left.copyWith none none (some n.color) none (some nr)

def flip : FLLRBColor → FLLRBColor
  | .red => .black
  | .black => .red

@[simp] theorem flip_flip (c : FLLRBColor) : flip (flip c) = c := by
  cases c <;> rfl

def colorFlip (n : FLLRBNode κ α) : FLLRBNode κ α :=
  let nleft := n.left.copyWith none none (some (flip n.left.color)) none none
  let nright := n.right.copyWith none none (some (flip n.right.color)) none none
  n.copyWith none none (some (flip n.color)) (some nleft) (some nright)

def fixUp (n : FLLRBNode κ α) : FLLRBNode κ α :=
  let n := if n.right.isRed && !n.left.isRed then n.rotateLeft else n
  let n := if n.left.isRed && n.left.left.isRed then n.rotateRight else n
  if n.left.isRed && n.right.isRed then n.colorFlip else n

def moveRedLeft (n : FLLRBNode κ α) : FLLRBNode κ α :=
  let n := n.colorFlip
  if n.right.left.isRed then
    let n := n.copyWith none none none none (some n.right.rotateRight)
    let n := n.rotateLeft
    n.colorFlip
  else n

def moveRedRight (n : FLLRBNode κ α) : FLLRBNode κ α :=
  let n := n.colorFlip
  if n.left.left.isRed then
    let n := n.rotateRight
    n.colorFlip
  else n

def min : FLLRBNode κ α → FLLRBNode κ α
  | emptyNode => emptyNode
  | valueNode k v c l r => if l.isEmpty then valueNode k v c l r else l.min

def minKey (n : FLLRBNode κ α) : Option κ := n.min.key

def maxKey : FLLRBNode κ α → Option κ
  | emptyNode => none
  | valueNode k _ _ _ r => if r.isEmpty then some k else r.maxKey

def insertKey (cmp : κ → κ → Ordering) (aKey : κ) (aValue : α) :
    FLLRBNode κ α → FLLRBNode κ α
  | emptyNode => valueNode aKey aValue .red emptyNode emptyNode
  | valueNode k v c l r =>
    let n := valueNode k v c l r
    match cmp aKey k with
    | .lt => (n.copyWith none none none (some (l.insertKey cmp aKey aValue)) none).fixUp
    | .eq => (n.copyWith none (some aValue) none none none).fixUp
    | .gt => (n.copyWith none none none none (some (r.insertKey cmp aKey aValue))).fixUp

theorem insertKey_valueNode (cmp : κ → κ → Ordering) (aKey : κ) (aValue : α) (k : κ) (v : α)
    (c : FLLRBColor) (l r : FLLRBNode κ α) :
    (valueNode k v c l r).insertKey cmp aKey aValue =
      match cmp aKey k with
      | .lt => (valueNode k v c (l.insertKey cmp aKey aValue) r).fixUp
      | .eq => (valueNode k aValue c l r).fixUp
      | .gt => (valueNode k v c l (r.insertKey cmp aKey aValue)).fixUp := by
  rw [insertKey]
  cases cmp aKey k <;> rfl

def entries : FLLRBNode κ α → List (κ × α)
  | emptyNode => []
  | valueNode k v _ l r => l.entries ++ (k,v) :: r.entries

section
variable {n : FLLRBNode κ α}

@[simp] theorem entries_emptyNode : (emptyNode : FLLRBNode κ α).entries = [] := rfl

@[simp] theorem entries_valueNode (k : κ) (v : α) (c : FLLRBColor) (l r : FLLRBNode κ α) :
    (valueNode k v c l r).entries = l.entries ++ (k,v) :: r.entries := rfl

theorem length_entries (n : FLLRBNode κ α) : n.entries.length = n.count := by
  induction n with
  | emptyNode => rfl
  | valueNode k v c l r ihl ihr =>
    simp only [entries_valueNode,List.length_append,List.length_cons,count_valueNode,ihl,ihr]
    omega

@[simp] theorem entries_copyWith_color (c : FLLRBColor) :
    (n.copyWith none none (some c) none none).entries = n.entries := by
  cases n <;> rfl

theorem entries_rotateRight (h : n.left.isEmpty = false) :
    n.rotateRight.entries = n.entries := by
  cases n with
  | emptyNode => rfl
  | valueNode k v c l r =>
    obtain ⟨lk,lv,lc,ll,lr,rfl⟩ := eq_valueNode_of_isEmpty h
    simp [rotateRight]

theorem entries_rotateLeft (h : n.right.isEmpty = false) :
    n.rotateLeft.entries = n.entries := by
  cases n with
  | emptyNode => rfl
  | valueNode k v c l r =>
    obtain ⟨rk,rv,rc,rl,rr,rfl⟩ := eq_valueNode_of_isEmpty h
    simp [rotateLeft]

@[simp] theorem entries_colorFlip (n : FLLRBNode κ α) : n.colorFlip.entries = n.entries := by
  cases n <;> simp [colorFlip]

theorem entries_withRight {m : FLLRBNode κ α} (h : m.entries = n.right.entries) :
    (n.copyWith none none none none (some m)).entries = n.entries := by
  cases n with
  | emptyNode => rfl
  | valueNode k v c l r => simpa using h

theorem entries_ite {b : Bool} {m : FLLRBNode κ α} (h : b = true → m.entries = n.entries) :
    (if b then m else n).entries = n.entries := by
  cases b with
  | false => rfl
  | true => exact h rfl

@[simp] theorem entries_fixUp (n : FLLRBNode κ α) : n.fixUp.entries = n.entries := by
  unfold fixUp
  rw [entries_ite (fun _ => entries_colorFlip _),
    entries_ite (fun h => entries_rotateRight (isEmpty_of_isRed (Bool.and_eq_true_iff.mp h).1)),
    entries_ite (fun h => entries_rotateLeft (isEmpty_of_isRed (Bool.and_eq_true_iff.mp h).1))]

theorem isEmpty_eq_of_entries_eq {m : FLLRBNode κ α} (h : m.entries = n.entries) :
    m.isEmpty = n.isEmpty := by
  cases m <;> cases n <;> simp_all

@[simp] theorem entries_moveRedLeft (n : FLLRBNode κ α) :
    n.moveRedLeft.entries = n.entries := by
  unfold moveRedLeft
  rw [entries_ite,entries_colorFlip]
  intro h
  have hl : n.colorFlip.right.left.isEmpty = false := isEmpty_of_isRed h
  have hr : n.colorFlip.right.rotateRight.entries = n.colorFlip.right.entries :=
    entries_rotateRight hl
  obtain ⟨k,v,c,l,r,hn⟩ := eq_valueNode_of_isEmpty (isEmpty_of_right (isEmpty_of_left hl))
  rw [entries_colorFlip,entries_rotateLeft,entries_withRight hr]
  rw [hn] at hl hr ⊢
  exact (isEmpty_eq_of_entries_eq hr).trans (isEmpty_of_left hl)

@[simp] theorem entries_moveRedRight (n : FLLRBNode κ α) :
    n.moveRedRight.entries = n.entries := by
  unfold moveRedRight
  rw [entries_ite,entries_colorFlip]
  intro h
  rw [entries_colorFlip,entries_rotateRight (isEmpty_of_left (isEmpty_of_isRed h))]

theorem count_eq_of_entries_eq {m : FLLRBNode κ α} (h : m.entries = n.entries) :
    m.count = n.count := by
  rw [← length_entries,h,length_entries]

theorem count_left_lt (h : n.isEmpty = false) : n.left.count < n.count := by
  obtain ⟨k,v,c,l,r,rfl⟩ := eq_valueNode_of_isEmpty h
  simp
  omega

theorem count_right_lt (h : n.isEmpty = false) : n.right.count < n.count := by
  obtain ⟨k,v,c,l,r,rfl⟩ := eq_valueNode_of_isEmpty h
  simp

end

/-- Only sent to a node that is not empty. -/
def removeMin (n : FLLRBNode κ α) : FLLRBNode κ α :=
  if n.left.isEmpty then emptyNode
  else
    let m := if !n.left.isRed && !n.left.left.isRed then n.moveRedLeft else n
    (m.copyWith none none none (some m.left.removeMin) none).fixUp
termination_by n.count
decreasing_by
  rename_i h
  have hm : m.entries = n.entries := entries_ite (fun _ => entries_moveRedLeft n)
  rw [← count_eq_of_entries_eq hm]
  apply count_left_lt
  rw [isEmpty_eq_of_entries_eq hm]
  exact isEmpty_of_left (by simpa using h)

theorem removeMin_eq {n : FLLRBNode κ α} (h : n.left.isEmpty = false) :
    ∃ m, m = (if !n.left.isRed && !n.left.left.isRed then n.moveRedLeft else n) ∧
      n.removeMin = (m.copyWith none none none (some m.left.removeMin) none).fixUp := by
  refine ⟨_,rfl,?_⟩
  conv_lhs => rw [removeMin]
  simp [h]

theorem count_withLeft_le {n m : FLLRBNode κ α} (h : m.count ≤ n.left.count) :
    (n.copyWith none none none (some m) none).count ≤ n.count := by
  cases n with
  | emptyNode => exact Nat.le_refl _
  | valueNode k v c l r => simpa using h

theorem count_removeMin_le (n : FLLRBNode κ α) : n.removeMin.count ≤ n.count := by
  induction n using removeMin.induct with
  | case1 n h =>
    rw [removeMin,if_pos h]
    exact Nat.zero_le _
  | case2 n h m ih =>
    obtain ⟨m',hm,he⟩ := removeMin_eq (n := n) (by simpa using h)
    have hc : m'.count = n.count := by
      rw [hm]
      exact count_eq_of_entries_eq (entries_ite (fun _ => entries_moveRedLeft n))
    rw [he,count_eq_of_entries_eq (entries_fixUp _),← hc]
    subst hm
    exact count_withLeft_le ih

def same (cmp : κ → κ → Ordering) (aKey : κ) : FLLRBNode κ α → Bool
  | emptyNode => false
  | valueNode k _ _ _ _ => cmp aKey k == .eq

/-- The moves that `remove` makes before it goes on in the left child. -/
def beforeLeft (n : FLLRBNode κ α) : FLLRBNode κ α :=
  if !n.left.isEmpty && !n.left.isRed && !n.left.left.isRed then n.moveRedLeft else n

/-- The moves that `remove` makes before it looks at the node's key and goes on to the right. -/
def beforeRight (n : FLLRBNode κ α) : FLLRBNode κ α :=
  let n := if n.left.isRed then n.rotateRight else n
  if !n.right.isEmpty && !n.right.isRed && !n.right.left.isRed then n.moveRedRight else n

/-- The smallest entry on the right takes the place of the node's own. -/
def takeSmallest (n : FLLRBNode κ α) : FLLRBNode κ α :=
  let smallest := n.right.min
  n.copyWith smallest.key smallest.value none none (some n.right.removeMin)

theorem entries_beforeLeft (n : FLLRBNode κ α) : n.beforeLeft.entries = n.entries :=
  entries_ite (fun _ => entries_moveRedLeft n)

theorem entries_beforeRight (n : FLLRBNode κ α) : n.beforeRight.entries = n.entries := by
  unfold beforeRight
  rw [entries_ite (fun _ => entries_moveRedRight _),
    entries_ite (fun h => entries_rotateRight (isEmpty_of_isRed h))]

theorem count_right_takeSmallest_le (n : FLLRBNode κ α) :
    n.takeSmallest.right.count ≤ n.right.count := by
  cases n with
  | emptyNode => exact Nat.le_refl _
  | valueNode k v c l r => exact count_removeMin_le r

/-- After `takeSmallest` the key is still looked for on the right. -/
def remove (cmp : κ → κ → Ordering) (aKey : κ) : FLLRBNode κ α → FLLRBNode κ α
  | emptyNode => emptyNode
  | valueNode k v c l r =>
    if cmp aKey k = .lt then
      let n := (valueNode k v c l r).beforeLeft
      (n.copyWith none none none (some (n.left.remove cmp aKey)) none).fixUp
    else
      let n := (valueNode k v c l r).beforeRight
      if n.same cmp aKey && n.right.isEmpty then emptyNode
      else
        let m := if n.same cmp aKey then n.takeSmallest else n
        (m.copyWith none none none none (some (m.right.remove cmp aKey))).fixUp
termination_by n => n.count
decreasing_by
  · rw [← count_eq_of_entries_eq (entries_beforeLeft (valueNode k v c l r))]
    apply count_left_lt
    rw [isEmpty_eq_of_entries_eq (entries_beforeLeft _)]
    rfl
  · rw [← count_eq_of_entries_eq (entries_beforeRight (valueNode k v c l r))]
    have hlt : (valueNode k v c l r).beforeRight.right.count <
        (valueNode k v c l r).beforeRight.count := by
      apply count_right_lt
      rw [isEmpty_eq_of_entries_eq (entries_beforeRight _)]
      rfl
    split
    · exact Nat.lt_of_le_of_lt (count_right_takeSmallest_le _) hlt
    · exact hlt

end FLLRBNode

end GFLGO
