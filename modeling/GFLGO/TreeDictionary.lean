import GFLGO.LLRBBalance

/-!
`FTreeSortedDictionary`: lookups and traversals of the tree, and the two changes
with the root painted black. All that they do is what the list of entries says.
-/

set_option autoImplicit false

namespace GFLGO

open SortedEntries

/-- A loop over entries with a block that may stop it. -/
def visit {κ α σ : Type} (action : σ → κ → α → σ × Bool) : List (κ × α) → σ → σ × Bool
  | [], s => (s,false)
  | (k,v) :: cs, s =>
    match action s k v with
    | (s',true) => (s',true)
    | (s',false) => visit action cs s'

theorem visit_append {κ α σ : Type} (action : σ → κ → α → σ × Bool) (xs ys : List (κ × α))
    (s : σ) : visit action (xs ++ ys) s =
      match visit action xs s with
      | (s',true) => (s',true)
      | (s',false) => visit action ys s' := by
  induction xs generalizing s with
  | nil => rfl
  | cons x xs ih =>
    obtain ⟨k,v⟩ := x
    rw [List.cons_append,visit,visit]
    cases h : action s k v with
    | mk s' b =>
      cases b with
      | false => exact ih s'
      | true => rfl

namespace FLLRBNode

variable {κ α σ : Type} {cmp : κ → κ → Ordering} {t l r : FLLRBNode κ α}

def inorderTraversal (action : σ → κ → α → σ × Bool) : FLLRBNode κ α → σ → σ × Bool
  | emptyNode, s => (s,false)
  | valueNode k v _ l r, s =>
    match l.inorderTraversal action s with
    | (s,true) => (s,true)
    | (s,false) =>
      match action s k v with
      | (s,true) => (s,true)
      | (s,false) => r.inorderTraversal action s

def reverseTraversal (action : σ → κ → α → σ × Bool) : FLLRBNode κ α → σ → σ × Bool
  | emptyNode, s => (s,false)
  | valueNode k v _ l r, s =>
    match r.reverseTraversal action s with
    | (s,true) => (s,true)
    | (s,false) =>
      match action s k v with
      | (s,true) => (s,true)
      | (s,false) => l.reverseTraversal action s

theorem inorderTraversal_eq (action : σ → κ → α → σ × Bool) (t : FLLRBNode κ α) (s : σ) :
    t.inorderTraversal action s = visit action t.entries s := by
  induction t generalizing s with
  | emptyNode => rfl
  | valueNode k v c l r ihl ihr =>
    rw [inorderTraversal,entries_valueNode,visit_append,ihl]
    cases visit action l.entries s with
    | mk s' b =>
      cases b with
      | true => rfl
      | false =>
        simp only [visit]
        cases action s' k v with
        | mk s'' b =>
          cases b with
          | true => rfl
          | false => exact ihr s''

theorem reverseTraversal_eq (action : σ → κ → α → σ × Bool) (t : FLLRBNode κ α) (s : σ) :
    t.reverseTraversal action s = visit action t.entries.reverse s := by
  induction t generalizing s with
  | emptyNode => rfl
  | valueNode k v c l r ihl ihr =>
    have he : (l.entries ++ (k,v) :: r.entries).reverse =
        r.entries.reverse ++ (k,v) :: l.entries.reverse := by simp
    rw [reverseTraversal,entries_valueNode,he,visit_append,ihr]
    cases visit action r.entries.reverse s with
    | mk s' b =>
      cases b with
      | true => rfl
      | false =>
        simp only [visit]
        cases action s' k v with
        | mk s'' b =>
          cases b with
          | true => rfl
          | false => exact ihl s''

/-- The loop of `get:`. -/
def get (cmp : κ → κ → Ordering) (key : κ) : FLLRBNode κ α → Option α
  | emptyNode => none
  | valueNode k v _ l r =>
    match cmp key k with
    | .eq => some v
    | .lt => l.get cmp key
    | .gt => r.get cmp key

/-- The loop of `getPredecessorKey:` with the last node it went right at. -/
def predecessor (cmp : κ → κ → Ordering) (key : κ) :
    FLLRBNode κ α → Option κ → Except NSException (Option κ)
  | emptyNode, _ => .error ⟨"NonexistentKey","getPredecessorKey called with nonexistent key."⟩
  | valueNode k _ _ l r, rightParent =>
    match cmp key k with
    | .eq => if !l.isEmpty then .ok l.maxKey else .ok rightParent
    | .lt => l.predecessor cmp key rightParent
    | .gt => r.predecessor cmp key (some k)

theorem minKey_eq (t : FLLRBNode κ α) : t.minKey = t.entries.head?.map Prod.fst := by
  cases h : t.isEmpty with
  | true =>
    cases t with
    | emptyNode => rfl
    | valueNode => simp at h
  | false =>
    obtain ⟨k,v,cs,hk,-,hcs⟩ := min_eq_head h
    rw [minKey,hk,hcs]
    rfl

theorem maxKey_eq (t : FLLRBNode κ α) : t.maxKey = t.entries.getLast?.map Prod.fst := by
  induction t with
  | emptyNode => rfl
  | valueNode k v c l r ihl ihr =>
    cases hr : r.isEmpty with
    | true =>
      cases r with
      | emptyNode => simp [maxKey]
      | valueNode => simp at hr
    | false =>
      obtain ⟨k',v',cs,-,-,hcs⟩ := min_eq_head hr
      rw [maxKey,hr,if_neg (by simp),ihr,entries_valueNode,hcs]
      simp [List.getLast?_append,List.getLast?_cons]

theorem maxKey_of_isEmpty (h : t.isEmpty = false) : ∃ m, t.maxKey = some m := by
  induction t with
  | emptyNode => simp at h
  | valueNode k v c l r ihl ihr =>
    cases hr : r.isEmpty with
    | true => exact ⟨k,by simp [maxKey,hr]⟩
    | false =>
      obtain ⟨m,hm⟩ := ihr hr
      exact ⟨m,by simp [maxKey,hr,hm]⟩

section
variable [Std.TransCmp cmp] {key : κ}

theorem get_eq (hs : Ascending cmp t.entries) : t.get cmp key = find cmp key t.entries := by
  induction t with
  | emptyNode => rfl
  | valueNode k v c l r ihl ihr =>
    obtain ⟨hl,hr,-⟩ := ascending_append_iff.mp hs
    rw [get,entries_valueNode]
    cases hk : cmp key k with
    | lt => rw [find_append_lt hs hk,← ihl hl]
    | eq => rw [find_append_eq hs hk]
    | gt => rw [find_append_gt hs hk,← ihr hr]

theorem predecessor_eq (hs : Ascending cmp t.entries) (rightParent : Option κ) :
    t.predecessor cmp key rightParent =
      if (find cmp key t.entries).isSome then
        .ok (((before cmp key t.entries).getLast?.map Prod.fst).or rightParent)
      else .error ⟨"NonexistentKey","getPredecessorKey called with nonexistent key."⟩ := by
  induction t generalizing rightParent with
  | emptyNode => rfl
  | valueNode k v c l r ihl ihr =>
    obtain ⟨hl,hr,-⟩ := ascending_append_iff.mp hs
    rw [predecessor,entries_valueNode]
    cases hk : cmp key k with
    | lt => rw [find_append_lt hs hk,before_append_lt hs hk,← ihl hl]
    | eq =>
      rw [find_append_eq hs hk,before_append_eq hs hk,← maxKey_eq]
      cases hl : l.isEmpty with
      | true =>
        cases l with
        | emptyNode => rfl
        | valueNode => simp at hl
      | false =>
        obtain ⟨m,hm⟩ := maxKey_of_isEmpty hl
        simp [hm]
    | gt =>
      have hlast : ((l.entries ++ (k,v) :: before cmp key r.entries).getLast?.map Prod.fst).or
          rightParent = ((before cmp key r.entries).getLast?.map Prod.fst).or (some k) := by
        cases h : (before cmp key r.entries).getLast? <;>
          simp [List.getLast?_append,List.getLast?_cons,h]
      rw [find_append_gt hs hk,before_append_gt hs hk,hlast,← ihr hr]

end

/-! The enumerator keeps the nodes that it still has to give on a stack, the next one first. -/

/-- `nextObject` goes on to the smallest key on the right of the node it gave. -/
def pushLeft : FLLRBNode κ α → List (FLLRBNode κ α) → List (FLLRBNode κ α)
  | emptyNode, stack => stack
  | valueNode k v c l r, stack => l.pushLeft (valueNode k v c l r :: stack)

def pushRight : FLLRBNode κ α → List (FLLRBNode κ α) → List (FLLRBNode κ α)
  | emptyNode, stack => stack
  | valueNode k v c l r, stack => r.pushRight (valueNode k v c l r :: stack)

/-- How a node's key stands to the start key in the direction of the enumerator. -/
def compareStart (cmp : κ → κ → Ordering) (startKey : Option κ) (isReverse : Bool) (k : κ) :
    Ordering :=
  let result := match startKey with
    | some s => cmp k s
    | none => .gt
  if isReverse then result.swap else result

/-- The loop of `initWithImmutableSortedDictionary:startKey:isReverse:`. -/
def startEnumerator (cmp : κ → κ → Ordering) (startKey : Option κ) (isReverse : Bool) :
    FLLRBNode κ α → List (FLLRBNode κ α) → List (FLLRBNode κ α)
  | emptyNode, stack => stack
  | valueNode k v c l r, stack =>
    match compareStart cmp startKey isReverse k with
    | .lt =>
      if isReverse then l.startEnumerator cmp startKey isReverse stack
      else r.startEnumerator cmp startKey isReverse stack
    | .eq => valueNode k v c l r :: stack
    | .gt =>
      if isReverse then
        r.startEnumerator cmp startKey isReverse (valueNode k v c l r :: stack)
      else l.startEnumerator cmp startKey isReverse (valueNode k v c l r :: stack)

def nextObject (isReverse : Bool) :
    List (FLLRBNode κ α) → Option κ × List (FLLRBNode κ α)
  | [] => (none,[])
  | n :: stack =>
    (n.key,if isReverse then n.left.pushRight stack else n.right.pushLeft stack)

/-- What `nextObject` gives when it is sent so many times. -/
def nextObjects (isReverse : Bool) : Nat → List (FLLRBNode κ α) → List κ
  | 0, _ => []
  | n+1, stack =>
    match nextObject isReverse stack with
    | (some k,stack) => k :: nextObjects isReverse n stack
    | (none,_) => []

/-- The keys still to come from a node on the stack: its own and those behind it. -/
def pendingKeys (isReverse : Bool) : FLLRBNode κ α → List κ
  | emptyNode => []
  | valueNode k _ _ l r =>
    k :: if isReverse then l.entries.reverse.map Prod.fst else r.entries.map Prod.fst

def pending (isReverse : Bool) (stack : List (FLLRBNode κ α)) : List κ :=
  stack.flatMap (pendingKeys isReverse)

@[simp] theorem pending_cons (isReverse : Bool) (n : FLLRBNode κ α)
    (stack : List (FLLRBNode κ α)) :
    pending isReverse (n :: stack) = n.pendingKeys isReverse ++ pending isReverse stack := by
  simp [pending]

def Pushed (stack : List (FLLRBNode κ α)) : Prop := ∀ n ∈ stack, n.isEmpty = false

theorem pushed_nil : Pushed ([] : List (FLLRBNode κ α)) := fun n hn => by simp at hn

theorem Pushed.cons {stack : List (FLLRBNode κ α)} (h : Pushed stack) (k : κ) (v : α)
    (c : FLLRBColor) (l r : FLLRBNode κ α) : Pushed (valueNode k v c l r :: stack) := by
  intro n hn
  rcases List.mem_cons.mp hn with rfl | hn
  · rfl
  · exact h n hn

section
variable {stack : List (FLLRBNode κ α)}

theorem pushLeft_spec (h : Pushed stack) : Pushed (t.pushLeft stack) ∧
    pending false (t.pushLeft stack) = t.entries.map Prod.fst ++ pending false stack := by
  induction t generalizing stack with
  | emptyNode => exact ⟨h,rfl⟩
  | valueNode k v c l r ihl ihr =>
    obtain ⟨hp,he⟩ := ihl (h.cons k v c l r)
    exact ⟨hp,by rw [pushLeft,he]; simp [pendingKeys]⟩

theorem pushRight_spec (h : Pushed stack) : Pushed (t.pushRight stack) ∧
    pending true (t.pushRight stack) =
      t.entries.reverse.map Prod.fst ++ pending true stack := by
  induction t generalizing stack with
  | emptyNode => exact ⟨h,rfl⟩
  | valueNode k v c l r ihl ihr =>
    obtain ⟨hp,he⟩ := ihr (h.cons k v c l r)
    exact ⟨hp,by rw [pushRight,he]; simp [pendingKeys]⟩

theorem nextObjects_eq (isReverse : Bool) (n : Nat) (h : Pushed stack) :
    nextObjects isReverse n stack = (pending isReverse stack).take n := by
  induction n generalizing stack with
  | zero => rfl
  | succ n ih =>
    cases stack with
    | nil => rfl
    | cons t stack =>
      have hs : Pushed stack := fun m hm => h m (List.mem_cons_of_mem _ hm)
      obtain ⟨k,v,c,l,r,rfl⟩ := eq_valueNode_of_isEmpty (h t List.mem_cons_self)
      cases isReverse with
      | false =>
        obtain ⟨hp,he⟩ := pushLeft_spec (t := r) hs
        simp [nextObjects,nextObject,ih hp,he,pendingKeys]
      | true =>
        obtain ⟨hp,he⟩ := pushRight_spec (t := l) hs
        simp [nextObjects,nextObject,ih hp,he,pendingKeys]

variable [Std.TransCmp cmp]

def startingFrom (cmp : κ → κ → Ordering) (startKey : Option κ) (cs : List (κ × α)) :
    List (κ × α) :=
  match startKey with
  | some s => startingAt cmp s cs
  | none => cs

theorem startEnumerator_forward (hs : Ascending cmp t.entries) (startKey : Option κ)
    (h : Pushed stack) : Pushed (t.startEnumerator cmp startKey false stack) ∧
      pending false (t.startEnumerator cmp startKey false stack) =
        (startingFrom cmp startKey t.entries).map Prod.fst ++ pending false stack := by
  induction t generalizing stack with
  | emptyNode => exact ⟨h,by cases startKey <;> rfl⟩
  | valueNode k v c l r ihl ihr =>
    obtain ⟨hl,hr,-⟩ := ascending_append_iff.mp hs
    rw [startEnumerator,entries_valueNode]
    cases startKey with
    | none =>
      obtain ⟨hp,he⟩ := ihl hl (h.cons k v c l r)
      exact ⟨hp,he.trans (by simp [startingFrom,pendingKeys])⟩
    | some s =>
      have hc : compareStart cmp (some s) false k = cmp k s := rfl
      rw [hc]
      cases hk : cmp k s with
      | lt =>
        obtain ⟨hp,he⟩ := ihr hr h
        refine ⟨hp,he.trans ?_⟩
        simp only [startingFrom,startingAt_append_gt hs (Std.OrientedCmp.gt_of_lt hk)]
      | eq =>
        refine ⟨h.cons k v c l r,?_⟩
        rw [startingFrom,startingAt_append_eq hs (Std.OrientedCmp.eq_symm hk)]
        simp [pendingKeys]
      | gt =>
        obtain ⟨hp,he⟩ := ihl hl (h.cons k v c l r)
        refine ⟨hp,he.trans ?_⟩
        simp [startingFrom,startingAt_append_lt hs (Std.OrientedCmp.lt_of_gt hk),pendingKeys]

theorem startEnumerator_reverse (hs : Ascending cmp t.entries) (s : κ) (h : Pushed stack) :
    Pushed (t.startEnumerator cmp (some s) true stack) ∧
      pending true (t.startEnumerator cmp (some s) true stack) =
        (endingAt cmp s t.entries).reverse.map Prod.fst ++ pending true stack := by
  induction t generalizing stack with
  | emptyNode => exact ⟨h,rfl⟩
  | valueNode k v c l r ihl ihr =>
    obtain ⟨hl,hr,-⟩ := ascending_append_iff.mp hs
    have hc : compareStart cmp (some s) true k = cmp s k := Std.OrientedCmp.eq_swap.symm
    rw [startEnumerator,entries_valueNode,hc]
    cases hk : cmp s k with
    | lt =>
      obtain ⟨hp,he⟩ := ihl hl h
      refine ⟨hp,he.trans ?_⟩
      rw [endingAt_append_lt hs hk]
    | eq =>
      refine ⟨h.cons k v c l r,?_⟩
      rw [endingAt_append_eq hs hk]
      simp [pendingKeys]
    | gt =>
      obtain ⟨hp,he⟩ := ihr hr (h.cons k v c l r)
      refine ⟨hp,he.trans ?_⟩
      rw [endingAt_append_gt hs hk]
      simp [pendingKeys]

omit [Std.TransCmp cmp] in
/-- Without a start key the comparison is turned round as well, so nothing is pushed. -/
theorem startEnumerator_reverse_none (t : FLLRBNode κ α) (stack : List (FLLRBNode κ α)) :
    t.startEnumerator cmp none true stack = stack := by
  induction t generalizing stack with
  | emptyNode => rfl
  | valueNode k v c l r ihl ihr => exact ihl stack

end

end FLLRBNode

end GFLGO
