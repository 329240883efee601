import GFLGO.LLRBNode

/-!
The three invariants of the tree: no red node has a red child, only left
children are red, and every path has the same number of black nodes. Inserting
and removing keep them and do to the entries what a sorted list would do.
-/

set_option autoImplicit false

namespace GFLGO

namespace FLLRBNode

open SortedEntries

variable {κ α : Type}

/-- A tree with a root of the color that keeps the invariants, with its black depth. -/
inductive Balanced : FLLRBColor → Nat → FLLRBNode κ α → Prop where
  | emptyNode : Balanced .black 0 emptyNode
  | red {n : Nat} {k : κ} {v : α} {l r : FLLRBNode κ α} :
    Balanced .black n l → Balanced .black n r → Balanced .red n (valueNode k v .red l r)
  | black {c : FLLRBColor} {n : Nat} {k : κ} {v : α} {l r : FLLRBNode κ α} :
    Balanced c n l → Balanced .black n r → Balanced .black (n+1) (valueNode k v .black l r)

/-- What `fixUp` leaves of a node over two balanced children. -/
inductive Fixed (c : FLLRBColor) : Nat → FLLRBNode κ α → Prop where
  | leaning {d : FLLRBColor} {n : Nat} {k : κ} {v : α} {l r : FLLRBNode κ α} :
    Balanced d n l → Balanced .black n r → Fixed c n (valueNode k v c l r)
  | flipped {n : Nat} {k : κ} {v : α} {l r : FLLRBNode κ α} :
    Balanced .black (n+1) l → Balanced .black (n+1) r → Fixed c n (valueNode k v (flip c) l r)

section
variable {c d : FLLRBColor} {n m : Nat} {t l r : FLLRBNode κ α} {k : κ} {v : α}
  {cmp : κ → κ → Ordering}

theorem Balanced.isRed (h : Balanced c n t) : t.isRed = (c = .red) := by
  cases h <;> simp

theorem Balanced.isRed_of_black (h : Balanced .black n t) : t.isRed = false := by
  cases h <;> rfl

theorem Balanced.isEmpty_of_red (h : Balanced .red n t) : t.isEmpty = false := by
  cases h
  rfl

theorem Balanced.isEmpty (h : Balanced .black (n+1) t) : t.isEmpty = false := by
  cases h
  rfl

theorem Balanced.isRed_left_left (h : Balanced c n t) (ht : t.isRed = true) :
    t.left.isRed = false := by
  cases h with
  | emptyNode => rfl
  | red hl hr => exact hl.isRed_of_black
  | black hl hr => simp at ht

theorem Balanced.of_not_red (h : Balanced c n t) (ht : t.isRed = false) :
    Balanced .black n t := by
  cases h with
  | emptyNode => exact .emptyNode
  | red hl hr => simp at ht
  | black hl hr => exact .black hl hr

theorem Balanced.of_red (h : Balanced c n t) (ht : t.isRed = true) :
    ∃ k v l r, t = valueNode k v .red l r ∧ Balanced .black n l ∧ Balanced .black n r := by
  cases h with
  | emptyNode => simp at ht
  | red hl hr => exact ⟨_,_,_,_,rfl,hl,hr⟩
  | black hl hr => simp at ht

theorem fixUp_eq_self (hl : Balanced d n l) (hr : Balanced .black n r) :
    (valueNode k v c l r).fixUp = valueNode k v c l r := by
  have hr' := hr.isRed_of_black
  cases h : l.isRed with
  | false => simp [fixUp,hr',h]
  | true => simp [fixUp,hr',h,hl.isRed_left_left h]

theorem fixUp_rotateLeft {rk : κ} {rv : α} {rl rr : FLLRBNode κ α} (hl : l.isRed = false)
    (hr : rr.isRed = false) : (valueNode k v c l (valueNode rk rv .red rl rr)).fixUp =
      valueNode rk rv c (valueNode k v .red l rl) rr := by
  simp [fixUp,rotateLeft,hl,hr]

theorem fixUp_colorFlip {lk rk : κ} {lv rv : α} {ll lr rl rr : FLLRBNode κ α}
    (hl : ll.isRed = false) :
    (valueNode k v c (valueNode lk lv .red ll lr) (valueNode rk rv .red rl rr)).fixUp =
      valueNode k v (flip c) (valueNode lk lv .black ll lr) (valueNode rk rv .black rl rr) := by
  simp [fixUp,colorFlip,hl,flip]

/-- `fixUp` restores the invariants over any two balanced children of one depth. -/
theorem fixUp_fixed (hl : Balanced c n l) (hr : Balanced d n r) (e : FLLRBColor) :
    Fixed e n (valueNode k v e l r).fixUp := by
  cases hr with
  | emptyNode =>
    rw [fixUp_eq_self hl .emptyNode]
    exact .leaning hl .emptyNode
  | black hrl hrr =>
    rw [fixUp_eq_self hl (.black hrl hrr)]
    exact .leaning hl (.black hrl hrr)
  | red hrl hrr =>
    cases hl with
    | emptyNode =>
      rw [fixUp_rotateLeft rfl hrr.isRed_of_black]
      exact .leaning (.red .emptyNode hrl) hrr
    | black hll hlr =>
      rw [fixUp_rotateLeft rfl hrr.isRed_of_black]
      exact .leaning (.red (.black hll hlr) hrl) hrr
    | red hll hlr =>
      rw [fixUp_colorFlip hll.isRed_of_black]
      exact .flipped (.black hll hlr) (.black hrl hrr)

theorem Fixed.balanced (h : Fixed .black n t) : ∃ d, Balanced d (n+1) t := by
  cases h with
  | leaning hl hr => exact ⟨.black,.black hl hr⟩
  | flipped hl hr => exact ⟨.red,.red hl hr⟩

/-! Inserting. Below a red node the new entry may leave a red node on the left. -/

/-- A red node that may have a red left child. -/
inductive AlmostRed : Nat → FLLRBNode κ α → Prop where
  | mk {d : FLLRBColor} {n : Nat} {k : κ} {v : α} {l r : FLLRBNode κ α} :
    Balanced d n l → Balanced .black n r → AlmostRed n (valueNode k v .red l r)

def Inserted (c : FLLRBColor) (n : Nat) (t : FLLRBNode κ α) : Prop :=
  match c with
  | .red => AlmostRed n t
  | .black => ∃ d, Balanced d n t

theorem fixUp_almostRed (hl : AlmostRed n l) (hr : Balanced .black n r) :
    Fixed .black n (valueNode k v .black l r).fixUp := by
  cases hl with
  | @mk d n lk lv ll lr hll hlr =>
    cases hll with
    | emptyNode => exact fixUp_fixed (.red .emptyNode hlr) hr _
    | black ha hb => exact fixUp_fixed (.red (.black ha hb) hlr) hr _
    | @red n ak av a b ha hb =>
      have hr' := hr.isRed_of_black
      have he : (valueNode k v .black (valueNode lk lv .red (valueNode ak av .red a b) lr)
          r).fixUp = valueNode lk lv .red (valueNode ak av .black a b)
            (valueNode k v .black lr r) := by
        simp [fixUp,rotateRight,colorFlip,hr',flip]
      rw [he]
      exact .flipped (c := .black) (.black ha hb) (.black hlr hr)

theorem fixUp_of_left_black (hl : Balanced .black n l) (hr : Balanced d n r) (e : FLLRBColor) :
    ∃ d' k' v' l' r', Balanced d' n l' ∧ Balanced .black n r' ∧
      (valueNode k v e l r).fixUp = valueNode k' v' e l' r' := by
  cases hr with
  | emptyNode => exact ⟨_,_,_,_,_,hl,.emptyNode,fixUp_eq_self hl .emptyNode⟩
  | black hrl hrr => exact ⟨_,_,_,_,_,hl,.black hrl hrr,fixUp_eq_self hl (.black hrl hrr)⟩
  | red hrl hrr =>
    exact ⟨_,_,_,_,_,.red hl hrl,hrr,fixUp_rotateLeft hl.isRed_of_black hrr.isRed_of_black⟩

theorem insertKey_inserted (cmp : κ → κ → Ordering) (aKey : κ) (aValue : α)
    (h : Balanced c n t) : Inserted c n (t.insertKey cmp aKey aValue) := by
  induction h with
  | emptyNode => exact ⟨.red,.red .emptyNode .emptyNode⟩
  | @red n k v l r hl hr ihl ihr =>
    rw [insertKey_valueNode]
    cases cmp aKey k with
    | lt =>
      obtain ⟨d,hd⟩ := ihl
      have he := fixUp_eq_self (k := k) (v := v) (c := .red) hd hr
      simp only [he]
      exact AlmostRed.mk hd hr
    | eq =>
      have he := fixUp_eq_self (k := k) (v := aValue) (c := .red) hl hr
      simp only [he]
      exact AlmostRed.mk hl hr
    | gt =>
      obtain ⟨d,hd⟩ := ihr
      obtain ⟨d',k',v',l',r',hl',hr',he⟩ := fixUp_of_left_black (k := k) (v := v) hl hd .red
      simp only [he]
      exact AlmostRed.mk hl' hr'
  | @black d n k v l r hl hr ihl ihr =>
    rw [insertKey_valueNode]
    cases cmp aKey k with
    | lt =>
      cases d with
      | red => exact (fixUp_almostRed ihl hr).balanced
      | black =>
        obtain ⟨d,hd⟩ := ihl
        exact (fixUp_fixed hd hr .black).balanced
    | eq => exact (fixUp_fixed hl hr .black).balanced
    | gt =>
      obtain ⟨e,he⟩ := ihr
      exact (fixUp_fixed hl he .black).balanced

/-- `FTreeSortedDictionary` paints the root black after every change. -/
def blacken (t : FLLRBNode κ α) : FLLRBNode κ α := t.copyWith none none (some .black) none none

theorem Balanced.blacken (h : Balanced c n t) : ∃ m, Balanced .black m t.blacken := by
  cases h with
  | emptyNode => exact ⟨0,.emptyNode⟩
  | red hl hr => exact ⟨_,.black hl hr⟩
  | black hl hr => exact ⟨_,.black hl hr⟩

theorem Inserted.blacken (h : Inserted c n t) : ∃ m, Balanced .black m t.blacken := by
  cases c with
  | red =>
    cases h with
    | mk hl hr => exact ⟨_,.black hl hr⟩
  | black =>
    obtain ⟨d,hd⟩ := h
    exact hd.blacken

theorem entries_insertKey [Std.TransCmp cmp] {aKey : κ} {aValue : α}
    (h : Ascending cmp t.entries) :
    (t.insertKey cmp aKey aValue).entries = insert cmp aKey aValue t.entries := by
  induction t with
  | emptyNode => rfl
  | valueNode k v c l r ihl ihr =>
    obtain ⟨hl,hr,-⟩ := ascending_append_iff.mp h
    rw [insertKey_valueNode,entries_valueNode]
    cases hk : cmp aKey k with
    | lt => rw [insert_append_lt hk,entries_fixUp,entries_valueNode,ihl hl]
    | eq => rw [insert_append_eq h hk,entries_fixUp,entries_valueNode]
    | gt => rw [insert_append_gt h hk,entries_fixUp,entries_valueNode,ihr hr]

/-! Removing. A step into a child needs a red node there or just below it. -/

/-- A node over two black children. -/
inductive Two (c : FLLRBColor) : Nat → FLLRBNode κ α → Prop where
  | mk {n : Nat} {k : κ} {v : α} {l r : FLLRBNode κ α} :
    Balanced .black n l → Balanced .black n r → Two c n (valueNode k v c l r)

inductive Three : Nat → FLLRBNode κ α → Prop where
  | mk {n : Nat} {k : κ} {v : α} {l r : FLLRBNode κ α} :
    Balanced .red n l → Balanced .black n r → Three n (valueNode k v .black l r)

/-- What removing leaves of a node over two black children: perhaps one level less. -/
inductive Removed (c : FLLRBColor) : Nat → FLLRBNode κ α → Prop where
  | gone : Removed c 0 emptyNode
  | kept {n : Nat} {k : κ} {v : α} {l r : FLLRBNode κ α} :
    Balanced .black n l → Balanced .black n r → Removed c n (valueNode k v c l r)
  | lowered {d : FLLRBColor} {n : Nat} {k : κ} {v : α} {l r : FLLRBNode κ α} :
    Balanced d n l → Balanced .black n r → Removed c (n+1) (valueNode k v (flip c) l r)

theorem Removed.balanced (h : Removed .red n t) : ∃ d, Balanced d n t := by
  cases h with
  | gone => exact ⟨.black,.emptyNode⟩
  | kept hl hr => exact ⟨.red,.red hl hr⟩
  | lowered hl hr => exact ⟨.black,.black hl hr⟩

theorem Fixed.removed (h : Fixed (flip c) n t) : Removed c (n+1) t := by
  cases h with
  | leaning hl hr => exact .lowered hl hr
  | flipped hl hr =>
    rw [flip_flip]
    exact .kept hl hr

theorem Three.balanced (h : Three n t) : Balanced .black (n+1) t := by
  cases h with
  | mk hl hr => exact .black hl hr

theorem Balanced.two (h : Balanced .red n t) : Two .red n t := by
  cases h with
  | red hl hr => exact .mk hl hr

theorem Balanced.three (hl : Balanced d n l) (h : l.isRed = true) (hr : Balanced .black n r) :
    Three n (valueNode k v .black l r) := by
  cases hl with
  | emptyNode => simp at h
  | red ha hb => exact .mk (.red ha hb) hr
  | black ha hb => simp at h

/-- What `remove` and `removeMin` do on their way to the left. -/
def descendLeft (f : FLLRBNode κ α → FLLRBNode κ α) (t : FLLRBNode κ α) : FLLRBNode κ α :=
  let n := if !t.left.isRed && !t.left.left.isRed then t.moveRedLeft else t
  (n.copyWith none none none (some (f n.left)) none).fixUp

theorem descendLeft_cases (f : FLLRBNode κ α → FLLRBNode κ α) (c : FLLRBColor) (k : κ) (v : α)
    (hl : Balanced .black (n+1) l) (hr : Balanced .black (n+1) r) :
    (∃ k' v' l' r', Three n l' ∧ Balanced .black (n+1) r' ∧ (k',v') ∈ (k,v) :: r.entries ∧
      l'.entries ++ (k',v') :: r'.entries = l.entries ++ (k,v) :: r.entries ∧
      descendLeft f (valueNode k v c l r) = (valueNode k' v' c (f l') r').fixUp) ∨
    ∃ l' r', Balanced .red n l' ∧ Balanced .red n r' ∧ l'.entries = l.entries ∧
      r'.entries = r.entries ∧
      descendLeft f (valueNode k v c l r) = (valueNode k v (flip c) (f l') r').fixUp := by
  cases hl with
  | @black d n lk lv ll lr hll hlr =>
    cases hd : ll.isRed with
    | true =>
      refine Or.inl ⟨k,v,_,r,hll.three hd hlr,hr,List.mem_cons_self,rfl,?_⟩
      simp [descendLeft,hd]
    | false =>
      cases hr with
      | @black e n rk rv rl rr hrl hrr =>
        cases he : rl.isRed with
        | false =>
          refine Or.inr ⟨valueNode lk lv .red ll lr,valueNode rk rv .red rl rr,
            .red (hll.of_not_red hd) hlr,.red (hrl.of_not_red he) hrr,rfl,rfl,?_⟩
          simp [descendLeft,hd,he,moveRedLeft,colorFlip,flip]
        | true =>
          -- the red node on the right is rotated over to the left
          obtain ⟨ak,av,a,b,rfl,ha,hb⟩ := hrl.of_red he
          refine Or.inl ⟨ak,av,valueNode k v .black (valueNode lk lv .red ll lr) a,
            valueNode rk rv .black b rr,.mk (.red (hll.of_not_red hd) hlr) ha,
            .black hb hrr,by simp,by simp,?_⟩
          cases c <;> simp [descendLeft,hd,moveRedLeft,colorFlip,rotateLeft,rotateRight,flip]

theorem descendLeft_three (f : FLLRBNode κ α → FLLRBNode κ α) (hl : Balanced .red n l) :
    descendLeft f (valueNode k v c l r) = (valueNode k v c (f l) r).fixUp := by
  cases hl with
  | red ha hb => simp [descendLeft]

theorem removeMin_eq_descendLeft (h : l.isEmpty = false) :
    (valueNode k v c l r).removeMin = descendLeft removeMin (valueNode k v c l r) := by
  rw [removeMin]
  simp only [left_valueNode,h,descendLeft,Bool.false_eq_true,if_false]

theorem tail_append_entries (h : l.isEmpty = false) (x : κ × α) (cs : List (κ × α)) :
    (l.entries ++ x :: cs).tail = l.entries.tail ++ x :: cs := by
  obtain ⟨k,v,c,a,b,rfl⟩ := eq_valueNode_of_isEmpty h
  cases ha : a.entries <;> simp [ha]

/-- `f` keeps the invariants of `t` and does to its entries what `g` does. -/
structure Shrinks (f : FLLRBNode κ α → FLLRBNode κ α) (g : List (κ × α) → List (κ × α))
    (t : FLLRBNode κ α) : Prop where
  three : ∀ n, Three n t → Balanced .black (n+1) (f t)
  two : ∀ c n, Two c n t → Removed c n (f t)
  entries : ∀ n, (Three n t ∨ ∃ c, Two c n t) → (f t).entries = g t.entries

theorem Shrinks.red {f : FLLRBNode κ α → FLLRBNode κ α} {g : List (κ × α) → List (κ × α)}
    (h : Shrinks f g t) (ht : Balanced .red n t) :
    (∃ d, Balanced d n (f t)) ∧ (f t).entries = g t.entries :=
  ⟨(h.two _ _ ht.two).balanced,h.entries n (Or.inr ⟨_,ht.two⟩)⟩

theorem Shrinks.of_cases {f : FLLRBNode κ α → FLLRBNode κ α}
    {g : List (κ × α) → List (κ × α)}
    (hthree : ∀ n, Three n t → Balanced .black (n+1) (f t) ∧ (f t).entries = g t.entries)
    (htwo : ∀ c n, Two c n t → Removed c n (f t) ∧ (f t).entries = g t.entries) :
    Shrinks f g t := by
  refine ⟨fun n h => (hthree n h).1,fun c n h => (htwo c n h).1,?_⟩
  rintro n (h | ⟨c,h⟩)
  · exact (hthree n h).2
  · exact (htwo c n h).2

section
variable {f : FLLRBNode κ α → FLLRBNode κ α} {g : List (κ × α) → List (κ × α)}

/-- On the way to the left `g` leaves everything else alone. -/
def OnLeft (cmp : κ → κ → Ordering) (g : List (κ × α) → List (κ × α)) (x : κ × α)
    (cs : List (κ × α)) : Prop :=
  ∀ y ∈ x :: cs, ∀ (t : FLLRBNode κ α) (ys : List (κ × α)), t.isEmpty = false →
    Ascending cmp (t.entries ++ y :: ys) → g (t.entries ++ y :: ys) = g t.entries ++ y :: ys

variable (hg : OnLeft cmp g (k,v) r.entries) (hs : Ascending cmp (l.entries ++ (k,v) :: r.entries))
  (ih : ∀ t : FLLRBNode κ α, t.count < l.count + 1 + r.count → Ascending cmp t.entries →
    Shrinks f g t)

include hg hs ih

theorem descendLeft_of_three (hl : Balanced .red n l) (hr : Balanced .black n r) :
    Balanced .black (n+1) (descendLeft f (valueNode k v .black l r)) ∧
      (descendLeft f (valueNode k v .black l r)).entries =
        g (l.entries ++ (k,v) :: r.entries) := by
  have hle : l.isEmpty = false := hl.isEmpty_of_red
  have hsl : Ascending cmp l.entries := (ascending_append.mp hs).1
  obtain ⟨⟨d,hd⟩,he⟩ := (ih l (by omega) hsl).red hl
  rw [descendLeft_three f hl,fixUp_eq_self hd hr]
  refine ⟨.black hd hr,?_⟩
  rw [entries_valueNode,he,hg _ List.mem_cons_self l _ hle hs]

theorem descendLeft_of_two (hl : Balanced .black (n+1) l) (hr : Balanced .black (n+1) r) :
    Removed c (n+1) (descendLeft f (valueNode k v c l r)) ∧
      (descendLeft f (valueNode k v c l r)).entries = g (l.entries ++ (k,v) :: r.entries) := by
  rcases descendLeft_cases f c k v hl hr with ⟨k',v',l',r',ht,hr',hm,he,heq⟩ |
    ⟨l',r',hl',hr',hel,her,heq⟩
  · have hcount : l'.count < l.count + 1 + r.count := by
      have hlen := congrArg List.length he
      simp only [List.length_append,List.length_cons,length_entries] at hlen
      omega
    rw [← he] at hs ⊢
    have hle : l'.isEmpty = false := ht.balanced.isEmpty
    have hsh := ih l' hcount (ascending_append.mp hs).1
    rw [heq,fixUp_eq_self (hsh.three _ ht) hr']
    refine ⟨.kept (hsh.three _ ht) hr',?_⟩
    rw [entries_valueNode,hsh.entries n (Or.inl ht),hg _ hm l' _ hle hs]
  · have hcount : l'.count < l.count + 1 + r.count := by
      rw [count_eq_of_entries_eq hel]
      omega
    have hle : l'.isEmpty = false := hl'.isEmpty_of_red
    rw [← hel,← her] at hs ⊢
    obtain ⟨⟨d,hd⟩,hf⟩ := (ih l' hcount (ascending_append.mp hs).1).red hl'
    rw [heq]
    refine ⟨(fixUp_fixed hd hr' (flip c)).removed,?_⟩
    rw [entries_fixUp,entries_valueNode,hf,hg _ List.mem_cons_self l' _ hle hs]

end

theorem Balanced.eq_emptyNode (h : Balanced .black 0 t) : t = .emptyNode := by
  cases h
  rfl

theorem onLeft_tail (cmp : κ → κ → Ordering) (x : κ × α) (cs : List (κ × α)) :
    OnLeft cmp List.tail x cs :=
  fun y _ _ ys ht _ => tail_append_entries ht y ys

/-- `removeMin` takes the first entry away. -/
theorem removeMin_shrinks (cmp : κ → κ → Ordering) (t : FLLRBNode κ α)
    (hs : Ascending cmp t.entries) : Shrinks removeMin List.tail t := by
  induction hc : t.count using Nat.strongRecOn generalizing t with
  | ind N ih =>
    subst hc
    cases t with
    | emptyNode =>
      refine .of_cases (fun n h => ?_) (fun c' n h => ?_)
      · cases h
      · cases h
    | valueNode k v c l r =>
      have ih' : ∀ t : FLLRBNode κ α, t.count < l.count + 1 + r.count →
          Ascending cmp t.entries → Shrinks removeMin List.tail t :=
        fun t ht hst => ih _ ht t hst rfl
      refine .of_cases (fun n h => ?_) (fun c' n h => ?_)
      · cases h with
        | mk hl hr =>
          rw [removeMin_eq_descendLeft hl.isEmpty_of_red]
          exact descendLeft_of_three (onLeft_tail cmp _ _) hs ih' hl hr
      · cases h with
        | mk hl hr =>
          cases n with
          | zero =>
            obtain rfl := hl.eq_emptyNode
            obtain rfl := hr.eq_emptyNode
            rw [removeMin]
            exact ⟨.gone,rfl⟩
          | succ n =>
            rw [removeMin_eq_descendLeft hl.isEmpty]
            exact descendLeft_of_two (onLeft_tail cmp _ _) hs ih' hl hr

theorem remove_of_lt {aKey : κ} (hk : cmp aKey k = .lt) (h : l.isEmpty = false) :
    (valueNode k v c l r).remove cmp aKey =
      descendLeft (remove cmp aKey) (valueNode k v c l r) := by
  rw [remove]
  simp only [hk,if_true,beforeLeft,left_valueNode,h,descendLeft,Bool.not_false,Bool.true_and]
  rfl

theorem remove_of_lt_empty {aKey : κ} (hk : cmp aKey k = .lt) :
    (valueNode k v c emptyNode r).remove cmp aKey = (valueNode k v c emptyNode r).fixUp := by
  rw [remove]
  simp [hk,beforeLeft,remove]

theorem fixUp_of_reds (hl : Balanced .red n l) (hr : Balanced .red n r) :
    ∃ l' r', Balanced .black (n+1) l' ∧ Balanced .black (n+1) r' ∧
      (valueNode k v c l r).fixUp = valueNode k v (flip c) l' r' := by
  cases hl with
  | red hll hlr =>
    cases hr with
    | red hrl hrr =>
      exact ⟨_,_,.black hll hlr,.black hrl hrr,fixUp_colorFlip hll.isRed_of_black⟩

theorem Two.balanced (h : Two .red n t) : Balanced .red n t := by
  cases h with
  | mk hl hr => exact .red hl hr

theorem Two.balanced_black (h : Two .black n t) : Balanced .black (n+1) t := by
  cases h with
  | mk hl hr => exact .black hl hr

/-- Looking for an absent key changes neither colors nor entries. -/
def Unmoved (f : FLLRBNode κ α → FLLRBNode κ α) (t : FLLRBNode κ α) : Prop :=
  ∀ c n, Balanced c n t → Balanced c n (f t) ∧ (f t).entries = t.entries

theorem two_remove_absent {aKey : κ} (hk : ∀ x ∈ l.entries ++ (k,v) :: r.entries,
    cmp aKey x.1 = .lt)
    (ih : ∀ t : FLLRBNode κ α, t.count < l.count + 1 + r.count →
      (∀ x ∈ t.entries, cmp aKey x.1 = .lt) → Unmoved (remove cmp aKey) t)
    (hl : Balanced .black n l) (hr : Balanced .black n r) :
    Two c n ((valueNode k v c l r).remove cmp aKey) ∧
      ((valueNode k v c l r).remove cmp aKey).entries = l.entries ++ (k,v) :: r.entries := by
  have hkk : cmp aKey k = .lt := hk (k,v) (by simp)
  cases n with
  | zero =>
    obtain rfl := hl.eq_emptyNode
    rw [remove_of_lt_empty hkk,fixUp_eq_self hl hr]
    exact ⟨.mk hl hr,rfl⟩
  | succ n =>
    rw [remove_of_lt hkk hl.isEmpty]
    rcases descendLeft_cases (remove cmp aKey) c k v hl hr with
      ⟨k',v',l',r',ht,hr',-,he,heq⟩ | ⟨l',r',hl',hr',hel,her,heq⟩
    · have hcount : l'.count < l.count + 1 + r.count := by
        have hlen := congrArg List.length he
        simp only [List.length_append,List.length_cons,length_entries] at hlen
        omega
      have hkl : ∀ x ∈ l'.entries, cmp aKey x.1 = .lt := fun x hx =>
        hk x (he ▸ List.mem_append_left _ hx)
      obtain ⟨hb,hbe⟩ := ih _ hcount hkl _ _ ht.balanced
      rw [heq,fixUp_eq_self hb hr',entries_valueNode,hbe]
      exact ⟨.mk hb hr',he⟩
    · have hcount : l'.count < l.count + 1 + r.count := by
        rw [count_eq_of_entries_eq hel]
        omega
      have hkl : ∀ x ∈ l'.entries, cmp aKey x.1 = .lt := fun x hx =>
        hk x (List.mem_append_left _ (hel ▸ hx))
      obtain ⟨hb,hbe⟩ := ih _ hcount hkl _ _ hl'
      have hent := entries_fixUp (valueNode k v (flip c) (l'.remove cmp aKey) r')
      rw [entries_valueNode,hbe,hel,her] at hent
      obtain ⟨a,b,ha,hb',hf⟩ := fixUp_of_reds (k := k) (v := v) (c := flip c) hb hr'
      rw [hf,flip_flip] at hent
      rw [heq,hf,flip_flip]
      exact ⟨.mk ha hb',hent⟩

theorem remove_absent {aKey : κ} (t : FLLRBNode κ α)
    (hk : ∀ x ∈ t.entries, cmp aKey x.1 = .lt) : Unmoved (remove cmp aKey) t := by
  induction hc : t.count using Nat.strongRecOn generalizing t with
  | ind N ih =>
    subst hc
    intro c n h
    cases h with
    | emptyNode =>
      rw [remove]
      exact ⟨.emptyNode,rfl⟩
    | @red n k v l r hl hr =>
      obtain ⟨ht,he⟩ := two_remove_absent hk (fun t ht hkt => ih _ ht t hkt rfl) hl hr
      exact ⟨ht.balanced,he⟩
    | @black d n k v l r hl hr =>
      cases d with
      | black =>
        obtain ⟨ht,he⟩ := two_remove_absent hk (fun t ht hkt => ih _ ht t hkt rfl) hl hr
        exact ⟨ht.balanced_black,he⟩
      | red =>
        have hkk : cmp aKey k = .lt := hk (k,v) (by simp)
        have hle : l.isEmpty = false := hl.isEmpty_of_red
        have hcount : l.count < (valueNode k v .black l r).count := by
          rw [count_valueNode]
          omega
        obtain ⟨hb,hbe⟩ := ih _ hcount l (fun x hx => hk x (List.mem_append_left _ hx)) rfl _ _ hl
        rw [remove_of_lt hkk hle,descendLeft_three _ hl,fixUp_eq_self hb hr]
        exact ⟨.black hb hr,by rw [entries_valueNode,hbe,entries_valueNode]⟩

theorem beforeRight_of_two (hl : Balanced .black (n+1) l) (hr : Balanced .black (n+1) r) :
    (Three n r ∧ (valueNode k v c l r).beforeRight = valueNode k v c l r) ∨
    (∃ l' r', Balanced .red n l' ∧ Balanced .red n r' ∧ l'.entries = l.entries ∧
      r'.entries = r.entries ∧
      (valueNode k v c l r).beforeRight = valueNode k v (flip c) l' r') ∨
    ∃ lk lv a b r', Balanced .black (n+1) a ∧ Balanced .black n b ∧ Balanced .red n r' ∧
      a.entries ++ (lk,lv) :: b.entries = l.entries ∧ r'.entries = r.entries ∧
      (valueNode k v c l r).beforeRight = valueNode lk lv c a (valueNode k v .black b r') := by
  cases hr with
  | @black e n rk rv rl rr hrl hrr =>
    have hlb := hl.isRed_of_black
    cases he : rl.isRed with
    | true => exact Or.inl ⟨hrl.three he hrr,by simp [beforeRight,hlb,he]⟩
    | false =>
      cases hl with
      | @black d n lk lv ll lr hll hlr =>
        cases hd : ll.isRed with
        | false =>
          refine Or.inr (Or.inl ⟨valueNode lk lv .red ll lr,valueNode rk rv .red rl rr,
            .red (hll.of_not_red hd) hlr,.red (hrl.of_not_red he) hrr,rfl,rfl,?_⟩)
          simp [beforeRight,hd,he,moveRedRight,colorFlip,flip]
        | true =>
          -- the red node on the left is rotated up, and the node over to the right
          obtain ⟨ak,av,a,b,rfl,ha,hb⟩ := hll.of_red hd
          refine Or.inr (Or.inr ⟨lk,lv,valueNode ak av .black a b,lr,
            valueNode rk rv .red rl rr,.black ha hb,hlr,.red (hrl.of_not_red he) hrr,rfl,rfl,?_⟩)
          cases c <;> simp [beforeRight,he,moveRedRight,colorFlip,rotateRight,flip]

theorem beforeRight_of_three {lk : κ} {lv : α} {ll lr : FLLRBNode κ α} :
    (valueNode k v c (valueNode lk lv .red ll lr) r).beforeRight =
      valueNode lk lv c ll (valueNode k v .red lr r) := by
  simp [beforeRight,rotateRight]

def descendRight (cmp : κ → κ → Ordering) (aKey : κ) (n : FLLRBNode κ α) : FLLRBNode κ α :=
  let m := if n.same cmp aKey then n.takeSmallest else n
  (m.copyWith none none none none (some (m.right.remove cmp aKey))).fixUp

theorem remove_of_ge {aKey : κ} (hk : cmp aKey k ≠ .lt) :
    (valueNode k v c l r).remove cmp aKey =
      if (valueNode k v c l r).beforeRight.same cmp aKey &&
          (valueNode k v c l r).beforeRight.right.isEmpty then emptyNode
      else descendRight cmp aKey (valueNode k v c l r).beforeRight := by
  rw [remove]
  simp only [hk,if_false,descendRight]

theorem remove_eq_descendRight {aKey k' : κ} {v' : α} {c' : FLLRBColor} {l' r' : FLLRBNode κ α}
    (hk : cmp aKey k ≠ .lt)
    (hb : (valueNode k v c l r).beforeRight = valueNode k' v' c' l' r')
    (hr : r'.isEmpty = false) : (valueNode k v c l r).remove cmp aKey =
      descendRight cmp aKey (valueNode k' v' c' l' r') := by
  rw [remove_of_ge hk,hb,right_valueNode,hr,Bool.and_false]
  rfl

theorem min_eq_head (h : t.isEmpty = false) :
    ∃ k v cs, t.min.key = some k ∧ t.min.value = some v ∧ t.entries = (k,v) :: cs := by
  induction t with
  | emptyNode => simp at h
  | valueNode k v c l r ihl ihr =>
    cases hl : l.isEmpty with
    | true =>
      obtain rfl : l = emptyNode := by
        cases l with
        | emptyNode => rfl
        | valueNode => simp at hl
      exact ⟨k,v,r.entries,rfl,rfl,rfl⟩
    | false =>
      obtain ⟨a,b,cs,hk,hv,hcs⟩ := ihl hl
      exact ⟨a,b,cs ++ (k,v) :: r.entries,by simpa [min,hl] using hk,
        by simpa [min,hl] using hv,by simp [hcs]⟩

theorem remove_leaf {aKey : κ} (c : FLLRBColor) (k : κ) (v : α) :
    Removed c 0 ((valueNode k v c emptyNode emptyNode).remove cmp aKey) ∧
      ((valueNode k v c emptyNode emptyNode).remove cmp aKey).entries =
        SortedEntries.remove cmp aKey [(k,v)] := by
  have hkept : Removed c 0 (valueNode k v c emptyNode emptyNode) := .kept .emptyNode .emptyNode
  cases hk : cmp aKey k with
  | lt =>
    rw [remove_of_lt_empty hk,fixUp_eq_self .emptyNode .emptyNode]
    exact ⟨hkept,by simp [SortedEntries.remove,select,hk]⟩
  | eq =>
    rw [remove_of_ge (by simp [hk])]
    refine ⟨?_,?_⟩ <;> simp [beforeRight,same,hk,SortedEntries.remove,select,Removed.gone]
  | gt =>
    rw [remove_of_ge (by simp [hk])]
    simpa [beforeRight,same,hk,descendRight,remove,fixUp,SortedEntries.remove,select] using hkept

section
variable [Std.TransCmp cmp] {aKey : κ}

theorem descendRight_spec (hs : Ascending cmp (l.entries ++ (k,v) :: r.entries))
    (hk : cmp aKey k ≠ .lt)
    (ih : Shrinks (remove cmp aKey) (SortedEntries.remove cmp aKey) r)
    (hr : Balanced .red n r ∨ Three n r) :
    ∃ k' v' r', descendRight cmp aKey (valueNode k v c l r) = (valueNode k' v' c l r').fixUp ∧
      (Balanced .red n r → ∃ d, Balanced d n r') ∧ (Three n r → Balanced .black (n+1) r') ∧
      l.entries ++ (k',v') :: r'.entries =
        SortedEntries.remove cmp aKey (l.entries ++ (k,v) :: r.entries) := by
  have hsr : Ascending cmp r.entries := (ascending_append.mp hs).2.1
  have hstate : Three n r ∨ ∃ c, Two c n r := hr.symm.imp_right (fun h => ⟨_,h.two⟩)
  have hre : r.isEmpty = false := by
    rcases hr with h | h
    · exact h.isEmpty_of_red
    · exact h.balanced.isEmpty
  cases hc : cmp aKey k with
  | lt => exact absurd hc hk
  | eq =>
    obtain ⟨sk,sv,cs,hsk,hsv,hcs⟩ := min_eq_head hre
    have hmin := removeMin_shrinks cmp r hsr
    have hrest : r.removeMin.entries = cs := by
      rw [hmin.entries n hstate,hcs]
      rfl
    -- the key is looked for once more where only larger ones are left
    have hgt : ∀ x ∈ r.removeMin.entries, cmp aKey x.1 = .lt := fun x hx => by
      rw [hrest] at hx
      exact lt_of_mem_right_of_eq hs hc (hcs ▸ List.mem_cons_of_mem _ hx)
    have hun := remove_absent r.removeMin hgt
    have hsame : (r.removeMin.remove cmp aKey).entries = cs := by
      rcases hr with h | h
      · obtain ⟨⟨d,hd⟩,-⟩ := hmin.red h
        rw [(hun _ _ hd).2,hrest]
      · rw [(hun _ _ (hmin.three n h)).2,hrest]
    refine ⟨sk,sv,r.removeMin.remove cmp aKey,?_,fun h => ?_,fun h => ?_,?_⟩
    · simp [descendRight,same,hc,takeSmallest,hsk,hsv]
    · obtain ⟨⟨d,hd⟩,-⟩ := hmin.red h
      exact ⟨d,(hun _ _ hd).1⟩
    · exact (hun _ _ (hmin.three n h)).1
    · rw [remove_append_eq hs hc,hsame,hcs]
  | gt =>
    refine ⟨k,v,r.remove cmp aKey,by simp [descendRight,same,hc],fun h => (ih.red h).1,
      ih.three n,?_⟩
    rw [remove_append_gt hs hc,ih.entries n hstate]

theorem descendRight_of_red (hs : Ascending cmp (l.entries ++ (k,v) :: r.entries))
    (hk : cmp aKey k ≠ .lt)
    (ih : Shrinks (remove cmp aKey) (SortedEntries.remove cmp aKey) r)
    (hl : Balanced .black n l) (hr : Balanced .red n r) :
    Balanced .black (n+1) (descendRight cmp aKey (valueNode k v .black l r)) ∧
      (descendRight cmp aKey (valueNode k v .black l r)).entries =
        SortedEntries.remove cmp aKey (l.entries ++ (k,v) :: r.entries) := by
  obtain ⟨k',v',r',hd,hred,-,he⟩ := descendRight_spec (c := .black) hs hk ih (Or.inl hr)
  obtain ⟨d,hr'⟩ := hred hr
  obtain ⟨d',k'',v'',l'',r'',hl'',hr'',hf⟩ :=
    fixUp_of_left_black (k := k') (v := v') hl hr' .black
  rw [hd]
  refine ⟨?_,by rw [entries_fixUp,entries_valueNode,he]⟩
  rw [hf]
  exact .black hl'' hr''

section
variable (hs : Ascending cmp (l.entries ++ (k,v) :: r.entries)) (hk : cmp aKey k ≠ .lt)

include hs hk

theorem remove_rightLeaning
    (ih : Shrinks (remove cmp aKey) (SortedEntries.remove cmp aKey) r)
    (hl : Balanced .black n l) (hr : Balanced .red n r) :
    Balanced .black (n+1) ((valueNode k v .black l r).remove cmp aKey) ∧
      ((valueNode k v .black l r).remove cmp aKey).entries =
        SortedEntries.remove cmp aKey (l.entries ++ (k,v) :: r.entries) := by
  have hre : r.isEmpty = false := hr.isEmpty_of_red
  have hb : (valueNode k v .black l r).beforeRight = valueNode k v .black l r := by
    have hrr : r.isRed = true := by
      cases hr
      rfl
    simp [beforeRight,hl.isRed_of_black,hrr]
  rw [remove_eq_descendRight hk hb hre]
  exact descendRight_of_red hs hk ih hl hr

variable (ih : ∀ t : FLLRBNode κ α, t.count < l.count + 1 + r.count → Ascending cmp t.entries →
  Shrinks (remove cmp aKey) (SortedEntries.remove cmp aKey) t)

include ih

theorem remove_of_ge_three (hl : Balanced .red n l) (hr : Balanced .black n r) :
    Balanced .black (n+1) ((valueNode k v .black l r).remove cmp aKey) ∧
      ((valueNode k v .black l r).remove cmp aKey).entries =
        SortedEntries.remove cmp aKey (l.entries ++ (k,v) :: r.entries) := by
  cases hl with
  | @red n lk lv ll lr hll hlr =>
    have hgt : cmp aKey lk = .gt := gt_of_mem_left hs hk (a := (lk,lv)) (by simp)
    have hs' : Ascending cmp (ll.entries ++ (lk,lv) :: (valueNode k v .red lr r).entries) := by
      simpa using hs
    have ih' := ih (valueNode k v .red lr r) (by simp) (ascending_append.mp hs').2.1
    rw [remove_eq_descendRight hk beforeRight_of_three rfl]
    obtain ⟨hb,he⟩ := descendRight_of_red hs' (by simp [hgt]) ih' hll (.red hlr hr)
    exact ⟨hb,by simpa using he⟩

theorem remove_of_ge_two (hl : Balanced .black (n+1) l) (hr : Balanced .black (n+1) r) :
    Removed c (n+1) ((valueNode k v c l r).remove cmp aKey) ∧
      ((valueNode k v c l r).remove cmp aKey).entries =
        SortedEntries.remove cmp aKey (l.entries ++ (k,v) :: r.entries) := by
  have hsr : Ascending cmp r.entries := (ascending_append.mp hs).2.1
  rcases beforeRight_of_two (c := c) (k := k) (v := v) hl hr with
    ⟨hr3,hb⟩ | ⟨l',r',hl',hr',hel,her,hb⟩ | ⟨lk,lv,a,b,r',ha,hbb,hr',hel,her,hb⟩
  · obtain ⟨k',v',r',hd,-,hthree,he⟩ :=
      descendRight_spec (c := c) hs hk (ih r (by omega) hsr) (Or.inr hr3)
    rw [remove_eq_descendRight hk hb hr.isEmpty,hd,fixUp_eq_self hl (hthree hr3)]
    exact ⟨.kept hl (hthree hr3),he⟩
  · have hre : r'.isEmpty = false := hr'.isEmpty_of_red
    have hcount := count_eq_of_entries_eq her
    rw [remove_eq_descendRight hk hb hre]
    rw [← hel,← her] at hs ⊢
    obtain ⟨k',v',r'',hd,hred,-,he⟩ :=
      descendRight_spec (c := flip c) hs hk (ih r' (by omega) (her ▸ hsr)) (Or.inl hr')
    obtain ⟨d,hr''⟩ := hred hr'
    rw [hd]
    exact ⟨(fixUp_fixed hl' hr'' (flip c)).removed,by rw [entries_fixUp,entries_valueNode,he]⟩
  · -- the key is not below the node's own, which is now the root of the right child
    have hgt : cmp aKey lk = .gt := gt_of_mem_left hs hk (a := (lk,lv)) (by simp [← hel])
    have hcount := count_eq_of_entries_eq her
    have hs' : Ascending cmp (a.entries ++ (lk,lv) :: (b.entries ++ (k,v) :: r'.entries)) := by
      rw [← hel,← her] at hs
      simpa using hs
    obtain ⟨hrb,hre⟩ := remove_rightLeaning (ascending_append.mp hs').2.1 hk
      (ih r' (by omega) (her ▸ hsr)) hbb hr'
    have hd : descendRight cmp aKey (valueNode lk lv c a (valueNode k v .black b r')) =
        (valueNode lk lv c a ((valueNode k v .black b r').remove cmp aKey)).fixUp := by
      simp [descendRight,same,hgt]
    rw [remove_eq_descendRight hk hb rfl,hd,fixUp_eq_self ha hrb]
    refine ⟨.kept ha hrb,?_⟩
    have hassoc : l.entries ++ (k,v) :: r.entries =
        a.entries ++ (lk,lv) :: (b.entries ++ (k,v) :: r'.entries) := by simp [← hel,← her]
    rw [hassoc,remove_append_gt hs' hgt,entries_valueNode,hre]

end

theorem onLeft_remove {x : κ × α} {cs : List (κ × α)} (hs : Ascending cmp (x :: cs))
    (hk : cmp aKey x.1 = .lt) : OnLeft cmp (SortedEntries.remove cmp aKey) x cs :=
  fun _ hy _ _ _ ht => remove_append_lt ht (lt_of_mem_cons hs hk hy)

theorem remove_shrinks (t : FLLRBNode κ α) (hs : Ascending cmp t.entries) :
    Shrinks (remove cmp aKey) (SortedEntries.remove cmp aKey) t := by
  induction hc : t.count using Nat.strongRecOn generalizing t with
  | ind N ih =>
    subst hc
    cases t with
    | emptyNode =>
      refine .of_cases (fun n h => ?_) (fun c' n h => ?_)
      · cases h
      · cases h
    | valueNode k v c l r =>
      have ih' : ∀ t : FLLRBNode κ α, t.count < l.count + 1 + r.count →
          Ascending cmp t.entries →
          Shrinks (remove cmp aKey) (SortedEntries.remove cmp aKey) t :=
        fun t ht hst => ih _ ht t hst rfl
      have hsr : Ascending cmp ((k,v) :: r.entries) :=
        hs.sublist (List.sublist_append_right _ _)
      refine .of_cases (fun n h => ?_) (fun c' n h => ?_)
      · cases h with
        | mk hl hr =>
          by_cases hk : cmp aKey k = .lt
          · rw [remove_of_lt hk hl.isEmpty_of_red]
            exact descendLeft_of_three (onLeft_remove hsr hk) hs ih' hl hr
          · exact remove_of_ge_three hs hk ih' hl hr
      · cases h with
        | mk hl hr =>
          cases n with
          | zero =>
            obtain rfl := hl.eq_emptyNode
            obtain rfl := hr.eq_emptyNode
            exact remove_leaf c k v
          | succ n =>
            by_cases hk : cmp aKey k = .lt
            · rw [remove_of_lt hk hl.isEmpty]
              exact descendLeft_of_two (onLeft_remove hsr hk) hs ih' hl hr
            · exact remove_of_ge_two hs hk ih' hl hr

end

theorem Removed.blacken (h : Removed c n t) : ∃ m, Balanced .black m t.blacken := by
  cases h with
  | gone => exact ⟨0,.emptyNode⟩
  | kept hl hr => exact ⟨_,.black hl hr⟩
  | lowered hl hr => exact ⟨_,.black hl hr⟩

@[simp] theorem entries_blacken (t : FLLRBNode κ α) : t.blacken.entries = t.entries :=
  entries_copyWith_color .black

theorem remove_blacken [Std.TransCmp cmp] {aKey : κ} (h : Balanced c n t)
    (hs : Ascending cmp t.entries) :
    (∃ m, Balanced .black m (t.remove cmp aKey).blacken) ∧
      (t.remove cmp aKey).blacken.entries = SortedEntries.remove cmp aKey t.entries := by
  have hsh : Shrinks (remove cmp aKey) (SortedEntries.remove cmp aKey) t := remove_shrinks t hs
  rw [entries_blacken]
  cases h with
  | emptyNode =>
    rw [remove]
    exact ⟨⟨0,.emptyNode⟩,rfl⟩
  | red hl hr => exact ⟨(hsh.two _ _ (.mk hl hr)).blacken,hsh.entries _ (Or.inr ⟨_,.mk hl hr⟩)⟩
  | @black d n k v l r hl hr =>
    cases d with
    | red => exact ⟨(hsh.three _ (.mk hl hr)).blacken,hsh.entries _ (Or.inl (.mk hl hr))⟩
    | black =>
      exact ⟨(hsh.two _ _ (.mk hl hr)).blacken,hsh.entries _ (Or.inr ⟨_,.mk hl hr⟩)⟩

theorem insertKey_blacken [Std.TransCmp cmp] {aKey : κ} (aValue : α) (h : Balanced c n t)
    (hs : Ascending cmp t.entries) :
    (∃ m, Balanced .black m (t.insertKey cmp aKey aValue).blacken) ∧
      (t.insertKey cmp aKey aValue).blacken.entries = insert cmp aKey aValue t.entries := by
  rw [entries_blacken]
  exact ⟨(insertKey_inserted cmp aKey aValue h).blacken,entries_insertKey hs⟩

end

end FLLRBNode

end GFLGO
