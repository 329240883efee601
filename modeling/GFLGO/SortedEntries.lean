import Mathlib.Data.List.Basic
import Mathlib.Order.Basic

/-!
Entries in the order of a comparator: what a sorted dictionary is for. Two keys
are the same entry when the comparator says so, whether they are equal or not.
-/

set_option autoImplicit false

namespace SortedEntries

variable {κ α : Type}

def Ascending (cmp : κ → κ → Ordering) (cs : List (κ × α)) : Prop :=
  cs.Pairwise (fun a b => cmp a.1 b.1 = .lt)

def find (cmp : κ → κ → Ordering) (k : κ) (cs : List (κ × α)) : Option α :=
  (cs.find? (fun c => cmp k c.1 == .eq)).map Prod.snd

/-- An entry with the same key takes the value and the key that `pick` makes of its own. -/
def upsert (pick : κ → κ) (cmp : κ → κ → Ordering) (k : κ) (v : α) :
    List (κ × α) → List (κ × α)
  | [] => [(k,v)]
  | c :: cs =>
    match cmp k c.1 with
    | .lt => (k,v) :: c :: cs
    | .eq => (pick c.1,v) :: cs
    | .gt => c :: upsert pick cmp k v cs

/-- An entry with the same key keeps its own. -/
def insert (cmp : κ → κ → Ordering) (k : κ) (v : α) : List (κ × α) → List (κ × α) :=
  upsert id cmp k v

/-- An entry with the same key takes the new one. -/
def put (cmp : κ → κ → Ordering) (k : κ) (v : α) : List (κ × α) → List (κ × α) :=
  upsert (fun _ => k) cmp k v

/-- The entries that stand to the key as `p` says. -/
def select (p : Ordering → Bool) (cmp : κ → κ → Ordering) (k : κ) (cs : List (κ × α)) :
    List (κ × α) :=
  cs.filter (fun c => p (cmp k c.1))

def remove (cmp : κ → κ → Ordering) (k : κ) : List (κ × α) → List (κ × α) :=
  select (· != .eq) cmp k

def startingAt (cmp : κ → κ → Ordering) (k : κ) : List (κ × α) → List (κ × α) :=
  select (· != .gt) cmp k

def endingAt (cmp : κ → κ → Ordering) (k : κ) : List (κ × α) → List (κ × α) :=
  select (· != .lt) cmp k

def before (cmp : κ → κ → Ordering) (k : κ) : List (κ × α) → List (κ × α) :=
  select (· == .gt) cmp k

variable {cmp : κ → κ → Ordering} {k : κ} {v : α} {xs ys cs : List (κ × α)} {x : κ × α}

@[simp] theorem ascending_nil : Ascending cmp ([] : List (κ × α)) := List.Pairwise.nil

theorem ascending_append : Ascending cmp (xs ++ x :: ys) ↔
    Ascending cmp xs ∧ Ascending cmp ys ∧ (∀ a ∈ xs, cmp a.1 x.1 = .lt) ∧
      (∀ b ∈ ys, cmp x.1 b.1 = .lt) ∧ ∀ a ∈ xs, ∀ b ∈ ys, cmp a.1 b.1 = .lt := by
  simp only [Ascending,List.pairwise_append,List.pairwise_cons,List.mem_cons]
  constructor
  · rintro ⟨hx,⟨hxy,hy⟩,h⟩
    exact ⟨hx,hy,fun a ha => h a ha x (Or.inl rfl),hxy,fun a ha b hb => h a ha b (Or.inr hb)⟩
  · rintro ⟨hx,hy,hax,hxb,hab⟩
    refine ⟨hx,⟨hxb,hy⟩,fun a ha b hb => ?_⟩
    rcases hb with rfl | hb
    · exact hax a ha
    · exact hab a ha b hb

theorem insert_append_lt (hk : cmp k x.1 = .lt) :
    insert cmp k v (xs ++ x :: ys) = insert cmp k v xs ++ x :: ys := by
  induction xs with
  | nil => simp [insert,upsert,hk]
  | cons a xs ih =>
    rw [insert] at ih ⊢
    rw [List.cons_append,upsert,upsert]
    cases cmp k a.1 with
    | lt => rfl
    | eq => rfl
    | gt => simp [ih]

theorem put_eq_insert (h : ∀ c ∈ cs, cmp k c.1 = .eq → c.1 = k) :
    put cmp k v cs = insert cmp k v cs := by
  induction cs with
  | nil => rfl
  | cons a cs ih =>
    have ht := ih (fun c hc => h c (List.mem_cons_of_mem _ hc))
    rw [put,insert] at ht ⊢
    rw [upsert,upsert]
    cases hk : cmp k a.1 with
    | lt => rfl
    | eq => simp [h a List.mem_cons_self hk]
    | gt => simp [ht]

theorem put_perm (h : ∀ c ∈ cs, cmp k c.1 ≠ .eq) : (put cmp k v cs).Perm ((k,v) :: cs) := by
  induction cs with
  | nil => exact List.Perm.refl _
  | cons a cs ih =>
    have ht := ih (fun c hc => h c (List.mem_cons_of_mem _ hc))
    rw [put] at ht ⊢
    rw [upsert]
    cases hk : cmp k a.1 with
    | lt => exact List.Perm.refl _
    | eq => exact absurd hk (h a List.mem_cons_self)
    | gt => exact (ht.cons a).trans (List.Perm.swap ..)

theorem keys_upsert {pick : κ → κ} {c : κ × α} (hc : c ∈ upsert pick cmp k v cs) :
    c ∈ cs ∨ c.1 = k ∨ ∃ a ∈ cs, cmp k a.1 = .eq ∧ c.1 = pick a.1 := by
  induction cs with
  | nil =>
    rw [upsert,List.mem_singleton] at hc
    exact Or.inr (Or.inl (congrArg Prod.fst hc))
  | cons a cs ih =>
    rw [upsert] at hc
    split at hc
    · rcases List.mem_cons.mp hc with rfl | hc
      · exact Or.inr (Or.inl rfl)
      · exact Or.inl hc
    · next he =>
      rcases List.mem_cons.mp hc with rfl | hc
      · exact Or.inr (Or.inr ⟨a,List.mem_cons_self,he,rfl⟩)
      · exact Or.inl (List.mem_cons_of_mem _ hc)
    · rcases List.mem_cons.mp hc with rfl | hc
      · exact Or.inl List.mem_cons_self
      · rcases ih hc with h | h | ⟨b,hb,h⟩
        · exact Or.inl (List.mem_cons_of_mem _ h)
        · exact Or.inr (Or.inl h)
        · exact Or.inr (Or.inr ⟨b,List.mem_cons_of_mem _ hb,h⟩)

theorem insert_ne_nil : insert cmp k v cs ≠ [] := by
  cases cs with
  | nil => simp [insert,upsert]
  | cons a cs =>
    rw [insert,upsert]
    split <;> simp

theorem snd_mem_upsert {pick : κ → κ} {c : κ × α} (hc : c ∈ upsert pick cmp k v cs) :
    c.2 = v ∨ ∃ a ∈ cs, c.2 = a.2 := by
  induction cs with
  | nil => exact Or.inl (congrArg Prod.snd (List.mem_singleton.mp hc))
  | cons a cs ih =>
    rw [upsert] at hc
    split at hc
    · rcases List.mem_cons.mp hc with rfl | hc
      · exact Or.inl rfl
      · exact Or.inr ⟨c,hc,rfl⟩
    · rcases List.mem_cons.mp hc with rfl | hc
      · exact Or.inl rfl
      · exact Or.inr ⟨c,List.mem_cons_of_mem _ hc,rfl⟩
    · rcases List.mem_cons.mp hc with rfl | hc
      · exact Or.inr ⟨c,List.mem_cons_self,rfl⟩
      · rcases ih hc with h | ⟨b,hb,h⟩
        · exact Or.inl h
        · exact Or.inr ⟨b,List.mem_cons_of_mem _ hb,h⟩

theorem find_cons (j : κ) (c : κ × α) (cs : List (κ × α)) :
    find cmp j (c :: cs) = if cmp j c.1 = .eq then some c.2 else find cmp j cs := by
  cases hj : cmp j c.1 <;> simp [find,hj]

theorem find_eq_none_iff : find cmp k cs = none ↔ ∀ c ∈ cs, cmp k c.1 ≠ .eq := by
  simp [find]

theorem remove_eq_self (h : ∀ c ∈ cs, cmp k c.1 ≠ .eq) : remove cmp k cs = cs :=
  List.filter_eq_self.mpr (fun c hc => by simpa using h c hc)

theorem find_append_of_left (h : ∀ c ∈ xs, cmp k c.1 ≠ .eq) :
    find cmp k (xs ++ ys) = find cmp k ys := by
  have hn : xs.find? (fun c => cmp k c.1 == .eq) = none := by simpa using h
  simp [find,List.find?_append,hn]

theorem find_append_of_right (h : ∀ c ∈ ys, cmp k c.1 ≠ .eq) :
    find cmp k (xs ++ ys) = find cmp k xs := by
  have hn : ys.find? (fun c => cmp k c.1 == .eq) = none := by simpa using h
  simp [find,List.find?_append,hn]

theorem ascending_select {p : Ordering → Bool} (h : Ascending cmp cs) :
    Ascending cmp (select p cmp k cs) :=
  h.sublist List.filter_sublist

theorem select_append {p : Ordering → Bool} :
    select p cmp k (xs ++ ys) = select p cmp k xs ++ select p cmp k ys :=
  List.filter_append ..

theorem select_of_forall {p : Ordering → Bool} {o : Ordering} (cs : List (κ × α))
    (h : ∀ c ∈ cs, cmp k c.1 = o) :
    select p cmp k cs = if p o then cs else [] := by
  cases hp : p o with
  | true =>
    rw [if_pos rfl]
    exact List.filter_eq_self.mpr (fun c hc => by rw [h c hc,hp])
  | false =>
    rw [if_neg (by simp)]
    exact List.filter_eq_nil_iff.mpr (fun c hc => by rw [h c hc,hp]; simp)

section
variable [Std.TransCmp cmp]

/-- There is one way to put entries in order. -/
theorem eq_of_perm (hx : Ascending cmp xs) (hy : Ascending cmp ys) (h : xs.Perm ys) : xs = ys := by
  refine h.eq_of_pairwise (fun a b _ _ hab hba => ?_) hx hy
  rw [Std.OrientedCmp.gt_of_lt hab] at hba
  cases hba

theorem ascending_append_iff : Ascending cmp (xs ++ x :: ys) ↔
    Ascending cmp xs ∧ Ascending cmp ys ∧ (∀ a ∈ xs, cmp a.1 x.1 = .lt) ∧
      ∀ b ∈ ys, cmp x.1 b.1 = .lt := by
  rw [ascending_append]
  constructor
  · rintro ⟨hx,hy,hax,hxb,-⟩
    exact ⟨hx,hy,hax,hxb⟩
  · rintro ⟨hx,hy,hax,hxb⟩
    exact ⟨hx,hy,hax,hxb,fun a ha b hb => Std.TransCmp.lt_trans (hax a ha) (hxb b hb)⟩

theorem lt_of_mem_cons (h : Ascending cmp (x :: ys)) (hk : cmp k x.1 = .lt)
    {b : κ × α} (hb : b ∈ x :: ys) : cmp k b.1 = .lt := by
  rcases List.mem_cons.mp hb with rfl | hb
  · exact hk
  · exact Std.TransCmp.lt_trans hk ((List.pairwise_cons.mp h).1 b hb)

theorem lt_of_mem_tail (h : Ascending cmp (x :: ys)) (hk : cmp k x.1 = .eq)
    {b : κ × α} (hb : b ∈ ys) : cmp k b.1 = .lt :=
  Std.TransCmp.lt_of_eq_of_lt hk ((List.pairwise_cons.mp h).1 b hb)

theorem lt_of_mem_right (h : Ascending cmp (xs ++ x :: ys)) (hk : cmp k x.1 = .lt)
    {b : κ × α} (hb : b ∈ x :: ys) : cmp k b.1 = .lt :=
  lt_of_mem_cons (h.sublist (List.sublist_append_right _ _)) hk hb

theorem lt_of_mem_right_of_eq (h : Ascending cmp (xs ++ x :: ys)) (hk : cmp k x.1 = .eq)
    {b : κ × α} (hb : b ∈ ys) : cmp k b.1 = .lt :=
  lt_of_mem_tail (h.sublist (List.sublist_append_right _ _)) hk hb

theorem gt_of_mem_left (h : Ascending cmp (xs ++ x :: ys)) (hk : cmp k x.1 ≠ .lt)
    {a : κ × α} (ha : a ∈ xs) : cmp k a.1 = .gt := by
  have hax : cmp x.1 a.1 = .gt :=
    Std.OrientedCmp.gt_of_lt ((ascending_append.mp h).2.2.1 a ha)
  cases hc : cmp k x.1 with
  | lt => exact absurd hc hk
  | eq => exact Std.TransCmp.gt_of_eq_of_gt hc hax
  | gt => exact Std.TransCmp.gt_trans hc hax

section
variable {pick : κ → κ} (hp : ∀ j, cmp k j = .eq → cmp k (pick j) = .eq)

include hp

theorem mem_upsert {c : κ × α} (hc : c ∈ upsert pick cmp k v cs) :
    c ∈ cs ∨ cmp k c.1 = .eq := by
  rcases keys_upsert hc with h | h | ⟨a,-,ha,h⟩
  · exact Or.inl h
  · exact Or.inr (h ▸ Std.ReflCmp.compare_self)
  · exact Or.inr (h ▸ hp _ ha)

theorem ascending_upsert (h : Ascending cmp cs) : Ascending cmp (upsert pick cmp k v cs) := by
  induction cs with
  | nil => simp [upsert,Ascending]
  | cons a cs ih =>
    obtain ⟨ha,ht⟩ := List.pairwise_cons.mp h
    rw [upsert]
    split
    · next hk =>
      exact List.pairwise_cons.mpr ⟨fun b hb => lt_of_mem_cons h hk hb,h⟩
    · next hk =>
      refine List.pairwise_cons.mpr ⟨fun b hb => ?_,ht⟩
      exact Std.TransCmp.lt_of_eq_of_lt (Std.OrientedCmp.eq_symm (hp _ hk))
        (lt_of_mem_tail h hk hb)
    · next hk =>
      refine List.pairwise_cons.mpr ⟨fun b hb => ?_,ih ht⟩
      rcases mem_upsert hp hb with hb | hb
      · exact ha b hb
      · exact Std.TransCmp.lt_of_lt_of_eq (Std.OrientedCmp.lt_of_gt hk) hb

theorem find_upsert (h : Ascending cmp cs) (j : κ) :
    find cmp j (upsert pick cmp k v cs) = if cmp j k = .eq then some v else find cmp j cs := by
  induction cs with
  | nil => simp [upsert,find_cons]
  | cons a cs ih =>
    rw [upsert]
    cases hk : cmp k a.1 with
    | lt => simp only [find_cons]
    | eq =>
      have hja : cmp j a.1 = cmp j k := Std.TransCmp.congr_right (Std.OrientedCmp.eq_symm hk)
      have hjp : cmp j (pick a.1) = cmp j k :=
        Std.TransCmp.congr_right (Std.OrientedCmp.eq_symm (hp _ hk))
      simp only [find_cons,hja,hjp]
      split <;> rfl
    | gt =>
      simp only [find_cons,ih (List.pairwise_cons.mp h).2]
      by_cases hj : cmp j a.1 = .eq
      · have hjk : cmp j k = .lt :=
          Std.TransCmp.lt_of_eq_of_lt hj (Std.OrientedCmp.lt_of_gt hk)
        simp [hj,hjk]
      · simp [hj]

end

theorem ascending_insert (h : Ascending cmp cs) : Ascending cmp (insert cmp k v cs) :=
  ascending_upsert (fun _ => id) h

theorem ascending_put (h : Ascending cmp cs) : Ascending cmp (put cmp k v cs) :=
  ascending_upsert (fun _ _ => Std.ReflCmp.compare_self) h

theorem find_insert (h : Ascending cmp cs) (j : κ) :
    find cmp j (insert cmp k v cs) = if cmp j k = .eq then some v else find cmp j cs :=
  find_upsert (fun _ => id) h j

theorem find_put (h : Ascending cmp cs) (j : κ) :
    find cmp j (put cmp k v cs) = if cmp j k = .eq then some v else find cmp j cs :=
  find_upsert (fun _ _ => Std.ReflCmp.compare_self) h j

theorem find_remove (j : κ) :
    find cmp j (remove cmp k cs) = if cmp j k = .eq then none else find cmp j cs := by
  induction cs with
  | nil => simp [remove,select,find]
  | cons a cs ih =>
    by_cases hk : cmp k a.1 = .eq
    · have hr : remove cmp k (a :: cs) = remove cmp k cs := by simp [remove,select,hk]
      have hja : cmp j a.1 = cmp j k := Std.TransCmp.congr_right (Std.OrientedCmp.eq_symm hk)
      rw [hr,ih,find_cons,hja]
      split <;> rfl
    · have hr : remove cmp k (a :: cs) = a :: remove cmp k cs := by simp [remove,select,hk]
      rw [hr,find_cons,find_cons,ih]
      by_cases hj : cmp j a.1 = .eq
      · have hjk : cmp j k ≠ .eq := fun he =>
          hk (Std.TransCmp.eq_trans (Std.OrientedCmp.eq_symm he) hj)
        simp [hj,hjk]
      · simp [hj]

theorem insert_append_gt (h : Ascending cmp (xs ++ x :: ys)) (hk : cmp k x.1 = .gt) :
    insert cmp k v (xs ++ x :: ys) = xs ++ x :: insert cmp k v ys := by
  induction xs with
  | nil => simp [insert,upsert,hk]
  | cons a xs ih =>
    have ht := ih (List.pairwise_cons.mp h).2
    have ha : cmp k a.1 = .gt :=
      gt_of_mem_left h (by simp [hk]) (List.mem_cons_self (a := a) (l := xs))
    rw [insert] at ht ⊢
    simp [upsert,ha,ht]

theorem insert_append_eq (h : Ascending cmp (xs ++ x :: ys)) (hk : cmp k x.1 = .eq) :
    insert cmp k v (xs ++ x :: ys) = xs ++ (x.1,v) :: ys := by
  induction xs with
  | nil => simp [insert,upsert,hk]
  | cons a xs ih =>
    have ht := ih (List.pairwise_cons.mp h).2
    have ha : cmp k a.1 = .gt :=
      gt_of_mem_left h (by simp [hk]) (List.mem_cons_self (a := a) (l := xs))
    rw [insert] at ht ⊢
    simp [upsert,ha,ht]

section
variable {p : Ordering → Bool} (h : Ascending cmp (xs ++ x :: ys))

include h

theorem select_append_lt (hk : cmp k x.1 = .lt) :
    select p cmp k (xs ++ x :: ys) = select p cmp k xs ++ if p .lt then x :: ys else [] := by
  rw [select_append,select_of_forall (x :: ys) (fun c hc => lt_of_mem_right h hk hc)]

theorem select_append_eq (hk : cmp k x.1 = .eq) :
    select p cmp k (xs ++ x :: ys) = (if p .gt then xs else []) ++
      ((if p .eq then [x] else []) ++ if p .lt then ys else []) := by
  have hne : cmp k x.1 ≠ .lt := by simp [hk]
  rw [List.append_cons,select_append,select_append,List.append_assoc,
    select_of_forall xs (fun c hc => gt_of_mem_left h hne hc),
    select_of_forall ys (fun c hc => lt_of_mem_right_of_eq h hk hc),
    select_of_forall [x] (o := .eq) (by simpa using hk)]

theorem select_append_gt (hk : cmp k x.1 = .gt) :
    select p cmp k (xs ++ x :: ys) =
      (if p .gt then xs ++ [x] else []) ++ select p cmp k ys := by
  have hne : cmp k x.1 ≠ .lt := by simp [hk]
  rw [List.append_cons,select_append,select_of_forall (xs ++ [x]) (o := .gt)]
  intro c hc
  rcases List.mem_append.mp hc with hc | hc
  · exact gt_of_mem_left h hne hc
  · rw [List.mem_singleton.mp hc,hk]

theorem remove_append_lt (hk : cmp k x.1 = .lt) :
    remove cmp k (xs ++ x :: ys) = remove cmp k xs ++ x :: ys := select_append_lt h hk

theorem remove_append_eq (hk : cmp k x.1 = .eq) :
    remove cmp k (xs ++ x :: ys) = xs ++ ys := select_append_eq h hk

theorem remove_append_gt (hk : cmp k x.1 = .gt) :
    remove cmp k (xs ++ x :: ys) = xs ++ x :: remove cmp k ys :=
  (select_append_gt h hk).trans (List.append_cons ..).symm

theorem before_append_lt (hk : cmp k x.1 = .lt) :
    before cmp k (xs ++ x :: ys) = before cmp k xs :=
  (select_append_lt h hk).trans (List.append_nil _)

theorem before_append_eq (hk : cmp k x.1 = .eq) : before cmp k (xs ++ x :: ys) = xs :=
  (select_append_eq h hk).trans (List.append_nil _)

theorem before_append_gt (hk : cmp k x.1 = .gt) :
    before cmp k (xs ++ x :: ys) = xs ++ x :: before cmp k ys :=
  (select_append_gt h hk).trans (List.append_cons ..).symm

theorem startingAt_append_lt (hk : cmp k x.1 = .lt) :
    startingAt cmp k (xs ++ x :: ys) = startingAt cmp k xs ++ x :: ys := select_append_lt h hk

theorem startingAt_append_eq (hk : cmp k x.1 = .eq) :
    startingAt cmp k (xs ++ x :: ys) = x :: ys := select_append_eq h hk

theorem startingAt_append_gt (hk : cmp k x.1 = .gt) :
    startingAt cmp k (xs ++ x :: ys) = startingAt cmp k ys := select_append_gt h hk

theorem endingAt_append_lt (hk : cmp k x.1 = .lt) :
    endingAt cmp k (xs ++ x :: ys) = endingAt cmp k xs :=
  (select_append_lt h hk).trans (List.append_nil _)

theorem endingAt_append_eq (hk : cmp k x.1 = .eq) :
    endingAt cmp k (xs ++ x :: ys) = xs ++ [x] := select_append_eq h hk

theorem endingAt_append_gt (hk : cmp k x.1 = .gt) :
    endingAt cmp k (xs ++ x :: ys) = xs ++ x :: endingAt cmp k ys :=
  (select_append_gt h hk).trans (List.append_cons ..).symm

theorem find_append_lt (hk : cmp k x.1 = .lt) :
    find cmp k (xs ++ x :: ys) = find cmp k xs := by
  refine find_append_of_right (fun c hc => ?_)
  rw [lt_of_mem_right h hk hc]
  decide

theorem find_append_eq (hk : cmp k x.1 = .eq) :
    find cmp k (xs ++ x :: ys) = some x.2 := by
  rw [find_append_of_left (fun c hc => ?_)]
  · simp [find,hk]
  · rw [gt_of_mem_left h (by simp [hk]) hc]
    decide

theorem find_append_gt (hk : cmp k x.1 = .gt) :
    find cmp k (xs ++ x :: ys) = find cmp k ys := by
  rw [find_append_of_left (fun c hc => ?_)]
  · simp [find,hk]
  · rw [gt_of_mem_left h (by simp [hk]) hc]
    decide

end

end

inductive Related {β : Type} (R : α → β → Prop) : List (κ × α) → List (κ × β) → Prop
  | nil : Related R [] []
  | cons {k : κ} {a : α} {b : β} {xs : List (κ × α)} {ys : List (κ × β)} (head : R a b)
    (tail : Related R xs ys) : Related R ((k,a) :: xs) ((k,b) :: ys)

namespace Related

variable {β : Type} {R : α → β → Prop} {xs : List (κ × α)} {ys : List (κ × β)}

theorem keys_eq (h : Related R xs ys) : xs.map Prod.fst = ys.map Prod.fst := by
  induction h with
  | nil => rfl
  | cons _ _ ih => rw [List.map_cons,List.map_cons,ih]

theorem mem_keys (h : Related R xs ys) {c : κ × β} (hc : c ∈ ys) : ∃ a ∈ xs, a.1 = c.1 := by
  have hm : c.1 ∈ xs.map Prod.fst := h.keys_eq ▸ List.mem_map_of_mem hc
  exact List.mem_map.mp hm

theorem ascending (h : Related R xs ys) (hs : Ascending cmp xs) : Ascending cmp ys := by
  have hx : (xs.map Prod.fst).Pairwise (fun j k => cmp j k = .lt) := List.pairwise_map.mpr hs
  rw [h.keys_eq] at hx
  exact List.pairwise_map.mp hx

theorem find (h : Related R xs ys) (cmp : κ → κ → Ordering) (k : κ) :
    Option.Rel R (SortedEntries.find cmp k xs) (SortedEntries.find cmp k ys) := by
  induction h with
  | nil => exact .none
  | cons hc _ ih =>
    rw [find_cons,find_cons]
    split
    · exact .some hc
    · exact ih

theorem insert (h : Related R xs ys) (k : κ) {v : α} {w : β} (hv : R v w) :
    Related R (SortedEntries.insert cmp k v xs) (SortedEntries.insert cmp k w ys) := by
  induction h with
  | nil => exact .cons hv .nil
  | @cons j a b xs ys hc ht ih =>
    rw [SortedEntries.insert,SortedEntries.insert] at ih ⊢
    rw [upsert,upsert]
    dsimp only
    cases cmp k j with
    | lt => exact .cons hv (.cons hc ht)
    | eq => exact .cons hv ht
    | gt => exact .cons hc ih

theorem remove (h : Related R xs ys) (k : κ) :
    Related R (SortedEntries.remove cmp k xs) (SortedEntries.remove cmp k ys) := by
  induction h with
  | nil => exact .nil
  | @cons j a b xs ys hc ht ih =>
    rw [SortedEntries.remove,SortedEntries.remove] at ih ⊢
    by_cases he : cmp k j = .eq
    · simpa [select,he] using ih
    · simpa [select,he] using Related.cons hc ih

end Related

end SortedEntries
