import Mathlib.Data.Finset.Sigma
import Mathlib.Data.Set.Card
import Mathlib.Order.Interval.Finset.Defs

/-!
Random numbers from a supply that lists what the calls of the generator return.
A second number is drawn until it differs from the first one. All values are
then equally likely: each is the result of the same number of supplies of a
given length.
-/

set_option autoImplicit false

/-- A computation that takes its random numbers from a supply. -/
abbrev Supplied (α β : Type) := StateT (List α) Option β

namespace Supplied

section
variable {α β : Type}

variable {γ : Type} {m : Supplied α β} {f : β → Supplied α γ}

theorem bind_eq_some {l rest : List α} {z : γ} :
    (m >>= f) l = some (z,rest) ↔ ∃ y mid, m l = some (y,mid) ∧ f y mid = some (z,rest) := by
  change (m l).bind (fun q => f q.1 q.2) = _ ↔ _
  simp [Option.bind_eq_some_iff]

theorem pure_eq_some {l rest : List α} {y z : β} :
    (pure y : Supplied α β) l = some (z,rest) ↔ y = z ∧ l = rest := by
  change some (y,l) = _ ↔ _
  simp

theorem lift_eq_some {l rest : List α} {o : Option β} {y : β} :
    (liftM o : Supplied α β) l = some (y,rest) ↔ o = some y ∧ l = rest := by
  change o.bind (fun y => some (y,l)) = _ ↔ _
  simp [Option.bind_eq_some_iff]

/-- What is left of the supply has no influence. -/
def Frames (m : Supplied α β) : Prop :=
  ∀ l y rest, m l = some (y,rest) →
    ∃ used, l = used ++ rest ∧ ∀ others, m (used ++ others) = some (y,others)

/-- Some supply leads to the result. -/
def Yields (m : Supplied α β) (y : β) : Prop := ∃ l rest, m l = some (y,rest)

theorem frames_pure (y : β) : Frames (pure y : Supplied α β) := by
  intro l z rest h
  obtain ⟨rfl,rfl⟩ := pure_eq_some.mp h
  exact ⟨[],rfl,fun others => rfl⟩

theorem frames_lift (o : Option β) : Frames (liftM o : Supplied α β) := by
  intro l z rest h
  obtain ⟨ho,rfl⟩ := lift_eq_some.mp h
  exact ⟨[],rfl,fun others => lift_eq_some.mpr ⟨ho,rfl⟩⟩

theorem Frames.bind (hm : Frames m) (hf : ∀ y, Frames (f y)) : Frames (m >>= f) := by
  intro l z rest h
  obtain ⟨y,mid,hy,hz⟩ := bind_eq_some.mp h
  obtain ⟨used,rfl,hused⟩ := hm l y mid hy
  obtain ⟨used',rfl,hused'⟩ := hf y mid z rest hz
  refine ⟨used ++ used',by simp,fun others => bind_eq_some.mpr ⟨y,used' ++ others,?_,hused' others⟩⟩
  rw [List.append_assoc]
  exact hused (used' ++ others)

theorem yields_bind (hm : Frames m) {z : γ} :
    Yields (m >>= f) z ↔ ∃ y, Yields m y ∧ Yields (f y) z := by
  constructor
  · rintro ⟨l,rest,h⟩
    obtain ⟨y,mid,hy,hz⟩ := bind_eq_some.mp h
    exact ⟨y,⟨l,mid,hy⟩,mid,rest,hz⟩
  · rintro ⟨y,⟨l,mid,hy⟩,l',rest,hz⟩
    obtain ⟨used,-,hused⟩ := hm l y mid hy
    exact ⟨used ++ l',rest,bind_eq_some.mpr ⟨y,l',hused l',hz⟩⟩

theorem yields_pure {y z : β} : Yields (pure y : Supplied α β) z ↔ y = z := by
  constructor
  · rintro ⟨l,rest,h⟩
    exact (pure_eq_some.mp h).1
  · rintro rfl
    exact ⟨[],[],rfl⟩

theorem yields_lift {o : Option β} {y : β} : Yields (liftM o : Supplied α β) y ↔ o = some y := by
  constructor
  · rintro ⟨l,rest,h⟩
    exact (lift_eq_some.mp h).1
  · intro h
    exact ⟨[],[],lift_eq_some.mpr ⟨h,rfl⟩⟩

variable [LinearOrder α]

/-- The next number. A generator never leaves the range it is asked for. -/
def random (lo hi : α) : Supplied α α
  | [] => none
  | x :: xs => if lo ≤ x ∧ x ≤ hi then some (x,xs) else none

/-- A second number, drawn again as long as it is the first one. -/
def redraw (lo hi first : α) : Supplied α α
  | [] => none
  | x :: xs =>
    if lo ≤ x ∧ x ≤ hi then
      if first = x then redraw lo hi first xs else some (x,xs)
    else none

def twice (lo hi : α) : Supplied α α := do
  let first ← random lo hi
  redraw lo hi first

variable {lo hi first x : α} {l rest : List α}

theorem random_eq_some :
    random lo hi l = some (x,rest) ↔ l = x :: rest ∧ lo ≤ x ∧ x ≤ hi := by
  cases l with
  | nil => simp [random]
  | cons y ys =>
    simp only [random,Option.ite_none_right_eq_some,Option.some.injEq,Prod.mk.injEq,
      List.cons.injEq]
    constructor
    · rintro ⟨hy,rfl,rfl⟩
      exact ⟨⟨rfl,rfl⟩,hy⟩
    · rintro ⟨⟨rfl,rfl⟩,hy⟩
      exact ⟨hy,rfl,rfl⟩

theorem redraw_eq_some (hfirst : lo ≤ first ∧ first ≤ hi) :
    redraw lo hi first l = some (x,rest) ↔
      (lo ≤ x ∧ x ≤ hi) ∧ first ≠ x ∧ ∃ k, l = List.replicate k first ++ x :: rest := by
  induction l with
  | nil => simp [redraw]
  | cons y ys ih =>
    rw [redraw]
    by_cases hsame : first = y
    · subst hsame
      rw [if_pos hfirst,if_pos rfl,ih]
      refine and_congr_right (fun hx => and_congr_right (fun hne => ?_))
      constructor
      · rintro ⟨k,rfl⟩
        exact ⟨k+1,rfl⟩
      · rintro ⟨k,hk⟩
        cases k with
        | zero => exact absurd (List.cons.inj hk).1 hne
        | succ k => exact ⟨k,(List.cons.inj hk).2⟩
    · rw [if_neg hsame]
      constructor
      · intro h
        obtain ⟨hy,h⟩ := Option.ite_none_right_eq_some.mp h
        cases h
        exact ⟨hy,hsame,0,rfl⟩
      · rintro ⟨hx,hne,k,hk⟩
        cases k with
        | zero =>
          obtain ⟨rfl,rfl⟩ := List.cons.inj hk
          rw [if_pos hx]
        | succ k => exact absurd (List.cons.inj hk).1.symm hsame

theorem twice_eq_some : twice lo hi l = some (x,rest) ↔
    ∃ first k, (lo ≤ first ∧ first ≤ hi) ∧ (lo ≤ x ∧ x ≤ hi) ∧ first ≠ x ∧
      l = first :: (List.replicate k first ++ x :: rest) := by
  rw [twice,bind_eq_some]
  constructor
  · rintro ⟨first,mid,hf,hr⟩
    obtain ⟨rfl,hfirst⟩ := random_eq_some.mp hf
    obtain ⟨hx,hne,k,rfl⟩ := (redraw_eq_some hfirst).mp hr
    exact ⟨first,k,hfirst,hx,hne,rfl⟩
  · rintro ⟨first,k,hfirst,hx,hne,rfl⟩
    exact ⟨first,_,random_eq_some.mpr ⟨rfl,hfirst⟩,(redraw_eq_some hfirst).mpr ⟨hx,hne,k,rfl⟩⟩

theorem frames_random : Frames (random lo hi) := by
  intro l y rest h
  obtain ⟨rfl,hy⟩ := random_eq_some.mp h
  exact ⟨[y],rfl,fun others => random_eq_some.mpr ⟨rfl,hy⟩⟩

theorem yields_random : Yields (random lo hi) x ↔ lo ≤ x ∧ x ≤ hi := by
  constructor
  · rintro ⟨l,rest,h⟩
    exact (random_eq_some.mp h).2
  · intro h
    exact ⟨[x],[],random_eq_some.mpr ⟨rfl,h⟩⟩

theorem frames_twice : Frames (twice lo hi) := by
  intro l y rest h
  obtain ⟨first,k,hfirst,hy,hne,rfl⟩ := twice_eq_some.mp h
  exact ⟨first :: (List.replicate k first ++ [y]),by simp,fun others =>
    twice_eq_some.mpr ⟨first,k,hfirst,hy,hne,by simp⟩⟩

theorem yields_twice (hlt : lo < hi) : Yields (twice lo hi) x ↔ lo ≤ x ∧ x ≤ hi := by
  constructor
  · rintro ⟨l,rest,h⟩
    obtain ⟨_,_,_,hx,_⟩ := twice_eq_some.mp h
    exact hx
  · intro hx
    by_cases hlo : lo = x
    · exact ⟨_,[],twice_eq_some.mpr ⟨hi,0,⟨hlt.le,le_rfl⟩,hx,(hlo ▸ hlt).ne',rfl⟩⟩
    · exact ⟨_,[],twice_eq_some.mpr ⟨lo,0,⟨le_rfl,hlt.le⟩,hx,hlo,rfl⟩⟩

/-- The supplies of a length that the loop uses up for one of these results. -/
def runs (lo hi : α) (s : Finset α) (k : Nat) : Set (List α) :=
  { l | l.length = k+2 ∧ ∃ x ∈ s, twice lo hi l = some (x,[]) }

variable [LocallyFiniteOrder α]

/-- However often the second number is drawn again, no result is preferred. -/
theorem ncard_runs {s : Finset α} (hs : s ⊆ Finset.Icc lo hi) (k : Nat) :
    (runs lo hi s k).ncard = s.card * ((Finset.Icc lo hi).card - 1) := by
  let pairs : Finset (Σ _ : α, α) := s.sigma (fun x => (Finset.Icc lo hi).erase x)
  let supply (q : Σ _ : α, α) : List α := q.2 :: (List.replicate k q.2 ++ [q.1])
  have himage : runs lo hi s k = supply '' (pairs : Set (Σ _ : α, α)) := by
    ext l
    simp only [runs,Set.mem_ofPred_eq,Set.mem_image,Finset.mem_coe]
    constructor
    · rintro ⟨hl,x,hx,ht⟩
      obtain ⟨first,n,hfirst,hxr,hne,rfl⟩ := twice_eq_some.mp ht
      obtain rfl : n = k := by simpa using hl
      exact ⟨⟨x,first⟩,by simp [pairs,hx,hne,hfirst],rfl⟩
    · rintro ⟨⟨x,first⟩,hq,rfl⟩
      obtain ⟨hx,hfirst⟩ := Finset.mem_sigma.mp hq
      obtain ⟨hne,hfirst⟩ := Finset.mem_erase.mp hfirst
      exact ⟨by simp [supply],x,hx,
        twice_eq_some.mpr ⟨first,k,Finset.mem_Icc.mp hfirst,Finset.mem_Icc.mp (hs hx),hne,rfl⟩⟩
  have hinj : Function.Injective supply := by
    rintro ⟨x,a⟩ ⟨y,b⟩ h
    obtain ⟨rfl,h⟩ := List.cons.inj h
    obtain ⟨rfl,-⟩ := List.cons.inj (List.append_cancel_left h)
    rfl
  rw [himage,Set.ncard_image_of_injective _ hinj,Set.ncard_coe_finset,Finset.card_sigma]
  rw [Finset.sum_congr rfl (fun x hx => Finset.card_erase_of_mem (hs hx))]
  simp

end

end Supplied
