import Mathlib.Data.List.Basic

/-!
A total kept in one cell. Clients raise it by writing absolute values, which
they compute from copies taken earlier; the writes of one client reach the cell
in the order in which they were issued.
-/

set_option autoImplicit false

namespace Tally

/-- `known c` are the copies that client `c` may compute from; `total` is what
the cell would hold if no raise were ever lost. -/
structure Ledger where
  stored : Int
  pending : Nat → List Int
  known : Nat → Int → Prop
  total : Int

inductive Action where
  | look
  | raise (copy amount : Int)

/-- A client may copy the cell or forget a copy at any time. -/
inductive Step : Action → Ledger → Ledger → Prop
  | look {L L' : Ledger} (hs : L'.stored = L.stored) (hp : L'.pending = L.pending)
    (ht : L'.total = L.total) (hk : ∀ c x, L'.known c x → L.known c x ∨ x = L.stored) :
    Step .look L L'
  | write {L L' : Ledger} {c : Nat} (hp : L.pending c = L'.stored :: L'.pending c)
    (ho : ∀ c', c' ≠ c → L'.pending c' = L.pending c') (ht : L'.total = L.total)
    (hk : ∀ c x, L'.known c x → L.known c x) : Step .look L L'
  | raise {L L' : Ledger} {c : Nat} {copy amount : Int} (hc : L.known c copy)
    (ha : 0 < amount) (hs : L'.stored = L.stored)
    (hp : L'.pending c = L.pending c ++ [copy+amount])
    (ho : ∀ c', c' ≠ c → L'.pending c' = L.pending c') (ht : L'.total = L.total + amount)
    (hk : ∀ c' x, L'.known c' x → L.known c' x ∨ (c' = c ∧ x = copy+amount)) :
    Step (.raise copy amount) L L'

def UpToDate (a : Action) (L : Ledger) : Prop :=
  ∀ copy amount, a = .raise copy amount → copy = L.total

/-- Only one client has writes under way. They end in the total, everything
before it is smaller, and whoever else knows the total finds them all applied. -/
structure Fresh (L : Ledger) : Prop where
  writer : ∃ o front, (∀ c, c ≠ o → L.pending c = []) ∧
    L.stored :: L.pending o = front ++ [L.total] ∧ ∀ x ∈ front, x < L.total
  known_le : ∀ c x, L.known c x → x ≤ L.total
  alone : ∀ c c', L.known c L.total → c' ≠ c → L.pending c' = []

/-- The total is nowhere to be found any more. -/
structure Behind (L : Ledger) : Prop where
  stored : L.stored < L.total
  pending : ∀ c, ∀ x ∈ L.pending c, x < L.total
  known : ∀ c x, L.known c x → x < L.total

def Settled (L : Ledger) : Prop := ∀ c, L.pending c = []

variable {a : Action} {L L' : Ledger}

theorem Fresh.settled_of_eq (h : Fresh L) (he : L.stored = L.total) : Settled L := by
  obtain ⟨o,front,ho,hlist,hfront⟩ := h.writer
  intro c
  by_cases hc : c = o
  · subst hc
    cases front with
    | nil => simpa using (List.cons.inj hlist).2
    | cons x front =>
      have hx := hfront x (by simp)
      have := (List.cons.inj hlist).1
      omega
  · exact ho c hc

theorem Fresh.stored_of_settled (h : Fresh L) (hq : Settled L) : L.stored = L.total := by
  obtain ⟨o,front,_,hlist,_⟩ := h.writer
  rw [hq o] at hlist
  simpa using congrArg List.getLast? hlist

theorem Fresh.stored_le (h : Fresh L) : L.stored ≤ L.total := by
  obtain ⟨o,front,_,hlist,hfront⟩ := h.writer
  cases front with
  | nil =>
    have := (List.cons.inj hlist).1
    omega
  | cons x front =>
    have hx := hfront x (by simp)
    have := (List.cons.inj hlist).1
    omega

theorem Fresh.pending_le (h : Fresh L) (c : Nat) : ∀ x ∈ L.pending c, x ≤ L.total := by
  obtain ⟨o,front,ho,hlist,hfront⟩ := h.writer
  intro x hx
  by_cases hc : c = o
  · subst hc
    have hmem : x ∈ front ++ [L.total] := hlist ▸ List.mem_cons_of_mem _ hx
    rcases List.mem_append.mp hmem with hf | hl
    · have := hfront x hf
      omega
    · have := List.mem_singleton.mp hl
      omega
  · rw [ho c hc] at hx
    contradiction

theorem Fresh.step (h : Fresh L) (hs : Step a L L') (hu : UpToDate a L) : Fresh L' := by
  cases hs with
  | look hs hp ht hk =>
    refine ⟨?_,fun c x hx => ?_,fun c c' hx hc => ?_⟩
    · rw [hs,hp,ht]
      exact h.writer
    · rw [ht]
      rcases hk c x hx with hx | rfl
      · exact h.known_le c x hx
      · exact h.stored_le
    · rw [hp]
      rw [ht] at hx
      rcases hk c _ hx with hx | he
      · exact h.alone c c' hx hc
      · exact h.settled_of_eq he.symm c'
  | @write _ _ c hp ho ht hk =>
    obtain ⟨o,front,hother,hlist,hfront⟩ := h.writer
    have hco : c = o := by
      by_contra hne
      rw [hother c hne] at hp
      contradiction
    subst hco
    refine ⟨⟨c,front.tail,fun c' hc => (ho c' hc).trans (hother c' hc),?_,?_⟩,
      fun c' x hx => ht ▸ h.known_le c' x (hk c' x hx),fun c₁ c₂ hx hne => ?_⟩
    · cases front with
      | nil => simp [hp] at hlist
      | cons x front =>
        rw [hp] at hlist
        rw [ht]
        exact (List.cons.inj hlist).2
    · intro x hx
      rw [ht]
      exact hfront x (List.mem_of_mem_tail hx)
    · have hnil := h.alone c₁ c₂ (hk c₁ _ (ht ▸ hx)) hne
      by_cases hc : c₂ = c
      · subst hc
        rw [hp] at hnil
        contradiction
      · rw [ho c₂ hc,hnil]
  | @raise _ _ c copy amount hc ha hs hp ho ht hk =>
    have hcopy := hu copy amount rfl
    subst hcopy
    obtain ⟨o,front,hother,hlist,hfront⟩ := h.writer
    have hnil (c' : Nat) (hne : c' ≠ c) : L'.pending c' = [] :=
      (ho c' hne).trans (h.alone c c' hc hne)
    have hnew (c' : Nat) (x : Int) (hx : L'.known c' x) :
        x < L'.total ∨ (c' = c ∧ x = L'.total) := by
      rcases hk c' x hx with hold | hnew
      · have := h.known_le c' x hold
        exact Or.inl (by omega)
      · exact Or.inr (ht ▸ hnew)
    refine ⟨⟨c,L.stored :: L.pending c,hnil,?_,?_⟩,?_,?_⟩
    · rw [hs,hp,ht]
      rfl
    · intro x hx
      have hle : x ≤ L.total := by
        rcases List.mem_cons.mp hx with rfl | hx
        · exact h.stored_le
        · exact h.pending_le c x hx
      omega
    · intro c' x hx
      rcases hnew c' x hx with hlt | ⟨_,he⟩
      · omega
      · omega
    · intro c₁ c₂ hx hne
      rcases hnew c₁ _ hx with hlt | ⟨rfl,_⟩
      · omega
      · exact hnil c₂ hne

/-- A raise from an older copy loses what the copy did not have. -/
theorem Fresh.behind_of_step (h : Fresh L) (hs : Step a L L') (hu : ¬ UpToDate a L) :
    Behind L' := by
  cases hs with
  | look hs hp ht hk => exact absurd (fun copy amount he => by contradiction) hu
  | write hp ho ht hk => exact absurd (fun copy amount he => by contradiction) hu
  | @raise _ _ c copy amount hc ha hs hp ho ht hk =>
    have hle := h.known_le c copy hc
    have hne : copy ≠ L.total := fun he => hu (fun copy' amount' hr => by cases hr; exact he)
    refine ⟨?_,fun c' x hx => ?_,fun c' x hx => ?_⟩
    · have := h.stored_le
      omega
    · by_cases hcc : c' = c
      · subst hcc
        rw [hp] at hx
        rcases List.mem_append.mp hx with hx | hx
        · have := h.pending_le c' x hx
          omega
        · have := List.mem_singleton.mp hx
          omega
      · have := h.pending_le c' x (ho c' hcc ▸ hx)
        omega
    · rcases hk c' x hx with hx | ⟨_,rfl⟩
      · have := h.known_le c' x hx
        omega
      · omega

theorem Behind.step (h : Behind L) (hs : Step a L L') : Behind L' := by
  cases hs with
  | look hs hp ht hk =>
    refine ⟨by rw [hs,ht]; exact h.stored,by rw [hp,ht]; exact h.pending,fun c x hx => ?_⟩
    rw [ht]
    rcases hk c x hx with hx | rfl
    · exact h.known c x hx
    · exact h.stored
  | @write _ _ c hp ho ht hk =>
    refine ⟨?_,fun c' x hx => ?_,fun c' x hx => ht ▸ h.known c' x (hk c' x hx)⟩
    · rw [ht]
      exact h.pending c _ (hp ▸ List.mem_cons_self)
    · rw [ht]
      by_cases hc : c' = c
      · subst hc
        exact h.pending c' x (hp ▸ List.mem_cons_of_mem _ hx)
      · exact h.pending c' x (ho c' hc ▸ hx)
  | @raise _ _ c copy amount hc ha hs hp ho ht hk =>
    have hcopy := h.known c copy hc
    refine ⟨?_,fun c' x hx => ?_,fun c' x hx => ?_⟩
    · have := h.stored
      omega
    · by_cases hcc : c' = c
      · subst hcc
        rw [hp] at hx
        rcases List.mem_append.mp hx with hx | hx
        · have := h.pending c' x hx
          omega
        · have := List.mem_singleton.mp hx
          omega
      · have := h.pending c' x (ho c' hcc ▸ hx)
        omega
    · rcases hk c' x hx with hx | ⟨_,rfl⟩
      · have := h.known c' x hx
        omega
      · omega

end Tally
