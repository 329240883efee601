import Mathlib.Data.List.Basic

/-!
A value in two cells, published by two writes. The clients' writes reach the
cells in the order in which each client has issued them, the halves of a value
one after the other, with anything from other clients in between.
-/

set_option autoImplicit false

namespace PairedWrites

variable {α β : Type}

/-- The writes under way are in order; those that go elsewhere are `none`. -/
structure Cells (α β : Type) where
  first : α
  second : β
  pending : Nat → List (Option (α ⊕ β))

inductive Action where
  | issue
  | apply (c : Nat)

inductive Queue (known : α → β → Prop) : List (Option (α ⊕ β)) → Prop
  | nil : Queue known []
  | elsewhere {ws : List (Option (α ⊕ β))} (h : Queue known ws) : Queue known (none :: ws)
  | pair {x : α} {y : β} {ws : List (Option (α ⊕ β))} (hk : known x y) (h : Queue known ws) :
    Queue known (some (.inl x) :: some (.inr y) :: ws)

inductive Step (known : α → β → Prop) : Action → Cells α β → Cells α β → Prop
  | issue {L L' : Cells α β} (hf : L'.first = L.first) (hs : L'.second = L.second)
    (hp : ∀ c, ∃ ws, L'.pending c = L.pending c ++ ws ∧ Queue known ws) : Step known .issue L L'
  | elsewhere {L L' : Cells α β} {c : Nat} (hp : L.pending c = none :: L'.pending c)
    (hf : L'.first = L.first) (hs : L'.second = L.second)
    (ho : ∀ c', c' ≠ c → L'.pending c' = L.pending c') : Step known (.apply c) L L'
  | first {L L' : Cells α β} {c : Nat} (hp : L.pending c = some (.inl L'.first) :: L'.pending c)
    (hs : L'.second = L.second) (ho : ∀ c', c' ≠ c → L'.pending c' = L.pending c') :
    Step known (.apply c) L L'
  | second {L L' : Cells α β} {c : Nat} (hp : L.pending c = some (.inr L'.second) :: L'.pending c)
    (hf : L'.first = L.first) (ho : ∀ c', c' ≠ c → L'.pending c' = L.pending c') :
    Step known (.apply c) L L'

/-- The client is between the two writes of a value. -/
def Between (L : Cells α β) (c : Nat) : Prop := ∃ y ws, L.pending c = some (.inr y) :: ws

/-- Nobody starts a value while another client is between its two writes. -/
def Alone : Action → Cells α β → Prop
  | .apply c, L => ∀ x ws, L.pending c = some (.inl x) :: ws → ∀ c', c' ≠ c → ¬ Between L c'
  | .issue, _ => True

/-- The two cells hold one value. -/
structure Whole (known : α → β → Prop) (L : Cells α β) : Prop where
  stored : known L.first L.second
  queues : ∀ c, Queue known (L.pending c)

/-- The first cell has the value of a client that is between its two writes. -/
structure Half (known : α → β → Prop) (c : Nat) (L : Cells α β) : Prop where
  queue : ∃ y ws, L.pending c = some (.inr y) :: ws ∧ Queue known ws ∧ known L.first y
  others : ∀ c', c' ≠ c → Queue known (L.pending c')

def Sound (known : α → β → Prop) (L : Cells α β) : Prop := Whole known L ∨ ∃ c, Half known c L

variable {known known' : α → β → Prop} {L L' : Cells α β} {a : Action} {c : Nat}

theorem Queue.mono {ws : List (Option (α ⊕ β))} (h : Queue known ws)
    (hk : ∀ x y, known x y → known' x y) : Queue known' ws := by
  induction h with
  | nil => exact .nil
  | elsewhere _ ih => exact .elsewhere ih
  | pair hxy _ ih => exact .pair (hk _ _ hxy) ih

theorem Queue.append {ws vs : List (Option (α ⊕ β))} (h : Queue known ws) (hv : Queue known vs) :
    Queue known (ws ++ vs) := by
  induction h with
  | nil => exact hv
  | elsewhere _ ih => exact .elsewhere ih
  | pair hxy _ ih => exact .pair hxy ih

theorem Queue.of_elsewhere {ws : List (Option (α ⊕ β))} (h : ∀ o ∈ ws, o = none) :
    Queue known ws := by
  induction ws with
  | nil => exact .nil
  | cons o ws ih =>
    obtain ⟨rfl,hrest⟩ := List.forall_mem_cons.mp h
    exact .elsewhere (ih hrest)

theorem Queue.not_between (h : Queue known (L.pending c)) : ¬ Between L c := by
  rintro ⟨y,ws,hws⟩
  rw [hws] at h
  cases h

theorem Sound.mono (h : Sound known L) (hk : ∀ x y, known x y → known' x y) : Sound known' L := by
  rcases h with ⟨hstored,hqueues⟩ | ⟨c,⟨y,ws,hws,hq,hxy⟩,hothers⟩
  · exact Or.inl ⟨hk _ _ hstored,fun c => (hqueues c).mono hk⟩
  · exact Or.inr ⟨c,⟨y,ws,hws,hq.mono hk,hk _ _ hxy⟩,fun c' hc => (hothers c' hc).mono hk⟩

/-- With nobody between two writes the cells hold one value. -/
theorem Sound.whole (h : Sound known L) (hno : ∀ c, ¬ Between L c) : Whole known L := by
  rcases h with h | ⟨c,h⟩
  · exact h
  · obtain ⟨y,ws,hws,_⟩ := h.queue
    exact absurd ⟨y,ws,hws⟩ (hno c)

theorem Whole.step (h : Whole known L) (hs : Step known a L L') : Sound known L' := by
  cases hs with
  | issue hf hs hp =>
    refine Or.inl ⟨by rw [hf,hs]; exact h.stored,fun c => ?_⟩
    obtain ⟨ws,hws,hq⟩ := hp c
    rw [hws]
    exact (h.queues c).append hq
  | @elsewhere _ _ c hp hf hs ho =>
    refine Or.inl ⟨by rw [hf,hs]; exact h.stored,fun c' => ?_⟩
    by_cases hc : c' = c
    · subst hc
      have hq := h.queues c'
      rw [hp] at hq
      cases hq with
      | elsewhere hq => exact hq
    · rw [ho c' hc]
      exact h.queues c'
  | @first _ _ c hp hs ho =>
    have hq := h.queues c
    rw [hp] at hq
    generalize hw : L'.pending c = ws at hq
    cases hq with
    | @pair x y ws hk hq =>
      refine Or.inr ⟨c,⟨y,ws,hw,hq,hk⟩,fun c' hc => ?_⟩
      rw [ho c' hc]
      exact h.queues c'
  | @second _ _ c hp hf ho =>
    exact absurd ⟨_,_,hp⟩ (h.queues c).not_between

theorem Half.step (h : Half known c L) (hs : Step known a L L') (ha : Alone a L) :
    Sound known L' := by
  obtain ⟨y,ws,hws,hq,hxy⟩ := h.queue
  have hbetween : Between L c := ⟨y,ws,hws⟩
  cases hs with
  | issue hf hs hp =>
    refine Or.inr ⟨c,?_,fun c' hc => ?_⟩
    · obtain ⟨vs,hvs,hv⟩ := hp c
      exact ⟨y,ws ++ vs,by rw [hvs,hws]; rfl,hq.append hv,by rwa [hf]⟩
    · obtain ⟨vs,hvs,hv⟩ := hp c'
      rw [hvs]
      exact (h.others c' hc).append hv
  | @elsewhere _ _ c' hp hf hs ho =>
    have hne : c' ≠ c := by
      rintro rfl
      simp [hws] at hp
    refine Or.inr ⟨c,⟨y,ws,by rw [ho c (Ne.symm hne),hws],hq,by rwa [hf]⟩,fun c'' hc => ?_⟩
    by_cases he : c'' = c'
    · subst he
      have hold := h.others c'' hc
      rw [hp] at hold
      cases hold with
      | elsewhere hold => exact hold
    · rw [ho c'' he]
      exact h.others c'' hc
  | @first _ _ c' hp hs ho =>
    have hne : c' ≠ c := by
      rintro rfl
      simp [hws] at hp
    exact absurd hbetween (ha _ _ hp c (Ne.symm hne))
  | @second _ _ c' hp hf ho =>
    by_cases hc : c' = c
    · subst hc
      rw [hws,List.cons.injEq,Option.some.injEq,Sum.inr.injEq] at hp
      obtain ⟨rfl,rfl⟩ := hp
      refine Or.inl ⟨by rwa [hf],fun c'' => ?_⟩
      by_cases he : c'' = c'
      · rwa [he]
      · rw [ho c'' he]
        exact h.others c'' he
    · exact absurd ⟨_,_,hp⟩ (h.others c' hc).not_between

theorem Sound.step (h : Sound known L) (hs : Step known a L L') (ha : Alone a L) :
    Sound known L' := by
  rcases h with h | ⟨c,h⟩
  · exact h.step hs
  · exact h.step hs ha

end PairedWrites
