import Mathlib.Data.List.Basic

/-!
One cell that clients set with writes still on their way. A client reports that
it has found a value and set another one; the write is applied later, after all
that the client has issued before it.
-/

set_option autoImplicit false

namespace CompareSet

variable {α : Type}

/-- The writes under way are in order; those that go elsewhere are `none`. -/
structure Cell (α : Type) where
  stored : α
  pending : Nat → List (Option α)

inductive Action (α : Type) where
  | quiet
  | report (c : Nat) (old new : α)
  | apply (c : Nat)

/-- What is stored when the writes have been applied. -/
def settle (ws : List (Option α)) (stored : α) : α := ws.foldl (fun s o => o.getD s) stored

def Elsewhere (ws : List (Option α)) : Prop := ∀ o ∈ ws, o = none

inductive Step : Action α → Cell α → Cell α → Prop
  | quiet {L L' : Cell α} (hs : L'.stored = L.stored)
    (hp : ∀ c, ∃ ws, L'.pending c = L.pending c ++ ws ∧ Elsewhere ws) : Step .quiet L L'
  | report {L L' : Cell α} {c : Nat} {old new : α} (hs : L'.stored = L.stored)
    (hp : L'.pending c = L.pending c ++ [some new])
    (ho : ∀ c', c' ≠ c → L'.pending c' = L.pending c') : Step (.report c old new) L L'
  | apply {L L' : Cell α} {c : Nat} {o : Option α} (hp : L.pending c = o :: L'.pending c)
    (hs : L'.stored = o.getD L.stored) (ho : ∀ c', c' ≠ c → L'.pending c' = L.pending c') :
    Step (.apply c) L L'

/-- The client finds what is stored, and nobody is about to set the cell. -/
def Current : Action α → Cell α → Prop
  | .report _ old _, L => L.stored = old ∧ ∀ c, Elsewhere (L.pending c)
  | _, _ => True

@[simp] theorem settle_nil (s : α) : settle [] s = s := rfl

@[simp] theorem settle_cons (o : Option α) (ws : List (Option α)) (s : α) :
    settle (o :: ws) s = settle ws (o.getD s) := rfl

@[simp] theorem settle_append (ws vs : List (Option α)) (s : α) :
    settle (ws ++ vs) s = settle vs (settle ws s) := List.foldl_append

theorem settle_of_elsewhere {ws : List (Option α)} (h : Elsewhere ws) (s : α) :
    settle ws s = s := by
  induction ws with
  | nil => rfl
  | cons o ws ih =>
    obtain ⟨rfl,hrest⟩ := List.forall_mem_cons.mp h
    exact ih hrest

theorem Elsewhere.append {ws vs : List (Option α)} (h : Elsewhere ws) (hv : Elsewhere vs) :
    Elsewhere (ws ++ vs) := fun o ho => (List.mem_append.mp ho).elim (h o) (hv o)

variable {L L' : Cell α} {a : Action α} {c k : Nat} {old new : α}

theorem Step.elsewhere (h : Step a L L') (ha : ∀ old new, a ≠ .report c old new)
    (he : Elsewhere (L.pending c)) : Elsewhere (L'.pending c) := by
  cases h with
  | quiet hs hp =>
    obtain ⟨ws,hws,hnone⟩ := hp c
    rw [hws]
    exact he.append hnone
  | @report _ _ c' old new hs hp ho =>
    have hne : c ≠ c' := fun hc => ha old new (hc ▸ rfl)
    rwa [ho c hne]
  | @apply _ _ c' o hp hs ho =>
    by_cases hc : c = c'
    · subst hc
      exact fun o' ho' => he o' (by rw [hp]; exact List.mem_cons_of_mem o ho')
    · rwa [ho c hc]

/-- After `k` writes of the client comes that of a report, which has found `old`. Until then
nobody sets the cell. -/
structure Owed (c : Nat) (old new : α) (k : Nat) (L : Cell α) : Prop where
  stored : L.stored = old
  queue : ∃ front back, L.pending c = front ++ some new :: back ∧ front.length = k ∧
    Elsewhere front ∧ Elsewhere back
  others : ∀ c', c' ≠ c → Elsewhere (L.pending c')

theorem owed_of_report (hs : Step (.report c old new) L L') (hc : Current (.report c old new) L) :
    Owed c old new (L.pending c).length L' := by
  cases hs with
  | report hstored hp ho =>
    refine ⟨hstored.trans hc.1,⟨L.pending c,[],hp,rfl,hc.2 c,by simp [Elsewhere]⟩,
      fun c' hne => ?_⟩
    rw [ho c' hne]
    exact hc.2 c'

theorem Owed.not_current (h : Owed c old new k L) {c' : Nat} {old' new' : α} :
    ¬ Current (.report c' old' new') L := by
  intro hc
  obtain ⟨front,back,hq,_⟩ := h.queue
  have hnone := hc.2 c (some new) (by rw [hq]; simp)
  contradiction

theorem Owed.step (h : Owed c old new k L) (hs : Step a L L') (hc : Current a L)
    (ha : a ≠ .apply c) : Owed c old new k L' := by
  have hno : ∀ c' old' new', a ≠ .report c' old' new' := fun c' old' new' he =>
    h.not_current (he ▸ hc)
  obtain ⟨front,back,hq,hlen,hfront,hback⟩ := h.queue
  refine ⟨?_,?_,fun c' hne => hs.elsewhere (hno c') (h.others c' hne)⟩
  · cases hs with
    | quiet hstored hp => rw [hstored,h.stored]
    | report => exact absurd rfl (hno _ _ _)
    | @apply _ _ c' o hp hstored ho =>
      have hne : c' ≠ c := fun he => ha (he ▸ rfl)
      have hnone : o = none := h.others c' hne o (by rw [hp]; exact List.mem_cons_self)
      rw [hstored,hnone,Option.getD_none,h.stored]
  · cases hs with
    | quiet hstored hp =>
      obtain ⟨ws,hws,hnone⟩ := hp c
      exact ⟨front,back ++ ws,by rw [hws,hq]; simp,hlen,hfront,hback.append hnone⟩
    | report => exact absurd rfl (hno _ _ _)
    | @apply _ _ c' o hp hstored ho =>
      have hne : c ≠ c' := fun he => ha (he ▸ rfl)
      exact ⟨front,back,by rw [ho c hne,hq],hlen,hfront,hback⟩

theorem Owed.apply (h : Owed c old new (k+1) L) (hs : Step (.apply c) L L') :
    Owed c old new k L' := by
  obtain ⟨front,back,hq,hlen,hfront,hback⟩ := h.queue
  cases hs with
  | @apply _ _ _ o hp hstored ho =>
    cases front with
    | nil => contradiction
    | cons o' front =>
      rw [hq,List.cons_append,List.cons.injEq] at hp
      obtain ⟨rfl,hp⟩ := hp
      obtain ⟨rfl,hrest⟩ := List.forall_mem_cons.mp hfront
      refine ⟨hstored.trans h.stored,⟨front,back,hp.symm,by simpa using hlen,hrest,hback⟩,
        fun c' hne => ?_⟩
      rw [ho c' hne]
      exact h.others c' hne

/-- When all writes have been applied the cell holds another value than `old`; only one client
still sets it. -/
structure Away (old : α) (L : Cell α) : Prop where
  settled : ∃ c, settle (L.pending c) L.stored ≠ old ∧ ∀ c', c' ≠ c → Elsewhere (L.pending c')

theorem Owed.away (h : Owed c old new k L) (hne : new ≠ old) : Away old L := by
  obtain ⟨front,back,hq,_,_,hback⟩ := h.queue
  refine ⟨c,?_,h.others⟩
  rw [hq,settle_append,settle_cons,Option.getD_some,settle_of_elsewhere hback]
  exact hne

theorem away_of_report {found : α} (hs : Step (.report c found new) L L')
    (hc : Current (.report c found new) L) (hne : new ≠ old) : Away old L' := by
  cases hs with
  | report hstored hp ho =>
    refine ⟨c,?_,fun c' hc' => ?_⟩
    · rw [hp,settle_append]
      exact hne
    · rw [ho c' hc']
      exact hc.2 c'

theorem Away.not_current (h : Away old L) : ¬ Current (.report c old new) L := by
  rintro ⟨hold,hall⟩
  obtain ⟨o,hne,_⟩ := h.settled
  rw [settle_of_elsewhere (hall o)] at hne
  exact hne hold

/-- The value stays away unless a report sets it. -/
theorem Away.step (h : Away old L) (hs : Step a L L') (hc : Current a L)
    (ha : ∀ c found new, a = .report c found new → new = found ∨ new ≠ old) : Away old L' := by
  obtain ⟨o,hne,ho⟩ := h.settled
  cases hs with
  | quiet hstored hp =>
    refine ⟨o,?_,fun c' hc' => ?_⟩
    · obtain ⟨ws,hws,hnone⟩ := hp o
      rwa [hws,settle_append,settle_of_elsewhere hnone,hstored]
    · obtain ⟨ws,hws,hnone⟩ := hp c'
      rw [hws]
      exact (ho c' hc').append hnone
  | @report _ _ c found new hstored hp hothers =>
    refine away_of_report (.report hstored hp hothers) hc ?_
    rcases ha c found new rfl with rfl | hnew
    · rintro rfl
      exact h.not_current hc
    · exact hnew
  | @apply _ _ c' v hp hstored hothers =>
    refine ⟨o,?_,fun c₁ h₁ => ?_⟩
    · by_cases hc : c' = o
      · subst hc
        rwa [hp,settle_cons,← hstored] at hne
      · have hnone : v = none := ho c' hc v (by rw [hp]; exact List.mem_cons_self)
        rw [hothers o (Ne.symm hc),hstored,hnone]
        exact hne
    · exact (Step.apply hp hstored hothers).elsewhere (fun _ _ he => by cases he) (ho c₁ h₁)

end CompareSet
