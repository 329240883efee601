import Mathlib.Data.List.Nodup
import GFLGO.Runs

/-!
Interleavings of the actions of several owners. Two runs in which an owner does
the same end up alike to that owner, when nobody else can tell them apart. Runs
in which every owner does the same end up in the same shared state, when the
steps of different owners commute on it.
-/

set_option autoImplicit false

namespace Interleaving

open Runs

section
variable {α ι : Type} [DecidableEq ι] (owner : α → ι)

def ownActions (i : ι) (as : List α) : List α := as.filter (fun a => owner a = i)

/-- The two are interleavings of the same actions. -/
def SameActions (as bs : List α) : Prop := ∀ i, ownActions owner i as = ownActions owner i bs

/-- All that the first owner does, then all that the next one does. -/
def oneByOne (is : List ι) (as : List α) : List α := is.flatMap (fun i => ownActions owner i as)

variable {owner} {i : ι} {a : α} {as bs : List α}

theorem ownActions_cons_self (a : α) (as : List α) :
    ownActions owner (owner a) (a :: as) = a :: ownActions owner (owner a) as :=
  List.filter_cons_of_pos (by simp)

theorem ownActions_cons_ne (h : owner a ≠ i) (as : List α) :
    ownActions owner i (a :: as) = ownActions owner i as :=
  List.filter_cons_of_neg (by simpa using h)

theorem ownActions_append (as bs : List α) :
    ownActions owner i (as ++ bs) = ownActions owner i as ++ ownActions owner i bs :=
  List.filter_append as bs

theorem ownActions_eq_nil : ownActions owner i as = [] ↔ ∀ a ∈ as, owner a ≠ i := by
  simp [ownActions]

theorem exists_first (h : ownActions owner i bs = a :: as) : ∃ pre post,
    bs = pre ++ a :: post ∧ owner a = i ∧ ownActions owner i pre = [] ∧
      ownActions owner i post = as := by
  obtain ⟨pre,post,rfl,hpre,ha,hpost⟩ := List.filter_eq_cons_iff.mp h
  exact ⟨pre,post,rfl,by simpa using ha,ownActions_eq_nil.mpr (by simpa using hpre),hpost⟩

theorem ownActions_ownActions (i j : ι) (as : List α) :
    ownActions owner i (ownActions owner j as) = if i = j then ownActions owner i as else [] := by
  split
  · next h =>
    subst h
    exact List.filter_eq_self.mpr (fun a ha => (List.mem_filter.mp ha).2)
  · next h =>
    refine ownActions_eq_nil.mpr (fun a ha hi => h ?_)
    have hj : owner a = j := by simpa using (List.mem_filter.mp ha).2
    exact hi.symm.trans hj

theorem ownActions_oneByOne {is : List ι} (hn : is.Nodup) :
    ownActions owner i (oneByOne owner is as) = if i ∈ is then ownActions owner i as else [] := by
  induction is with
  | nil => rfl
  | cons j is ih =>
    obtain ⟨hj,hn⟩ := List.nodup_cons.mp hn
    rw [oneByOne,List.flatMap_cons,ownActions_append,ownActions_ownActions]
    rw [oneByOne] at ih
    rw [ih hn]
    by_cases h : i = j
    · subst h
      simp [hj]
    · simp [h]

theorem sameActions_oneByOne {is : List ι} (hn : is.Nodup) (h : ∀ a ∈ as, owner a ∈ is) :
    SameActions owner as (oneByOne owner is as) := by
  intro i
  rw [ownActions_oneByOne hn]
  split
  · rfl
  · next hi => exact ownActions_eq_nil.mpr (fun a ha he => hi (he ▸ h a ha))

theorem SameActions.eq_nil (h : SameActions owner [] bs) : bs = [] := by
  refine List.eq_nil_iff_forall_not_mem.mpr (fun b hb => ?_)
  exact ownActions_eq_nil.mp (h (owner b)).symm b hb rfl

theorem SameActions.uncons (h : SameActions owner (a :: as) bs) : ∃ pre post,
    bs = pre ++ a :: post ∧ (∀ b ∈ pre, owner b ≠ owner a) ∧
      SameActions owner as (pre ++ post) := by
  have hown := h (owner a)
  rw [ownActions_cons_self] at hown
  obtain ⟨pre,post,rfl,_,hpre,hpost⟩ := exists_first hown.symm
  refine ⟨pre,post,rfl,ownActions_eq_nil.mp hpre,fun i => ?_⟩
  rw [ownActions_append]
  by_cases hi : owner a = i
  · subst hi
    rw [hpre,hpost,List.nil_append]
  · have hother := h i
    rwa [ownActions_cons_ne hi,ownActions_append,ownActions_cons_ne hi] at hother

end

section
variable {σ α : Type} (step : α → σ → Option σ)

/-- An action that is not enabled is passed over. -/
def play : List α → σ → σ
  | [], s => s
  | a :: as, s => play as ((step a s).getD s)

theorem play_of_run {as : List α} {s t : σ} (h : run step as s = some t) : play step as s = t := by
  induction as generalizing s with
  | nil => exact Option.some.inj h
  | cons a as ih =>
    obtain ⟨s',hs,hr⟩ := (run_cons_eq_some step).mp h
    rw [play,hs]
    exact ih hr

end

section
variable {σ α : Type} (step : α → σ → Option σ) (C : α → σ → Prop)

def Leads (as : List α) (s t : σ) : Prop := Along step C as s ∧ run step as s = some t

variable {step C} {a : α} {as bs : List α} {s t : σ}

theorem leads_nil : Leads step C [] s t ↔ s = t := by simp [Leads,Along]

theorem leads_cons : Leads step C (a :: as) s t ↔
    ∃ s', C a s ∧ step a s = some s' ∧ Leads step C as s' t := by
  constructor
  · rintro ⟨hc,hr⟩
    obtain ⟨s',ha,hr⟩ := (run_cons_eq_some step).mp hr
    exact ⟨s',hc.1,ha,hc.2 s' ha,hr⟩
  · rintro ⟨s',hc,ha,hrest,hr⟩
    refine ⟨⟨hc,fun u hu => ?_⟩,(run_cons_eq_some step).mpr ⟨s',ha,hr⟩⟩
    rw [ha,Option.some.injEq] at hu
    exact hu ▸ hrest

theorem leads_append : Leads step C (as ++ bs) s t ↔
    ∃ u, Leads step C as s u ∧ Leads step C bs u t := by
  induction as generalizing s with
  | nil => simp [leads_nil]
  | cons a as ih =>
    simp only [List.cons_append,leads_cons,ih]
    constructor
    · rintro ⟨s',hc,ha,u,hu,ht⟩
      exact ⟨u,⟨s',hc,ha,hu⟩,ht⟩
    · rintro ⟨u,⟨s',hc,ha,hu⟩,ht⟩
      exact ⟨s',hc,ha,u,hu,ht⟩

end

section
variable {σ α ι β : Type} (owner : α → ι) (step : α → σ → Option σ) (C : α → σ → Prop)
  (R : ι → σ → σ → Prop)

/-- `R i` relates states that are alike to the owner `i`. It can do the same in
both, and cannot tell whether somebody else has acted. -/
structure Unwinding : Prop where
  own : ∀ {a s s' t}, R (owner a) s t → C a s → step a s = some s' →
    C a t ∧ ∃ t', step a t = some t' ∧ R (owner a) s' t'
  left : ∀ {i a s s' t}, owner a ≠ i → R i s t → C a s → step a s = some s' → R i s' t
  right : ∀ {i a s t t'}, owner a ≠ i → R i s t → C a t → step a t = some t' → R i s t'

/-- What the owners share is set alike by the same action, and the actions of
two owners commute on it. -/
structure Commuting (shared : σ → β) : Prop extends Unwinding owner step C R where
  follow : ∀ {a s s' t t'}, R (owner a) s t → shared s = shared t → step a s = some s' →
    step a t = some t' → shared s' = shared t'
  swap : ∀ {a b s s₁ s₂ t₁ t₂}, owner a ≠ owner b → (∀ i, R i s s) → step a s = some s₁ →
    step b s₁ = some s₂ → step b s = some t₁ → step a t₁ = some t₂ → shared s₂ = shared t₂

variable {owner step C R} {a b : α} {as bs : List α} {s s' t t' u : σ}

section
variable (h : Unwinding owner step C R)

include h

theorem Unwinding.both (hr : ∀ i, R i s t) (hc : C a s) (hs : step a s = some s') :
    C a t ∧ ∃ t', step a t = some t' ∧ ∀ i, R i s' t' := by
  obtain ⟨hct,t',ht,hown⟩ := h.own (hr _) hc hs
  refine ⟨hct,t',ht,fun i => ?_⟩
  by_cases hi : owner a = i
  · exact hi ▸ hown
  · exact h.right hi (h.left hi (hr i) hc hs) hct ht

theorem Unwinding.refl_step (hr : ∀ i, R i s s) (hc : C a s) (hs : step a s = some s') (i : ι) :
    R i s' s' := by
  obtain ⟨_,t',ht,hr'⟩ := h.both hr hc hs
  rw [hs,Option.some.injEq] at ht
  subst ht
  exact hr' i

theorem Unwinding.right_run {i : ι} (ho : ∀ b ∈ bs, owner b ≠ i) (hr : R i s t)
    (hb : Leads step C bs t t') : R i s t' := by
  induction bs generalizing t with
  | nil => exact leads_nil.mp hb ▸ hr
  | cons b bs ih =>
    obtain ⟨hb',ho⟩ := List.forall_mem_cons.mp ho
    obtain ⟨u,hc,hs,hb⟩ := leads_cons.mp hb
    exact ih ho (h.right hb' hr hc hs) hb

/-- An owner that does the same in two runs finds them alike in the end. -/
theorem Unwinding.alike [DecidableEq ι] {i : ι}
    (hown : ownActions owner i as = ownActions owner i bs) (hr : R i s t)
    (ha : Leads step C as s s') (hb : Leads step C bs t t') : R i s' t' := by
  induction as generalizing s t bs with
  | nil =>
    obtain rfl := leads_nil.mp ha
    exact h.right_run (ownActions_eq_nil.mp hown.symm) hr hb
  | cons a as ih =>
    obtain ⟨u,hc,hs,ha⟩ := leads_cons.mp ha
    by_cases hi : owner a = i
    · subst hi
      rw [ownActions_cons_self] at hown
      obtain ⟨pre,post,rfl,_,hpre,hpost⟩ := exists_first hown.symm
      obtain ⟨v,hv,hb⟩ := leads_append.mp hb
      obtain ⟨v',_,hs',hb⟩ := leads_cons.mp hb
      obtain ⟨_,v'',hs'',hr'⟩ := h.own (h.right_run (ownActions_eq_nil.mp hpre) hr hv) hc hs
      rw [hs',Option.some.injEq] at hs''
      subst hs''
      exact ih hpost.symm hr' ha hb
    · rw [ownActions_cons_ne hi] at hown
      exact ih hown (h.left hi hr hc hs) ha hb

theorem Unwinding.exchange (hab : owner a ≠ owner b) (hr : ∀ i, R i s s) (hca : C a s)
    (ha : step a s = some t) (hcb : C b t) (hb : step b t = some u) :
    C b s ∧ ∃ t', step b s = some t' ∧ C a t' ∧ ∃ u', step a t' = some u' ∧ ∀ i, R i u u' := by
  obtain ⟨hcb',t',hb',hrb⟩ := h.own (h.left hab (hr (owner b)) hca ha) hcb hb
  obtain ⟨hca',u',ha',hra⟩ := h.own (h.right hab.symm (hr (owner a)) hcb' hb') hca ha
  refine ⟨hcb',t',hb',hca',u',ha',fun i => ?_⟩
  by_cases hi : owner a = i
  · subst hi
    exact h.left hab.symm hra hcb hb
  · by_cases hj : owner b = i
    · subst hj
      exact h.right hab hrb hca' ha'
    · have hleft : R i u s := h.left hj (h.left hi (hr i) hca ha) hcb hb
      exact h.right hi (h.right hj hleft hcb' hb') hca' ha'

end

section
variable {shared : σ → β} (h : Commuting owner step C R shared)

include h

theorem Commuting.follow_run (hr : ∀ i, R i s t) (hst : shared s = shared t)
    (ha : Leads step C as s s') : ∃ t', Leads step C as t t' ∧ shared s' = shared t' := by
  induction as generalizing s t with
  | nil =>
    obtain rfl := leads_nil.mp ha
    exact ⟨t,leads_nil.mpr rfl,hst⟩
  | cons a as ih =>
    obtain ⟨u,hc,hs,ha⟩ := leads_cons.mp ha
    obtain ⟨hct,v,ht,hr'⟩ := h.both hr hc hs
    obtain ⟨t',ht',hst'⟩ := ih hr' (h.follow (hr _) hst hs ht) ha
    exact ⟨t',leads_cons.mpr ⟨v,hct,ht,ht'⟩,hst'⟩

theorem Commuting.wait (ho : ∀ b ∈ as, owner b ≠ owner a) (hr : ∀ i, R i s s)
    (ha : Leads step C (a :: (as ++ bs)) s t) :
    ∃ t', Leads step C (as ++ a :: bs) s t' ∧ shared t = shared t' := by
  induction as generalizing s t with
  | nil => exact ⟨t,ha,rfl⟩
  | cons b as ih =>
    obtain ⟨hb,ho⟩ := List.forall_mem_cons.mp ho
    obtain ⟨u,hca,hsa,ha⟩ := leads_cons.mp ha
    obtain ⟨v,hcb,hsb,ha⟩ := leads_cons.mp ha
    obtain ⟨hcb',u',hsb',hca',v',hsa',hr'⟩ := h.exchange hb.symm hr hca hsa hcb hsb
    have hv : shared v = shared v' := h.swap hb.symm hr hsa hsb hsb' hsa'
    obtain ⟨w,hw,htw⟩ := h.follow_run hr' hv ha
    obtain ⟨t',ht',hwt⟩ :=
      ih ho (h.refl_step hr hcb' hsb') (leads_cons.mpr ⟨v',hca',hsa',hw⟩)
    exact ⟨t',leads_cons.mpr ⟨u',hcb',hsb',ht'⟩,htw.trans hwt⟩

/-- Every interleaving of the same actions can be run, and leaves the same. -/
theorem Commuting.interleave [DecidableEq ι] (hsame : SameActions owner as bs)
    (hr : ∀ i, R i s s) (ha : Leads step C as s t) :
    ∃ t', Leads step C bs s t' ∧ shared t = shared t' := by
  induction as generalizing bs s with
  | nil =>
    obtain rfl := hsame.eq_nil
    exact ⟨t,ha,rfl⟩
  | cons a as ih =>
    obtain ⟨pre,post,rfl,hpre,hrest⟩ := hsame.uncons
    obtain ⟨u,hc,hs,ha⟩ := leads_cons.mp ha
    obtain ⟨v,hv,htv⟩ := ih hrest (h.refl_step hr hc hs) ha
    obtain ⟨t',ht',hvt⟩ := h.wait hpre hr (leads_cons.mpr ⟨u,hc,hs,hv⟩)
    exact ⟨t',ht',htv.trans hvt⟩

end

end

end Interleaving
