import Mathlib.Data.List.Basic

/-!
Runs of a system given by a partial step function. An action that is not
enabled has no successor. Conditions are put on every step of a run, and
invariants are carried along it.
-/

set_option autoImplicit false

namespace Runs

section
variable {σ α : Type} (step : α → σ → Option σ)

/-- The state after a sequence of actions, when every one of them is enabled. -/
def run : List α → σ → Option σ
  | [], s => some s
  | a :: as, s => (step a s).bind (run as)

/-- Every step of the run is taken in a state where the condition holds. -/
def Along (C : α → σ → Prop) : List α → σ → Prop
  | [], _ => True
  | a :: as, s => C a s ∧ ∀ s', step a s = some s' → Along C as s'

@[simp] theorem run_nil (s : σ) : run step [] s = some s := rfl

theorem run_cons_eq_some {a : α} {as : List α} {s t : σ} :
    run step (a :: as) s = some t ↔ ∃ s', step a s = some s' ∧ run step as s' = some t := by
  simp [run,Option.bind_eq_some_iff]

theorem run_append (as bs : List α) (s : σ) :
    run step (as ++ bs) s = (run step as s).bind (run step bs) := by
  induction as generalizing s with
  | nil => rfl
  | cons a as ih =>
    simp only [List.cons_append,run]
    cases step a s with
    | none => rfl
    | some s' => exact ih s'

theorem run_append_eq_some {as bs : List α} {s t : σ} :
    run step (as ++ bs) s = some t ↔
      ∃ u, run step as s = some u ∧ run step bs u = some t := by
  rw [run_append,Option.bind_eq_some_iff]

theorem Along.mono_of_invariant {C D : α → σ → Prop} {I : σ → Prop}
    (hI : ∀ a s s', I s → C a s → step a s = some s' → I s')
    (hcd : ∀ a s, I s → C a s → D a s) {as : List α} {s : σ} (hs : I s)
    (h : Along step C as s) : Along step D as s := by
  induction as generalizing s with
  | nil => trivial
  | cons a as ih =>
    exact ⟨hcd a s hs h.1,fun s' ha => ih (hI a s s' hs h.1 ha) (h.2 s' ha)⟩

instance decidableAlong (C : α → σ → Prop) [∀ a s, Decidable (C a s)] :
    (as : List α) → (s : σ) → Decidable (Along step C as s)
  | [], _ => isTrue trivial
  | a :: as, s =>
    match hs : step a s with
    | none => decidable_of_iff (C a s) (by simp [Along,hs])
    | some s' =>
      have := decidableAlong C as s'
      decidable_of_iff (C a s ∧ Along step C as s') (by simp [Along,hs])

theorem Along.and {C D : α → σ → Prop} {as : List α} {s : σ}
    (hc : Along step C as s) (hd : Along step D as s) :
    Along step (fun a s => C a s ∧ D a s) as s := by
  induction as generalizing s with
  | nil => trivial
  | cons a as ih =>
    exact ⟨⟨hc.1,hd.1⟩, fun s' hs => ih (hc.2 s' hs) (hd.2 s' hs)⟩

theorem along_append {C : α → σ → Prop} {as bs : List α} {s u : σ}
    (hu : run step as s = some u) :
    Along step C (as ++ bs) s ↔ Along step C as s ∧ Along step C bs u := by
  induction as generalizing s with
  | nil =>
    simp only [run_nil,Option.some.injEq] at hu
    subst hu
    simp [Along]
  | cons a as ih =>
    obtain ⟨s',hs,hr⟩ := (run_cons_eq_some step).mp hu
    have key := ih hr
    simp only [List.cons_append,Along,hs,Option.some.injEq,forall_eq'] at key ⊢
    rw [key,and_assoc]

theorem Along.left {C : α → σ → Prop} {as bs : List α} {s : σ} (h : Along step C (as ++ bs) s) :
    Along step C as s := by
  induction as generalizing s with
  | nil => trivial
  | cons a as ih => exact ⟨h.1,fun s' hs => ih (h.2 s' hs)⟩

/-- What one step preserves, a whole run preserves. -/
theorem run_invariant {C : α → σ → Prop} {I : σ → Prop}
    (hstep : ∀ a s s', I s → C a s → step a s = some s' → I s')
    {as : List α} {s t : σ} (hs : I s) (hc : Along step C as s)
    (hr : run step as s = some t) : I t := by
  induction as generalizing s with
  | nil =>
    simp only [run_nil,Option.some.injEq] at hr
    exact hr ▸ hs
  | cons a as ih =>
    obtain ⟨s',ha,hr⟩ := (run_cons_eq_some step).mp hr
    exact ih (hstep a s s' hs hc.1 ha) (hc.2 s' ha) hr

/-- What each step of a run contributes. -/
def collect {β : Type} (f : α → σ → Option β) : List α → σ → List β
  | [], _ => []
  | a :: as, s =>
    match step a s with
    | some s' => (f a s).toList ++ collect f as s'
    | none => []

theorem collect_append {β : Type} {f : α → σ → Option β} {as bs : List α} {s u : σ}
    (hu : run step as s = some u) :
    collect step f (as ++ bs) s = collect step f as s ++ collect step f bs u := by
  induction as generalizing s with
  | nil =>
    simp only [run_nil,Option.some.injEq] at hu
    subst hu
    rfl
  | cons a as ih =>
    obtain ⟨s',hs,hr⟩ := (run_cons_eq_some step).mp hu
    simp only [List.cons_append,collect,hs,ih hr,List.append_assoc]

theorem mem_collect {β : Type} {f : α → σ → Option β} {as : List α} {s : σ} {b : β}
    (h : b ∈ collect step f as s) : ∃ a ∈ as, ∃ s', f a s' = some b := by
  induction as generalizing s with
  | nil => contradiction
  | cons a as ih =>
    unfold collect at h
    split at h
    · rcases List.mem_append.mp h with hnew | hrest
      · exact ⟨a,List.mem_cons_self,s,Option.mem_toList.mp hnew⟩
      · obtain ⟨a',ha',hs⟩ := ih hrest
        exact ⟨a',List.mem_cons_of_mem a ha',hs⟩
    · contradiction

theorem run_invariant_collect {β : Type} {f : α → σ → Option β} {C : α → σ → Prop}
    {I : List β → σ → Prop}
    (hstep : ∀ a s s' bs, I bs s → C a s → step a s = some s' → I (bs ++ (f a s).toList) s')
    {as : List α} {s t : σ} {bs : List β} (hs : I bs s) (hc : Along step C as s)
    (hr : run step as s = some t) : I (bs ++ collect step f as s) t := by
  induction as generalizing s bs with
  | nil =>
    simp only [run_nil,Option.some.injEq] at hr
    subst hr
    simpa [collect] using hs
  | cons a as ih =>
    obtain ⟨s',ha,hr⟩ := (run_cons_eq_some step).mp hr
    have hnext := ih (hstep a s s' bs hs hc.1 ha) (hc.2 s' ha) hr
    simpa [collect,ha] using hnext

theorem run_collect {β : Type} {f : α → σ → Option β} {C : α → σ → Prop}
    {I : List β → σ → Prop}
    (hstep : ∀ a s s' bs, I bs s → C a s → step a s = some s' → I (bs ++ (f a s).toList) s')
    {as : List α} {s t : σ} (hs : I [] s) (hc : Along step C as s)
    (hr : run step as s = some t) : I (collect step f as s) t := by
  simpa using run_invariant_collect step hstep hs hc hr

/-- A run seen as a run of another system. An action without a label leaves the
view as it is. -/
theorem run_simulation {σ' β : Type} {step' : β → σ' → Option σ'} {view : σ → σ'}
    {label : α → Option β} {I : σ → Prop} (hI : ∀ a s s', I s → step a s = some s' → I s')
    (hsim : ∀ a s s', I s → step a s = some s' →
      run step' (label a).toList (view s) = some (view s'))
    {as : List α} {s t : σ} (hs : I s) (hr : run step as s = some t) :
    run step' (as.filterMap label) (view s) = some (view t) := by
  induction as generalizing s with
  | nil =>
    cases hr
    rfl
  | cons a as ih =>
    obtain ⟨s',ha,hr⟩ := (run_cons_eq_some step).mp hr
    have hfirst := hsim a s s' hs ha
    have hrest := ih (hI a s s' hs ha) hr
    cases hl : label a with
    | none =>
      rw [hl] at hfirst
      rw [List.filterMap_cons_none hl,Option.some.inj hfirst]
      exact hrest
    | some b =>
      rw [hl] at hfirst
      rw [List.filterMap_cons_some hl]
      have hboth := (run_append_eq_some step').mpr ⟨_,hfirst,hrest⟩
      exact hboth

theorem along_of_forall_prefix {C : α → σ → Prop} {as : List α} {s : σ}
    (h : ∀ bs a t, bs ++ [a] <+: as → run step bs s = some t → C a t) : Along step C as s := by
  induction as generalizing s with
  | nil => trivial
  | cons a as ih =>
    refine ⟨h [] a s (by simp) rfl,fun s' hs => ih (fun bs b t hp hr => ?_)⟩
    refine h (a :: bs) b t (by simpa using hp) ?_
    exact (run_cons_eq_some step).mpr ⟨s',hs,hr⟩

theorem not_along_of_run {C : α → σ → Prop} {as bs : List α} {a : α} {s t : σ}
    (hr : run step as s = some t) (hc : ¬ C a t) : ¬ Along step C (as ++ a :: bs) s :=
  fun h => hc ((along_append step hr).mp h).2.1

theorem along_of_forall_mem {A : α → Prop} {as : List α} (h : ∀ a ∈ as, A a) (s : σ) :
    Along step (fun a _ => A a) as s := by
  induction as generalizing s with
  | nil => trivial
  | cons a as ih =>
    exact ⟨h a (by simp), fun s' _ => ih (fun b hb => h b (by simp [hb])) s'⟩

/-- A state is good while the condition holds; one step against the condition
makes it bad, and no step makes a bad state good. -/
theorem run_dichotomy {A : α → Prop} {C : α → σ → Prop} {G B : σ → Prop}
    (hgood : ∀ a s s', A a → G s → C a s → step a s = some s' → G s')
    (hbreak : ∀ a s s', A a → G s → ¬ C a s → step a s = some s' → B s')
    (hbad : ∀ a s s', A a → B s → step a s = some s' → B s')
    {as : List α} {s t : σ} (ha : ∀ a ∈ as, A a) (hs : G s) (hr : run step as s = some t) :
    (Along step C as s ∧ G t) ∨ (¬ Along step C as s ∧ B t) := by
  induction as generalizing s with
  | nil =>
    simp only [run_nil,Option.some.injEq] at hr
    exact Or.inl ⟨trivial,hr ▸ hs⟩
  | cons a as ih =>
    have hrest := List.forall_mem_cons.mp ha
    obtain ⟨s',hstep,hr⟩ := (run_cons_eq_some step).mp hr
    by_cases hc : C a s
    · have hall (h : Along step C as s') : ∀ s₁, step a s = some s₁ → Along step C as s₁ := by
        intro s₁ h₁
        rw [hstep,Option.some.injEq] at h₁
        exact h₁ ▸ h
      rcases ih hrest.2 (hgood a s s' hrest.1 hs hc hstep) hr with ⟨h,ht⟩ | ⟨h,ht⟩
      · exact Or.inl ⟨⟨hc,hall h⟩,ht⟩
      · exact Or.inr ⟨fun hn => h (hn.2 s' hstep),ht⟩
    · refine Or.inr ⟨fun h => hc h.1,?_⟩
      have hb := hbreak a s s' hrest.1 hs hc hstep
      refine run_invariant (I := B) (C := fun a _ => A a) step ?_ hb
        (along_of_forall_mem step hrest.2 s') hr
      intro a s s' hb ha h
      exact hbad a s s' ha hb h

end

end Runs
