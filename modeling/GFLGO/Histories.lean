import Mathlib.Data.List.Induction
import GFLGO.Runs

/-!
What a run has done so far. An invariant may speak of the actions that led to a
state, and of the states in which they were taken.
-/

set_option autoImplicit false

namespace Runs

section
variable {σ α : Type} (step : α → σ → Option σ)

def Took (Q : List α → α → σ → Prop) (as : List α) (s : σ) : Prop :=
  ∃ bs a cs u, as = bs ++ a :: cs ∧ run step bs s = some u ∧ Q bs a u

variable {step}

theorem Took.concat {Q : List α → α → σ → Prop} {as : List α} {s : σ} (h : Took step Q as s)
    (a : α) : Took step Q (as ++ [a]) s := by
  obtain ⟨bs,b,cs,u,rfl,hu,hq⟩ := h
  exact ⟨bs,b,cs ++ [a],u,by simp,hu,hq⟩

theorem took_last {Q : List α → α → σ → Prop} {as : List α} {a : α} {s u : σ}
    (hu : run step as s = some u) (hq : Q as a u) : Took step Q (as ++ [a]) s :=
  ⟨as,a,[],u,rfl,hu,hq⟩

theorem Took.mono {Q R : List α → α → σ → Prop} {as : List α} {s : σ} (h : Took step Q as s)
    (hqr : ∀ bs a u, Q bs a u → R bs a u) : Took step R as s := by
  obtain ⟨bs,b,cs,u,hsplit,hu,hq⟩ := h
  exact ⟨bs,b,cs,u,hsplit,hu,hqr bs b u hq⟩

theorem run_history {I : List α → σ → Prop} {s : σ} (hs : I [] s)
    (hstep : ∀ as a u u', run step as s = some u → I as u → step a u = some u' →
      I (as ++ [a]) u')
    {as : List α} {t : σ} (hr : run step as s = some t) : I as t := by
  induction as using List.reverseRecOn generalizing t with
  | nil =>
    simp only [run_nil,Option.some.injEq] at hr
    exact hr ▸ hs
  | append_singleton as a ih =>
    obtain ⟨u,hu,ha⟩ := (run_append_eq_some step).mp hr
    obtain ⟨u',ha,hnil⟩ := (run_cons_eq_some step).mp ha
    simp only [run_nil,Option.some.injEq] at hnil
    exact hstep as a u t hu (ih hu) (hnil ▸ ha)

end

end Runs
