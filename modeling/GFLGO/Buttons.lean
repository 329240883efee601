import Mathlib.Data.List.Induction
import GFLGO.Runs
import GFLGO.Battle

/-!
A button under any touches: several may be on it at once, and the system may
cancel them. The class leaves `touchesCancelled` to the default, which does
nothing.
-/

set_option autoImplicit false

namespace GFLGO

open Runs

/-- What can happen to a button: a touch callback, or its owner hides or shows
the whole node. -/
inductive ButtonEvent where
  | touch (e : TouchEvent)
  | setHidden (isHidden : Bool)
  deriving DecidableEq, Repr

namespace ButtonNode

/-- Both constructors hide the active visual only. -/
def init (type : ButtonType) : ButtonNode := { type }

def step : ButtonEvent → ButtonNode → Option ButtonNode
  | .touch e, b => if b.delivers e then some (b.receive e) else none
  | .setHidden isHidden, b => some { b with isHidden }

def OneVisible (b : ButtonNode) : Prop := b.defaultStateHidden = !b.activeStateHidden

/-- One visual at a time, and the default one whenever no touch is in progress. -/
structure Settled (b : ButtonNode) : Prop where
  oneVisible : b.OneVisible
  default : b.touches = [] → b.defaultStateHidden = false

/-- The property of every state that a sequence of events passes through. -/
def Settles (type : ButtonType) (es : List ButtonEvent) : Prop :=
  ∀ es' b, es' <+: es → run step es' (init type) = some b → b.Settled

/-- Whether the last callback that switches the visuals presses the button. -/
def press (pressed : Bool) : ButtonEvent → Bool
  | .touch (.touchesBegan _) => true
  | .touch (.touchesMoved _ inside) => inside
  | .touch (.touchesEnded _ _) => false
  | .touch (.touchesCancelled _) => pressed
  | .setHidden _ => pressed

def pressed (es : List ButtonEvent) : Bool := es.foldl press false

@[simp] theorem pressed_append (es : List ButtonEvent) (e : ButtonEvent) :
    pressed (es ++ [e]) = press (pressed es) e := by
  simp [pressed]

/-- No press ends by being cancelled: where a cancellation leaves no touch in
progress, the button had been left or released before. -/
def NoPressCancelled (type : ButtonType) (es : List ButtonEvent) : Prop :=
  ∀ es' ts b, es' ++ [.touch (.touchesCancelled ts)] <+: es →
    run step (es' ++ [.touch (.touchesCancelled ts)]) (init type) = some b →
    b.touches = [] → pressed es' = false

theorem NoPressCancelled.mono {type : ButtonType} {es es' : List ButtonEvent}
    (h : NoPressCancelled type es) (hp : es' <+: es) : NoPressCancelled type es' :=
  fun es₁ ts b h₁ => h es₁ ts b (h₁.trans hp)

theorem step_touch {e : TouchEvent} {b b' : ButtonNode} (h : step (.touch e) b = some b') :
    b.delivers e = true ∧ b' = b.receive e := by
  simp only [step] at h
  split at h
  · next hd => exact ⟨hd,(Option.some.inj h).symm⟩
  · contradiction

/-- Every callback but a cancellation decides which visual is shown. -/
theorem step_visuals {e : ButtonEvent} {b b' : ButtonNode} (h : step e b = some b') {p : Bool}
    (hd : b.defaultStateHidden = p) (ha : b.activeStateHidden = !p) :
    b'.defaultStateHidden = press p e ∧ b'.activeStateHidden = !press p e := by
  cases e with
  | touch e =>
    obtain ⟨_,rfl⟩ := step_touch h
    cases e with
    | touchesBegan ts => exact ⟨rfl,rfl⟩
    | touchesMoved ts inside => cases inside <;> exact ⟨rfl,rfl⟩
    | touchesEnded ts inside => exact ⟨rfl,rfl⟩
    | touchesCancelled ts => exact ⟨hd,ha⟩
  | setHidden isHidden =>
    cases h
    exact ⟨hd,ha⟩

theorem visuals_of_run {es : List ButtonEvent} {b b' : ButtonNode}
    (h : run step es b = some b') {p : Bool} (hd : b.defaultStateHidden = p)
    (ha : b.activeStateHidden = !p) :
    b'.defaultStateHidden = es.foldl press p ∧ b'.activeStateHidden = !es.foldl press p := by
  induction es generalizing b p with
  | nil =>
    cases h
    exact ⟨hd,ha⟩
  | cons e es ih =>
    obtain ⟨b₁,hs,hr⟩ := (run_cons_eq_some step).mp h
    obtain ⟨hd',ha'⟩ := step_visuals hs hd ha
    exact ih hr hd' ha'

theorem defaultStateHidden_of_run {type : ButtonType} {es : List ButtonEvent} {b : ButtonNode}
    (h : run step es (init type) = some b) : b.defaultStateHidden = pressed es :=
  (visuals_of_run h rfl rfl).1

theorem oneVisible_of_run {type : ButtonType} {es : List ButtonEvent} {b : ButtonNode}
    (h : run step es (init type) = some b) : b.OneVisible := by
  obtain ⟨hd,ha⟩ := visuals_of_run h rfl rfl
  unfold OneVisible
  rw [hd,ha,Bool.not_not]

theorem released_or_cancelled {e : TouchEvent} {b : ButtonNode} (hd : b.delivers e = true)
    (h : (b.receive e).touches = []) (p : Bool) :
    press p (.touch e) = false ∨ ∃ ts, e = .touchesCancelled ts := by
  cases e with
  | touchesBegan ts =>
    have hne : ts ≠ [] := (of_decide_eq_true hd).1
    have happend : b.touches ++ ts = [] := h
    exact absurd (List.append_eq_nil_iff.mp happend).2 hne
  | touchesMoved ts inside =>
    obtain ⟨hne,_,hmem⟩ := of_decide_eq_true hd
    obtain ⟨t,ht⟩ := List.exists_mem_of_ne_nil ts hne
    have hkept : b.touches = [] := by
      cases inside <;> exact h
    have hold := hmem t ht
    rw [hkept] at hold
    contradiction
  | touchesEnded ts inside => exact Or.inl rfl
  | touchesCancelled ts => exact Or.inr ⟨ts,rfl⟩

theorem released_of_run {type : ButtonType} {es : List ButtonEvent}
    (hc : NoPressCancelled type es) {b : ButtonNode} (h : run step es (init type) = some b)
    (ht : b.touches = []) : pressed es = false := by
  induction es using List.reverseRecOn generalizing b with
  | nil => rfl
  | append_singleton es e ih =>
    obtain ⟨b₁,hr,hs⟩ := (run_append_eq_some step).mp h
    obtain ⟨b₂,hs,hnil⟩ := (run_cons_eq_some step).mp hs
    cases hnil
    rw [pressed_append]
    cases e with
    | touch e =>
      obtain ⟨hd,rfl⟩ := step_touch hs
      rcases released_or_cancelled hd ht (pressed es) with hp | ⟨ts,rfl⟩
      · exact hp
      · exact hc es ts _ (List.prefix_refl _) h ht
    | setHidden isHidden =>
      cases hs
      exact ih (hc.mono (List.prefix_append es [_])) hr ht

theorem NoPressCancelled.settles {type : ButtonType} {es : List ButtonEvent}
    (h : NoPressCancelled type es) : Settles type es := by
  intro es' b hp hr
  refine ⟨oneVisible_of_run hr,fun ht => ?_⟩
  rw [defaultStateHidden_of_run hr]
  exact released_of_run (h.mono hp) hr ht

/-- A button settles exactly when no press ends by being cancelled. -/
theorem settles_iff_noPressCancelled (type : ButtonType) (es : List ButtonEvent) :
    Settles type es ↔ NoPressCancelled type es := by
  refine ⟨fun h es' ts b hp hr ht => ?_,NoPressCancelled.settles⟩
  have hshown := (h _ b hp hr).default ht
  rw [defaultStateHidden_of_run hr,pressed_append] at hshown
  exact hshown

theorem settles_of_not_cancelled {type : ButtonType} {es : List ButtonEvent}
    (h : ∀ ts, .touch (.touchesCancelled ts) ∉ es) : Settles type es :=
  NoPressCancelled.settles (fun _ ts _ hp => absurd (hp.subset (by simp)) (h ts))

/-- On a button at rest, touches that begin and are cancelled at once leave it pressed. -/
theorem not_settles_of_began_cancelled {type : ButtonType} {es : List ButtonEvent}
    {b : ButtonNode} {ts : List Nat} (hr : run step es (init type) = some b)
    (hb : b.touches = []) (hd : b.delivers (.touchesBegan ts) = true) :
    ¬ Settles type (es ++ [.touch (.touchesBegan ts),.touch (.touchesCancelled ts)]) := by
  intro h
  obtain ⟨hne,_,hnodup,_⟩ := of_decide_eq_true hd
  have htouches : (b.receive (.touchesBegan ts)).touches = ts := by
    simp [receive,touchesBegan,showActive,began,hb]
  have hcancel : (b.receive (.touchesBegan ts)).delivers (.touchesCancelled ts) = true := by
    simp [delivers,htouches,hne,hnodup]
  have hlast : run step (es ++ [.touch (.touchesBegan ts),.touch (.touchesCancelled ts)])
      (init type) = some ((b.receive (.touchesBegan ts)).receive (.touchesCancelled ts)) := by
    refine (run_append_eq_some step).mpr ⟨b,hr,?_⟩
    simp [run,step,hd,hcancel]
  have hfree : ((b.receive (.touchesBegan ts)).receive (.touchesCancelled ts)).touches = [] := by
    simp [receive,ended,touchesBegan,showActive,began,hb]
  have hshown := (h _ _ (List.prefix_refl _) hlast).default hfree
  contradiction

/-- A touch begins on the button and the system cancels it. -/
def cancelledTouch : List ButtonEvent :=
  [.touch (.touchesBegan [0]),.touch (.touchesCancelled [0])]

/-- The active visual stays, with no touch left. -/
theorem not_settles : ¬ ∀ (type : ButtonType) (es : List ButtonEvent), Settles type es := by
  intro h
  have hrun : (run step cancelledTouch (init .sprite)).map
      (fun b => (b.touches,b.defaultStateHidden)) = some ([],true) := by
    decide
  obtain ⟨b,hb,he⟩ := Option.map_eq_some_iff.mp hrun
  obtain ⟨ht,hd⟩ := Prod.mk.inj he
  have hshown := (h .sprite cancelledTouch cancelledTouch b (List.prefix_refl _) hb).default ht
  rw [hd] at hshown
  contradiction

end ButtonNode

end GFLGO
