import Mathlib.Data.List.InsertIdx
import GFLGO.Async

/-!
Chains of callbacks. A callback may ask for another read, whose callback runs
later still. Here every pending callback of a process carries the event its
chain began with, and the states that the event and the chain's callbacks found.
-/

set_option autoImplicit false

namespace Async

open Runs

/-- `links` are the states that the callbacks found which have run already. -/
structure Chain (L E : Type) where
  event : E
  start : L
  links : List L := []

/-- A process whose pending callbacks know their chains. -/
structure Chained (L E Q T : Type) where
  locals : L
  pending : List (Q × Chain L E) := []
  trap : Option T := none

variable {L E Q S D W N T : Type}

namespace Chained

def absorb (chain : Chain L E) (st : Chained L E Q T) :
    Except T (Reaction L Q W N) → Chained L E Q T
  | .error t => { st with pending := [], trap := some t }
  | .ok r =>
    { st with
      locals := r.locals
      pending := st.pending ++ r.reads.map (fun q => (q,chain)) }

def step (P : Program L E Q S D W N T) (inp : Input E S D) (st : Chained L E Q T) :
    Option (Chained L E Q T) :=
  match inp with
  | .event e =>
    if st.trap.isSome then none
    else some (st.absorb { event := e, start := st.locals } (P.onEvent e st.locals))
  | .deliver i s d =>
    match st.pending[i]? with
    | some (q,chain) =>
      some ({ st with pending := st.pending.eraseIdx i }.absorb
        { chain with links := chain.links ++ [st.locals] } (P.onRead q s d st.locals))
    | none => none

def forget (st : Chained L E Q T) : Process L Q T :=
  { locals := st.locals, reads := st.pending.map Prod.fst, trap := st.trap }

theorem forget_absorb (chain : Chain L E) (st : Chained L E Q T)
    (r : Except T (Reaction L Q W N)) : (st.absorb chain r).forget = st.forget.absorb r := by
  cases r with
  | error t => rfl
  | ok r => simp [absorb,forget,Process.absorb,Function.comp_def]

variable {P : Program L E Q S D W N T}

/-- Chains only watch: the process does what it does without them. -/
theorem forget_step (inp : Input E S D) (st : Chained L E Q T) :
    (step P inp st).map forget = Process.step P inp st.forget := by
  cases inp with
  | event e =>
    have htrap : st.forget.trap = st.trap := rfl
    simp only [step,Process.step,htrap]
    cases st.trap.isSome with
    | true => rfl
    | false => exact congrArg some (forget_absorb _ _ _)
  | deliver i s d =>
    have hread : st.forget.reads[i]? = (st.pending[i]?).map Prod.fst := List.getElem?_map
    simp only [step,Process.step,hread]
    cases hp : st.pending[i]? with
    | none => rfl
    | some x =>
      have herase : ({ st with pending := st.pending.eraseIdx i } : Chained L E Q T).forget =
          { st.forget with reads := st.forget.reads.eraseIdx i } := by
        simp [forget,List.eraseIdx_map]
      simp only [Option.map_some,forget_absorb,herase]
      rfl

theorem forget_run (inps : List (Input E S D)) (st : Chained L E Q T) :
    (run (step P) inps st).map forget = run (Process.step P) inps st.forget := by
  induction inps generalizing st with
  | nil => rfl
  | cons inp inps ih =>
    simp only [run,← forget_step]
    cases step P inp st with
    | none => rfl
    | some st' => exact ih st'

theorem pending_step {I : Q → Chain L E → Prop}
    (hevent : ∀ e l r, P.onEvent e l = .ok r → ∀ q ∈ r.reads, I q { event := e, start := l })
    (hread : ∀ q chain s d l r, I q chain → P.onRead q s d l = .ok r → ∀ q' ∈ r.reads,
      I q' { chain with links := chain.links ++ [l] })
    {inp : Input E S D} {st st' : Chained L E Q T} (hi : ∀ x ∈ st.pending, I x.1 x.2)
    (h : step P inp st = some st') : ∀ x ∈ st'.pending, I x.1 x.2 := by
  cases inp with
  | event e =>
    simp only [step] at h
    split at h
    · contradiction
    · cases h
      cases hr : P.onEvent e st.locals with
      | error t => simp [absorb]
      | ok r =>
        intro x hx
        rcases List.mem_append.mp hx with hold | hnew
        · exact hi x hold
        · obtain ⟨q,hq,rfl⟩ := List.mem_map.mp hnew
          exact hevent e st.locals r hr q hq
  | deliver i s d =>
    simp only [step] at h
    split at h
    · next q chain hp =>
      cases h
      cases hr : P.onRead q s d st.locals with
      | error t => simp [absorb]
      | ok r =>
        intro x hx
        rcases List.mem_append.mp hx with hold | hnew
        · exact hi x (List.mem_of_mem_eraseIdx hold)
        · obtain ⟨q',hq,rfl⟩ := List.mem_map.mp hnew
          exact hread q chain s d st.locals r (hi _ (List.mem_of_getElem? hp)) hr q' hq
    · contradiction

end Chained

end Async
