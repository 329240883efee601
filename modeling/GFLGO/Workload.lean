import Mathlib.Algebra.GroupWithZero.Nat
import GFLGO.Async

/-!
How much a client still has to do. A callback may ask for further reads, but
when each of them leaves less to be done than was left before, its chain comes
to an end, in whatever order the store and the network take the steps.
-/

set_option autoImplicit false

namespace Async

/-- A step of a chain of the client. -/
def Label.ownStep {E D : Type} (c : Nat) (l : Label E D) : Bool := l.internal && l.client == c

def Label.ownEvent {E D : Type} (c : Nat) (l : Label E D) : Bool := !l.internal && l.client == c

section
variable {σ L E Q S D W N T : Type} (cost : Q → Nat)

/-- The snapshot is the first of the steps that the read stands for. -/
def Pending.left (rd : Pending Q S) : Nat :=
  if rd.snapshot.isSome then cost rd.read - 1 else cost rd.read

def Client.work (cl : Client L Q S W T) : Nat :=
  (cl.reads.map (Pending.left cost)).sum + cl.writes.length

def Reaction.work (r : Reaction L Q W N) : Nat := (r.reads.map cost).sum + r.writes.length

/-- A read is worth its two steps and all that its callback leads to, an event at most so
many steps. -/
structure Budget (P : Program L E Q S D W N T) (most : Nat) : Prop where
  atLeastTwo : ∀ q, 2 ≤ cost q
  onRead : ∀ q s d locals r, P.onRead q s d locals = .ok r → r.work cost + 2 ≤ cost q
  onEvent : ∀ e locals r, P.onEvent e locals = .ok r → r.work cost ≤ most

variable {cost} {P : Program L E Q S D W N T} {B : Backend σ Q S W} {most : Nat}
  {l : Label E D} {w w' : World σ L Q S W N T} {cl : Client L Q S W T} {i : Nat} {q : Q}

theorem work_absorb (r : Reaction L Q W N) :
    (cl.absorb (.ok r)).work cost = cl.work cost + r.work cost := by
  have hmap : (r.reads.map (fun q => (⟨q,none⟩ : Pending Q S))).map (Pending.left cost) =
      r.reads.map cost := by
    simp [Pending.left,Function.comp_def]
  simp only [Client.work,Client.absorb,Reaction.work,List.map_append,List.sum_append,hmap,
    List.length_append]
  omega

theorem work_absorb_error (t : T) :
    (cl.absorb (.error t : Except T (Reaction L Q W N))).work cost ≤ cl.work cost := by
  simp [Client.work,Client.absorb]

theorem work_erase {rd : Pending Q S} (hq : cl.reads[i]? = some rd) :
    Client.work cost { cl with reads := cl.reads.eraseIdx i } + rd.left cost = cl.work cost := by
  obtain ⟨hi,hget⟩ := List.getElem?_eq_some_iff.mp hq
  have hsum := ((List.getElem_cons_eraseIdx_perm hi).map (Pending.left cost)).sum_nat
  rw [hget,List.map_cons,List.sum_cons] at hsum
  simp only [Client.work]
  omega

theorem work_set {rd rd' : Pending Q S} (hq : cl.reads[i]? = some rd) :
    Client.work cost { cl with reads := cl.reads.set i rd' } + rd.left cost =
      cl.work cost + rd'.left cost := by
  obtain ⟨hi,hget⟩ := List.getElem?_eq_some_iff.mp hq
  have herase : _ + Pending.left cost _ = Client.work cost _ := work_erase hq
  have hsum := ((List.set_perm_cons_eraseIdx hi rd').map (Pending.left cost)).sum_nat
  rw [List.map_cons,List.sum_cons] at hsum
  simp only [Client.work] at herase ⊢
  omega

theorem work_step (hb : Budget cost P most) (h : step P B l w = some w') (c : Nat) :
    (w'.clients c).work cost + (if l.ownStep c then 1 else 0) ≤
      (w.clients c).work cost + (if l.ownEvent c then most else 0) := by
  have hstep := client_step h c
  generalize w'.clients c = cl at hstep
  cases hstep with
  | other hl => simp [Label.ownStep,Label.ownEvent,hl]
  | @event e =>
    simp only [Label.ownStep,Label.ownEvent,Label.internal,Label.client,beq_self_eq_true,
      Bool.false_and,Bool.not_false,Bool.true_and,Bool.false_eq_true,if_false,if_true]
    cases hr : P.onEvent e (w.clients c).locals with
    | error t => exact Nat.le_add_right_of_le (work_absorb_error t)
    | ok r =>
      have hcost := hb.onEvent e _ r hr
      rw [work_absorb]
      omega
  | @snapshot i q hq =>
    have hset : Client.work cost _ + Pending.left cost _ =
        Client.work cost _ + Pending.left cost ⟨q,some (B.view q w.store)⟩ := work_set hq
    have htwo := hb.atLeastTwo q
    simp only [Pending.left,Option.isSome_some,Option.isSome_none,Bool.false_eq_true,if_false,
      if_true] at hset
    simp only [Label.ownStep,Label.ownEvent,Label.internal,Label.client,beq_self_eq_true,
      Bool.true_and,Bool.not_true,Bool.false_and,Bool.false_eq_true,if_false,if_true]
    omega
  | @deliver i d q s hq =>
    have herase : _ + Pending.left cost _ = Client.work cost _ := work_erase hq
    have htwo := hb.atLeastTwo q
    simp only [Pending.left,Option.isSome_some,if_true] at herase
    simp only [Label.ownStep,Label.ownEvent,Label.internal,Label.client,beq_self_eq_true,
      Bool.true_and,Bool.not_true,Bool.false_and,Bool.false_eq_true,if_false,if_true]
    generalize { w.clients c with reads := (w.clients c).reads.eraseIdx i } = cl at herase ⊢
    cases hr : P.onRead q s d (w.clients c).locals with
    | error t =>
      have habsorb : (cl.absorb (.error t : Except T (Reaction L Q W N))).work cost ≤
          cl.work cost := work_absorb_error t
      omega
    | ok r =>
      have hcost := hb.onRead q s d _ r hr
      rw [work_absorb]
      omega
  | @apply x xs hx =>
    simp only [Label.ownStep,Label.ownEvent,Label.internal,Label.client,beq_self_eq_true,
      Bool.true_and,Bool.not_true,Bool.false_and,Bool.false_eq_true,if_false,if_true,
      Client.work,hx,List.length_cons]
    omega

/-- However the steps of all clients interleave, a client takes no more steps than its events
are worth and its work allows. -/
theorem work_run (hb : Budget cost P most) {ls : List (Label E D)}
    (h : Runs.run (step P B) ls w = some w') (c : Nat) :
    (w'.clients c).work cost + ls.countP (Label.ownStep c) ≤
      (w.clients c).work cost + most * ls.countP (Label.ownEvent c) := by
  induction ls generalizing w with
  | nil =>
    simp only [Runs.run_nil,Option.some.injEq] at h
    simp [h]
  | cons l ls ih =>
    obtain ⟨v,hs,hr⟩ := (Runs.run_cons_eq_some _).mp h
    have hstep := work_step hb hs c
    have hrest := ih hr
    rw [List.countP_cons,List.countP_cons]
    cases he : l.ownEvent c with
    | true =>
      simp only [he,if_true] at hstep ⊢
      rw [Nat.mul_add_one]
      omega
    | false =>
      simp only [he,Bool.false_eq_true,if_false,Nat.add_zero] at hstep ⊢
      omega

theorem exists_step {c : Nat} (hw : ¬ (w.clients c).Quiet) (d : D) :
    ∃ l : Label E D, l.internal = true ∧ l.client = c ∧ ∃ w', step P B l w = some w' := by
  cases hx : (w.clients c).writes with
  | cons x xs => exact ⟨.apply c,rfl,rfl,_,apply_step hx⟩
  | nil =>
    cases hreads : (w.clients c).reads with
    | nil => exact absurd ⟨hreads,hx⟩ hw
    | cons rd rest =>
      obtain ⟨q,_ | s⟩ := rd
      · exact ⟨.snapshot c 0,rfl,rfl,_,snapshot_step (by rw [hreads]; rfl)⟩
      · exact ⟨.deliver c 0 d,rfl,rfl,_,deliver_step (by rw [hreads]; rfl) d⟩

/-- So it can always come to rest, within the steps that its work allows. -/
theorem exists_quiet_run (hb : Budget cost P most) (d : D) (w : World σ L Q S W N T) (c : Nat) :
    ∃ ls w', (∀ l ∈ ls, l.internal = true ∧ l.client = c) ∧
      ls.length ≤ (w.clients c).work cost ∧ Runs.run (step P B) ls w = some w' ∧
      (w'.clients c).Quiet := by
  induction hn : (w.clients c).work cost using Nat.strongRecOn generalizing w with
  | ind n ih =>
    by_cases hq : (w.clients c).Quiet
    · exact ⟨[],w,by simp,by simp,rfl,hq⟩
    · obtain ⟨l,hi,hc,v,hs⟩ := exists_step (P := P) (B := B) hq d
      have hstep := work_step hb hs c
      simp only [Label.ownStep,Label.ownEvent,hi,hc,beq_self_eq_true,Bool.true_and,Bool.not_true,
        Bool.false_and,Bool.false_eq_true,if_false,if_true] at hstep
      obtain ⟨ls,w',hls,hlen,hr,hquiet⟩ := ih _ (by omega) v rfl
      refine ⟨l :: ls,w',List.forall_mem_cons.mpr ⟨⟨hi,hc⟩,hls⟩,?_,
        (Runs.run_cons_eq_some _).mpr ⟨v,hs,hr⟩,hquiet⟩
      rw [List.length_cons]
      omega

end

end Async
