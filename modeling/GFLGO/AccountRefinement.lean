import Mathlib.Data.Rat.Floor
import GFLGO.Sequential

/-! The record tree of /users refines the account map. -/

set_option autoImplicit false

namespace GFLGO

open Runs Async AccountMap

section
variable {K : Type} [Field K]

theorem serial_start {store : FNode K} (h : store.getChild ["users"] = .empty) :
    Serial [] (World.start store) := by
  refine .playing (fun c t ht => by simp [World.start] at ht) ?_ .nil
  refine Playing.of_quiet ?_ (fun c => ⟨rfl,rfl⟩)
  rw [← PathTree.getChild_singleton,World.start,h]
  exact Represents.empty

variable [LinearOrder K] [FloorRing K]

def requests (p : Platform K) (ls : List (Label K)) (w : World K) : List Request :=
  collect (step p) request ls w

/-- The finished history of operations `ls` from `w₀` to `w` answers every
request as the account map does, and leaves the accounts as it does. -/
structure RefinesAccountMap (p : Platform K) (ls : List (Label K)) (w₀ w : World K) : Prop where
  answered : List.Forall₂ Answers (empty.responses (requests p ls w₀)) (outcomes w)
  users : Represents (empty.after (requests p ls w₀)) (w.store.getChild ["users"])
  sessions : ∀ c, ∀ t ∈ (w.clients c).locals.tabBarVCs,
    SessionOf (empty.after (requests p ls w₀)) t.map.user
  refused : ∀ as l bs u q, ls = as ++ l :: bs → (∀ l' ∈ bs, l'.internal = true) →
    run (step p) as w₀ = some u → request l u = some q →
      ((empty.after (requests p as w₀)).serve q).1 = .refused → w.store = u.store
  completes : ∀ c e q, (w.clients c).locals.request e = some q → (w.clients c).trap = none →
    ∃ w', step p (.event c e) w = some w' ∧ Completes p w'

theorem serial_of_run {p : Platform K} {store : FNode K} (h : store.getChild ["users"] = .empty)
    {ls : List (Label K)} (hc : Along (step p) OneAtATime ls (World.start store)) {w : World K}
    (hr : run (step p) ls (World.start store) = some w) :
    Serial (requests p ls (World.start store)) w :=
  run_invariant_collect (step p) (fun _ _ _ _ hi hl hs => hi.step hl hs) (serial_start h) hc hr

/-- A password change with the wrong old password is under way. -/
def Refusing (m : AccountMap) (w : World K) : Prop :=
  ∃ c tab vc oldPassword name a, m.find name = some a ∧ a.password ≠ oldPassword ∧
    Asking m c (.changeIfValidPassword tab vc oldPassword (stringOfInt a.number)) w

theorem Refusing.step {p : Platform K} {m : AccountMap} {l : Label K} {w w' : World K}
    (hi : Refusing m w) (hl : l.internal = true) (h : GFLGO.step p l w = some w') :
    w'.store = w.store ∧ (Refusing m w' ∨ w'.Quiet) := by
  obtain ⟨c,tab,vc,oldPassword,name,a,hf,hp,ha⟩ := hi
  cases l with
  | event c e => contradiction
  | snapshot c' i =>
    obtain ⟨r,hr,rfl⟩ := step_snapshot h
    obtain ⟨rfl,_,rfl,_⟩ := ha.only hr
    exact ⟨rfl,Or.inl ⟨c',tab,vc,oldPassword,name,a,hf,hp,ha.snapshot hr⟩⟩
  | deliver c' i d =>
    obtain ⟨r,s,hr,rfl⟩ := step_deliver h
    obtain ⟨rfl,hcr,rfl,hsnap⟩ := ha.only hr
    have hs := hsnap s rfl
    rw [ha.users.view_password hf] at hs
    subst hs
    rw [onRead_refused hp]
    refine ⟨rfl,Or.inr ?_⟩
    refine forall_clients_update (R := fun _ (cl : Client K) => cl.Quiet) ?_ ha.others
    simp [Client.Quiet,Client.absorb,hcr,ha.writes]
  | apply c' =>
    obtain ⟨x,xs,hx,rfl⟩ := step_apply h
    rw [ha.no_writes c'] at hx
    contradiction

theorem step_of_quiet {p : Platform K} {l : Label K} {w : World K} (hq : w.Quiet)
    (hl : l.internal = true) : step p l w = none := by
  cases l with
  | event c e => contradiction
  | snapshot c i => simp [GFLGO.step,Async.step,(hq c).1]
  | deliver c i d => simp [GFLGO.step,Async.step,(hq c).1]
  | apply c => simp [GFLGO.step,Async.step,(hq c).2]

theorem Refusing.run_store {p : Platform K} {m : AccountMap} {ls : List (Label K)}
    {w w' : World K} (hi : Refusing m w) (hl : ∀ l ∈ ls, l.internal = true)
    (h : run (GFLGO.step p) ls w = some w') : w'.store = w.store := by
  have hinv := run_invariant (I := fun u => u.store = w.store ∧ (Refusing m u ∨ u.Quiet))
    (C := fun l _ => l.internal = true) (GFLGO.step p) ?_ ⟨rfl,Or.inl hi⟩
    (along_of_forall_mem (GFLGO.step p) hl w) h
  · exact hinv.1
  · rintro l u u' ⟨hstore,hr | hq⟩ hlab hs
    · obtain ⟨he,hnext⟩ := hr.step hlab hs
      exact ⟨he.trans hstore,hnext⟩
    · rw [step_of_quiet hq hlab] at hs
      contradiction

theorem refusing_of_event {p : Platform K} {qs : List Request} {l : Label K} {q : Request}
    {u u' : World K} (hi : Serial qs u) (hc : OneAtATime l u) (hq : request l u = some q)
    (hr : ((empty.after qs).serve q).1 = .refused) (h : step p l u = some u') :
    u'.store = u.store ∧ Refusing (empty.after qs) u' := by
  cases l with
  | event c e =>
    obtain ⟨name,old,new,rfl,hno⟩ := serve_eq_refused hr
    obtain ⟨hstore,r,hu⟩ := underway_of_event hi hc hq h
    refine ⟨hstore,c,?_⟩
    have ha := hu.asking
    cases hu.asks with
    | changeIfValidPassword ht hn hf => exact ⟨_,_,_,_,_,hf,hno _ hf,ha⟩
  | _ => contradiction

/-- Operations that come one after another, from an empty /users on. -/
theorem refinesAccountMap_of_oneAtATime (p : Platform K) (store : FNode K)
    (h : store.getChild ["users"] = .empty) (ls : List (Label K))
    (hc : Along (step p) OneAtATime ls (World.start store)) (w : World K)
    (hr : run (step p) ls (World.start store) = some w) (hq : w.Quiet) :
    RefinesAccountMap p ls (World.start store) w := by
  obtain ⟨hs,husers,ho⟩ := (serial_of_run h hc hr).of_quiet hq
  refine ⟨ho,?_,hs,?_,?_⟩
  · rw [PathTree.getChild_singleton]
    exact husers
  · rintro as l bs u q rfl hbs hu hreq href
    have halong := (along_append (step p) hu).mp hc
    obtain ⟨u₀,hu₀,hrest⟩ := (run_append_eq_some (step p)).mp hr
    rw [hu,Option.some.injEq] at hu₀
    subst hu₀
    obtain ⟨u',hstep,hrun⟩ := (run_cons_eq_some (step p)).mp hrest
    obtain ⟨hstore,hrefusing⟩ := refusing_of_event (serial_of_run h halong.1 hu)
      halong.2.1 hreq href hstep
    exact (hrefusing.run_store hbs hrun).trans hstore
  · intro c e q hreq htrap
    have hstep : step p (.event c e) w = some (w.react c (w.clients c)
        ((program p).onEvent e (w.clients c).locals)) := by
      simp [step,Async.step,htrap]
    obtain ⟨_,r,hu⟩ := underway_of_event (serial_of_run h hc hr) hq hreq hstep
    exact ⟨_,hstep,hu.completes⟩

end

/-- A signup, a login, a password change that is refused, and a login again. -/
def annsHistory : List (Label ℚ) :=
  signup 0 sampleDraw 0 "ann" "pw" ++ login 0 sampleDraw "ann" "pw" ++
    askNewPassword 0 sampleDraw 0 0 "wp" "new" ++ login 0 sampleDraw "ann" "pw"

theorem refinesAccountMap_annsHistory : ∃ w,
    run (step planePlatform) annsHistory (World.start .empty) = some w ∧
      (outcomes w).length = 4 ∧
      RefinesAccountMap planePlatform annsHistory (World.start .empty) w := by
  have hrun : (run (step planePlatform) annsHistory (World.start .empty)).map
      (fun w => ((outcomes w).length,decide (∀ l ∈ annsHistory, (w.clients l.client).Quiet))) =
        some (4,true) := by
    decide +kernel
  obtain ⟨w,hw,he⟩ := Option.map_eq_some_iff.mp hrun
  simp only [Prod.mk.injEq,decide_eq_true_eq] at he
  have hstart : (World.start (.empty : FNode ℚ)).Quiet := fun _ => ⟨rfl,rfl⟩
  have hclient : ∀ l ∈ annsHistory, l.client = 0 := by decide +kernel
  have halong : Along (step planePlatform) (QuietClient 0) annsHistory (World.start .empty) := by
    decide +kernel
  exact ⟨w,hw,he.1,refinesAccountMap_of_oneAtATime planePlatform .empty rfl annsHistory
    (oneAtATime_of_quietClient hstart hclient halong) w hw (quiet_of_run hstart hw he.2)⟩

end GFLGO
