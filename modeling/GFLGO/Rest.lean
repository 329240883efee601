import Mathlib.Data.Rat.Floor
import GFLGO.Outcomes
import GFLGO.Spawns
import GFLGO.Workload

/-!
No tap keeps the network busy for ever: what a client does by itself after an
event is at most ten steps, and it can always be brought to rest.
-/

set_option autoImplicit false

namespace GFLGO

open Runs Async

section
variable {K : Type}

/-- The steps that a read leads to: its snapshot, its callback, and what the callback asks
for and writes. -/
def MapRead.cost : MapRead K → Nat
  | .didUpdateLocations _ => 4
  | .findEnemiesAroundUser | .findPlayersAroundUser => 2
  | .getNumberOfEnemiesAroundUser => 10
  | .addEnemyToFirebase _ => 8

def Read.cost : Read K → Nat
  | .checkIfUserExists _ _ => 10
  | .addUserToFirebase _ _ _ => 8
  | .loginIfValid _ _ => 2
  | .changeIfValidPassword _ _ _ _ => 3
  | .map _ q => q.cost

theorem MapRead.two_le_cost (q : MapRead K) : 2 ≤ q.cost := by
  cases q <;> simp [cost]

theorem Read.two_le_cost (q : Read K) : 2 ≤ q.cost := by
  cases q with
  | map tab q => exact q.two_le_cost
  | _ => simp [cost]

theorem Device.work_ofMap (d : Device K) (tab : Nat) (t : TabBarVC K) (r : MapReaction K) :
    (d.ofMap tab t r).work Read.cost = r.work MapRead.cost := by
  simp [Reaction.work,ofMap,Read.cost,Function.comp_def]

variable [Field K] {p : Platform K} {m : MapVC K} {r : MapReaction K}

theorem MapVC.onEvent_work {e : MapEvent K} (h : m.onEvent p e = .ok r) :
    r.work MapRead.cost ≤ 10 := by
  cases e with
  | viewWillAppear =>
    cases h
    simp only [viewWillAppear]
    split <;> simp [Reaction.work,setUpAnnotations,MapRead.cost]
  | didUpdateLocations locations =>
    obtain ⟨c,_,h⟩ := bind_eq_ok.mp h
    obtain ⟨r',hr',h⟩ := bind_eq_ok.mp h
    cases h
    simp only [setUserLocation] at hr'
    split at hr'
    · obtain ⟨m',_,hr'⟩ := bind_eq_ok.mp hr'
      cases hr'
      simp [Reaction.work,setUpAnnotations,MapRead.cost]
    · cases hr'
      simp [Reaction.work,MapRead.cost]
  | centerAction =>
    obtain ⟨m',_,h⟩ := bind_eq_ok.mp h
    cases h
    simp [Reaction.work,setUpAnnotations,MapRead.cost]
  | addEnemyAction d =>
    obtain ⟨enemy,hs⟩ := spawn_of_ok h
    simp [Reaction.work,hs.reads,hs.writes,MapRead.cost]
  | _ =>
    cases h
    simp [Reaction.work,MapRead.cost]

variable [LinearOrder K]

theorem EventOutcome.work {d : Device K} {e : Event K} {r : DeviceReaction K}
    (h : EventOutcome p d e r) : r.work Read.cost ≤ 10 := by
  cases h with
  | map ht hr =>
    rw [Device.work_ofMap]
    exact MapVC.onEvent_work hr
  | @scene _ _ t s _ _ ht hs hr =>
    rcases GameScene.receive_effect hr with ⟨_,_,hw,_⟩ | ⟨_,_,hw,_⟩
    · simp [Reaction.work,Device.ofScene,hw,GameScene.defeatWrites]
    · simp [Reaction.work,Device.ofScene,hw]
  | _ => simp [Reaction.work,Device.idle,Read.cost]

variable [FloorRing K]

theorem MapVC.onRead_work {q : MapRead K} {snapshot : FNode K} {d : Draw K}
    (h : m.onRead p q snapshot d = .ok r) : r.work MapRead.cost + 2 ≤ q.cost := by
  cases q with
  | didUpdateLocations c =>
    cases h
    simp [Reaction.work,locationWrites,MapRead.cost]
  | findEnemiesAroundUser =>
    obtain ⟨enemies,_,h⟩ := bind_eq_ok.mp h
    cases h
    simp [Reaction.work,MapRead.cost]
  | findPlayersAroundUser =>
    obtain ⟨players,_,h⟩ := bind_eq_ok.mp h
    cases h
    simp [Reaction.work,MapRead.cost]
  | getNumberOfEnemiesAroundUser =>
    rcases onRead_count h with ⟨-,enemy,hs⟩ | ⟨-,rfl⟩
    · simp [Reaction.work,hs.reads,hs.writes,MapRead.cost]
    · simp [Reaction.work,MapRead.cost]
  | addEnemyToFirebase enemy =>
    cases h
    simp [Reaction.work,enemyWrites,MapRead.cost]

theorem ReadOutcome.work {d : Device K} {q : Read K} {snapshot : FNode K} {draw : Draw K}
    {r : DeviceReaction K} (h : ReadOutcome p snapshot draw d q r) :
    r.work Read.cost + 2 ≤ q.cost := by
  cases h with
  | idle => simpa [Reaction.work,Device.idle] using q.two_le_cost
  | map ht hr =>
    rw [Device.work_ofMap]
    exact MapVC.onRead_work hr
  | _ => simp [Reaction.work,Read.cost,SignupVC.userWrites]

theorem budget (p : Platform K) : Budget Read.cost (program p) 10 where
  atLeastTwo := Read.two_le_cost
  onRead := fun _ _ _ _ _ h => (onRead_outcome h).work
  onEvent := fun _ _ _ h => (onEvent_outcome h).work

/-- In every run a client can be brought to rest, and with all the steps that this takes it
has not taken more than ten of its own for each of its events. -/
theorem rest_of_run {store : FNode K} {ls : List (Label K)} {w : World K}
    (hr : run (step p) ls (World.start store) = some w) (d : Draw K) (c : Nat) :
    ∃ ms w', (∀ l ∈ ms, l.internal = true ∧ l.client = c) ∧ run (step p) ms w = some w' ∧
      (w'.clients c).Quiet ∧
      (ls ++ ms).countP (Label.ownStep c) ≤ 10 * ls.countP (Label.ownEvent c) := by
  obtain ⟨ms,w',hms,hlen,hrest,hquiet⟩ := exists_quiet_run (B := backend) (budget p) d w c
  have hwork := work_run (budget p) hr c
  refine ⟨ms,w',hms,hrest,hquiet,?_⟩
  have hstart : ((World.start store).clients c : Client K).work Read.cost = 0 := rfl
  have hcount : ms.countP (Label.ownStep c) ≤ ms.length := List.countP_le_length
  rw [List.countP_append]
  omega

end

theorem rest_of_run_tapped : ∃ w ms w',
    run (step planePlatform) (tapCreateAccount 0 0 "ann" "pw") (World.start .empty) = some w ∧
    run (step planePlatform) ms w = some w' ∧ (w'.clients 0).Quiet ∧
    (tapCreateAccount 0 0 "ann" "pw" ++ ms).countP (Label.ownStep 0) ≤ 30 := by
  have hrun : (run (step planePlatform) (tapCreateAccount 0 0 "ann" "pw")
      (World.start .empty)).isSome = true := by
    decide +kernel
  obtain ⟨w,hw⟩ := Option.isSome_iff_exists.mp hrun
  obtain ⟨ms,w',-,hms,hquiet,hsteps⟩ := rest_of_run hw sampleDraw 0
  exact ⟨w,ms,w',hw,hms,hquiet,hsteps⟩

end GFLGO
