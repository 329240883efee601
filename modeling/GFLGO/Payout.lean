import Mathlib.Algebra.Order.Ring.Defs
import Mathlib.Data.Rat.Floor
import GFLGO.Blows

/-! How often an enemy pays, over all sessions and all their battle scenes. -/

set_option autoImplicit false

namespace GFLGO

open Runs Async

section
variable {K : Type}

/-- The calls of `addExperience` in reward for the enemy. -/
def payouts (identifier : String) (w : World K) : Nat :=
  w.notes.countP (fun n => n.2.pays identifier)

theorem payouts_append {identifier : String} {w : World K} (ns : List (Note K)) (c : Nat) :
    (w.notes ++ ns.map (fun n => (c,n))).countP (fun n => n.2.pays identifier) =
      payouts identifier w + ns.countP (Note.pays identifier) := by
  rw [List.countP_append,List.countP_map]
  rfl

theorem payouts_react {identifier : String} {w : World K} {c : Nat} {cl : Client K}
    {r : Except Trap (DeviceReaction K)}
    (hr : ∀ n ∈ notesOf r, n.pays identifier = false) :
    payouts identifier (w.react c cl r) = payouts identifier w := by
  have hzero : (notesOf r).countP (Note.pays identifier) = 0 :=
    List.countP_eq_zero.mpr (fun n hn => by simp [hr n hn])
  rw [payouts,react_notes,payouts_append,hzero,Nat.add_zero]

variable [Field K] [LinearOrder K]

/-- Whenever a blow brings the enemy down, every scene of it shows it alive. -/
def FirstBlow (identifier : String) (l : Label K) (w : World K) : Prop :=
  ∀ user s, blow l w = some (user,s) → s.enemy.identifier = identifier →
    ∀ c, ∀ t ∈ (w.clients c).locals.tabBarVCs, ∀ s' ∈ t.scenes,
      s'.enemy.identifier = identifier → 0 < s'.currentEnemyHealth

def GameScene.Fallen (identifier : String) (s : GameScene K) : Prop :=
  s.enemy.identifier = identifier ∧ s.currentEnemyHealth ≤ 0

/-- A scene of the device shows the enemy down, where no further blow can raise it. -/
def Device.Fallen (identifier : String) (d : Device K) : Prop :=
  ∃ t ∈ d.tabBarVCs, 0 < t.map.user.power ∧ ∃ s ∈ t.scenes, s.Fallen identifier

theorem Device.Fallen.setTab {identifier : String} {d : Device K} {tab : Nat} {t u : TabBarVC K}
    (h : d.Fallen identifier) (ht : d.tabBarVCs[tab]? = some t)
    (hp : u.map.user.power = t.map.user.power)
    (hs : 0 < t.map.user.power → ∀ s ∈ t.scenes, s.Fallen identifier →
      ∃ s' ∈ u.scenes, s'.Fallen identifier) : (d.setTab tab u).Fallen identifier := by
  obtain ⟨t',ht',hpower,s,hmem,hfallen⟩ := h
  by_cases he : t' = t
  · subst he
    exact ⟨u,Device.mem_setTab_self ht u,hp ▸ hpower,hs hpower s hmem hfallen⟩
  · exact ⟨t',Device.mem_setTab_of_ne ht ht' he,hpower,s,hmem,hfallen⟩

/-- Either nothing was paid, or a scene is left that shows why nothing more may be. -/
def PaidOnce (identifier : String) (w : World K) : Prop :=
  payouts identifier w = 0 ∨
    (payouts identifier w = 1 ∧ ∃ c, (w.clients c).locals.Fallen identifier)

theorem PaidOnce.le_one {identifier : String} {w : World K} (h : PaidOnce identifier w) :
    payouts identifier w ≤ 1 := by
  rcases h with h | ⟨h,_⟩
  · omega
  · omega

theorem PaidOnce.of_unpaid {identifier : String} {w w' : World K} (h : PaidOnce identifier w)
    (hn : payouts identifier w' = payouts identifier w)
    (hd : ∀ c, (w.clients c).locals.Fallen identifier → (w'.clients c).locals.Fallen identifier) :
    PaidOnce identifier w' := by
  rcases h with h | ⟨h,c,hc⟩
  · exact Or.inl (hn.trans h)
  · exact Or.inr ⟨hn.trans h,c,hd c hc⟩

def FirstBlowAmong (A : List Nat) (identifier : String) (l : Label K) (w : World K) : Prop :=
  match blow l w with
  | some (_,s) => s.enemy.identifier = identifier →
    ∀ c ∈ A, ∀ t ∈ (w.clients c).locals.tabBarVCs, ∀ s' ∈ t.scenes,
      s'.enemy.identifier = identifier → 0 < s'.currentEnemyHealth
  | none => True

instance (A : List Nat) (identifier : String) (l : Label K) (w : World K) :
    Decidable (FirstBlowAmong A identifier l w) := by
  unfold FirstBlowAmong
  split <;> infer_instance

theorem firstBlow_of_among {A : List Nat} {identifier : String} {store : FNode K} {l : Label K}
    {w : World K} (hw : ∀ c, c ∉ A → w.clients c = (World.start store).clients c)
    (h : FirstBlowAmong A identifier l w) : FirstBlow identifier l w := by
  intro user s hb he
  rw [FirstBlowAmong,hb] at h
  exact forall_clients_of_mem (R := fun cl => ∀ t ∈ cl.locals.tabBarVCs, ∀ s' ∈ t.scenes,
    s'.enemy.identifier = identifier → 0 < s'.currentEnemyHealth) hw
    (fun _ t ht => by contradiction) (h he)

variable [IsStrictOrderedRing K]

/-- A scene goes on fighting the same enemy and never heals it. -/
theorem GameScene.Fallen.receive {identifier : String} {user : User K} {s : GameScene K}
    {e : SceneEvent} {r : SceneReaction K} (h : s.Fallen identifier) (hp : 0 < user.power)
    (hr : s.receive user e = some r) : r.scene.Fallen identifier := by
  obtain ⟨he,hh⟩ := h
  rcases receive_cases hr with ⟨_,t,_,rfl⟩ | ⟨_,_,_,_,henemy,hhealth,_⟩
  · obtain ⟨henemy,hhealth,_⟩ := attack_cases user s
    refine ⟨(congrArg Enemy.identifier henemy).trans he,?_⟩
    calc (s.attack user).scene.currentEnemyHealth = s.currentEnemyHealth - user.power := hhealth
      _ ≤ 0 := by linarith
  · exact ⟨(congrArg Enemy.identifier henemy).trans he,hhealth.trans_le hh⟩

theorem EventOutcome.fallen {identifier : String} {p : Platform K} {d : Device K} {e : Event K}
    {r : DeviceReaction K} (h : EventOutcome p d e r) (hd : d.Fallen identifier) :
    r.locals.Fallen identifier := by
  cases h with
  | map ht hr =>
    obtain ⟨⟨latitude,longitude,hu⟩,_⟩ := MapVC.onEvent_effect hr
    refine hd.setTab ht ?_ (fun _ s hs hfallen => ⟨s,hs,hfallen⟩)
    rw [hu]
  | battleAction ht he =>
    exact hd.setTab ht rfl (fun _ s hs hfallen => ⟨s,by simp [hs],hfallen⟩)
  | @scene tab i t s se sr ht hs hr =>
    refine hd.setTab ht (GameScene.receive_sameAccount hr).2.2.2.2 (fun hp s' hs' hfallen => ?_)
    by_cases he : s' = s
    · subst he
      exact ⟨sr.scene,mem_set_self hs,hfallen.receive hp hr⟩
    · exact ⟨s',mem_set_of_ne hs hs' he,hfallen⟩
  | newPassword ht => exact hd.setTab ht rfl (fun _ s hs hfallen => ⟨s,hs,hfallen⟩)
  | logout ht => exact hd.setTab ht rfl (fun _ s hs hfallen => ⟨s,hs,hfallen⟩)
  | _ => exact hd

theorem Blow.fallen_of_alive {d : Device K} {user : User K} {s : GameScene K}
    {r : DeviceReaction K} (h : Blow d user s r) (ha : 0 < s.currentEnemyHealth) :
    r.locals.Fallen s.enemy.identifier := by
  obtain ⟨t,ht,hu,s',hs',he,hh⟩ := h.fallen
  have hdown := h.down
  refine ⟨t,ht,?_,s',hs',congrArg Enemy.identifier he,hh.trans_le hdown⟩
  have hpower : t.map.user.power = user.power := by rw [hu]; rfl
  rw [hpower]
  linarith

variable [FloorRing K]

omit [IsStrictOrderedRing K] in
theorem ReadOutcome.fallen {identifier : String} {p : Platform K} {snapshot : FNode K}
    {draw : Draw K} {d : Device K} {q : Read K} {r : DeviceReaction K}
    (h : ReadOutcome p snapshot draw d q r) (hd : d.Fallen identifier) :
    r.locals.Fallen identifier := by
  cases h with
  | login hl =>
    obtain ⟨t,ht,hrest⟩ := hd
    exact ⟨t,List.mem_append_left _ ht,hrest⟩
  | map ht hr =>
    obtain ⟨hu,_⟩ := MapVC.onRead_effect hr
    refine hd.setTab ht ?_ (fun _ s hs hfallen => ⟨s,hs,hfallen⟩)
    rw [hu]
  | _ => exact hd

theorem fallen_step {identifier : String} {p : Platform K} {l : Label K} {w w' : World K}
    (h : step p l w = some w') {c : Nat} (hf : (w.clients c).locals.Fallen identifier) :
    (w'.clients c).locals.Fallen identifier := by
  rcases locals_of_step h c with hsame | ⟨r,hr,hnew⟩
  · rw [hsame]
    exact hf
  · rw [hnew]
    cases hr with
    | event hr => exact (onEvent_outcome hr).fallen hf
    | deliver hq hr => exact (onRead_outcome hr).fallen hf

theorem PaidOnce.step {identifier : String} {p : Platform K} {l : Label K} {w w' : World K}
    (hi : PaidOnce identifier w) (hc : FirstBlow identifier l w) (h : step p l w = some w') :
    PaidOnce identifier w' := by
  have hfallen (c : Nat) (hf : (w.clients c).locals.Fallen identifier) := fallen_step h hf
  cases l with
  | event c e =>
    obtain ⟨_,rfl⟩ := step_event h
    cases hr : (program p).onEvent e (w.clients c).locals with
    | error t =>
      rw [hr] at hfallen
      exact hi.of_unpaid (payouts_react (by simp [notesOf])) hfallen
    | ok r =>
      rw [hr] at hfallen
      cases hb : (w.clients c).locals.blow e with
      | none =>
        have hnotes := ((onEvent_outcome hr).noBlow hb).notes
        exact hi.of_unpaid (payouts_react (by simp [notesOf,hnotes])) hfallen
      | some struck =>
        obtain ⟨user,s⟩ := struck
        have hblow := blow_of_onEvent hr hb
        by_cases he : s.enemy.identifier = identifier
        · -- The enemy falls for the first time.
          have halive := hc user s hb he
          obtain ⟨t,ht,_,hs⟩ := hblow.struck
          have hzero : payouts identifier w = 0 := by
            rcases hi with hzero | ⟨_,c',t',ht',_,s',hs',hf⟩
            · exact hzero
            · exact absurd hf.2 (not_le.mpr (halive c' t' ht' s' hs' hf.1))
          refine Or.inr ⟨?_,c,?_⟩
          · rw [payouts,react_notes,payouts_append,hzero]
            simp [notesOf,hblow.notes,Note.pays,he]
          · have hdown := hblow.fallen_of_alive (halive c t ht s hs he)
            rw [react_clients_self]
            exact he ▸ hdown
        · refine hi.of_unpaid (payouts_react ?_) hfallen
          simpa [notesOf,hblow.notes,Note.pays] using he
  | snapshot c i =>
    obtain ⟨q,hq,rfl⟩ := step_snapshot h
    exact hi.of_unpaid rfl hfallen
  | deliver c i d =>
    obtain ⟨q,snapshot,hq,rfl⟩ := step_deliver h
    refine hi.of_unpaid (payouts_react (fun n hn => ?_)) hfallen
    cases hr : (program p).onRead q snapshot d (w.clients c).locals with
    | error t => simp [hr,notesOf] at hn
    | ok r =>
      rw [hr] at hn
      have hno := (onRead_outcome hr).pays n hn
      cases n with
      | addExperience userID amount paid => exact absurd rfl (hno userID amount paid)
      | _ => rfl
  | apply c =>
    obtain ⟨x,xs,hx,rfl⟩ := step_apply h
    exact hi.of_unpaid rfl hfallen

theorem paidOnce_of_run {identifier : String} {p : Platform K} {store : FNode K}
    {ls : List (Label K)} {w : World K}
    (hc : Along (step p) (FirstBlow identifier) ls (World.start store))
    (hr : run (step p) ls (World.start store) = some w) : PaidOnce identifier w :=
  run_invariant (step p) (fun _ _ _ hi hcond h => hi.step hcond h) (Or.inl rfl) hc hr

/-- If no blow brings down an enemy that some scene already shows down, the
enemy pays at most once. -/
theorem paidOnce_of_firstBlow (p : Platform K) (store : FNode K) (identifier : String)
    (ls : List (Label K)) (hc : Along (step p) (FirstBlow identifier) ls (World.start store))
    (w : World K) (hr : run (step p) ls (World.start store) = some w) :
    payouts identifier w ≤ 1 :=
  (paidOnce_of_run hc hr).le_one

end

/-- Two sessions that have found the same enemy, each on its screen. -/
def sameEnemy : List (Label ℚ) :=
  signup 0 sampleDraw 0 "ann" "pw" ++ login 0 sampleDraw "ann" "pw" ++
    locate 0 sampleDraw 0 ⟨0,0⟩ ++ addEnemy 0 sampleDraw 0 ++ login 1 sampleDraw "ann" "pw" ++
    locate 1 sampleDraw 0 ⟨0,0⟩ ++ battle 0 0 0 ++ battle 1 0 0

/-- They strike in turn, and the first is done when the second has one blow to go. -/
def strikesInTurn : List (Label ℚ) :=
  sameEnemy ++ (List.replicate 9 ((tapAttack 0 0 0 ++ tapAttack 1 0 0) ++
    [.event 1 (.scene 0 0 .waitCompleted),.event 0 (.scene 0 0 .waitCompleted)])).flatten ++
    tapAttack 0 0 0 ++ [.apply 0,.event 1 (.scene 0 0 .escape),.apply 0]

theorem paidOnce_strikesInTurn : ∃ w,
    run (step planePlatform) strikesInTurn (World.start .empty) = some w ∧
      0 < payouts "u0e1500000000d0" w ∧ payouts "u0e1500000000d0" w ≤ 1 := by
  have hrun : (run (step planePlatform) strikesInTurn (World.start .empty)).map
      (fun w => payouts "u0e1500000000d0" w) = some 1 := by
    decide +kernel
  obtain ⟨w,hw,he⟩ := Option.map_eq_some_iff.mp hrun
  have halive : Along (step planePlatform) (FirstBlowAmong [0,1] "u0e1500000000d0") strikesInTurn
      (World.start .empty) := by
    decide +kernel
  exact ⟨w,hw,by omega,paidOnce_of_firstBlow planePlatform .empty _ _
    (along_of_clients (A := [0,1]) (by decide +kernel)
      (fun _ _ hu hl => firstBlow_of_among hu hl) halive) w hw⟩

def Label.spawns : Label ℚ → Bool
  | .event _ (.map _ (.addEnemyAction _)) | .event _ (.map _ .timerTick) => true
  | _ => false

def twoVictories : List (Label ℚ) := sameEnemy ++ defeat 0 0 0 9 ++ defeat 1 0 0 9

/-- One enemy is spawned, once, and pays twice. -/
theorem not_paidOnce : ¬ ∀ (ls : List (Label ℚ)) (identifier : String) (w : World ℚ),
    ls.countP Label.spawns ≤ 1 → run (step planePlatform) ls (World.start .empty) = some w →
      payouts identifier w ≤ 1 := by
  intro h
  have hrun : (run (step planePlatform) twoVictories (World.start .empty)).map
      (fun w => payouts "u0e1500000000d0" w) = some 2 := by
    decide +kernel
  obtain ⟨w,hw,he⟩ := Option.map_eq_some_iff.mp hrun
  have hle := h twoVictories "u0e1500000000d0" w (by decide +kernel) hw
  omega

end GFLGO
