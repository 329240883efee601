import GFLGO.Experience
import GFLGO.Enemies

/-!
What is under way when nobody signs up: sessions write single fields of an
account, and below the key of an enemy.
-/

set_option autoImplicit false

namespace GFLGO

open Runs Async

section
variable {K : Type}

inductive Write.OfSession : Write K → Prop
  | password {key newPassword : String} :
    OfSession (setValue ["users",key,"password"] (.string newPassword))
  | latitude {key : String} {x : K} : OfSession (setValue ["users",key,"latitude"] (.double x))
  | longitude {key : String} {x : K} : OfSession (setValue ["users",key,"longitude"] (.double x))
  | totalExp {key : String} {n : Int} : OfSession (setValue ["users",key,"totalExp"] (.int n))
  | enemies {key : String} {rest : List String} {node : FNode K} :
    OfSession ⟨"enemies" :: key :: rest,node⟩

structure SessionsOnly (w : World K) : Prop where
  reads : ∀ c, ∀ rd ∈ (w.clients c).reads, rd.read.isSignup = false
  writes : ∀ c, ∀ x ∈ (w.clients c).writes, x.OfSession

theorem Write.OfSession.keeps {x : Write K} (h : x.OfSession) {key f : String}
    (hx : x.path ≠ ["users",key,f]) (store : FNode K) :
    (applyWrite x store).getChild ["users",key,f] = store.getChild ["users",key,f] := by
  have hfield : ∀ {key' f' : String} {v : Value K}, x = setValue ["users",key',f'] v →
      (applyWrite x store).getChild ["users",key,f] = store.getChild ["users",key,f] := by
    rintro key' f' v rfl
    by_cases hk : key = key'
    · subst hk
      have hf : f ≠ f' := fun hf => hx (hf ▸ rfl)
      exact getChild_applyWrite_field store "users" key key _ hf
    · exact getChild_applyWrite_key store "users" [f] [f'] _ hk
  cases h with
  | enemies => exact getChild_applyWrite_coll store _ _ _ (by decide)
  | _ => exact hfield rfl

theorem MapVC.ofSession_locationWrites (user : User K) (c : Coordinate K) :
    ∀ x ∈ locationWrites user c, x.OfSession := by
  intro x hx
  rcases List.mem_pair.mp hx with rfl | rfl
  · exact .latitude
  · exact .longitude

theorem MapVC.ofSession_enemyWrites (enemy : Enemy K) :
    ∀ x ∈ enemyWrites enemy, x.OfSession := by
  rintro ⟨path,node⟩ hx
  obtain ⟨rest,rfl⟩ := enemyWrites_path enemy _ hx
  exact .enemies

theorem GameScene.ofSession_defeatWrites (user : User K) (s : GameScene K) :
    ∀ x ∈ s.defeatWrites user, x.OfSession := by
  intro x hx
  rcases List.mem_pair.mp hx with rfl | rfl
  · exact .enemies
  · exact .totalExp

theorem sessionsOnly_start (store : FNode K) : SessionsOnly (World.start store) where
  reads := fun c rd hrd => by contradiction
  writes := fun c x hx => by contradiction

variable [Field K] [LinearOrder K] {p : Platform K} {d : Device K}

theorem EventOutcome.ofSession {e : Event K} {r : DeviceReaction K} (h : EventOutcome p d e r) :
    ∀ x ∈ r.writes, x.OfSession := by
  intro x hx
  cases h with
  | map ht hr => simp [Device.ofMap,(MapVC.onEvent_effect hr).2.1] at hx
  | @scene tab i t s e r ht hs hr =>
    simp only [Device.ofScene] at hx
    rcases GameScene.receive_effect hr with ⟨_,_,hw,_⟩ | ⟨_,_,hw,_⟩
    · rw [hw] at hx
      exact GameScene.ofSession_defeatWrites _ s x hx
    · simp [hw] at hx
  | _ => contradiction

theorem EventOutcome.path {e : Event K} {r : DeviceReaction K} (h : EventOutcome p d e r) :
    ∀ x ∈ r.writes, (∃ rest, x.path = "enemies" :: rest) ∨
      ∃ key, x.path = ["users",key,"totalExp"] := by
  intro x hx
  cases h with
  | map ht hr => simp [Device.ofMap,(MapVC.onEvent_effect hr).2.1] at hx
  | @scene tab i t s e r ht hs hr =>
    simp only [Device.ofScene] at hx
    rcases GameScene.receive_effect hr with ⟨_,_,hw,_⟩ | ⟨_,_,hw,_⟩
    · rw [hw] at hx
      rcases List.mem_pair.mp hx with rfl | rfl
      · exact Or.inl ⟨_,rfl⟩
      · exact Or.inr ⟨_,rfl⟩
    · simp [hw] at hx
  | _ => contradiction

variable [FloorRing K]

theorem ReadOutcome.ofSession {snapshot : FNode K} {draw : Draw K} {q : Read K}
    {r : DeviceReaction K} (h : ReadOutcome p snapshot draw d q r) (hq : q.isSignup = false) :
    ∀ x ∈ r.writes, x.OfSession := by
  intro x hx
  cases h with
  | addUser hv => contradiction
  | passwordChanged hs ht hn =>
    rw [List.mem_singleton.mp hx]
    exact .password
  | @map _ t _ _ ht hr =>
    simp only [Device.ofMap] at hx
    rcases (MapVC.onRead_effect hr).2 with ⟨c,_,hw,_⟩ | ⟨enemy,_,hw,_⟩ | ⟨hw,_⟩
    · rw [hw] at hx
      exact MapVC.ofSession_locationWrites _ c x hx
    · rw [hw] at hx
      exact MapVC.ofSession_enemyWrites enemy x hx
    · simp [hw] at hx
  | _ => contradiction

theorem SessionsOnly.step {l : Label K} {w w' : World K} (h : SessionsOnly w) (hl : NoSignup l)
    (hs : GFLGO.step p l w = some w') : SessionsOnly w' := by
  constructor
  · intro c rd hrd
    rcases mem_reads_step hs hrd with ⟨rd',hrd',hsame⟩ | ⟨r,hr,hnew⟩
    · exact hsame ▸ h.reads c rd' hrd'
    · cases hr with
      | event hr => exact (onEvent_outcome hr).reads_noSignup hl _ hnew
      | deliver hq hr =>
        exact (onRead_outcome hr).reads_noSignup (h.reads c _ (List.mem_of_getElem? hq)) _ hnew
  · intro c x hx
    rcases mem_writes_step hs hx with hold | ⟨r,hr,hnew⟩
    · exact h.writes c x hold
    · cases hr with
      | event hr => exact (onEvent_outcome hr).ofSession x hnew
      | deliver hq hr =>
        exact (onRead_outcome hr).ofSession (h.reads c _ (List.mem_of_getElem? hq)) x hnew

end

end GFLGO
