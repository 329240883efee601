import GFLGO.KeyComparator
import GFLGO.Identifiers
import GFLGO.Removal

/-!
What the app writes in the database: values below a key of a collection, and
removals of enemies. No key of a path has the comparator for its rival.
-/

set_option autoImplicit false

namespace GFLGO

open Runs Async

theorem ordinary_stringOfInt (n : Int) : Ordinary (stringOfInt n) := by
  refine ⟨fun h => ?_,fun m hm _ h => ?_⟩
  · have hi := congrArg intOfString h
    rw [intOfString_stringOfInt,show intOfString ".priority" = none by decide] at hi
    cases hi
  · cases n with
    | ofNat n =>
      rw [toList_stringOfInt_ofNat] at h
      have hd := List.all_eq_true.mp (all_isDigit_toDigits n) '-'
        (by rw [h]; exact List.mem_cons_self)
      exact absurd hd (by decide)
    | negSucc n =>
      -- the digits of a number other than zero are not all zeros
      rw [toList_stringOfInt_negSucc] at h
      have hz := digitsValue_toDigits (n+1)
      rw [(List.cons.inj h).2,digitsValue,if_pos ⟨by simp; omega,by simp⟩] at hz
      rw [ofDigitChars_replicate_zero] at hz
      cases hz

theorem ordinary_of_mem_fields {k : String}
    (h : k ∈ ["users","enemies","username","password","health","power","totalExp","name",
      "latitude","longitude"]) : Ordinary k := by
  simp only [List.mem_cons,List.not_mem_nil,or_false] at h
  rcases h with rfl | rfl | rfl | rfl | rfl | rfl | rfl | rfl | rfl | rfl <;>
    exact ordinary_of_head (by decide) (by decide)

section
variable {K : Type}

theorem MapVC.ordinary_getUniqueEnemyID (p : Platform K) (d : Draw K) (user : User K) :
    Ordinary (getUniqueEnemyID p d user) := by
  have hu := toList_getUniqueEnemyID p d user
  refine ordinary_of_head (fun h => ?_) (by rw [hu]; simp)
  rw [h] at hu
  have hc := congrArg List.head? hu
  exact absurd hc (by simp)

/-- What the app asks the database to do. -/
inductive Write.Regular (x : Write K) : Prop
  | value {coll key : String} {rest : List String} {v : Value K}
    (hx : x = setValue (coll :: key :: rest) v) (hp : ∀ k ∈ coll :: key :: rest, Ordinary k)
  | removal {key : String} (hx : x = removeValue ["enemies",key]) (hk : Ordinary key)

theorem Write.Regular.ordinary {x : Write K} (h : x.Regular) : ∀ k ∈ x.path, Ordinary k := by
  cases h with
  | value hx hp =>
    subst hx
    exact hp
  | removal hx hk =>
    subst hx
    simp only [removeValue,List.forall_mem_cons]
    exact ⟨ordinary_of_mem_fields (by simp),hk,by simp⟩

theorem regular_setValue {coll key : String} {rest : List String}
    (hc : coll ∈ ["users","enemies"]) (hk : Ordinary key)
    (hr : ∀ f ∈ rest, f ∈ ["username","password","health","power","totalExp","name","latitude",
      "longitude"]) (v : Value K) : (setValue (coll :: key :: rest) v).Regular := by
  refine .value rfl (List.forall_mem_cons.mpr ⟨?_,List.forall_mem_cons.mpr ⟨hk,fun f hf => ?_⟩⟩)
  · refine ordinary_of_mem_fields ?_
    rcases List.mem_pair.mp hc with rfl | rfl <;> simp
  · refine ordinary_of_mem_fields ?_
    exact List.mem_cons_of_mem _ (List.mem_cons_of_mem _ (hr f hf))

theorem regular_userWrites {key : String} (hk : Ordinary key) {user : User K}
    (hp : ∃ pw, user.password = some pw) : ∀ x ∈ SignupVC.userWrites key user, x.Regular := by
  obtain ⟨pw,hpw⟩ := hp
  simp only [SignupVC.userWrites,hpw,Option.map_some,setOptional,List.forall_mem_cons]
  refine ⟨?_,?_,?_,?_,?_,?_,by simp⟩ <;> exact regular_setValue (by simp) hk (by simp) _

theorem regular_enemyWrites {enemy : Enemy K} (hk : Ordinary enemy.identifier)
    (hn : ∃ name, enemy.name = some name) : ∀ x ∈ MapVC.enemyWrites enemy, x.Regular := by
  obtain ⟨name,hname⟩ := hn
  simp only [MapVC.enemyWrites,hname,Option.map_some,setOptional,List.forall_mem_cons]
  refine ⟨?_,?_,?_,?_,?_,?_,by simp⟩ <;> exact regular_setValue (by simp) hk (by simp) _

theorem regular_locationWrites (user : User K) (c : Coordinate K) :
    ∀ x ∈ MapVC.locationWrites user c, x.Regular := by
  simp only [MapVC.locationWrites,List.forall_mem_cons]
  refine ⟨?_,?_,by simp⟩ <;>
    exact regular_setValue (by simp) (ordinary_stringOfInt user.userID) (by simp) _

theorem regular_defeatWrites (user : User K) {s : GameScene K}
    (hk : Ordinary s.enemy.identifier) : ∀ x ∈ s.defeatWrites user, x.Regular := by
  simp only [GameScene.defeatWrites,List.forall_mem_cons]
  exact ⟨.removal rfl hk,
    regular_setValue (by simp) (ordinary_stringOfInt user.userID) (by simp) _,by simp⟩

structure Read.Regular (q : Read K) : Prop where
  enemy : ∀ enemy, q.enemy = some enemy →
    Ordinary enemy.identifier ∧ ∃ name, enemy.name = some name
  password : ∀ tab vc oldPassword userID,
    q = .changeIfValidPassword tab vc oldPassword userID → Ordinary userID

theorem Read.Regular.of_none {q : Read K} (he : q.enemy = none)
    (hp : ∀ tab vc oldPassword userID, q ≠ .changeIfValidPassword tab vc oldPassword userID) :
    q.Regular :=
  ⟨fun _ h => by simp [he] at h,fun _ _ _ _ h => absurd h (hp _ _ _ _)⟩

variable [Field K] [LinearOrder K] {p : Platform K} {d : Device K}

theorem EventOutcome.regular {e : Event K} {r : DeviceReaction K} (h : EventOutcome p d e r)
    (hk : ∀ id, d.Knows id → Ordinary id) : ∀ x ∈ r.writes, x.Regular := by
  cases h with
  | map ht hr => simp [Device.ofMap,(MapVC.onEvent_effect hr).2.1]
  | @scene tab i t s e r ht hs hr =>
    simp only [Device.ofScene]
    rcases GameScene.receive_effect hr with ⟨_,_,hw,_⟩ | ⟨_,_,hw,_⟩
    · rw [hw]
      refine regular_defeatWrites _ (hk _ ⟨t,List.mem_of_getElem? ht,s.enemy,?_,rfl⟩)
      exact List.mem_append_right _ (List.mem_map_of_mem (List.mem_of_getElem? hs))
    · simp [hw]
  | _ => simp [Device.idle]

theorem EventOutcome.regular_reads {e : Event K} {r : DeviceReaction K}
    (h : EventOutcome p d e r) : ∀ q ∈ r.reads, q.Regular := by
  intro q hq
  cases h with
  | map ht hr =>
    obtain ⟨q',hq',rfl⟩ := List.mem_map.mp hq
    refine ⟨fun enemy he => ?_,by simp⟩
    rcases MapVC.onEvent_spawn hr with ⟨draw,new,_,hs⟩ | ⟨_,hno⟩
    · rw [hs.reads,List.mem_singleton] at hq'
      subst hq'
      cases he
      exact ⟨hs.identifier ▸ MapVC.ordinary_getUniqueEnemyID p draw _,_,hs.name⟩
    · rw [Read.enemy,hno.reads q' hq'] at he
      cases he
  | changePasswordAction ht hn =>
    rw [List.mem_singleton.mp hq]
    refine ⟨by simp [Read.enemy],fun _ _ _ _ hp => ?_⟩
    cases hp
    exact ordinary_stringOfInt _
  | createAccountAction hv =>
    rw [List.mem_singleton.mp hq]
    exact .of_none rfl (by simp)
  | loginAction =>
    rw [List.mem_singleton.mp hq]
    exact .of_none rfl (by simp)
  | _ => simp [Device.idle,Device.ofScene] at hq

variable [FloorRing K] {snapshot : FNode K} {draw : Draw K} {q : Read K}

theorem ReadOutcome.regular {r : DeviceReaction K} (h : ReadOutcome p snapshot draw d q r)
    (hq : q.Regular) : ∀ x ∈ r.writes, x.Regular := by
  cases h with
  | addUser hv => exact regular_userWrites (ordinary_stringOfInt _) ⟨_,rfl⟩
  | passwordChanged hs ht hn =>
    simp only [List.forall_mem_cons]
    exact ⟨regular_setValue (by simp) (hq.password _ _ _ _ rfl) (by simp) _,by simp⟩
  | map ht hr =>
    simp only [Device.ofMap]
    rcases (MapVC.onRead_effect hr).2 with ⟨c,_,hw,_⟩ | ⟨enemy,rfl,hw,_⟩ | ⟨hw,_⟩
    · rw [hw]
      exact regular_locationWrites _ _
    · rw [hw]
      obtain ⟨hid,hn⟩ := hq.enemy enemy rfl
      exact regular_enemyWrites hid hn
    · simp [hw]
  | _ => simp [Device.idle]

theorem ReadOutcome.regular_reads {r : DeviceReaction K}
    (h : ReadOutcome p snapshot draw d q r) : ∀ q' ∈ r.reads, q'.Regular := by
  intro q' hq'
  cases h with
  | map ht hr =>
    obtain ⟨q'',hq'',rfl⟩ := List.mem_map.mp hq'
    refine ⟨fun enemy he => ?_,by simp⟩
    rcases MapVC.onRead_spawn hr with ⟨_,_,new,hs⟩ | hfill
    · rw [hs.reads,List.mem_singleton] at hq''
      subst hq''
      cases he
      exact ⟨hs.identifier ▸ MapVC.ordinary_getUniqueEnemyID p draw _,_,hs.name⟩
    · simp [hfill.reads] at hq''
  | userIsNew hv hc =>
    rw [List.mem_singleton.mp hq']
    exact .of_none rfl (by simp)
  | _ => simp [Device.idle] at hq'

end

section
variable {K : Type}

structure Regular (w : World K) : Prop where
  placed : AllPlaced w
  unknown : ∀ e, ¬ Ordinary e → Unknown e w
  reads : ∀ c, ∀ rd ∈ (w.clients c).reads, rd.read.Regular
  writes : ∀ c, ∀ x ∈ (w.clients c).writes, x.Regular

theorem regular_start {store : FNode K} (h : ∀ e ∈ enemyKeys store, Ordinary e) :
    Regular (World.start store) where
  placed := by simp [AllPlaced,World.start]
  unknown := fun e he => ⟨fun hk => he (h e hk),fun c =>
    ⟨by simp [Device.Knows,World.start],by simp [World.start],by simp [World.start],
      by simp [World.start]⟩⟩
  reads := by simp [World.start]
  writes := by simp [World.start]

theorem Regular.knows {w : World K} (h : Regular w) {c : Nat} {id : String}
    (hk : (w.clients c).locals.Knows id) : Ordinary id := by
  by_contra hn
  exact ((h.unknown id hn).clients c).device hk

variable [Field K] [LinearOrder K] [FloorRing K] {p : Platform K} {l : Label K} {w w' : World K}

theorem Regular.reads_step (h : Regular w) (hs : GFLGO.step p l w = some w') :
    ∀ c, ∀ rd ∈ (w'.clients c).reads, rd.read.Regular := by
  intro c rd hrd
  rcases mem_reads_step hs hrd with ⟨rd',hrd',hsame⟩ | ⟨r,hr,hnew⟩
  · exact hsame ▸ h.reads c rd' hrd'
  · cases hr with
    | event hr => exact (onEvent_outcome hr).regular_reads _ hnew
    | deliver hq hr => exact (onRead_outcome hr).regular_reads _ hnew

theorem Regular.writes_step (h : Regular w) (hs : GFLGO.step p l w = some w') :
    ∀ c, ∀ x ∈ (w'.clients c).writes, x.Regular := by
  intro c x hx
  rcases mem_writes_step hs hx with hold | ⟨r,hr,hnew⟩
  · exact h.writes c x hold
  · cases hr with
    | event hr => exact (onEvent_outcome hr).regular (fun _ hk => h.knows hk) x hnew
    | deliver hq hr =>
      exact (onRead_outcome hr).regular (h.reads c _ (List.mem_of_getElem? hq)) x hnew

theorem ordinary_spawned (hs : GFLGO.step p l w = some w') {enemy : Enemy K}
    (hn : GFLGO.spawned p l w = some enemy) : Ordinary enemy.identifier := by
  have hasked (a : Except Trap (DeviceReaction K)) (ha : asked a = some enemy)
      (hr : ∀ r, a = .ok r → ∀ q ∈ r.reads, q.Regular) : Ordinary enemy.identifier := by
    cases a with
    | error t => cases ha
    | ok r =>
      obtain ⟨q,hq,he⟩ := List.exists_of_findSome?_eq_some ha
      exact ((hr r rfl q hq).enemy enemy he).1
  cases l with
  | event c e => exact hasked _ hn (fun r hr => (onEvent_outcome hr).regular_reads)
  | deliver c i d =>
    obtain ⟨q,s,hq,-⟩ := step_deliver hs
    simp only [GFLGO.spawned,hq] at hn
    exact hasked _ hn (fun r hr => (onRead_outcome hr).regular_reads)
  | _ => cases hn

theorem Regular.step (h : Regular w) (hs : GFLGO.step p l w = some w') : Regular w' where
  placed := h.placed.step hs
  unknown := fun e he =>
    (h.unknown e he).step h.placed (fun _ hn hid => he (hid ▸ ordinary_spawned hs hn)) hs
  reads := h.reads_step hs
  writes := h.writes_step hs

end

end GFLGO
