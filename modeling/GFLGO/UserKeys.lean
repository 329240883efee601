import Mathlib.Data.List.Range
import Mathlib.Data.Rat.Floor
import GFLGO.Outcomes
import GFLGO.Records

/-! The keys under /users, over all interleavings. -/

set_option autoImplicit false

namespace GFLGO

open Runs Async

/-- The keys are the decimal strings of 0, ..., n-1. -/
structure InitialSegment {K : Type} (n : Nat) (users : FNode K) : Prop where
  nodup : users.childKeys.Nodup
  mem_iff : ∀ key, key ∈ users.childKeys ↔ ∃ i < n, key = stringOfInt (i : Nat)

namespace InitialSegment

variable {K : Type} {n : Nat} {users : FNode K}

theorem empty : InitialSegment 0 (.empty : FNode K) :=
  { nodup := List.nodup_nil
    mem_iff := fun key => by simp [PathTree.childKeys] }

theorem key_mem (h : InitialSegment n users) {k : Nat} :
    stringOfInt k ∈ users.childKeys ↔ k < n := by
  rw [h.mem_iff]
  constructor
  · rintro ⟨i,hi,he⟩
    have := stringOfInt_injective he
    omega
  · intro hk
    exact ⟨k,hk,rfl⟩

theorem numChildren_eq (h : InitialSegment n users) : users.numChildren = n := by
  have hinj : Function.Injective (fun i : Nat => stringOfInt i) := fun i j he => by
    have := stringOfInt_injective he
    omega
  have hp : users.childKeys.Perm ((List.range n).map (fun i : Nat => stringOfInt i)) := by
    refine (List.perm_ext_iff_of_nodup h.nodup (List.nodup_range.map hinj)).mpr (fun key => ?_)
    rw [h.mem_iff]
    simp [eq_comm]
  rw [PathTree.numChildren_eq,hp.length_eq]
  simp

theorem intOfString_isSome (h : InitialSegment n users) {key : String}
    (hk : key ∈ users.childKeys) : (intOfString key).isSome := by
  obtain ⟨i,_,rfl⟩ := (h.mem_iff key).mp hk
  simp

theorem update_of_lt (h : InitialSegment n users) {k : Nat} (hk : k < n) {child : FNode K}
    (hc : child.isEmpty = false) :
    InitialSegment n (users.updateImmediateChild (stringOfInt k) child) := by
  have hkeys := PathTree.childKeys_updateImmediateChild_of_mem hc (h.key_mem.mpr hk)
  exact ⟨hkeys ▸ h.nodup,hkeys ▸ h.mem_iff⟩

theorem update_next (h : InitialSegment n users) {child : FNode K}
    (hc : child.isEmpty = false) :
    InitialSegment (n+1) (users.updateImmediateChild (stringOfInt n) child) := by
  have hfree : stringOfInt n ∉ users.childKeys := fun hm => by
    have := h.key_mem.mp hm
    omega
  have hp := PathTree.childKeys_updateImmediateChild_of_not_mem hc hfree
  refine ⟨hp.nodup_iff.mpr (List.nodup_cons.mpr ⟨hfree,h.nodup⟩),fun key => ?_⟩
  rw [hp.mem_iff,List.mem_cons,h.mem_iff]
  constructor
  · rintro (rfl | ⟨i,hi,he⟩)
    · exact ⟨n,by omega,rfl⟩
    · exact ⟨i,by omega,he⟩
  · rintro ⟨i,hi,he⟩
    by_cases hin : i = n
    · subst hin
      exact Or.inl he
    · exact Or.inr ⟨i,by omega,he⟩

end InitialSegment

section
variable {K : Type}

/-- The writes on their way when the keys end at `n`: a record starts at most
there, and a field belongs to a key below `m`, or to a record that comes first. -/
inductive KeysOk (n : Nat) : Nat → List (Write K) → Prop
  | nil {m : Nat} : KeysOk n m []
  | record {m k : Nat} {v : Value K} {ws : List (Write K)} (hk : k ≤ n)
    (h : KeysOk n (max m (k+1)) ws) : KeysOk n m (setValue ["users",stringOfInt k] v :: ws)
  | field {m k : Nat} {f : String} {v : Value K} {ws : List (Write K)} (hk : k < m)
    (h : KeysOk n m ws) : KeysOk n m (setValue ["users",stringOfInt k,f] v :: ws)
  | enemy {m : Nat} {key : String} {rest : List String} {node : FNode K} {ws : List (Write K)}
    (h : KeysOk n m ws) : KeysOk n m (⟨"enemies" :: key :: rest,node⟩ :: ws)

theorem KeysOk.mono {n n' m m' : Nat} {ws : List (Write K)} (h : KeysOk n m ws) (hn : n ≤ n')
    (hm : m ≤ m') : KeysOk n' m' ws := by
  induction h generalizing m' with
  | nil => exact .nil
  | record hk _ ih => exact .record (by omega) (ih (by omega))
  | field hk _ ih => exact .field (by omega) (ih hm)
  | enemy _ ih => exact .enemy (ih hm)

theorem KeysOk.append {n m : Nat} {ws vs : List (Write K)} (h : KeysOk n m ws)
    (hv : KeysOk n m vs) : KeysOk n m (ws ++ vs) := by
  induction h with
  | nil => exact hv
  | record hk _ ih => exact .record hk (ih (hv.mono (by omega) (by omega)))
  | field hk _ ih => exact .field hk (ih hv)
  | enemy _ ih => exact .enemy (ih hv)

theorem KeysOk.addressed {n m : Nat} {ws : List (Write K)} (h : KeysOk n m ws) :
    ∀ x ∈ ws, x.Addressed := by
  induction h with
  | nil => simp
  | record _ _ ih => exact List.forall_mem_cons.mpr ⟨⟨_,_,_,rfl⟩,ih⟩
  | field _ _ ih => exact List.forall_mem_cons.mpr ⟨⟨_,_,_,rfl⟩,ih⟩
  | enemy _ ih => exact List.forall_mem_cons.mpr ⟨⟨_,_,_,rfl⟩,ih⟩

theorem KeysOk.apply {n : Nat} {x : Write K} {xs : List (Write K)} {store : FNode K}
    (h : KeysOk n n (x :: xs)) (hs : InitialSegment n (store.getImmediateChild "users")) :
    ∃ n', n ≤ n' ∧ InitialSegment n' ((applyWrite x store).getImmediateChild "users") ∧
      KeysOk n' n' xs := by
  cases h with
  | @record _ k v _ hk h =>
    rw [setValue,collection_applyWrite]
    by_cases hkn : k = n
    · subst hkn
      exact ⟨k+1,by omega,hs.update_next rfl,h.mono (by omega) (by omega)⟩
    · exact ⟨n,by omega,hs.update_of_lt (by omega) rfl,h.mono (by omega) (by omega)⟩
  | field hk h =>
    rw [setValue,collection_applyWrite]
    exact ⟨n,by omega,hs.update_of_lt hk (PathTree.isEmpty_updateChild _ _ rfl),h⟩
  | enemy h =>
    rw [collection_applyWrite_of_ne _ _ _ (by decide)]
    exact ⟨n,by omega,hs,h⟩

theorem keysOk_userWrites [Field K] {n k : Nat} (hk : k ≤ n) {user : User K} {pw : String}
    (hp : user.password = some pw) : KeysOk n n (SignupVC.userWrites (stringOfInt k) user) := by
  rw [SignupVC.userWrites,hp]
  exact .record hk (.field (by omega) (.field (by omega) (.field (by omega)
    (.field (by omega) (.field (by omega) .nil)))))

def User.HasKey (n : Nat) (u : User K) : Prop := ∃ k < n, u.userID = (k : Nat)

theorem User.HasKey.mono {n n' : Nat} {u : User K} (h : u.HasKey n) (hn : n ≤ n') :
    u.HasKey n' := by
  obtain ⟨k,hk,he⟩ := h
  exact ⟨k,by omega,he⟩

theorem User.HasKey.congr {n : Nat} {u v : User K} (h : u.HasKey n) (hv : v.SameAccount u) :
    v.HasKey n := by
  obtain ⟨k,hk,he⟩ := h
  exact ⟨k,hk,hv.2.2.1.trans he⟩

theorem keysOk_enemyWrites {n : Nat} (enemy : Enemy K) : KeysOk n n (MapVC.enemyWrites enemy) := by
  unfold MapVC.enemyWrites
  cases enemy.name <;> exact .enemy (.enemy (.enemy (.enemy (.enemy (.enemy .nil)))))

theorem keysOk_locationWrites {n : Nat} {user : User K} (h : user.HasKey n) (c : Coordinate K) :
    KeysOk n n (MapVC.locationWrites user c) := by
  obtain ⟨k,hk,he⟩ := h
  rw [MapVC.locationWrites,he]
  exact .field hk (.field hk .nil)

theorem keysOk_defeatWrites {n : Nat} {user : User K} (h : user.HasKey n) (s : GameScene K) :
    KeysOk n n (s.defeatWrites user) := by
  obtain ⟨k,hk,he⟩ := h
  rw [GameScene.defeatWrites,User.addExperience,he]
  exact .enemy (.field hk .nil)

/-- What a pending read may hold when the keys end at `n`. -/
structure ReadOk (n : Nat) (r : Pending (Read K) (FNode K)) : Prop where
  snapshot : ∀ snapshot, r.snapshot = some snapshot → r.read.path = ["users"] →
    ∃ m ≤ n, InitialSegment m snapshot
  account : ∀ tab vc old userID, r.read = .changeIfValidPassword tab vc old userID →
    ∃ k < n, userID = stringOfInt (k : Nat)

theorem ReadOk.mono {n n' : Nat} {r : Pending (Read K) (FNode K)} (h : ReadOk n r)
    (hn : n ≤ n') : ReadOk n' r where
  snapshot := fun snapshot hs hp => by
    obtain ⟨m,hm,hseg⟩ := h.snapshot snapshot hs hp
    exact ⟨m,by omega,hseg⟩
  account := fun tab vc old userID hr => by
    obtain ⟨k,hk,he⟩ := h.account tab vc old userID hr
    exact ⟨k,by omega,he⟩

structure ClientOk (n : Nat) (cl : Client K) : Prop where
  sessions : ∀ t ∈ cl.locals.tabBarVCs, t.map.user.HasKey n
  reads : ∀ r ∈ cl.reads, ReadOk n r
  writes : KeysOk n n cl.writes
  untrapped : ∀ reader, cl.trap ≠ some (.userID reader)

theorem ClientOk.mono {n n' : Nat} {cl : Client K} (h : ClientOk n cl) (hn : n ≤ n') :
    ClientOk n' cl :=
  { sessions := fun t ht => (h.sessions t ht).mono hn
    reads := fun r hr => (h.reads r hr).mono hn
    writes := h.writes.mono hn hn
    untrapped := h.untrapped }

structure KeysInv (n : Nat) (w : World K) : Prop where
  store : InitialSegment n (w.store.getImmediateChild "users")
  clients : ∀ c, ClientOk n (w.clients c)

structure ReactionOk (n : Nat) (r : DeviceReaction K) : Prop where
  sessions : ∀ t ∈ r.locals.tabBarVCs, t.map.user.HasKey n
  reads : ∀ q ∈ r.reads, ReadOk n ⟨q,none⟩
  writes : KeysOk n n r.writes

theorem ClientOk.absorb {n : Nat} {cl : Client K} {r : Except Trap (DeviceReaction K)}
    (h : ClientOk n cl) (he : ∀ reader, r ≠ .error (.userID reader))
    (hr : ∀ r', r = .ok r' → ReactionOk n r') : ClientOk n (cl.absorb r) := by
  cases r with
  | error t =>
    refine ⟨h.sessions,by simp [Client.absorb],h.writes,fun reader ht => he reader ?_⟩
    simp only [Client.absorb,Option.some.injEq] at ht
    rw [ht]
  | ok r' =>
    have hok := hr r' rfl
    refine ⟨hok.sessions,forall_reads_absorb h.reads (fun r'' he q hq => ?_),
      h.writes.append hok.writes,h.untrapped⟩
    cases he
    exact hok.reads q hq

section
variable [Field K] [LinearOrder K]

theorem EventOutcome.reactionOk {p : Platform K} {d : Device K} {e : Event K}
    {r : DeviceReaction K} {n : Nat} (h : EventOutcome p d e r)
    (hs : ∀ t ∈ d.tabBarVCs, t.map.user.HasKey n) : ReactionOk n r := by
  have hsessions : ∀ t ∈ r.locals.tabBarVCs, t.map.user.HasKey n := fun t' ht' => by
    obtain ⟨t,ht,hsame⟩ := h.sessions t' ht'
    exact (hs t ht).congr hsame
  have hfree (q : Read K) (hq : ∀ tab vc old userID, q ≠ .changeIfValidPassword tab vc old userID) :
      ReadOk n ⟨q,none⟩ :=
    ⟨fun _ hn => by contradiction,fun tab vc old userID he => absurd he (hq tab vc old userID)⟩
  refine ⟨hsessions,fun q hq => ?_,?_⟩
  · cases h with
    | createAccountAction hv =>
      have := List.mem_singleton.mp hq
      subst this
      exact hfree _ (by simp)
    | loginAction =>
      have := List.mem_singleton.mp hq
      subst this
      exact hfree _ (by simp)
    | map ht hr =>
      obtain ⟨mq,_,rfl⟩ := List.mem_map.mp hq
      exact hfree _ (by simp)
    | changePasswordAction ht hn =>
      have := List.mem_singleton.mp hq
      subst this
      refine ⟨fun _ hn => by contradiction,fun tab vc old userID he => ?_⟩
      obtain ⟨k,hk,hu⟩ := hs _ (List.mem_of_getElem? ht)
      cases he
      exact ⟨k,hk,by rw [hu]⟩
    | _ => contradiction
  · cases h with
    | map ht hr =>
      have hw := (MapVC.onEvent_effect hr).2.1
      simp only [Device.ofMap,hw]
      exact .nil
    | @scene _ _ t sc _ _ ht hsc hr =>
      rcases GameScene.receive_effect hr with ⟨_,_,hw,_⟩ | ⟨_,_,hw,_⟩
      · simp only [Device.ofScene,hw]
        exact keysOk_defeatWrites (hs _ (List.mem_of_getElem? ht)) sc
      · simp only [Device.ofScene,hw]
        exact .nil
    | _ => exact .nil

variable [FloorRing K]

theorem InitialSegment.hasKey_of_login {n : Nat} {users : FNode K} {username password : String}
    {user : User K} (hs : InitialSegment n users)
    (h : LoginVC.loginIfValid username password users.children = .ok (some user)) :
    user.HasKey n := by
  obtain ⟨c,hc,_,_,userID,health,power,totalExp,hk,_,_,_,rfl⟩ := loginIfValid_eq_some h
  obtain ⟨k,hkn,he⟩ := (hs.mem_iff c.1).mp (List.mem_map_of_mem hc)
  rw [he,intOfString_stringOfInt] at hk
  exact ⟨k,hkn,(Option.some.inj hk).symm⟩

theorem ReadOutcome.reactionOk {p : Platform K} {snapshot : FNode K} {draw : Draw K}
    {d : Device K} {q : Read K} {r : DeviceReaction K} {n : Nat}
    (h : ReadOutcome p snapshot draw d q r) (hs : ∀ t ∈ d.tabBarVCs, t.map.user.HasKey n)
    (hq : ReadOk n ⟨q,some snapshot⟩) : ReactionOk n r := by
  have hsessions : ∀ t ∈ r.locals.tabBarVCs, t.map.user.HasKey n := fun t' ht' => by
    rcases h.sessions t' ht' with ⟨t,ht,hsame⟩ | ⟨username,password,rfl,hl⟩
    · exact hsame ▸ hs t ht
    · obtain ⟨m,hm,hseg⟩ := hq.snapshot snapshot rfl rfl
      exact (hseg.hasKey_of_login hl).mono hm
  refine ⟨hsessions,fun q' hq' => ?_,?_⟩
  · cases h with
    | userIsNew hv hc =>
      have := List.mem_singleton.mp hq'
      subst this
      exact ⟨fun _ hn => by contradiction,fun _ _ _ _ he => by contradiction⟩
    | map ht hr =>
      obtain ⟨mq,_,rfl⟩ := List.mem_map.mp hq'
      exact ⟨fun _ hn => by contradiction,fun _ _ _ _ he => by contradiction⟩
    | _ => contradiction
  · cases h with
    | addUser hv =>
      obtain ⟨m,hm,hseg⟩ := hq.snapshot snapshot rfl rfl
      exact keysOk_userWrites (hseg.numChildren_eq.trans_le hm) rfl
    | passwordChanged hleaf ht hn =>
      obtain ⟨k,hk,rfl⟩ := hq.account _ _ _ _ rfl
      exact .field hk .nil
    | map ht hr =>
      obtain ⟨_,⟨c,_,hw,_⟩ | ⟨enemy,_,hw,_⟩ | ⟨hw,_⟩⟩ := MapVC.onRead_effect hr
      · simp only [Device.ofMap,hw]
        exact keysOk_locationWrites (hs _ (List.mem_of_getElem? ht)) c
      · simp only [Device.ofMap,hw]
        exact keysOk_enemyWrites enemy
      · simp only [Device.ofMap,hw]
        exact .nil
    | _ => exact .nil

theorem ReadTrap.ne_userID {snapshot : FNode K} {d : Device K} {q : Read K} {t : Trap} {n : Nat}
    (h : ReadTrap snapshot d q t) (hq : ReadOk n ⟨q,some snapshot⟩) (reader : Reader) :
    t ≠ .userID reader := by
  intro ht
  have hkeys {q' : Read K} (hpath : q'.path = ["users"]) (hq : ReadOk n ⟨q',some snapshot⟩)
      {c : String × FNode K} (hc : c ∈ snapshot.children) : intOfString c.1 ≠ none := by
    obtain ⟨m,_,hseg⟩ := hq.snapshot snapshot rfl hpath
    have hsome := hseg.intOfString_isSome (List.mem_map_of_mem hc)
    intro hn
    simp [hn] at hsome
  cases h with
  | loginUserID hc hk => exact hkeys rfl hq hc hk
  | playersUserID hc hk => exact hkeys rfl hq hc hk
  | _ => contradiction

theorem KeysInv.step {p : Platform K} {l : Label K} {w w' : World K} {n : Nat}
    (hi : KeysInv n w) (h : step p l w = some w') : ∃ n', KeysInv n' w' := by
  cases l with
  | event c e =>
    obtain ⟨_,rfl⟩ := step_event h
    have hc := hi.clients c
    refine ⟨n,hi.store,forall_clients_update (hc.absorb ?_ ?_) (fun c' _ => hi.clients c')⟩
    · intro reader he
      rcases onEvent_trap he with ht | ht | ht <;> contradiction
    · intro r hr
      exact (onEvent_outcome hr).reactionOk hc.sessions
  | snapshot c i =>
    obtain ⟨q,hq,rfl⟩ := step_snapshot h
    have hc := hi.clients c
    refine ⟨n,hi.store,forall_clients_update ?_ (fun c' _ => hi.clients c')⟩
    refine ⟨hc.sessions,fun r hr => ?_,hc.writes,hc.untrapped⟩
    rcases List.mem_or_eq_of_mem_set hr with hold | rfl
    · exact hc.reads r hold
    · have hread := hc.reads _ (List.mem_of_getElem? hq)
      refine ⟨fun snapshot hs hpath => ?_,hread.account⟩
      simp only [Option.some.injEq] at hs
      subst hs
      exact ⟨n,le_refl n,view_users hpath w.store ▸ hi.store⟩
  | deliver c i d =>
    obtain ⟨q,s,hq,rfl⟩ := step_deliver h
    have hc := hi.clients c
    have hread := hc.reads _ (List.mem_of_getElem? hq)
    have herased : ClientOk n { w.clients c with reads := (w.clients c).reads.eraseIdx i } :=
      ⟨hc.sessions,fun r hr => hc.reads r (List.mem_of_mem_eraseIdx hr),hc.writes,hc.untrapped⟩
    refine ⟨n,hi.store,forall_clients_update (herased.absorb ?_ ?_) (fun c' _ => hi.clients c')⟩
    · intro reader he
      exact (onRead_trap he).ne_userID hread reader rfl
    · intro r hr
      exact (onRead_outcome hr).reactionOk hc.sessions hread
  | apply c =>
    obtain ⟨x,xs,hx,rfl⟩ := step_apply h
    have hc := hi.clients c
    obtain ⟨n',hn,hs,hxs⟩ := (hx ▸ hc.writes).apply hi.store
    have hmono := hc.mono hn
    refine ⟨n',hs,forall_clients_update ?_ (fun c' _ => (hi.clients c').mono hn)⟩
    exact ⟨hmono.sessions,hmono.reads,hxs,hc.untrapped⟩

end

theorem keysInv_start {store : FNode K} {n : Nat}
    (h : InitialSegment n (store.getChild ["users"])) : KeysInv n (World.start store) :=
  { store := h
    clients := fun _ =>
      { sessions := fun t ht => by simp [World.start] at ht
        reads := fun r hr => by simp [World.start] at hr
        writes := .nil
        untrapped := fun reader => by simp [World.start] } }

theorem KeysOk.record_le {n m : Nat} {ws : List (Write K)} (h : KeysOk n m ws) {key : String}
    {node : FNode K} (hw : ⟨["users",key],node⟩ ∈ ws) : ∃ k ≤ n, key = stringOfInt (k : Nat) := by
  induction h with
  | nil => contradiction
  | record hk _ ih =>
    rcases List.mem_cons.mp hw with he | hrest
    · simp only [setValue,Write.mk.injEq,List.cons.injEq] at he
      exact ⟨_,hk,he.1.2.1⟩
    · exact ih hrest
  | field _ _ ih =>
    rcases List.mem_cons.mp hw with he | hrest
    · simp [setValue] at he
    · exact ih hrest
  | enemy _ ih =>
    rcases List.mem_cons.mp hw with he | hrest
    · simp at he
    · exact ih hrest

/-- What every reachable state says about the keys. -/
structure KeysInOrder (n : Nat) (w : World K) : Prop where
  keys : InitialSegment n (w.store.getChild ["users"])
  counts : ∀ c vc tap username snapshot,
    ⟨.addUserToFirebase vc tap username,some snapshot⟩ ∈ (w.clients c).reads →
      snapshot.numChildren ≤ n ∧ stringOfInt snapshot.numChildren ∉ snapshot.childKeys
  records : ∀ c key node, ⟨["users",key],node⟩ ∈ (w.clients c).writes →
    ∃ k ≤ n, key = stringOfInt (k : Nat)
  userIDs : ∀ c r snapshot, r ∈ (w.clients c).reads → r.snapshot = some snapshot →
    r.read.path = ["users"] → ∀ key ∈ snapshot.childKeys, (intOfString key).isSome
  untrapped : ∀ c reader, (w.clients c).trap ≠ some (.userID reader)

theorem KeysInv.inOrder {n : Nat} {w : World K} (h : KeysInv n w) : KeysInOrder n w where
  keys := h.store
  counts := fun c vc tap username snapshot hr => by
    obtain ⟨m,hm,hseg⟩ := ((h.clients c).reads _ hr).snapshot snapshot rfl rfl
    rw [hseg.numChildren_eq]
    refine ⟨hm,fun hkey => ?_⟩
    have := hseg.key_mem.mp hkey
    omega
  records := fun c key node hw => (h.clients c).writes.record_le hw
  userIDs := fun c r snapshot hr hs hpath key hkey => by
    obtain ⟨m,_,hseg⟩ := ((h.clients c).reads r hr).snapshot snapshot hs hpath
    exact hseg.intOfString_isSome hkey
  untrapped := fun c => (h.clients c).untrapped

/-- From an empty /users the keys stay an initial segment in every reachable
state, and nothing under way holds a count beyond it. -/
theorem keysInOrder_of_run [Field K] [LinearOrder K] [FloorRing K] (p : Platform K)
    (store : FNode K) (h : store.getChild ["users"] = .empty) (ls : List (Label K)) (w : World K)
    (hr : run (step p) ls (World.start store) = some w) : ∃ n, KeysInOrder n w := by
  have hinv : ∃ n, KeysInv n w :=
    run_invariant (I := fun w => ∃ n, KeysInv n w) (step p)
      (fun l w w' hi _ hs => hi.elim (fun n hn => hn.step hs)) ⟨0,keysInv_start (h ▸ .empty)⟩
      (along_of_forall_mem (step p) (fun _ _ => trivial) _) hr
  obtain ⟨n,hn⟩ := hinv
  exact ⟨n,hn.inOrder⟩

end

/-- One signup, started and finished on a fresh database. -/
theorem keysInOrder_signup : ∃ w, run (step planePlatform) (signup 0 sampleDraw 0 "ann" "pw")
    (World.start .empty) = some w ∧ ∃ n, KeysInOrder n w := by
  have hsome : (run (step planePlatform) (signup 0 sampleDraw 0 "ann" "pw")
      (World.start .empty)).isSome = true := by
    decide +kernel
  obtain ⟨w,hw⟩ := Option.isSome_iff_exists.mp hsome
  exact ⟨w,hw,keysInOrder_of_run planePlatform .empty rfl _ w hw⟩

end GFLGO
