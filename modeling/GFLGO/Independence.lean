import GFLGO.Interleaving
import GFLGO.Marks
import GFLGO.SessionWrites
import GFLGO.TreeSchema

/-!
Sessions of different accounts that change the password, report locations and
win battles. The writes of two sessions commute, and what a session writes
depends on its own record alone, as long as the scans that a location asks for
get through the records of the others.
-/

set_option autoImplicit false

namespace GFLGO

open Runs Async Interleaving

section
variable {K : Type}

def Read.fills : Read K → Bool
  | .map _ q => MapVC.fills q
  | _ => false

/-- The callbacks that run are those of the operations: nobody signs up or logs
in, picks an enemy or stores one, and the scans are those of the clients in `scanning`. -/
def OnlyOperations (scanning : Nat → Prop) : Label K → World K → Prop
  | .event _ e, _ => e.looks = false
  | .deliver c i _, w => ∀ rd ∈ (w.clients c).reads[i]?,
    rd.read.isOperation = true ∨ rd.read.fills = true ∧ scanning c
  | _, _ => True

inductive SessionField : String → Value K → Prop
  | password (s : String) : SessionField "password" (.string s)
  | latitude (x : K) : SessionField "latitude" (.double x)
  | longitude (x : K) : SessionField "longitude" (.double x)
  | totalExp (n : Int) : SessionField "totalExp" (.int n)

/-- A write of a session of the account. -/
inductive Write.OfAccount (account : Option Int) : Write K → Prop
  | field {id : Int} {f : String} {v : Value K} (h : account = some id) (hv : SessionField f v) :
    OfAccount account (setValue ["users",stringOfInt id,f] v)
  | removal {enemyID : String} : OfAccount account (removeValue ["enemies",enemyID])

def Read.OfAccount (account : Option Int) : Read K → Prop
  | .changeIfValidPassword _ _ _ userID => ∃ id, account = some id ∧ userID = stringOfInt id
  | _ => True

/-- `account` gives the account that a client is logged in to: each has its own,
and it exists. Operations may be under way. -/
structure LoggedIn (account : Nat → Option Int) (w : World K) : Prop where
  different : ∀ c c' id, account c = some id → account c' = some id → c = c'
  existing : ∀ c id, account c = some id →
    stringOfInt id ∈ (w.store.getImmediateChild "users").childKeys
  sessions : ∀ c, ∀ t ∈ (w.clients c).locals.tabBarVCs, account c = some t.map.user.userID
  reads : ∀ c, ∀ rd ∈ (w.clients c).reads, rd.read.OfAccount (account c)
  writes : ∀ c, ∀ x ∈ (w.clients c).writes, x.OfAccount (account c)

def appliedWrite : Label K → World K → Option (Write K)
  | .apply c, w => (w.clients c).writes.head?
  | _, _ => none

def writeTo : Option (Write K) → FNode K → FNode K
  | some x, store => applyWrite x store
  | none, store => store

instance (scanning : Nat → Prop) [DecidablePred scanning] (l : Label K) (w : World K) :
    Decidable (OnlyOperations scanning l w) :=
  match l with
  | .event _ e => inferInstanceAs (Decidable (e.looks = false))
  | .deliver c i _ => inferInstanceAs (Decidable (∀ rd ∈ (w.clients c).reads[i]?, _ ∨ _))
  | .snapshot _ _ | .apply _ => isTrue trivial

variable {account account' : Option Int} {x y : Write K} {store : FNode K} {id : Int}
  {scanning : Nat → Prop}

theorem Write.OfAccount.addressed (h : x.OfAccount account) : x.Addressed := by
  cases h with
  | field => exact ⟨_,_,_,rfl⟩
  | removal => exact ⟨_,_,_,rfl⟩

theorem Write.OfAccount.not_below (h : x.OfAccount account) (hid : account ≠ some id) :
    x.isBelow "users" (stringOfInt id) = false := by
  cases h with
  | @field id' f v h hv =>
    have hne : id' ≠ id := fun he => hid (he ▸ h)
    have hkey : stringOfInt id' ≠ stringOfInt id := fun he => hne (stringOfInt_injective he)
    simpa [Write.isBelow,setValue] using hkey
  | removal => simp [Write.isBelow,removeValue]

theorem Write.OfAccount.record_of_ne (h : x.OfAccount account) (hid : account ≠ some id)
    (store : FNode K) : record "users" (stringOfInt id) (applyWrite x store) =
      record "users" (stringOfInt id) store :=
  record_applyWrite_of_ne h.addressed (h.not_below hid) store

theorem Write.OfAccount.record_congr (h : x.OfAccount account) {coll key : String}
    {store store' : FNode K} (hr : record coll key store = record coll key store') :
    record coll key (applyWrite x store) = record coll key (applyWrite x store') := by
  cases hb : x.isBelow coll key with
  | true => rw [record_applyWrite hb,record_applyWrite hb,hr]
  | false => rw [record_applyWrite_of_ne h.addressed hb,record_applyWrite_of_ne h.addressed hb,hr]

theorem Write.OfAccount.childKeys (h : x.OfAccount account) {key : String}
    (hk : key ∈ (store.getImmediateChild "users").childKeys) :
    key ∈ ((applyWrite x store).getImmediateChild "users").childKeys := by
  cases h with
  | @field id f v h hv =>
    rw [setValue,collection_applyWrite,PathTree.mem_childKeys_updateImmediateChild]
    · exact Or.inr hk
    · exact PathTree.isEmpty_updateChild _ [f] rfl
  | removal =>
    rw [removeValue,collection_applyWrite_of_ne]
    · exact hk
    · decide

theorem applyWrite_comm_field {store : FNode K} {id id' : Int} (h : id ≠ id') (f f' : String)
    (v v' : Value K) (hid : stringOfInt id ∈ (store.getImmediateChild "users").childKeys)
    (hid' : stringOfInt id' ∈ (store.getImmediateChild "users").childKeys) :
    applyWrite (setValue ["users",stringOfInt id',f'] v')
        (applyWrite (setValue ["users",stringOfInt id,f] v) store) =
      applyWrite (setValue ["users",stringOfInt id,f] v)
        (applyWrite (setValue ["users",stringOfInt id',f'] v') store) := by
  have hkey : stringOfInt id ≠ stringOfInt id' := fun he => h (stringOfInt_injective he)
  have hfull : ∀ (users : FNode K) (key f : String) (v : Value K),
      (users.updateChild [key,f] (.leaf v)).isEmpty = true → False := by
    intro users key f v he
    rw [PathTree.isEmpty_updateChild users [key,f] rfl] at he
    contradiction
  refine PathTree.updateChild_comm_of_eq ?_ (PathTree.addsNoKey_of_mem_child hid)
    (PathTree.addsNoKey_of_mem_child hid') (fun he => (hfull _ _ _ _ he).elim)
    (fun he => (hfull _ _ _ _ he).elim)
  exact PathTree.updateChild_comm_of_ne hkey (Or.inr hid) (Or.inr hid')

theorem applyWrite_comm_removal {store : FNode K} {id : Int} (f : String) (v : Value K)
    (enemyID : String) (hid : stringOfInt id ∈ (store.getImmediateChild "users").childKeys) :
    applyWrite (removeValue ["enemies",enemyID])
        (applyWrite (setValue ["users",stringOfInt id,f] v) store) =
      applyWrite (setValue ["users",stringOfInt id,f] v)
        (applyWrite (removeValue ["enemies",enemyID]) store) :=
  PathTree.updateChild_comm_of_ne (by decide) (PathTree.addsNoKey_of_mem_child hid)
    (PathTree.addsNoKey_remove store "enemies" [enemyID])

/-- Two sessions of different accounts can write in either order, and remove the
same enemy. -/
theorem applyWrite_comm {store : FNode K} (hx : x.OfAccount account) (hy : y.OfAccount account')
    (hne : ∀ id, account = some id → account' ≠ some id)
    (hex : ∀ id, account = some id → stringOfInt id ∈ (store.getImmediateChild "users").childKeys)
    (hex' : ∀ id, account' = some id →
      stringOfInt id ∈ (store.getImmediateChild "users").childKeys) :
    applyWrite y (applyWrite x store) = applyWrite x (applyWrite y store) := by
  cases hx with
  | @field id f v hid =>
    cases hy with
    | @field id' f' v' hid' =>
      have hids : id ≠ id' := fun he => hne id hid (he ▸ hid')
      exact applyWrite_comm_field hids f f' v v' (hex id hid) (hex' id' hid')
    | @removal enemyID => exact applyWrite_comm_removal f v enemyID (hex id hid)
  | @removal enemyID =>
    cases hy with
    | @field id f v hid => exact (applyWrite_comm_removal f v enemyID (hex' id hid)).symm
    | @removal enemyID' =>
      exact PathTree.updateChild_empty_comm store ["enemies",enemyID] ["enemies",enemyID']

theorem operation_of_onlyOperations {c i : Nat} {d : Draw K} {w : World K}
    {rd : Pending (Read K) (FNode K)} (h : OnlyOperations scanning (.deliver c i d) w)
    (hrd : (w.clients c).reads[i]? = some rd) :
    rd.read.isOperation = true ∨ rd.read.fills = true ∧ scanning c := h rd hrd

end

section
variable {K : Type} [Field K] [LinearOrder K] [FloorRing K] {account account' : Option Int}
  {q : MapRead K} {node : FNode K}

/-- The answered scans find the fields they cast: those of all other accounts and
of all enemies, in the store and in the snapshots that were taken. -/
structure Castable (scanning : Nat → Prop) (account : Nat → Option Int) (w : World K) : Prop where
  stored : ∀ c, scanning c → ∀ q : MapRead K, q.CastsFit (account c) (w.store.getChild q.path)
  taken : ∀ c, scanning c → ∀ tab (q : MapRead K) s,
    ⟨.map tab q,some s⟩ ∈ (w.clients c).reads → q.CastsFit (account c) s

theorem holdsInt_congr {f : String} {node' : FNode K}
    (h : node'.getImmediateChild f = node.getImmediateChild f) (hi : HoldsInt f node) :
    HoldsInt f node' := by
  obtain ⟨n,hn⟩ := hi
  exact ⟨n,by rw [← hn,asInt,asInt,h]⟩

theorem playerFields_updateChild (h : PlayerFields node) {f : String} {v : Value K}
    (hv : SessionField f v) : PlayerFields (node.updateChild [f] (.leaf v)) := by
  have hother (g : String) (hg : g ≠ f) :
      (node.updateChild [f] (.leaf v)).getImmediateChild g = node.getImmediateChild g :=
    PathTree.getImmediateChild_updateImmediateChild_ne node _ hg
  have hself : (node.updateChild [f] (.leaf v)).getImmediateChild f = .leaf v :=
    PathTree.getImmediateChild_updateImmediateChild_self node _ f
  have hnumber (g : String) (hg : HoldsNumber g node) (hd : f = g → ∃ x, v = .double x) :
      HoldsNumber g (node.updateChild [f] (.leaf v)) := by
    by_cases he : f = g
    · obtain ⟨x,rfl⟩ := hd he
      exact Or.inl ⟨x,he ▸ hself⟩
    · rwa [HoldsNumber,hother g (Ne.symm he)]
  obtain ⟨⟨s,hs⟩,hhealth,hpower,hexp,hlat,hlong⟩ := h
  refine ⟨⟨s,?_⟩,hnumber _ hhealth ?_,hnumber _ hpower ?_,?_,hnumber _ hlat ?_,hnumber _ hlong ?_⟩
  · rw [hother _ (by cases hv <;> decide),hs]
  · cases hv <;> simp
  · cases hv <;> simp
  · cases hv with
    | totalExp n => exact holdsInt_of_leaf hself
    | _ => exact holdsInt_congr (hother _ (by decide)) hexp
  · cases hv <;> simp
  · cases hv <;> simp

theorem castsFit_applyWrite {x : Write K} (hx : x.OfAccount account') {store : FNode K}
    (hex : ∀ id, account' = some id → stringOfInt id ∈ (store.getImmediateChild "users").childKeys)
    (h : q.CastsFit account (store.getChild q.path)) :
    q.CastsFit account ((applyWrite x store).getChild q.path) := by
  cases q with
  | findEnemiesAroundUser =>
    simp only [MapRead.path,PathTree.getChild_singleton,MapRead.CastsFit] at h ⊢
    intro child hc
    cases hx with
    | @field id f v hid hv =>
      rw [setValue,collection_applyWrite_of_ne _ _ _ (by decide)] at hc
      exact h child hc
    | @removal enemyID =>
      rw [removeValue,collection_applyWrite] at hc
      rcases PathTree.mem_children_updateImmediateChild hc with ⟨_,he⟩ | hold
      · contradiction
      · exact h child hold
  | findPlayersAroundUser =>
    simp only [MapRead.path,PathTree.getChild_singleton,MapRead.CastsFit] at h ⊢
    intro child hc hk
    cases hx with
    | @field id f v hid hv =>
      rw [setValue,collection_applyWrite] at hc
      rcases PathTree.mem_children_updateImmediateChild hc with ⟨rfl,_⟩ | hold
      · have hold := h _ (PathTree.mem_children_of_mem (hex id hid)) hk
        exact ⟨playerFields_updateChild hold.1 hv,hold.2⟩
      · exact h child hold hk
    | @removal enemyID =>
      rw [removeValue,collection_applyWrite_of_ne _ _ _ (by decide)] at hc
      exact h child hc hk
  | _ => trivial

end

section
variable {K : Type} [Field K] [LinearOrder K] {p : Platform K} {d : Device K}
  {account : Option Int}

theorem EventOutcome.writes_ofAccount {e : Event K} {r : DeviceReaction K}
    (h : EventOutcome p d e r) (hd : ∀ t ∈ d.tabBarVCs, account = some t.map.user.userID) :
    ∀ x ∈ r.writes, x.OfAccount account := by
  intro x hx
  cases h with
  | map ht hr => simp [Device.ofMap,(MapVC.onEvent_effect hr).2.1] at hx
  | @scene tab i t s e r ht hs hr =>
    simp only [Device.ofScene] at hx
    rcases GameScene.receive_effect hr with ⟨_,_,hw,_⟩ | ⟨_,_,hw,_⟩
    · rw [hw] at hx
      rcases List.mem_pair.mp hx with rfl | rfl
      · exact .removal
      · exact .field (hd t (List.mem_of_getElem? ht)) (.totalExp _)
    · simp [hw] at hx
  | _ => contradiction

theorem EventOutcome.reads_ofAccount {e : Event K} {r : DeviceReaction K}
    (h : EventOutcome p d e r) (hd : ∀ t ∈ d.tabBarVCs, account = some t.map.user.userID) :
    ∀ q ∈ r.reads, q.OfAccount account := by
  intro q hq
  cases h with
  | createAccountAction hv =>
    rw [List.mem_singleton.mp hq]
    trivial
  | loginAction =>
    rw [List.mem_singleton.mp hq]
    trivial
  | map ht hr =>
    obtain ⟨mq,_,rfl⟩ := List.mem_map.mp hq
    trivial
  | changePasswordAction ht hn =>
    rw [List.mem_singleton.mp hq]
    exact ⟨_,hd _ (List.mem_of_getElem? ht),rfl⟩
  | _ => contradiction

theorem EventOutcome.sessions_ofAccount {e : Event K} {r : DeviceReaction K}
    (h : EventOutcome p d e r) (hd : ∀ t ∈ d.tabBarVCs, account = some t.map.user.userID) :
    ∀ t ∈ r.locals.tabBarVCs, account = some t.map.user.userID := by
  intro t ht
  obtain ⟨t',ht',hu⟩ := h.sessions t ht
  rw [hu.2.2.1]
  exact hd t' ht'

variable [FloorRing K] {snapshot : FNode K} {draw : Draw K} {q : Read K} {r : DeviceReaction K}

theorem ReadOutcome.writes_ofAccount (h : ReadOutcome p snapshot draw d q r)
    (ho : q.isOperation = true ∨ q.fills = true) (hq : q.OfAccount account)
    (hd : ∀ t ∈ d.tabBarVCs, account = some t.map.user.userID) :
    ∀ x ∈ r.writes, x.OfAccount account := by
  intro x hx
  cases h with
  | addUser hv => simp [Read.isOperation,Read.fills] at ho
  | passwordChanged hs ht hn =>
    obtain ⟨id,hid,rfl⟩ := hq
    rw [List.mem_singleton.mp hx]
    exact .field hid (.password _)
  | @map tab t q mr ht hr =>
    have hid := hd t (List.mem_of_getElem? ht)
    simp only [Device.ofMap] at hx
    rcases (MapVC.onRead_effect hr).2 with ⟨c,_,hw,_⟩ | ⟨enemy,rfl,_⟩ | ⟨hw,_⟩
    · rw [hw] at hx
      rcases List.mem_pair.mp hx with rfl | rfl
      · exact .field hid (.latitude _)
      · exact .field hid (.longitude _)
    · simp [Read.isOperation,Read.fills,MapVC.fills] at ho
    · simp [hw] at hx
  | _ => contradiction

theorem ReadOutcome.no_reads (h : ReadOutcome p snapshot draw d q r)
    (ho : q.isOperation = true ∨ q.fills = true) : r.reads = [] := by
  cases h with
  | userIsNew hv hc => simp [Read.isOperation,Read.fills] at ho
  | @map tab t q mr ht hr =>
    cases q with
    | didUpdateLocations c =>
      cases hr
      rfl
    | findEnemiesAroundUser =>
      obtain ⟨enemies,_,hr⟩ := bind_eq_ok.mp hr
      cases hr
      rfl
    | findPlayersAroundUser =>
      obtain ⟨users,_,hr⟩ := bind_eq_ok.mp hr
      cases hr
      rfl
    | _ => simp [Read.isOperation,Read.fills,MapVC.fills] at ho
  | _ => rfl

theorem ReadOutcome.sessions_ofAccount (h : ReadOutcome p snapshot draw d q r)
    (ho : q.isOperation = true ∨ q.fills = true)
    (hd : ∀ t ∈ d.tabBarVCs, account = some t.map.user.userID) :
    ∀ t ∈ r.locals.tabBarVCs, account = some t.map.user.userID := by
  intro t ht
  rcases h.sessions t ht with ⟨t',ht',hu⟩ | ⟨_,_,rfl,_⟩
  · rw [hu]
    exact hd t' ht'
  · simp [Read.isOperation,Read.fills] at ho

end

section
variable {K : Type} [Field K] [LinearOrder K] [FloorRing K] {p : Platform K} {l : Label K}
  {w w' : World K} {account : Nat → Option Int} {scanning : Nat → Prop}

theorem store_step (hs : step p l w = some w') :
    w'.store = writeTo (appliedWrite l w) w.store := by
  cases l with
  | event c e =>
    obtain ⟨_,rfl⟩ := step_event hs
    rfl
  | snapshot c i =>
    obtain ⟨q,_,rfl⟩ := step_snapshot hs
    rfl
  | deliver c i d =>
    obtain ⟨q,s,_,rfl⟩ := step_deliver hs
    rfl
  | apply c =>
    obtain ⟨x,xs,hx,rfl⟩ := step_apply hs
    simp [appliedWrite,hx,writeTo,backend]

omit [Field K] [LinearOrder K] [FloorRing K] in
theorem LoggedIn.applied (h : LoggedIn account w) {x : Write K} (hx : appliedWrite l w = some x) :
    x.OfAccount (account l.client) := by
  cases l with
  | apply c => exact h.writes c x (List.mem_of_mem_head? hx)
  | _ => contradiction

theorem LoggedIn.step (h : LoggedIn account w) (hl : OnlyOperations scanning l w)
    (hs : GFLGO.step p l w = some w') : LoggedIn account w' := by
  have hop {c i : Nat} {d : Draw K} {rd : Pending (Read K) (FNode K)}
      (hd : l = .deliver c i d) (hrd : (w.clients c).reads[i]? = some rd) :
      rd.read.isOperation = true ∨ rd.read.fills = true := by
    subst hd
    exact (operation_of_onlyOperations hl hrd).imp_right And.left
  refine ⟨h.different,fun c id hid => ?_,fun c => ?_,fun c rd hrd => ?_,fun c x hx => ?_⟩
  · rw [store_step hs]
    cases hx : appliedWrite l w with
    | none => exact h.existing c id hid
    | some x => exact (h.applied hx).childKeys (h.existing c id hid)
  · rcases locals_of_step hs c with hsame | ⟨r,hr,hnew⟩
    · rw [hsame]
      exact h.sessions c
    · rw [hnew]
      cases hr with
      | event hr => exact (onEvent_outcome hr).sessions_ofAccount (h.sessions c)
      | deliver hq hr => exact (onRead_outcome hr).sessions_ofAccount (hop rfl hq) (h.sessions c)
  · rcases mem_reads_step hs hrd with ⟨rd',hrd',hsame⟩ | ⟨r,hr,hnew⟩
    · exact hsame ▸ h.reads c rd' hrd'
    · cases hr with
      | event hr => exact (onEvent_outcome hr).reads_ofAccount (h.sessions c) _ hnew
      | deliver hq hr =>
        rw [(onRead_outcome hr).no_reads (hop rfl hq)] at hnew
        contradiction
  · rcases mem_writes_step hs hx with hold | ⟨r,hr,hnew⟩
    · exact h.writes c x hold
    · cases hr with
      | event hr => exact (onEvent_outcome hr).writes_ofAccount (h.sessions c) x hnew
      | deliver hq hr =>
        exact (onRead_outcome hr).writes_ofAccount (hop rfl hq)
          (h.reads c _ (List.mem_of_getElem? hq)) (h.sessions c) x hnew

theorem Castable.step (h : Castable scanning account w) (hw : LoggedIn account w)
    (hs : GFLGO.step p l w = some w') : Castable scanning account w' where
  stored := by
    intro c hc q
    rw [store_step hs]
    cases hx : appliedWrite l w with
    | none => exact h.stored c hc q
    | some x => exact castsFit_applyWrite (hw.applied hx) (hw.existing l.client) (h.stored c hc q)
  taken := by
    intro c hc tab q s hmem
    rcases snapshot_of_step hs hmem rfl with hold | ⟨i,_,_,he⟩
    · exact h.taken c hc tab q s hold
    · exact he ▸ h.stored c hc q

/-- The sessions may operate, and the scans among their operations succeed. -/
structure Operating (scanning : Nat → Prop) (account : Nat → Option Int) (w : World K) :
    Prop where
  loggedIn : LoggedIn account w
  located : ∀ c, ScansLocated (w.clients c)
  castable : Castable scanning account w

theorem Operating.step (h : Operating scanning account w) (hl : OnlyOperations scanning l w)
    (hs : GFLGO.step p l w = some w') : Operating scanning account w' :=
  ⟨h.loggedIn.step hl hs,fun c => (h.located c).step hs,h.castable.step h.loggedIn hs⟩

end

section
variable {K : Type}

/-- A password change looks at its snapshot, a location update does not. -/
def Read.uses : Read K → FNode K → Option (FNode K)
  | .changeIfValidPassword _ _ _ _, s => some s
  | _, _ => none

/-- A client without its annotations and without the contents of the snapshots
that its writes do not depend on. -/
def essentials (cl : Client K) :
    Async.Client (Device K) (Read K) (Option (FNode K)) (Write K) Trap :=
  { locals := cl.locals.unmarked
    reads := cl.reads.map (fun rd => ⟨rd.read,rd.snapshot.map rd.read.uses⟩)
    writes := cl.writes
    trap := cl.trap }

section
variable {cl cl' : Client K}

theorem pending_of_essentials (h : essentials cl = essentials cl') {i : Nat} {q : Read K}
    {o : Option (FNode K)} (hq : cl.reads[i]? = some ⟨q,o⟩) :
    ∃ o', cl'.reads[i]? = some ⟨q,o'⟩ ∧ o.map q.uses = o'.map q.uses := by
  have hreads := congrArg (fun cl => cl.reads[i]?) h
  simp only [essentials,List.getElem?_map,hq,Option.map_some] at hreads
  obtain ⟨⟨q',o'⟩,hq',he⟩ := Option.map_eq_some_iff.mp hreads.symm
  simp only [Pending.mk.injEq] at he
  obtain ⟨rfl,ho⟩ := he
  exact ⟨o',hq',ho.symm⟩

theorem unread_of_essentials (h : essentials cl = essentials cl') {i : Nat} {q : Read K}
    (hq : cl.reads[i]? = some ⟨q,none⟩) : cl'.reads[i]? = some ⟨q,none⟩ := by
  obtain ⟨o,hq',ho⟩ := pending_of_essentials h hq
  rw [Option.map_none,eq_comm,Option.map_eq_none_iff] at ho
  exact ho ▸ hq'

theorem read_of_essentials (h : essentials cl = essentials cl') {i : Nat} {q : Read K}
    {s : FNode K} (hq : cl.reads[i]? = some ⟨q,some s⟩) :
    ∃ s', cl'.reads[i]? = some ⟨q,some s'⟩ ∧ q.uses s = q.uses s' := by
  obtain ⟨o,hq',ho⟩ := pending_of_essentials h hq
  rw [Option.map_some,eq_comm,Option.map_eq_some_iff] at ho
  obtain ⟨s',rfl,hs⟩ := ho
  exact ⟨s',hq',hs.symm⟩

theorem essentials_absorb (cl : Client K) (r : Except Trap (DeviceReaction K)) :
    essentials (cl.absorb r) =
      (essentials cl).absorb (r.map (Reaction.mapLocals Device.unmarked)) := by
  cases r with
  | error t => rfl
  | ok r => simp [essentials,Client.absorb,Except.map,Reaction.mapLocals,Function.comp_def]

theorem essentials_set (cl : Client K) (i : Nat) (q : Read K) (s : FNode K) :
    essentials { cl with reads := cl.reads.set i ⟨q,some s⟩ } =
      { essentials cl with reads := (essentials cl).reads.set i ⟨q,some (q.uses s)⟩ } := by
  simp [essentials,List.map_set]

theorem essentials_eraseIdx (cl : Client K) (i : Nat) :
    essentials { cl with reads := cl.reads.eraseIdx i } =
      { essentials cl with reads := (essentials cl).reads.eraseIdx i } := by
  simp [essentials,List.eraseIdx_map]

end

variable [Field K] [LinearOrder K] [FloorRing K]

/-- Two states are alike to a client: it is in the same situation, with the same
record. All sessions are logged in, maybe to other accounts in the second state. -/
structure Alike (scanning : Nat → Prop) (account account' : Nat → Option Int) (c : Nat)
    (w v : World K) : Prop where
  left : Operating scanning account w
  right : Operating scanning account' v
  same : account c = account' c
  client : essentials (w.clients c) = essentials (v.clients c)
  record : ∀ id, account c = some id →
    record "users" (stringOfInt id) w.store = record "users" (stringOfInt id) v.store

variable {scanning : Nat → Prop} {account account' : Nat → Option Int} {c : Nat}
  {w w' v v' : World K} {p : Platform K} {l : Label K}

theorem Alike.applied (h : Alike scanning account account' l.client w v) :
    appliedWrite l w = appliedWrite l v := by
  cases l with
  | apply c => exact congrArg (fun cl => cl.writes.head?) h.client
  | _ => rfl

theorem Alike.uses (h : Alike scanning account account' c w v) {q : Read K}
    (hq : q.OfAccount (account c)) :
    q.uses (backend.view q w.store) = q.uses (backend.view q v.store) := by
  cases q with
  | changeIfValidPassword tab vc oldPassword userID =>
    obtain ⟨id,hid,rfl⟩ := hq
    exact congrArg (fun t => some (t.getChild ["password"])) (h.record id hid)
  | _ => rfl

omit [FloorRing K] in
theorem onEvent_congr {e : Event K} (he : e.looks = false) {d d' : Device K}
    (hd : d.unmarked = d'.unmarked) :
    (d.onEvent p e).map (Reaction.mapLocals Device.unmarked) =
      (d'.onEvent p e).map (Reaction.mapLocals Device.unmarked) := by
  rw [← Device.onEvent_unmarked p he,hd,Device.onEvent_unmarked p he]

theorem onRead_congr {q : Read K} (hq : q.isOperation = true) {s s' : FNode K}
    (hs : q.uses s = q.uses s') (draw : Draw K) {d d' : Device K}
    (hd : d.unmarked = d'.unmarked) :
    (d.onRead p q s draw).map (Reaction.mapLocals Device.unmarked) =
      (d'.onRead p q s' draw).map (Reaction.mapLocals Device.unmarked) := by
  have hsame : d'.onRead p q s draw = d'.onRead p q s' draw := by
    cases q with
    | changeIfValidPassword tab vc oldPassword userID => rw [Option.some.inj hs]
    | map tab q =>
      cases q with
      | didUpdateLocations c => rfl
      | _ => contradiction
    | _ => contradiction
  rw [← Device.onRead_unmarked p hq,hd,Device.onRead_unmarked p hq,hsame]

theorem Operating.onRead_fills (h : Operating scanning account w) (hc : scanning c) {tab : Nat}
    {q : MapRead K} (hq : MapVC.fills q = true) {s : FNode K}
    (hmem : ⟨.map tab q,some s⟩ ∈ (w.clients c).reads) (draw : Draw K) :
    ((w.clients c).locals.onRead p (.map tab q) s draw).map (Reaction.mapLocals Device.unmarked) =
      .ok { locals := (w.clients c).locals.unmarked } := by
  refine Device.onRead_fills hq draw (fun t ht => ⟨fun hn => ?_,?_⟩)
  · have := ((h.located c).waiting tab t ht hn).2 _ hmem q rfl
    rw [hq] at this
    contradiction
  · rw [← h.loggedIn.sessions c t (List.mem_of_getElem? ht)]
    exact h.castable.taken c hc tab q s hmem

/-- A session does the same in states that are alike to it. -/
theorem Alike.moves (h : Alike scanning account account' l.client w v)
    (hl : OnlyOperations scanning l w) (hs : step p l w = some w') :
    OnlyOperations scanning l v ∧ ∃ v', step p l v = some v' ∧
      essentials (w'.clients l.client) = essentials (v'.clients l.client) := by
  have hclient := h.client
  have hlocals := congrArg Async.Client.locals hclient
  cases l with
  | event c e =>
    obtain ⟨ht,rfl⟩ := step_event hs
    have htrap := congrArg Async.Client.trap hclient
    refine ⟨hl,_,event_step (htrap.symm.trans ht) e,?_⟩
    simp only [Label.client,react_clients_self,essentials_absorb] at hclient hlocals ⊢
    rw [hclient]
    exact congrArg _ (onEvent_congr hl hlocals)
  | snapshot c i =>
    obtain ⟨q,hq,rfl⟩ := step_snapshot hs
    have hown := h.left.loggedIn.reads c _ (List.mem_of_getElem? hq)
    refine ⟨trivial,_,snapshot_step (unread_of_essentials hclient hq),?_⟩
    simp only [Label.client,setClient_clients_self,essentials_set] at hclient ⊢
    rw [hclient,h.uses hown]
  | deliver c i d =>
    obtain ⟨q,s,hq,rfl⟩ := step_deliver hs
    obtain ⟨s',hq',huses⟩ := read_of_essentials hclient hq
    have hop := operation_of_onlyOperations hl hq
    simp only [Label.client] at hclient hlocals hq' ⊢
    refine ⟨by simpa [OnlyOperations,hq'] using hop,_,deliver_step hq' d,?_⟩
    simp only [react_clients_self,essentials_absorb,essentials_eraseIdx]
    rw [hclient]
    refine congrArg _ ?_
    rcases hop with ho | ⟨hf,hc⟩
    · exact onRead_congr ho huses d hlocals
    · cases q with
      | map tab q =>
        refine (h.left.onRead_fills hc hf (List.mem_of_getElem? hq) d).trans ?_
        refine Eq.trans ?_ (h.right.onRead_fills hc hf (List.mem_of_getElem? hq') d).symm
        exact congrArg (fun d => Except.ok (Device.idle d)) hlocals
      | _ => contradiction
  | apply c =>
    obtain ⟨x,xs,hx,rfl⟩ := step_apply hs
    have hwrites := congrArg Async.Client.writes hclient
    refine ⟨trivial,_,apply_step (hwrites.symm.trans hx),?_⟩
    simp only [Label.client,setClient_clients_self]
    exact congrArg (fun cl => { cl with writes := xs }) hclient

theorem Alike.own (h : Alike scanning account account' l.client w v)
    (hl : OnlyOperations scanning l w) (hs : step p l w = some w') :
    OnlyOperations scanning l v ∧ ∃ v', step p l v = some v' ∧
      Alike scanning account account' l.client w' v' := by
  obtain ⟨hl',v',hs',hclient⟩ := h.moves hl hs
  refine ⟨hl',v',hs',h.left.step hl hs,h.right.step hl' hs',h.same,hclient,fun id hid => ?_⟩
  rw [store_step hs,store_step hs',← h.applied]
  cases hx : appliedWrite l w with
  | none => exact h.record id hid
  | some x => exact (h.left.loggedIn.applied hx).record_congr (h.record id hid)

theorem LoggedIn.other (h : LoggedIn account w) (hc : l.client ≠ c)
    (hs : GFLGO.step p l w = some w') : w'.clients c = w.clients c ∧ ∀ id, account c = some id →
      record "users" (stringOfInt id) w'.store = record "users" (stringOfInt id) w.store := by
  refine ⟨step_clients_ne hs hc.symm,fun id hid => ?_⟩
  rw [store_step hs]
  cases hx : appliedWrite l w with
  | none => rfl
  | some x => exact (h.applied hx).record_of_ne (fun he => hc (h.different _ _ id he hid)) w.store

theorem unwinding (p : Platform K) (scanning : Nat → Prop) (account account' : Nat → Option Int) :
    Unwinding Label.client (step p) (OnlyOperations scanning)
      (Alike scanning account account') where
  own := fun h hl hs => h.own hl hs
  left := fun hc h hl hs => by
    obtain ⟨hclient,hrecord⟩ := h.left.loggedIn.other hc hs
    exact ⟨h.left.step hl hs,h.right,h.same,by rw [hclient,h.client],
      fun id hid => (hrecord id hid).trans (h.record id hid)⟩
  right := fun hc h hl hs => by
    obtain ⟨hclient,hrecord⟩ := h.right.loggedIn.other hc hs
    exact ⟨h.left,h.right.step hl hs,h.same,by rw [hclient,h.client],
      fun id hid => (h.record id hid).trans (hrecord id (h.same ▸ hid)).symm⟩

theorem appliedWrite_of_ne {a b : Label K} (hs : step p a w = some w') (hab : a.client ≠ b.client) :
    appliedWrite b w' = appliedWrite b w := by
  cases b with
  | apply c => exact congrArg (fun cl => cl.writes.head?) (step_clients_ne hs hab.symm)
  | _ => rfl

omit [Field K] [LinearOrder K] [FloorRing K] in
theorem LoggedIn.swap (h : LoggedIn account w) {a b : Label K} (hab : a.client ≠ b.client) :
    writeTo (appliedWrite b w) (writeTo (appliedWrite a w) w.store) =
      writeTo (appliedWrite a w) (writeTo (appliedWrite b w) w.store) := by
  cases hx : appliedWrite a w with
  | none => rfl
  | some x =>
    cases hy : appliedWrite b w with
    | none => rfl
    | some y =>
      refine applyWrite_comm (h.applied hx) (h.applied hy) (fun id hid hid' => ?_)
        (h.existing a.client) (h.existing b.client)
      exact hab (h.different _ _ id hid hid')

theorem commuting (p : Platform K) (scanning : Nat → Prop) (account : Nat → Option Int) :
    Commuting Label.client (step p) (OnlyOperations scanning) (Alike scanning account account)
      (fun w => w.store) where
  toUnwinding := unwinding p scanning account account
  follow := fun h hst hs ht => by
    rw [store_step hs,store_step ht,← h.applied]
    exact congrArg (writeTo _) hst
  swap := fun hab hr ha hb hb' ha' => by
    have hs := (hr 0).left.loggedIn
    rw [store_step hb,store_step ha',store_step ha,store_step hb',appliedWrite_of_ne ha hab,
      appliedWrite_of_ne hb' hab.symm]
    exact LoggedIn.swap hs hab

/-- The sessions' steps leave the same in whatever order they are interleaved,
also one session after the other, and a record depends on its own session alone.
A session whose app has trapped takes no further steps. -/
structure Independent (p : Platform K) (scanning : Nat → Prop) (account : Nat → Option Int)
    (ls : List (Label K)) (w₀ w : World K) : Prop where
  interleavings : ∀ ls', SameActions Label.client ls ls' → (play (step p) ls' w₀).store = w.store
  sequential : ∀ cs : List Nat, cs.Nodup → (∀ l ∈ ls, l.client ∈ cs) →
    (play (step p) (oneByOne Label.client cs ls) w₀).store = w.store
  records : ∀ c id account' w₀' ls' w', account c = some id → account' c = some id →
    Operating scanning account' w₀' → w₀'.clients c = w₀.clients c →
    record "users" (stringOfInt id) w₀'.store = record "users" (stringOfInt id) w₀.store →
    ownActions Label.client c ls' = ownActions Label.client c ls →
    Along (step p) (OnlyOperations scanning) ls' w₀' → run (step p) ls' w₀' = some w' →
    record "users" (stringOfInt id) w'.store = record "users" (stringOfInt id) w.store

theorem Operating.alike (h : Operating scanning account w) (c : Nat) :
    Alike scanning account account c w w :=
  ⟨h,h,rfl,rfl,fun _ _ => rfl⟩

theorem interleavings_of_operating (hw : Operating scanning account w) {ls ls' : List (Label K)}
    (hc : Along (step p) (OnlyOperations scanning) ls w) (hr : run (step p) ls w = some w')
    (hsame : SameActions Label.client ls ls') :
    ∃ v, run (step p) ls' w = some v ∧ v.store = w'.store := by
  obtain ⟨v,hv,hstore⟩ := (commuting p scanning account).interleave hsame hw.alike ⟨hc,hr⟩
  exact ⟨v,hv.2,hstore.symm⟩

theorem play_of_operating (hw : Operating scanning account w) {ls ls' : List (Label K)}
    (hc : Along (step p) (OnlyOperations scanning) ls w) (hr : run (step p) ls w = some w')
    (hsame : SameActions Label.client ls ls') : (play (step p) ls' w).store = w'.store := by
  obtain ⟨v,hv,hstore⟩ := interleavings_of_operating hw hc hr hsame
  rw [play_of_run (step p) hv,hstore]

/-- Sessions of different accounts do not interfere, as long as their scans find
the fields they cast. -/
theorem independent_of_castable {ls : List (Label K)} (hw : LoggedIn account w)
    (hlocated : ∀ c, ScansLocated (w.clients c)) (hcast : Castable scanning account w)
    (hc : Along (step p) (OnlyOperations scanning) ls w) (hr : run (step p) ls w = some w') :
    Independent p scanning account ls w w' where
  interleavings := fun ls' hsame => play_of_operating ⟨hw,hlocated,hcast⟩ hc hr hsame
  sequential := fun cs hn hcs =>
    play_of_operating ⟨hw,hlocated,hcast⟩ hc hr (sameActions_oneByOne hn hcs)
  records := by
    intro c id account' w₀' ls' v hid hid' hw' hclient hrecord hown hc' hr'
    have hstart : Alike scanning account account' c w w₀' := by
      refine ⟨⟨hw,hlocated,hcast⟩,hw',hid.trans hid'.symm,by rw [hclient],fun id' hid₁ => ?_⟩
      obtain rfl : id = id' := Option.some.inj (hid.symm.trans hid₁)
      exact hrecord.symm
    have hend := (unwinding p scanning account account').alike hown.symm hstart ⟨hc,hr⟩ ⟨hc',hr'⟩
    exact (hend.record id hid).symm

end

/-! Two sessions, whose first fixes ask for the scans. -/

def annAndBob : Nat → Option Int
  | 0 => some 0
  | 1 => some 1
  | _ => none

def annUser : User ℚ := User.init "ann" (some "pw") 0 50 3.2 10

def bobUser : User ℚ := User.init "bob" (some "pw") 1 50 3.2 10

def session (t : TabBarVC ℚ) : Client ℚ := { locals := { tabBarVCs := [t] } }

def annAndBobIn (store : FNode ℚ) (ann bob : TabBarVC ℚ) : World ℚ :=
  { store
    clients := fun c =>
      if c = 0 then session ann else if c = 1 then session bob else { locals := {} } }

theorem loggedIn_annAndBobIn {store : FNode ℚ} {ann bob : TabBarVC ℚ}
    (hkeys : (store.getImmediateChild "users").childKeys = ["0","1"])
    (hann : ann.map.user.userID = 0) (hbob : bob.map.user.userID = 1) :
    LoggedIn annAndBob (annAndBobIn store ann bob) where
  different := by
    rintro (_ | _ | c) (_ | _ | c') id h h' <;>
      simp only [annAndBob,Option.some.injEq,reduceCtorEq] at h h' ⊢ <;> omega
  existing := by
    rintro (_ | _ | c) id h <;>
      simp only [annAndBob,Option.some.injEq,reduceCtorEq] at h <;> subst h <;>
      rw [annAndBobIn,hkeys] <;> decide
  sessions := by
    rintro (_ | _ | c) t ht
    · rw [List.mem_singleton.mp ht,hann]
      rfl
    · rw [List.mem_singleton.mp ht,hbob]
      rfl
    · contradiction
  reads := by
    rintro (_ | _ | c) rd hrd <;> contradiction
  writes := by
    rintro (_ | _ | c) x hx <;> contradiction

theorem scansLocated_annAndBobIn {store : FNode ℚ} {ann bob : TabBarVC ℚ}
    (hann : ann.map.firstCenter = true) (hbob : bob.map.firstCenter = true) (c : Nat) :
    ScansLocated ((annAndBobIn store ann bob).clients c) := by
  rcases c with _ | _ | c
  · refine ⟨by simp [annAndBobIn,session],fun tab t ht _ => ⟨?_,by simp [annAndBobIn,session]⟩⟩
    rw [List.mem_singleton.mp (List.mem_of_getElem? ht),hann]
  · refine ⟨by simp [annAndBobIn,session],fun tab t ht _ => ⟨?_,by simp [annAndBobIn,session]⟩⟩
    rw [List.mem_singleton.mp (List.mem_of_getElem? ht),hbob]
  · exact ⟨by simp [annAndBobIn],by simp [annAndBobIn]⟩

/-- Ann has reported a location, bob has just signed up. -/
def bobUnlocated : FNode ℚ :=
  drain (MapVC.locationWrites annUser ⟨0,0⟩ ++ SignupVC.userWrites "1" bobUser) annStore

/-- When ann comes first, her scan of the players traps on bob's record. -/
def bothLocate : List (Label ℚ) := locate 1 sampleDraw 0 ⟨1,1⟩ ++ locate 0 sampleDraw 0 ⟨1,1⟩

theorem not_independent : ¬ ∀ (account : Nat → Option Int) (ls : List (Label ℚ)) (w w' : World ℚ),
    LoggedIn account w → (∀ c, ScansLocated (w.clients c)) →
    Along (step planePlatform) (OnlyOperations (fun _ => True)) ls w →
    run (step planePlatform) ls w = some w' →
    Independent planePlatform (fun _ => True) account ls w w' := by
  intro h
  let w₀ : World ℚ :=
    annAndBobIn bobUnlocated { map := { user := annUser } } { map := { user := bobUser } }
  have hends : (run (step planePlatform) bothLocate w₀).map (fun w =>
        (asDouble .findPlayersAroundUser "latitude" (record "users" "0" w.store)).toOption) =
          some (some 1) ∧
      (asDouble .findPlayersAroundUser "latitude" (record "users" "0"
        (play (step planePlatform) (oneByOne Label.client [0,1] bothLocate) w₀).store)).toOption =
          some 0 := by
    decide +kernel
  obtain ⟨w,hw,hone⟩ := Option.map_eq_some_iff.mp hends.1
  have hin := h annAndBob bothLocate w₀ w
    (loggedIn_annAndBobIn (by decide +kernel) rfl rfl) (scansLocated_annAndBobIn rfl rfl)
    (by decide +kernel) hw
  have hzero := hends.2
  rw [hin.sequential [0,1] (by decide) (by decide),hone] at hzero
  simp at hzero

/-! Ann changes her password, bob moves, and both defeat the same enemy. -/

def sharedEnemy : Enemy ℚ := Enemy.init 3 ⟨0,0⟩ "u0e1d0" 2 "Aegis"

def inBattle (user : User ℚ) : TabBarVC ℚ :=
  { map := { user }
    scenes := [GameScene.didMove user sharedEnemy]
    newPasswordVCs := [⟨"pw","new"⟩] }

def bothLocated : FNode ℚ :=
  drain (MapVC.locationWrites bobUser ⟨0,0⟩ ++ MapVC.enemyWrites sharedEnemy) bobUnlocated

def twoBattles : World ℚ := annAndBobIn bothLocated (inBattle annUser) (inBattle bobUser)

theorem castable_twoBattles : Castable (fun _ => True) annAndBob twoBattles where
  stored := by
    have hplayers : ∀ account, MapRead.findPlayersAroundUser.CastsFit account
        (bothLocated.getImmediateChild "users") := by
      intro account child hc _
      exact (show ∀ child ∈ (bothLocated.getImmediateChild "users").children,
        PlayerFields child.2 ∧ intOfString child.1 ≠ none by decide +kernel) child hc
    have henemies : MapRead.findEnemiesAroundUser.CastsFit none
        (bothLocated.getImmediateChild "enemies") := by
      decide +kernel
    intro c _ q
    cases q with
    | findPlayersAroundUser => exact hplayers _
    | findEnemiesAroundUser => exact henemies
    | _ => trivial
  taken := by
    rintro (_ | _ | c) _ tab q s h <;> contradiction

def interleavedPlay : List (Label ℚ) :=
  [.event 0 (.changePasswordAction 0 0),.event 1 (.map 0 (.didUpdateLocations [⟨1,1⟩])),
   .event 0 (.map 0 (.didUpdateLocations [⟨1,1⟩])),.snapshot 0 0,.snapshot 1 2,.snapshot 0 2] ++
  tapAttack 0 0 0 ++ tapAttack 1 0 0 ++
  [.apply 1,.deliver 0 2 sampleDraw,.deliver 0 0 sampleDraw,.apply 0,.deliver 1 2 sampleDraw,
   .apply 1,.apply 0,.snapshot 1 1,.snapshot 0 1,.apply 1,.apply 0,.apply 1,
   .deliver 1 1 sampleDraw,.deliver 0 1 sampleDraw] ++
  answer 0 sampleDraw ++ answer 1 sampleDraw ++ [.apply 0,.apply 0]

theorem independent_interleavedPlay : ∃ w,
    run (step planePlatform) interleavedPlay twoBattles = some w ∧
      Independent planePlatform (fun _ => True) annAndBob interleavedPlay twoBattles w := by
  have hrun : (run (step planePlatform) interleavedPlay twoBattles).isSome = true := by
    decide +kernel
  obtain ⟨w,hw⟩ := Option.isSome_iff_exists.mp hrun
  exact ⟨w,hw,independent_of_castable (loggedIn_annAndBobIn (by decide +kernel) rfl rfl)
    (scansLocated_annAndBobIn rfl rfl) castable_twoBattles (by decide +kernel) hw⟩

end GFLGO
