import GFLGO.Publishing
import GFLGO.UserKeys

/-! Readers against the records that other clients are still writing. -/

set_option autoImplicit false

namespace GFLGO

open Runs Async

section
variable {K : Type}

def userFields : List String := ["username","password","health","power","totalExp"]

def enemyFields : List String := ["name","health","power","latitude","longitude"]

/-- The collection a scan reads, and the fields it cannot do without. -/
def Read.scan : Read K → Option (String × List String)
  | .checkIfUserExists _ _ => some ("users",["username"])
  | .loginIfValid _ _ => some ("users",userFields)
  | .map _ .findEnemiesAroundUser | .map _ .getNumberOfEnemiesAroundUser =>
    some ("enemies",enemyFields)
  | _ => none

def scans : List (String × List String) :=
  [("users",["username"]),("users",userFields),("enemies",enemyFields)]

theorem Read.scan_mem {q : Read K} {s : String × List String} (h : q.scan = some s) :
    s ∈ scans := by
  cases q with
  | checkIfUserExists vc tap => cases h; simp [scans]
  | loginIfValid username password => cases h; simp [scans]
  | map tab q => cases q <;> cases h <;> simp [scans]
  | _ => contradiction

theorem Read.path_of_scan {q : Read K} {s : String × List String} (h : q.scan = some s) :
    q.path = [s.1] := by
  cases q with
  | checkIfUserExists vc tap => cases h; rfl
  | loginIfValid username password => cases h; rfl
  | map tab q => cases q <;> cases h <;> rfl
  | _ => contradiction

/-- Signing up, logging in, spawning and looking around, on any number of maps. -/
def Event.publishes : Event K → Bool
  | .scene _ _ _ | .changePasswordAction _ _ => false
  | _ => true

def PublishLabel : Label K → Prop
  | .event _ e => e.publishes = true
  | _ => True

instance (l : Label K) : Decidable (PublishLabel l) :=
  match l with
  | .event _ e => inferInstanceAs (Decidable (e.publishes = true))
  | .snapshot _ _ | .deliver _ _ _ | .apply _ => isTrue trivial

/-- A scan takes its snapshot while no client's next write is one of the fields it casts. -/
def ScansWhole : Label K → World K → Prop
  | .snapshot c i, w => ∀ q s, (w.clients c).reads[i]? = some ⟨q,none⟩ → q.scan = some s →
    ∀ c' x xs key f, (w.clients c').writes = x :: xs → x.path = [s.1,key,f] → f ∉ s.2
  | _, _ => True

/-- What the pending reads of such runs are. -/
def PublishRead : Read K → Prop
  | .changeIfValidPassword _ _ _ _ => False
  | .map _ (.addEnemyToFirebase enemy) => enemy.name.isSome
  | _ => True

variable [Field K] [LinearOrder K] [FloorRing K]

def scanners : List Reader :=
  [.checkIfUserExists,.loginIfValid,.findEnemiesAroundUser,.getNumberOfEnemiesAroundUser]

def Read.casts : Read K → FNode K → Prop
  | .checkIfUserExists _ _ => HoldsString "username"
  | .loginIfValid _ _ => LoginFields
  | .map _ .findEnemiesAroundUser => EnemyFields
  | .map _ .getNumberOfEnemiesAroundUser => CountFields
  | _ => fun _ => True

/-- Every child of every snapshot has what the scan casts, and no scan has trapped on a cast. -/
structure ReadersSafe (w : World K) : Prop where
  complete : ∀ c r snapshot, r ∈ (w.clients c).reads → r.snapshot = some snapshot →
    ∀ child ∈ snapshot.children, r.read.casts child.2
  untrapped : ∀ c, ∀ reader ∈ scanners, ∀ field, (w.clients c).trap ≠ some (.cast reader field)

structure Published (s : String × List String) (w : World K) : Prop where
  nodup : (w.store.getImmediateChild s.1).childKeys.Nodup
  covered : Covered s.1 s.2 w.store (fun c => (w.clients c).writes)
  outbox : ∀ c, Outbox s.1 s.2 (· ∈ (w.store.getImmediateChild s.1).childKeys)
    (w.clients c).writes
  snapshots : ∀ c r snapshot, r ∈ (w.clients c).reads → r.read.scan = some s →
    r.snapshot = some snapshot → ∀ child ∈ snapshot.children, ∀ f ∈ s.2, Holds f child.2

theorem Published.react {s : String × List String} {w : World K} (h : Published s w) {c : Nat}
    {cl : Client K} (notes : List (Nat × Note K)) (vs : List (Write K))
    (hw : cl.writes = (w.clients c).writes ++ vs)
    (hv : Outbox s.1 s.2 (· ∈ (w.store.getImmediateChild s.1).childKeys) vs)
    (hr : ∀ r ∈ cl.reads, r ∈ (w.clients c).reads ∨ r.snapshot = none) :
    Published s { w.setClient c cl with notes := notes } := by
  refine ⟨h.nodup,fun key hk f hf => ?_,?_,?_⟩
  · rcases h.covered key hk f hf with hold | ⟨c',hm⟩
    · exact Or.inl hold
    · refine Or.inr ⟨c',?_⟩
      by_cases he : c' = c
      · subst he
        simpa [hw] using hm.append vs
      · simpa only [setClient_clients_ne w c cl he] using hm
  · exact forall_clients_update (R := fun _ cl => Outbox s.1 s.2
      (· ∈ (w.store.getImmediateChild s.1).childKeys) cl.writes)
      (hw ▸ (h.outbox c).append hv) (fun c' _ => h.outbox c')
  · intro c' r snapshot hmem hscan hs
    by_cases he : c' = c
    · subst he
      simp only [setClient_clients_self] at hmem
      rcases hr r hmem with hold | hnone
      · exact h.snapshots c' r snapshot hold hscan hs
      · rw [hnone] at hs
        contradiction
    · simp only [setClient_clients_ne w c cl he] at hmem
      exact h.snapshots c' r snapshot hmem hscan hs

/-- A snapshot taken while nobody is in the middle of a record has every field. -/
theorem Published.snapshot {s : String × List String} {w : World K} (h : Published s w)
    {c i : Nat} {q : Read K} (hq : (w.clients c).reads[i]? = some ⟨q,none⟩)
    (hc : ScansWhole (.snapshot c i) w) :
    Published s (w.setClient c { w.clients c with
      reads := (w.clients c).reads.set i ⟨q,some (backend.view q w.store)⟩ }) := by
  have hwrites (c' : Nat) : ((w.setClient c { w.clients c with
      reads := (w.clients c).reads.set i ⟨q,some (backend.view q w.store)⟩ }).clients c').writes =
        (w.clients c').writes :=
    clients_update_congr Client.writes (by rfl) c'
  refine ⟨h.nodup,?_,?_,?_⟩
  · simp only [hwrites]
    exact h.covered
  · simp only [hwrites]
    exact h.outbox
  · intro c' r snapshot hmem hscan hs
    by_cases he : c' = c
    · subst he
      simp only [setClient_clients_self] at hmem
      rcases List.mem_or_eq_of_mem_set hmem with hold | rfl
      · exact h.snapshots c' r snapshot hold hscan hs
      · simp only [Option.some.injEq] at hs hscan
        rw [view_eq,Read.path_of_scan hscan,PathTree.getChild_singleton] at hs
        subst hs
        intro child hchild f hf
        have hkey : child.1 ∈ (w.store.getImmediateChild s.1).childKeys :=
          List.mem_map_of_mem hchild
        have hrec : record s.1 child.1 w.store = child.2 := by
          rw [record_eq]
          exact PathTree.getImmediateChild_of_mem h.nodup hchild
        rcases h.covered child.1 hkey f hf with hold | ⟨c'',hm⟩
        · exact hrec ▸ hold
        · -- an outbox in the middle of this record would have one of its fields next
          cases hx : (w.clients c'').writes with
          | nil => simp [hx,MidRecord,upcoming] at hm
          | cons x xs =>
            simp only [hx] at hm
            obtain ⟨g,hg,hpath⟩ := hm.head.1
            exact absurd hg (hc q s hq hscan c'' x xs child.1 g hx hpath)
    · simp only [setClient_clients_ne w c _ he] at hmem
      exact h.snapshots c' r snapshot hmem hscan hs

theorem Published.apply {s : String × List String} {w : World K} (h : Published s w) {c : Nat}
    {x : Write K} {xs : List (Write K)} (ha : x.Addressed)
    (hx : (w.clients c).writes = x :: xs) :
    Published s { w.setClient c { w.clients c with writes := xs } with
      store := applyWrite x w.store } := by
  obtain ⟨hkeys,hcov,hout⟩ := h.covered.apply hx (hx ▸ h.outbox c)
  have hwrites : (fun c' => ((w.setClient c { w.clients c with writes := xs }).clients c').writes) =
      Function.update (fun c' => (w.clients c').writes) c xs := by
    funext c'
    by_cases he : c' = c
    · subst he
      simp
    · simp [setClient_clients_ne w c _ he,he]
  refine ⟨?_,?_,?_,?_⟩
  · obtain ⟨coll,key,rest,hpath⟩ := ha
    obtain ⟨path,node⟩ := x
    simp only at hpath
    subst hpath
    by_cases hcoll : s.1 = coll
    · subst hcoll
      rw [collection_applyWrite]
      exact PathTree.nodup_childKeys_updateImmediateChild _ _ h.nodup
    · rw [collection_applyWrite_of_ne _ _ _ hcoll]
      exact h.nodup
  · simpa only [hwrites] using hcov
  · exact forall_clients_update (R := fun _ cl => Outbox s.1 s.2
      (· ∈ ((applyWrite x w.store).getImmediateChild s.1).childKeys) cl.writes)
      hout (fun c' _ => (h.outbox c').mono hkeys)
  · exact forall_clients_update (R := fun _ (cl : Client K) =>
      ∀ (r : Pending (Read K) (FNode K)) (snapshot : FNode K), r ∈ cl.reads →
        r.read.scan = some s → r.snapshot = some snapshot →
          ∀ child ∈ snapshot.children, ∀ f ∈ s.2, Holds f child.2)
      (h.snapshots c) (fun c' _ => h.snapshots c')

theorem Published.absorb {s : String × List String} {w : World K} (h : Published s w) {c : Nat}
    {cl : Client K} {res : Except Trap (DeviceReaction K)}
    (hr : ∀ r ∈ cl.reads, r ∈ (w.clients c).reads) (hw : cl.writes = (w.clients c).writes)
    (hout : ∀ r, res = .ok r →
      Outbox s.1 s.2 (· ∈ (w.store.getImmediateChild s.1).childKeys) r.writes) :
    Published s (w.react c cl res) := by
  cases res with
  | error t =>
    rw [react_error]
    exact h.react w.notes [] (by simp [hw]) .nil (by simp)
  | ok r =>
    rw [react_ok]
    refine h.react _ r.writes (by simp [hw]) (hout r rfl) ?_
    intro r' hmem
    rcases List.mem_append.mp hmem with hold | hnew
    · exact Or.inl (hr r' hold)
    · obtain ⟨q,_,rfl⟩ := List.mem_map.mp hnew
      exact Or.inr rfl

theorem Published.step {s : String × List String} {p : Platform K} {l : Label K} {w w' : World K}
    (h : Published s w) (hc : ScansWhole l w)
    (ha : ∀ c, ∀ x ∈ (w.clients c).writes, x.Addressed)
    (hout : ∀ c r, Reacts (program p) w c r l →
      Outbox s.1 s.2 (· ∈ (w.store.getImmediateChild s.1).childKeys) r.writes)
    (hs : GFLGO.step p l w = some w') : Published s w' := by
  cases l with
  | event c e =>
    obtain ⟨_,rfl⟩ := step_event hs
    exact h.absorb (fun _ hr => hr) rfl (fun r he => hout c r (.event he))
  | snapshot c i =>
    obtain ⟨q,hq,rfl⟩ := step_snapshot hs
    exact h.snapshot hq hc
  | deliver c i d =>
    obtain ⟨q,snapshot,hq,rfl⟩ := step_deliver hs
    exact h.absorb (fun _ hr => List.mem_of_mem_eraseIdx hr) rfl
      (fun r he => hout c r (.deliver hq he))
  | apply c =>
    obtain ⟨x,xs,hx,rfl⟩ := step_apply hs
    refine h.apply (ha c x ?_) hx
    rw [hx]
    exact List.mem_cons_self

theorem fits_string {f u : String} (hf : f ∈ ["username","password","name"]) :
    Fits f (.string u : Value K) := by
  intro node hn
  rw [Holds,if_pos hf]
  exact ⟨u,hn⟩

theorem fits_totalExp {n : Int} : Fits "totalExp" (.int n : Value K) :=
  fun _ hn => holdsInt_of_leaf hn

theorem fits_double {f : String} {x : K} (hf : f ∉ ["username","password","name"])
    (he : f ≠ "totalExp") : Fits f (.double x) := by
  intro node hn
  rw [Holds,if_neg hf,if_neg he]
  exact Or.inl ⟨x,hn⟩

theorem outbox_userWrites {s : String × List String} (hs : s ∈ scans) (known : String → Prop)
    (key : String) {user : User K} {pw : String} (hp : user.password = some pw) :
    Outbox s.1 s.2 known (SignupVC.userWrites key user) := by
  have hfields {fields : List String} (hmid : ∀ f ∈ fields, MidRecord "users" fields key f
      (SignupVC.userWrites key user).tail) :
      Outbox "users" fields known (SignupVC.userWrites key user) := by
    rw [SignupVC.userWrites,hp] at hmid ⊢
    refine .node hmid (.field (Or.inr rfl) (fun _ => fits_string (by simp))
      (.field (Or.inr rfl) (fun _ => fits_string (by simp))
      (.field (Or.inr rfl) (fun _ => fits_double (by simp) (by simp))
      (.field (Or.inr rfl) (fun _ => fits_double (by simp) (by simp))
      (.field (Or.inr rfl) (fun _ => fits_totalExp) .nil)))))
  simp only [scans,List.mem_cons,List.not_mem_nil,or_false] at hs
  rcases hs with rfl | rfl | rfl
  · refine hfields ?_
    simp [SignupVC.userWrites,MidRecord,upcoming,isFieldOf,setValue]
  · refine hfields ?_
    simp [SignupVC.userWrites,hp,MidRecord,upcoming,isFieldOf,setValue,setOptional,userFields]
  · unfold SignupVC.userWrites
    cases user.password <;> exact .other (by decide) (.other (by decide) (.other (by decide)
      (.other (by decide) (.other (by decide) (.other (by decide) .nil)))))

theorem outbox_enemyWrites {s : String × List String} (hs : s ∈ scans) (known : String → Prop)
    {enemy : Enemy K} (hn : enemy.name.isSome) :
    Outbox s.1 s.2 known (MapVC.enemyWrites enemy) := by
  obtain ⟨name,hname⟩ := Option.isSome_iff_exists.mp hn
  simp only [scans,List.mem_cons,List.not_mem_nil,or_false] at hs
  rw [MapVC.enemyWrites,hname]
  rcases hs with rfl | rfl | rfl
  · exact .other (by decide) (.other (by decide) (.other (by decide)
      (.other (by decide) (.other (by decide) (.other (by decide) .nil)))))
  · exact .other (by decide) (.other (by decide) (.other (by decide)
      (.other (by decide) (.other (by decide) (.other (by decide) .nil)))))
  · refine .node ?_ (.field (Or.inr rfl) (fun _ => fits_string (by simp))
      (.field (Or.inr rfl) (fun _ => fits_double (by simp) (by simp))
      (.field (Or.inr rfl) (fun _ => fits_double (by simp) (by simp))
      (.field (Or.inr rfl) (fun _ => fits_double (by simp) (by simp))
      (.field (Or.inr rfl) (fun _ => fits_double (by simp) (by simp)) .nil)))))
    simp [MidRecord,upcoming,isFieldOf,setValue,setOptional,enemyFields]

theorem outbox_locationWrites {s : String × List String} (hs : s ∈ scans) {n : Nat}
    {users : FNode K} (hk : InitialSegment n users) {user : User K} (hu : user.HasKey n)
    (c : Coordinate K) {known : String → Prop}
    (hknown : s.1 = "users" → ∀ key ∈ users.childKeys, known key) :
    Outbox s.1 s.2 known (MapVC.locationWrites user c) := by
  obtain ⟨k,hlt,he⟩ := hu
  have hmem := hk.key_mem.mpr hlt
  simp only [scans,List.mem_cons,List.not_mem_nil,or_false] at hs
  rw [MapVC.locationWrites,he]
  rcases hs with rfl | rfl | rfl
  · exact .field (hknown rfl _ hmem) (by simp) (.field (hknown rfl _ hmem) (by simp) .nil)
  · exact .field (hknown rfl _ hmem) (by simp [userFields])
      (.field (hknown rfl _ hmem) (by simp [userFields]) .nil)
  · exact .other (by decide) (.other (by decide) .nil)

omit [LinearOrder K] [FloorRing K] in
theorem spawnEnemy_named {p : Platform K} {d : Draw K} {m : MapVC K} {r : MapReaction K}
    (h : m.spawnEnemy p d = .ok r) : ∀ q ∈ r.reads, ∀ tab, PublishRead (.map tab q) := by
  obtain ⟨location,_,h⟩ := bind_eq_ok.mp h
  cases h
  intro q hq tab
  rw [List.mem_singleton.mp hq]
  rfl

omit [LinearOrder K] [FloorRing K] in
theorem onEvent_named {p : Platform K} {e : MapEvent K} {m : MapVC K} {r : MapReaction K}
    (h : m.onEvent p e = .ok r) : ∀ q ∈ r.reads, ∀ tab, PublishRead (.map tab q) := by
  intro q hq tab
  cases q with
  | addEnemyToFirebase enemy =>
    cases e with
    | addEnemyAction d => exact spawnEnemy_named h _ hq tab
    | viewWillAppear =>
      cases h
      simp only [MapVC.viewWillAppear] at hq
      split at hq <;> simp [MapVC.setUpAnnotations] at hq
    | didUpdateLocations locations =>
      obtain ⟨c,_,h⟩ := bind_eq_ok.mp h
      obtain ⟨r',hr,h⟩ := bind_eq_ok.mp h
      cases h
      cases hf : m.firstCenter <;>
        simp [MapVC.setUserLocation,hf,MapVC.centerMap,bind,Except.bind,MapVC.setUpAnnotations]
          at hr <;>
        simp [← hr] at hq
    | centerAction =>
      obtain ⟨m',_,h⟩ := bind_eq_ok.mp h
      cases h
      simp [MapVC.setUpAnnotations] at hq
    | viewDidDisappear => cases h; simp at hq
    | timerTick => cases h; simp at hq
    | didSelect i => cases h; simp at hq
    | touchesBegan onCallout => cases h; simp at hq
  | _ => trivial

omit [FloorRing K] in
theorem onRead_named [FloorRing K] {p : Platform K} {q : MapRead K} {snapshot : FNode K}
    {d : Draw K} {m : MapVC K} {r : MapReaction K} (h : m.onRead p q snapshot d = .ok r) :
    ∀ q' ∈ r.reads, ∀ tab, PublishRead (.map tab q') := by
  cases q with
  | didUpdateLocations c => cases h; simp
  | findEnemiesAroundUser =>
    obtain ⟨enemies,_,h⟩ := bind_eq_ok.mp h
    cases h
    simp
  | findPlayersAroundUser =>
    obtain ⟨players,_,h⟩ := bind_eq_ok.mp h
    cases h
    simp
  | getNumberOfEnemiesAroundUser =>
    obtain ⟨numEnemies,_,h⟩ := bind_eq_ok.mp h
    split at h
    · exact spawnEnemy_named h
    · cases h
      simp
  | addEnemyToFirebase enemy => cases h; simp

omit [FloorRing K] in
theorem EventOutcome.publishReads {p : Platform K} {d : Device K} {e : Event K}
    {r : DeviceReaction K} (h : EventOutcome p d e r) (he : e.publishes = true) :
    r.writes = [] ∧ ∀ q ∈ r.reads, PublishRead q := by
  cases h with
  | map ht hr =>
    refine ⟨(MapVC.onEvent_effect hr).2.1,fun q hq => ?_⟩
    obtain ⟨mq,hmq,rfl⟩ := List.mem_map.mp hq
    exact onEvent_named hr mq hmq _
  | createAccountAction hv => exact ⟨rfl,by simp [PublishRead]⟩
  | loginAction => exact ⟨rfl,by simp [PublishRead]⟩
  | scene ht hs hr => contradiction
  | changePasswordAction ht hn => contradiction
  | _ => exact ⟨rfl,by simp [Device.idle]⟩

structure ReadersInv (w : World K) : Prop where
  keys : ∃ n, KeysInv n w
  published : ∀ s ∈ scans, Published s w
  reads : ∀ c, ∀ r ∈ (w.clients c).reads, PublishRead r.read
  untrapped : ∀ c, ∀ reader ∈ scanners, ∀ field, (w.clients c).trap ≠ some (.cast reader field)

theorem ReadersInv.casts {w : World K} (h : ReadersInv w) {c : Nat}
    {r : Pending (Read K) (FNode K)} {snapshot : FNode K} (hr : r ∈ (w.clients c).reads)
    (hs : r.snapshot = some snapshot) : ∀ child ∈ snapshot.children, r.read.casts child.2 := by
  intro child hchild
  have hfields (s : String × List String) (hscan : r.read.scan = some s) :
      ∀ f ∈ s.2, Holds f child.2 :=
    (h.published s (Read.scan_mem hscan)).snapshots c r snapshot hr hscan hs child hchild
  obtain ⟨q,_⟩ := r
  cases q with
  | checkIfUserExists vc tap =>
    have := hfields _ rfl
    simpa [Holds,Read.casts] using this
  | loginIfValid username password =>
    have := hfields _ rfl
    simpa [Holds,userFields,Read.casts,LoginFields] using this
  | map tab q =>
    cases q with
    | findEnemiesAroundUser =>
      have := hfields _ rfl
      simp [Holds,enemyFields] at this
      simp only [Read.casts,EnemyFields]
      tauto
    | getNumberOfEnemiesAroundUser =>
      have := hfields _ rfl
      simp [Holds,enemyFields] at this
      simp only [Read.casts,CountFields]
      tauto
    | _ => trivial
  | _ => trivial

theorem ReadTrap.ne_cast {snapshot : FNode K} {d : Device K} {q : Read K} {t : Trap}
    (h : ReadTrap snapshot d q t) (hc : ∀ child ∈ snapshot.children, q.casts child.2)
    {reader : Reader} (hreader : reader ∈ scanners) (field : String) : t ≠ .cast reader field := by
  rintro rfl
  cases h with
  | checkIfUserExists hmem hn => exact hn (hc _ hmem)
  | loginIfValid hmem hn => exact hn (hc _ hmem)
  | findEnemiesAroundUser hmem hn => exact hn (hc _ hmem)
  | getNumberOfEnemiesAroundUser hmem hn => exact hn (hc _ hmem)
  | changeIfValidPassword hs => simp [scanners] at hreader
  | findPlayersAroundUser ht hmem hk hn => simp [scanners] at hreader

theorem ReadOutcome.publishes {p : Platform K} {snapshot : FNode K} {draw : Draw K}
    {d : Device K} {q : Read K} {r : DeviceReaction K} (h : ReadOutcome p snapshot draw d q r)
    {n : Nat} {store : FNode K} (hk : InitialSegment n (store.getImmediateChild "users"))
    (hs : ∀ t ∈ d.tabBarVCs, t.map.user.HasKey n) (hq : PublishRead q) :
    (∀ q' ∈ r.reads, PublishRead q') ∧ ∀ s ∈ scans,
      Outbox s.1 s.2 (· ∈ (store.getImmediateChild s.1).childKeys) r.writes := by
  cases h with
  | userIsNew hv hc => exact ⟨by simp [PublishRead],fun s _ => .nil⟩
  | addUser hv => exact ⟨by simp,fun s hs => outbox_userWrites hs _ _ rfl⟩
  | passwordChanged hleaf ht hn => exact absurd hq id
  | @map tab t q r ht hr =>
    constructor
    · intro q' hq'
      obtain ⟨mq,hmq,rfl⟩ := List.mem_map.mp hq'
      exact onRead_named hr mq hmq tab
    · intro s hscan
      obtain ⟨_,⟨c,_,hw,_⟩ | ⟨enemy,rfl,hw,_⟩ | ⟨hw,_⟩⟩ := MapVC.onRead_effect hr
      · simp only [Device.ofMap,hw]
        refine outbox_locationWrites hscan hk (hs t (List.mem_of_getElem? ht)) c ?_
        intro hu key hkey
        rwa [hu]
      · simp only [Device.ofMap,hw]
        exact outbox_enemyWrites hscan _ hq
      · simp only [Device.ofMap,hw]
        exact .nil
  | _ => exact ⟨by simp [Device.idle],fun s _ => .nil⟩

theorem ReadersInv.step {p : Platform K} {l : Label K} {w w' : World K} (hi : ReadersInv w)
    (hl : PublishLabel l) (hc : ScansWhole l w) (h : step p l w = some w') : ReadersInv w' := by
  obtain ⟨n,hk⟩ := hi.keys
  have hreacts {c : Nat} {r : DeviceReaction K} (hr : Reacts (program p) w c r l) :
      (∀ q ∈ r.reads, PublishRead q) ∧ ∀ s ∈ scans,
        Outbox s.1 s.2 (· ∈ (w.store.getImmediateChild s.1).childKeys) r.writes := by
    cases hr with
    | event hr =>
      obtain ⟨hw,hq⟩ := (onEvent_outcome hr).publishReads hl
      exact ⟨hq,fun s _ => hw ▸ .nil⟩
    | deliver hq hr =>
      exact (onRead_outcome hr).publishes hk.store (hk.clients c).sessions
        (hi.reads c _ (List.mem_of_getElem? hq))
  refine ⟨hk.step h,fun s hs => ?_,fun c rd hrd => ?_,fun c reader hreader field ht => ?_⟩
  · exact (hi.published s hs).step hc (fun c => (hk.clients c).writes.addressed)
      (fun c r hr => (hreacts hr).2 s hs) h
  · rcases mem_reads_step h hrd with ⟨rd',hrd',hsame⟩ | ⟨r,hr,hnew⟩
    · exact hsame ▸ hi.reads c rd' hrd'
    · exact (hreacts hr).1 _ hnew
  · rcases trap_of_step h ht with hold | hfail
    · exact hi.untrapped c reader hreader field hold
    · cases hfail with
      | event he => rcases onEvent_trap he with ht | ht | ht <;> contradiction
      | deliver hq he =>
        have hcasts := hi.casts (List.mem_of_getElem? hq) rfl
        exact (onRead_trap he).ne_cast hcasts hreader field rfl

/-- A store in which every record is complete. -/
structure Complete (store : FNode K) : Prop where
  users : ∃ n, InitialSegment n (store.getChild ["users"])
  enemies : (store.getChild ["enemies"]).childKeys.Nodup
  fields : ∀ s ∈ scans, ∀ key ∈ (store.getImmediateChild s.1).childKeys, ∀ f ∈ s.2,
    Holds f (record s.1 key store)

theorem readersInv_start {store : FNode K} (h : Complete store) :
    ReadersInv (World.start store) := by
  obtain ⟨n,hn⟩ := h.users
  refine ⟨⟨n,keysInv_start hn⟩,fun s hs => ?_,by simp [World.start],by simp [World.start]⟩
  refine ⟨?_,fun key hk f hf => Or.inl (h.fields s hs key hk f hf),fun c => .nil,
    by simp [World.start]⟩
  simp only [scans,List.mem_cons,List.not_mem_nil,or_false] at hs
  rcases hs with rfl | rfl | rfl
  · exact hn.nodup
  · exact hn.nodup
  · exact h.enemies

/-- No reader traps on a record that is still being written, as long as the
scans take their snapshots while no field they cast is about to be stored. -/
theorem readersSafe_of_scansWhole (p : Platform K) (store : FNode K) (hs : Complete store)
    (ls : List (Label K)) (hl : ∀ l ∈ ls, PublishLabel l)
    (hc : Along (GFLGO.step p) ScansWhole ls (World.start store)) (w : World K)
    (hr : run (GFLGO.step p) ls (World.start store) = some w) : ReadersSafe w := by
  have hlabels := along_of_forall_mem (GFLGO.step p) hl (World.start store)
  have hinv := run_invariant (GFLGO.step p)
    (fun l w w' hi hcond h => ReadersInv.step hi hcond.1 hcond.2 h) (readersInv_start hs)
    (hlabels.and (GFLGO.step p) hc) hr
  exact ⟨fun c r snapshot hr hs => hinv.casts hr hs,hinv.untrapped⟩

end

theorem complete_empty : Complete (.empty : FNode ℚ) :=
  { users := ⟨0,.empty⟩
    enemies := List.nodup_nil
    fields := fun s _ key hk => by simp [PathTree.childKeys] at hk }

section
variable {K : Type}

def Write.isField (coll : String) (fields : List String) (x : Write K) : Bool :=
  match x.path with
  | [coll',_,f] => coll' = coll ∧ f ∈ fields
  | _ => false

def ScansWholeAmong (A : List Nat) : Label K → World K → Prop
  | .snapshot c i, w => ∀ rd ∈ (w.clients c).reads[i]?, ∀ s ∈ rd.read.scan,
    ∀ c' ∈ A, ∀ x ∈ (w.clients c').writes.head?, x.isField s.1 s.2 = false
  | _, _ => True

instance (A : List Nat) (l : Label K) (w : World K) : Decidable (ScansWholeAmong A l w) :=
  match l with
  | .snapshot c i => inferInstanceAs (Decidable (∀ rd ∈ (w.clients c).reads[i]?, _))
  | .event _ _ | .deliver _ _ _ | .apply _ => isTrue trivial

theorem scansWhole_of_among {A : List Nat} {store : FNode K} {l : Label K} {w : World K}
    (hw : ∀ c, c ∉ A → w.clients c = (World.start store).clients c)
    (h : ScansWholeAmong A l w) : ScansWhole l w := by
  cases l with
  | snapshot c i =>
    intro q s hr hs c' x xs key f hx hpath hf
    have hnext := forall_clients_of_mem
      (R := fun cl => ∀ x ∈ cl.writes.head?, x.isField s.1 s.2 = false) hw
      (fun _ x hx => by contradiction) (h _ hr s hs) c' x (by simp [hx])
    simp [Write.isField,hpath,hf] at hnext
  | event c e => trivial
  | deliver c i d => trivial
  | apply c => trivial

end

/-- Bob signs up between ann's writes. Ann logs in, looks around and spawns while
none of bob's is stored, and bob logs in before the enemy is. -/
def scansInBetween : List (Label ℚ) :=
  tapCreateAccount 0 0 "ann" "pw" ++ tapCreateAccount 1 0 "bob" "pw" ++
    answer 0 sampleDraw ++ answer 0 sampleDraw ++ applyAll 0 2 ++ answer 1 sampleDraw ++
    applyAll 0 4 ++ answer 1 sampleDraw ++ login 0 sampleDraw "ann" "pw" ++
    locate 0 sampleDraw 0 ⟨0,0⟩ ++ [.event 0 (.map 0 (.addEnemyAction sampleDraw))] ++
    answer 0 sampleDraw ++ applyAll 1 6 ++ login 1 sampleDraw "bob" "pw" ++ applyAll 0 6

theorem readersSafe_scansInBetween : ∃ w,
    run (step planePlatform) scansInBetween (World.start .empty) = some w ∧
      [0,1].map (fun c => (w.clients c).locals.tabBarVCs.length) = [1,1] ∧ ReadersSafe w := by
  have hrun : (run (step planePlatform) scansInBetween (World.start .empty)).map
      (fun w => [0,1].map (fun c => (w.clients c).locals.tabBarVCs.length)) = some [1,1] := by
    decide +kernel
  obtain ⟨w,hw,he⟩ := Option.map_eq_some_iff.mp hrun
  have hwhole : Along (step planePlatform) (ScansWholeAmong [0,1]) scansInBetween
      (World.start .empty) := by
    decide +kernel
  exact ⟨w,hw,he,readersSafe_of_scansWhole planePlatform .empty complete_empty _
    (by decide) (along_of_clients (A := [0,1]) (by decide)
      (fun _ _ hu hl => scansWhole_of_among hu hl) hwhole) w hw⟩

/-- One device logs in when another has stored only the node of its account. -/
def loginBetweenWrites : List (Label ℚ) :=
  tapCreateAccount 0 0 "ann" "pw" ++ answer 0 sampleDraw ++ answer 0 sampleDraw ++ applyAll 0 1 ++
    login 1 sampleDraw "bob" "pw"

/-- The login casts the username of a child that is still a leaf. -/
theorem not_readersSafe : ¬ ∀ (ls : List (Label ℚ)) (w : World ℚ), (∀ l ∈ ls, PublishLabel l) →
    run (step planePlatform) ls (World.start .empty) = some w → ReadersSafe w := by
  intro h
  have hrun : (run (step planePlatform) loginBetweenWrites (World.start .empty)).map
      (fun w => (w.clients 1).trap) = some (some (.cast .loginIfValid "username")) := by
    decide +kernel
  obtain ⟨w,hw,ht⟩ := Option.map_eq_some_iff.mp hrun
  exact (h loginBetweenWrites w (by decide) hw).untrapped 1 .loginIfValid (by decide) _ ht

end GFLGO
