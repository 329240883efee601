import GFLGO.Reports
import GFLGO.AccountRefinement

/-!
The scan for other players, when operations come one after another: it goes
through exactly when every other account has reported a location.
-/

set_option autoImplicit false

namespace GFLGO

open Runs Async AccountMap

section
variable {K : Type}

/-- The map and the snapshot of a scan for other players that the step carries
out, when the session has a location. -/
def scanned : Label K → World K → Option (MapVC K × FNode K)
  | .deliver c i _, w =>
    match (w.clients c).reads[i]? with
    | some ⟨.map tab .findPlayersAroundUser,some snapshot⟩ =>
      match (w.clients c).locals.tabBarVCs[tab]? with
      | some t => if t.map.userLocation.isSome then some (t.map,snapshot) else none
      | none => none
    | _ => none
  | _, _ => none

theorem scanned_eq_some {l : Label K} {w : World K} {m : MapVC K} {s : FNode K}
    (h : scanned l w = some (m,s)) : m.userLocation.isSome ∧ ∃ c i d tab t, l = .deliver c i d ∧
      (w.clients c).reads[i]? = some ⟨.map tab .findPlayersAroundUser,some s⟩ ∧
      (w.clients c).locals.tabBarVCs[tab]? = some t ∧ t.map = m := by
  cases l with
  | deliver c i d =>
    simp only [scanned] at h
    split at h
    · next tab snapshot hr =>
      split at h
      · next t ht =>
        split at h
        · next hloc =>
          cases h
          exact ⟨hloc,c,i,d,tab,t,rfl,hr,ht,rfl⟩
        · contradiction
      · contradiction
    · contradiction
  | _ => contradiction

/-- No cast and no unwrap of the scan traps: every child but the caller's own
has all the fields it reads. -/
def ScanSucceeds [Field K] [LinearOrder K] [FloorRing K] (p : Platform K) (l : Label K)
    (w : World K) : Prop :=
  ∀ m s, scanned l w = some (m,s) →
    (∃ players, MapVC.findPlayersAroundUser p m.user m.userLocation s.children = .ok players) ∧
      ∀ child ∈ s.children, intOfString child.1 ≠ some m.user.userID → PlayerFields child.2

/-- When the scan is carried out, a session of every other account has reported
a location before. -/
def OthersReported (l : Label K) (w : World K) : Prop :=
  ∀ m s, scanned l w = some (m,s) →
    ∀ id, stringOfInt id ∈ (w.store.getImmediateChild "users").childKeys →
      id ≠ m.user.userID → Reported id w

def Write.Keeps (id : Int) (x : Write K) : Prop :=
  ∀ store : FNode K, HasLocation id (store.getImmediateChild "users") →
    HasLocation id ((applyWrite x store).getImmediateChild "users")

theorem hasLocation_store {id : Int} {store : FNode K} :
    HasLocation id (store.getImmediateChild "users") ↔
      IsNumber (store.getChild ["users",stringOfInt id,"latitude"]) ∧
        IsNumber (store.getChild ["users",stringOfInt id,"longitude"]) := Iff.rfl

theorem keeps_enemies (id : Int) (rest : List String) (node : FNode K) :
    (⟨"enemies" :: rest,node⟩ : Write K).Keeps id := by
  intro store h
  rw [hasLocation_store,getChild_applyWrite_coll store _ _ _ (by decide),
    getChild_applyWrite_coll store _ _ _ (by decide)]
  exact h

theorem keeps_key {id : Int} {key : String} (h : stringOfInt id ≠ key) (rest : List String)
    (node : FNode K) : (⟨"users" :: key :: rest,node⟩ : Write K).Keeps id := by
  intro store hloc
  rw [hasLocation_store,getChild_applyWrite_key store _ _ _ _ h,
    getChild_applyWrite_key store _ _ _ _ h]
  exact hloc

theorem keeps_field (id : Int) (key : String) {f : String} {v : Value K}
    (h : (f ≠ "latitude" ∧ f ≠ "longitude") ∨ IsNumber (.leaf v)) :
    (setValue ["users",key,f] v).Keeps id := by
  intro store hloc
  by_cases hk : stringOfInt id = key
  · subst hk
    have hfield (g : String) (hg : g = f → IsNumber (.leaf v))
        (hold : IsNumber (store.getChild ["users",stringOfInt id,g])) :
        IsNumber ((applyWrite (setValue ["users",stringOfInt id,f] v) store).getChild
          ["users",stringOfInt id,g]) := by
      by_cases he : g = f
      · subst he
        rw [setValue,getChild_applyWrite_self]
        exact hg rfl
      · rw [setValue,getChild_applyWrite_field store _ _ _ _ he]
        exact hold
    refine hasLocation_store.mpr ⟨hfield _ (fun he => ?_) hloc.1,hfield _ (fun he => ?_) hloc.2⟩
    · exact h.resolve_left (fun hne => hne.1 he.symm)
    · exact h.resolve_left (fun hne => hne.2 he.symm)
  · exact keeps_key hk [f] _ store hloc

theorem Write.Harmless.keeps {n : Nat} {x : Write K} (h : x.Harmless n) (id : Int) :
    x.Keeps id := by
  cases h with
  | enemies => exact keeps_enemies id _ _
  | location hk hf => exact keeps_field id _ (Or.inr (Or.inl ⟨_,rfl⟩))
  | totalExp hk => exact keeps_field id _ (Or.inl ⟨by decide,by decide⟩)

theorem hasLocation_drain {id : Int} {ws : List (Write K)} (hw : ∀ x ∈ ws, x.Keeps id)
    {store : FNode K} (h : HasLocation id (store.getImmediateChild "users")) :
    HasLocation id ((drain ws store).getImmediateChild "users") := by
  induction ws generalizing store with
  | nil => exact h
  | cons x ws ih =>
    have hall := List.forall_mem_cons.mp hw
    exact ih hall.2 (hall.1 store h)

theorem hasLocation_locationWrites (user : User K) (c : Coordinate K) (store : FNode K) :
    HasLocation user.userID
      ((drain (MapVC.locationWrites user c) store).getImmediateChild "users") := by
  rw [MapVC.locationWrites,drain_cons,drain_cons,drain_nil,hasLocation_store,setValue,setValue,
    getChild_applyWrite_self,getChild_applyWrite_field _ _ _ _ _ (by decide),
    getChild_applyWrite_self]
  exact ⟨Or.inl ⟨_,rfl⟩,Or.inl ⟨_,rfl⟩⟩

/-- While client `c` carries on an operation of the account `owner`: every other
account with a report has its location in the store and in the snapshots, and
every account with a report has it once the writes are applied. -/
structure Located (c : Nat) (owner : Option Int) (w : World K) : Prop where
  others : ∀ c', c' ≠ c → (w.clients c').Quiet
  keys : ∀ id, Reported id w →
    stringOfInt id ∈ (w.store.getImmediateChild "users").childKeys
  store : ∀ id, Reported id w → some id ≠ owner →
    HasLocation id (w.store.getImmediateChild "users")
  drained : ∀ id, Reported id w →
    HasLocation id ((drain (w.clients c).writes w.store).getImmediateChild "users")
  keeps : ∀ x ∈ (w.clients c).writes, ∀ id, Reported id w → x.Keeps id
  reads : ∀ r ∈ (w.clients c).reads, ∀ tab q t, r.read = .map tab q →
    (w.clients c).locals.tabBarVCs[tab]? = some t → some t.map.user.userID = owner
  snapshots : ∀ r ∈ (w.clients c).reads, ∀ s, r.snapshot = some s → r.read.path = ["users"] →
    ∀ id, Reported id w → some id ≠ owner → HasLocation id s

theorem located_start : Located 0 none (World.start (.empty : FNode K)) := by
  have hno (id : Int) : ¬ Reported id (World.start (.empty : FNode K)) := by
    simp [Reported,World.start]
  exact
    { others := fun c' _ => ⟨rfl,rfl⟩
      keys := fun id h => absurd h (hno id)
      store := fun id h => absurd h (hno id)
      drained := fun id h => absurd h (hno id)
      keeps := fun x hx => by simp [World.start] at hx
      reads := fun r hr => by simp [World.start] at hr
      snapshots := fun r hr => by simp [World.start] at hr }

theorem Located.of_quiet {c : Nat} {owner : Option Int} {w : World K} (h : Located c owner w)
    (hq : w.Quiet) (id : Int) (hr : Reported id w) :
    HasLocation id (w.store.getImmediateChild "users") := by
  have hdrained := h.drained id hr
  rwa [(hq c).2] at hdrained

theorem Located.client_eq {c c' i : Nat} {owner : Option Int} {w : World K}
    {r : Pending (Read K) (FNode K)} (h : Located c owner w)
    (hr : (w.clients c').reads[i]? = some r) : c' = c := by
  by_contra hc
  rw [(h.others c' hc).1] at hr
  simp at hr

theorem Asks.ne_map {m : AccountMap} {d : Device K} {r : Read K} {q : Request}
    (h : Asks m d r q) (tab : Nat) (mq : MapRead K) : r ≠ .map tab mq := by
  cases h <;> simp

theorem Located.react {c : Nat} {owner : Option Int} {w : World K} {cl : Client K}
    {r : DeviceReaction K} (h : Located c owner w)
    (hcr : ∀ rd ∈ cl.reads, rd ∈ (w.clients c).reads) (hcw : cl.writes = (w.clients c).writes)
    (hkey : ∀ id, Note.locationWritten id ∈ r.notes → some id = owner ∧
      stringOfInt id ∈ (w.store.getImmediateChild "users").childKeys ∧
        ∀ store : FNode K, HasLocation id ((drain r.writes store).getImmediateChild "users"))
    (hkeeps : ∀ id, Reported id (w.react c cl (.ok r)) →
      ∀ x ∈ cl.writes ++ r.writes, x.Keeps id)
    (hold : ∀ rd ∈ cl.reads, ∀ tab q t, rd.read = .map tab q →
      r.locals.tabBarVCs[tab]? = some t → some t.map.user.userID = owner)
    (hnew : ∀ q ∈ r.reads, ∀ tab mq t, q = .map tab mq →
      r.locals.tabBarVCs[tab]? = some t → some t.map.user.userID = owner) :
    Located c owner (w.react c cl (.ok r)) := by
  refine ⟨fun c' hc => ?_,fun id hr => ?_,fun id hr hne => ?_,fun id hr => ?_,fun x hx id hr => ?_,
    fun rd hrd => ?_,fun rd hrd s hsnap hpath id hr hne => ?_⟩
  · rw [react_clients_ne w c _ _ hc]
    exact h.others c' hc
  · rcases reported_react.mp hr with hrep | hn
    · exact h.keys id hrep
    · exact (hkey id hn).2.1
  · rcases reported_react.mp hr with hrep | hn
    · exact h.store id hrep hne
    · exact absurd (hkey id hn).1 hne
  · have hkeep := hkeeps id hr
    rw [react_clients_self]
    simp only [Client.absorb,react_store]
    rw [drain_append,hcw]
    rcases reported_react.mp hr with hrep | hn
    · exact hasLocation_drain (fun x hx => hkeep x (List.mem_append_right _ hx)) (h.drained id hrep)
    · exact (hkey id hn).2.2 _
  · rw [react_clients_self] at hx
    exact hkeeps id hr x hx
  · rw [react_clients_self] at hrd ⊢
    intro tab q t hread ht
    rcases mem_reads_absorb.mp hrd with hmem | ⟨q',hq',rfl⟩
    · exact hold rd hmem tab q t hread ht
    · exact hnew q' hq' tab q t hread ht
  · rw [react_clients_self] at hrd
    rcases mem_reads_absorb.mp hrd with hmem | ⟨q',hq',rfl⟩
    · rcases reported_react.mp hr with hrep | hn
      · exact h.snapshots rd (hcr rd hmem) s hsnap hpath id hrep hne
      · exact absurd (hkey id hn).1 hne
    · contradiction

theorem Located.error {c : Nat} {owner : Option Int} {w : World K} {cl : Client K} {t : Trap}
    (h : Located c owner w) (hcw : cl.writes = (w.clients c).writes) :
    Located c owner (w.react c cl (.error t)) := by
  have hrep {id : Int} (hr : Reported id (w.react c cl (.error t))) : Reported id w :=
    (reported_react.mp hr).resolve_right (by simp [notesOf])
  refine ⟨fun c' hc => ?_,fun id hr => h.keys id (hrep hr),fun id hr => h.store id (hrep hr),
    fun id hr => ?_,fun x hx id hr => ?_,fun rd hrd => ?_,fun rd hrd => ?_⟩
  · rw [react_clients_ne w c _ _ hc]
    exact h.others c' hc
  · rw [react_clients_self]
    simp only [Client.absorb,react_store,hcw]
    exact h.drained id (hrep hr)
  · rw [react_clients_self] at hx
    exact h.keeps x (hcw ▸ hx) id (hrep hr)
  · rw [react_clients_self] at hrd
    contradiction
  · rw [react_clients_self] at hrd
    contradiction

section
variable [Field K]

theorem Serial.snapshot_of_map {qs : List Request} {w : World K} {c i tab : Nat} {mq : MapRead K}
    {s : FNode K} (hi : Serial qs w)
    (hr : (w.clients c).reads[i]? = some ⟨.map tab mq,some s⟩)
    (hpath : (Read.map tab mq).path = ["users"]) :
    Represents (.after .empty qs) s ∧
      Represents (.after .empty qs) (w.store.getImmediateChild "users") := by
  cases hi with
  | playing hs hp ho =>
    exact ⟨((hp.clients c).reads _ (List.mem_of_getElem? hr)).2 s rfl hpath,hp.users⟩
  | @underway _ q c' r _ hu =>
    obtain ⟨rfl,_,rfl,_⟩ := hu.asking.only hr
    exact absurd rfl (hu.asks.ne_map tab mq)
  | done hd => simp [hd.no_reads c] at hr

structure Historic (w : World K) : Prop where
  serial : ∃ qs, Serial qs w
  keys : ∃ n, KeysInv n w
  unreported : Unreported w
  located : ∃ c owner, Located c owner w

theorem historic_start : Historic (World.start (.empty : FNode K)) :=
  { serial := ⟨[],serial_start rfl⟩
    keys := ⟨0,keysInv_start InitialSegment.empty⟩
    unreported := unreported_start
    located := ⟨0,none,located_start⟩ }

variable [LinearOrder K]

/-- The session an event of a map belongs to. -/
def Device.owner (d : Device K) : Event K → Option Int
  | .map tab _ => (d.tabBarVCs[tab]?).map (fun t => t.map.user.userID)
  | _ => none

theorem EventOutcome.owner {p : Platform K} {d : Device K} {e : Event K} {r : DeviceReaction K}
    (h : EventOutcome p d e r) : ∀ q ∈ r.reads, ∀ tab mq t', q = .map tab mq →
      r.locals.tabBarVCs[tab]? = some t' → some t'.map.user.userID = d.owner e := by
  intro q hq tab mq t' he ht'
  subst he
  cases h with
  | @map tab₀ t e mr ht hr =>
    obtain ⟨⟨latitude,longitude,hu⟩,_⟩ := MapVC.onEvent_effect hr
    obtain ⟨mq',_,hmap⟩ := List.mem_map.mp hq
    cases hmap
    rcases Device.getElem?_setTab ht' with ⟨_,rfl⟩ | hold
    · simp [Device.owner,ht,hu]
    · simp [Device.owner,hold]
  | createAccountAction hv => simp at hq
  | loginAction => simp at hq
  | changePasswordAction ht hn => simp at hq
  | _ => contradiction

variable [FloorRing K]

theorem Located.event {p : Platform K} {c₀ c : Nat} {owner₀ : Option Int} {e : Event K}
    {w w' : World K} (h : Located c₀ owner₀ w) (hq : w.Quiet)
    (hs : step p (.event c e) w = some w') : ∃ owner, Located c owner w' := by
  obtain ⟨_,rfl⟩ := step_event hs
  have hno : ∀ id, ¬ Note.locationWritten id ∈
      notesOf ((program p).onEvent e (w.clients c).locals) := by
    intro id hmem
    cases hr : (program p).onEvent e (w.clients c).locals with
    | error t => simp [hr,notesOf] at hmem
    | ok r =>
      rw [hr] at hmem
      rcases onEvent_effect hr with ⟨_,hn⟩ | ⟨user,s,_,hn⟩ <;> simp [notesOf,hn] at hmem
  have hrep {id : Int} (hr : Reported id (w.react c (w.clients c)
      ((program p).onEvent e (w.clients c).locals))) : Reported id w :=
    (reported_react.mp hr).resolve_right (hno id)
  have hwrites : ∀ x ∈ ((w.clients c).absorb
      ((program p).onEvent e (w.clients c).locals)).writes, ∀ id, x.Keeps id := by
    refine forall_writes_absorb (by simp [(hq c).2]) (fun r hr x hx id => ?_)
    rcases onEvent_effect hr with ⟨hw,_⟩ | ⟨user,s,hw,_⟩
    · simp [hw] at hx
    · rw [hw] at hx
      rcases List.mem_pair.mp hx with rfl | rfl
      · exact keeps_enemies id _ _
      · exact keeps_field id _ (Or.inl ⟨by decide,by decide⟩)
  refine ⟨(w.clients c).locals.owner e,fun c' hc => ?_,fun id hr => h.keys id (hrep hr),
    fun id hr _ => h.of_quiet hq id (hrep hr),fun id hr => ?_,fun x hx id _ => ?_,
    fun rd hrd => ?_,fun rd hrd s hsnap => ?_⟩
  · rw [react_clients_ne w c _ _ hc]
    exact hq c'
  · rw [react_clients_self]
    exact hasLocation_drain (fun x hx => hwrites x hx id) (h.of_quiet hq id (hrep hr))
  · rw [react_clients_self] at hx
    exact hwrites x hx id
  · rw [react_clients_self] at hrd ⊢
    intro tab q t hread ht
    cases hr : (program p).onEvent e (w.clients c).locals with
    | error t =>
      rw [hr] at hrd
      contradiction
    | ok r =>
      rw [hr] at hrd ht
      rcases mem_reads_absorb.mp hrd with hold | ⟨q',hq',rfl⟩
      · simp [(hq c).1] at hold
      · exact (onEvent_outcome hr).owner q' hq' tab q t hread ht
  · have hnone : ∀ rd ∈ ((w.clients c).absorb
        ((program p).onEvent e (w.clients c).locals)).reads, rd.snapshot = none :=
      forall_reads_absorb (by simp [(hq c).1]) (fun _ _ _ _ => rfl)
    rw [react_clients_self] at hrd
    rw [hnone rd hrd] at hsnap
    contradiction

theorem Located.snapshot {p : Platform K} {c c' i : Nat} {owner : Option Int} {w w' : World K}
    (h : Located c owner w) (hs : step p (.snapshot c' i) w = some w') : Located c owner w' := by
  obtain ⟨q,hr,rfl⟩ := step_snapshot hs
  have hc := h.client_eq hr
  subst hc
  refine ⟨fun c'' hc => ?_,h.keys,h.store,fun id hrep => ?_,fun x hx => ?_,fun rd hrd => ?_,
    fun rd hrd s hsnap hpath => ?_⟩
  · rw [setClient_clients_ne w c' _ hc]
    exact h.others c'' hc
  · rw [setClient_clients_self]
    exact h.drained id hrep
  · rw [setClient_clients_self] at hx
    exact h.keeps x hx
  · rw [setClient_clients_self] at hrd ⊢
    rcases List.mem_or_eq_of_mem_set hrd with hold | rfl
    · exact h.reads rd hold
    · have hread := h.reads _ (List.mem_of_getElem? hr)
      exact hread
  · rw [setClient_clients_self] at hrd
    rcases List.mem_or_eq_of_mem_set hrd with hold | rfl
    · exact h.snapshots rd hold s hsnap hpath
    · cases hsnap
      rw [view_users hpath]
      exact h.store

theorem ReadOutcome.getElem?_of_map {p : Platform K} {snapshot : FNode K} {draw : Draw K}
    {d : Device K} {tab : Nat} {mq : MapRead K} {r : DeviceReaction K}
    (h : ReadOutcome p snapshot draw d (.map tab mq) r) {tab' : Nat} {t' : TabBarVC K}
    (ht' : r.locals.tabBarVCs[tab']? = some t') :
    ∃ t, d.tabBarVCs[tab']? = some t ∧ t'.map.user.userID = t.map.user.userID := by
  cases h with
  | idle => exact ⟨t',ht',rfl⟩
  | @map _ t _ mr ht hr =>
    obtain ⟨hu,_⟩ := MapVC.onRead_effect hr
    rcases Device.getElem?_setTab ht' with ⟨rfl,rfl⟩ | hold
    · exact ⟨t,ht,congrArg User.userID hu⟩
    · exact ⟨t',hold,rfl⟩

theorem ReadOutcome.reads_of_map {p : Platform K} {snapshot : FNode K} {draw : Draw K}
    {d : Device K} {tab : Nat} {mq : MapRead K} {r : DeviceReaction K}
    (h : ReadOutcome p snapshot draw d (.map tab mq) r) :
    ∀ q ∈ r.reads, ∃ mq', q = .map tab mq' := by
  intro q hq
  cases h with
  | idle => contradiction
  | map ht hr =>
    obtain ⟨mq',_,rfl⟩ := List.mem_map.mp hq
    exact ⟨mq',rfl⟩

theorem ReadOutcome.location_of_map {p : Platform K} {snapshot : FNode K} {draw : Draw K}
    {d : Device K} {tab : Nat} {mq : MapRead K} {r : DeviceReaction K} {id : Int}
    (h : ReadOutcome p snapshot draw d (.map tab mq) r)
    (hn : Note.locationWritten id ∈ r.notes) :
    ∃ t c, d.tabBarVCs[tab]? = some t ∧ t.map.user.userID = id ∧
      r.writes = MapVC.locationWrites t.map.user c := by
  cases h with
  | idle => contradiction
  | @map _ t _ mr ht hr =>
    obtain ⟨_,⟨c,_,hw,hnotes⟩ | ⟨_,_,_,hnotes⟩ | ⟨_,hnotes⟩⟩ := MapVC.onRead_effect hr
    · simp only [Device.ofMap,hnotes,List.mem_singleton,Note.locationWritten.injEq] at hn
      exact ⟨t,c,ht,hn.symm,hw⟩
    · simp [Device.ofMap,hnotes] at hn
    · simp [Device.ofMap,hnotes] at hn

theorem ReadOutcome.keeps {p : Platform K} {snapshot : FNode K} {draw : Draw K} {d : Device K}
    {q : Read K} {r : DeviceReaction K} (h : ReadOutcome p snapshot draw d q r)
    (hq : ∀ tab mq, q ≠ .map tab mq) :
    (∀ q' ∈ r.reads, ∀ tab mq, q' ≠ .map tab mq) ∧ (∀ id, Note.locationWritten id ∉ r.notes) ∧
      ∀ x ∈ r.writes, ∀ id,
        (q.path = ["users"] → stringOfInt id ≠ stringOfInt snapshot.numChildren) → x.Keeps id := by
  cases h with
  | addUser hv =>
    refine ⟨by simp,by simp,fun x hx id hid => ?_⟩
    have hne := hid rfl
    have hpath := userWrites_path _ _ x hx
    obtain ⟨path,node⟩ := x
    rcases hpath with rfl | ⟨f,_,rfl⟩
    · exact keeps_key hne _ _
    · exact keeps_key hne _ _
  | passwordChanged hs ht hn =>
    refine ⟨by simp,by simp,fun x hx id _ => ?_⟩
    rw [List.mem_singleton.mp hx]
    exact keeps_field id _ (Or.inl ⟨by decide,by decide⟩)
  | map ht hr => exact absurd rfl (hq _ _)
  | _ => simp [Device.idle]

theorem Located.deliverMap {p : Platform K} {m : AccountMap} {c i tab : Nat} {mq : MapRead K}
    {s : FNode K} {d : Draw K} {owner : Option Int} {w : World K} (h : Located c owner w)
    (hs : Sessions m w) (hp : Playing m w)
    (hr : (w.clients c).reads[i]? = some ⟨.map tab mq,some s⟩) :
    Located c owner (w.react c
      { w.clients c with reads := (w.clients c).reads.eraseIdx i }
      ((program p).onRead (.map tab mq) s d (w.clients c).locals)) := by
  cases hprog : (program p).onRead (.map tab mq) s d (w.clients c).locals with
  | error t => exact h.error rfl
  | ok r =>
    have hout : ReadOutcome p s d (w.clients c).locals (.map tab mq) r := onRead_outcome hprog
    have hplay := hout.playing (hs c)
    have howner {t : TabBarVC K} (ht : (w.clients c).locals.tabBarVCs[tab]? = some t) :
        some t.map.user.userID = owner :=
      h.reads _ (List.mem_of_getElem? hr) tab mq t rfl ht
    refine h.react (fun rd hrd => List.mem_of_mem_eraseIdx hrd) rfl (fun id hn => ?_)
      (fun id _ x hx => ?_) (fun rd hrd tab' mq' t' hread ht' => ?_)
      (fun q hq tab' mq' t' hread ht' => ?_)
    · obtain ⟨t,fix,ht,rfl,hw⟩ := hout.location_of_map hn
      obtain ⟨a,ha,hid⟩ := (hs c t (List.mem_of_getElem? ht)).account
      refine ⟨howner ht,?_,fun store => ?_⟩
      · rw [hid]
        exact hp.users.keys.key_mem.mpr (m.number_lt _ a ha)
      · rw [hw]
        exact hasLocation_locationWrites t.map.user fix store
    · rcases List.mem_append.mp hx with hold | hnew
      · exact ((hp.clients c).writes x hold).keeps id
      · exact (hplay.writes x hnew).keeps id
    · obtain ⟨t,ht,hid⟩ := hout.getElem?_of_map ht'
      rw [hid]
      exact h.reads rd (List.mem_of_mem_eraseIdx hrd) tab' mq' t hread ht
    · obtain ⟨mq₁,he⟩ := hout.reads_of_map q hq
      obtain ⟨t,ht,hid⟩ := hout.getElem?_of_map ht'
      rw [hid]
      rw [he] at hread
      cases hread
      exact howner ht

theorem Located.deliverRequest {p : Platform K} {m : AccountMap} {c i : Nat} {q : Read K}
    {s : FNode K} {d : Draw K} {owner : Option Int} {w : World K} (h : Located c owner w)
    (ha : Asking m c q w) (hq : ∀ tab mq, q ≠ .map tab mq)
    (hr : (w.clients c).reads[i]? = some ⟨q,some s⟩) :
    Located c owner (w.react c
      { w.clients c with reads := (w.clients c).reads.eraseIdx i }
      ((program p).onRead q s d (w.clients c).locals)) := by
  obtain ⟨_,herase,_,hsnap⟩ := ha.only hr
  cases hprog : (program p).onRead q s d (w.clients c).locals with
  | error t => exact h.error rfl
  | ok r =>
    have hout : ReadOutcome p s d (w.clients c).locals q r := onRead_outcome hprog
    obtain ⟨hreads,hnotes,hwrites⟩ := hout.keeps hq
    refine h.react (fun rd hrd => List.mem_of_mem_eraseIdx hrd) rfl
      (fun id hn => absurd hn (hnotes id)) (fun id hrep x hx => ?_) (fun rd hrd => ?_)
      (fun q' hq' tab mq t he => absurd he (hreads q' hq' tab mq))
    · have hold : Reported id w := (reported_react.mp hrep).resolve_right (hnotes id)
      simp only [ha.writes,List.nil_append] at hx
      refine hwrites x hx id (fun hpath he => ?_)
      have hkey := h.keys id hold
      rw [hsnap s rfl,view_users hpath,ha.users.keys.numChildren_eq] at he
      rw [he] at hkey
      have := ha.users.keys.key_mem.mp hkey
      omega
    · rw [herase] at hrd
      contradiction

theorem Located.deliver {p : Platform K} {qs : List Request} {c c' i : Nat} {d : Draw K}
    {owner : Option Int} {w w' : World K} (h : Located c owner w) (hi : Serial qs w)
    (hs : step p (.deliver c' i d) w = some w') : Located c owner w' := by
  obtain ⟨r,s,hr,rfl⟩ := step_deliver hs
  have hc := h.client_eq hr
  subst hc
  cases hi with
  | playing hsess hp ho =>
    obtain ⟨⟨tab,mq,rfl⟩,_⟩ := (hp.clients c').reads _ (List.mem_of_getElem? hr)
    exact h.deliverMap hsess hp hr
  | @underway qs q c r w hu =>
    obtain ⟨rfl,_,rfl,_⟩ := hu.asking.only hr
    exact h.deliverRequest hu.asking hu.asks.ne_map hr
  | done hd => simp [hd.no_reads c'] at hr

theorem Located.apply {p : Platform K} {n c c' : Nat} {owner : Option Int} {w w' : World K}
    (h : Located c owner w) (hk : KeysInv n w) (hs : step p (.apply c') w = some w') :
    Located c owner w' := by
  obtain ⟨x,xs,hx,rfl⟩ := step_apply hs
  have hc : c' = c := by
    by_contra hne
    rw [(h.others c' hne).2] at hx
    contradiction
  subst hc
  have hx' : x ∈ (w.clients c').writes := by simp [hx]
  obtain ⟨n',hn,hseg,_⟩ := (hx ▸ (hk.clients c').writes).apply hk.store
  refine ⟨fun c'' hne => ?_,fun id hrep => ?_,fun id hrep hne => ?_,fun id hrep => ?_,
    fun y hy => ?_,fun rd hrd => ?_,fun rd hrd => ?_⟩
  · rw [setClient_clients_ne w c' _ hne]
    exact h.others c'' hne
  · obtain ⟨k,hk',he⟩ := (hk.store.mem_iff _).mp (h.keys id hrep)
    exact (hseg.mem_iff _).mpr ⟨k,by omega,he⟩
  · exact h.keeps x hx' id hrep w.store (h.store id hrep hne)
  · have hdrained := h.drained id hrep
    rw [hx,drain_cons] at hdrained
    rw [setClient_clients_self]
    exact hdrained
  · rw [setClient_clients_self] at hy
    exact h.keeps y (by simp [hx,hy])
  · rw [setClient_clients_self] at hrd ⊢
    exact h.reads rd hrd
  · rw [setClient_clients_self] at hrd
    exact h.snapshots rd hrd

theorem Located.step {p : Platform K} {qs : List Request} {n c : Nat} {owner : Option Int}
    {l : Label K} {w w' : World K} (h : Located c owner w) (hi : Serial qs w) (hk : KeysInv n w)
    (hc : OneAtATime l w) (hs : GFLGO.step p l w = some w') :
    ∃ c' owner', Located c' owner' w' := by
  cases l with
  | event c' e => exact ⟨c',h.event hc hs⟩
  | snapshot c' i => exact ⟨c,owner,h.snapshot hs⟩
  | deliver c' i d => exact ⟨c,owner,h.deliver hi hs⟩
  | apply c' => exact ⟨c,owner,h.apply hk hs⟩

theorem Historic.step {p : Platform K} {l : Label K} {w w' : World K} (h : Historic w)
    (hc : OneAtATime l w) (hs : GFLGO.step p l w = some w') : Historic w' := by
  obtain ⟨qs,hi⟩ := h.serial
  obtain ⟨n,hk⟩ := h.keys
  obtain ⟨c,owner,hl⟩ := h.located
  exact
    { serial := ⟨_,hi.step hc hs⟩
      keys := hk.step hs
      unreported := h.unreported.step hk hs
      located := hl.step hi hk hc hs }

/-- Among accounts, the scan is decided by the locations alone. -/
theorem Represents.findPlayers_iff {p : Platform K} {m : AccountMap} {users : FNode K}
    (h : Represents m users) (self : User K) {location : Option (Coordinate K)}
    (hl : location.isSome) :
    (∃ players, MapVC.findPlayersAroundUser p self location users.children = .ok players) ↔
      ∀ id, stringOfInt id ∈ users.childKeys → id ≠ self.userID → HasLocation id users := by
  constructor
  · rintro ⟨players,hscan⟩ id hid hself
    obtain ⟨c,hc,he⟩ := List.mem_map.mp hid
    have hne : intOfString c.1 ≠ some self.userID := by
      rw [he,intOfString_stringOfInt]
      simpa using hself
    obtain ⟨_,_,_,_,hlat,hlong⟩ := findPlayersAroundUser_eq_ok hscan c hc hne
    have hnode : users.getImmediateChild (stringOfInt id) = c.2 :=
      he ▸ PathTree.getImmediateChild_of_mem h.keys.nodup hc
    rw [hasLocation_iff,hnode]
    exact ⟨hlat,hlong⟩
  · intro hall
    cases hscan : MapVC.findPlayersAroundUser p self location users.children with
    | ok players => exact ⟨players,rfl⟩
    | error t =>
      rcases findPlayersAroundUser_eq_error hscan with
        ⟨_,_,c,hc,hself,hn⟩ | ⟨_,hnone⟩ | ⟨_,c,hc,hk⟩
      · obtain ⟨name,a,_,he,hacc⟩ := h.child hc
        have hkey : stringOfInt a.number ∈ users.childKeys := he ▸ List.mem_map_of_mem hc
        have hloc := hall a.number hkey (fun hid => hself (by rw [he,intOfString_stringOfInt,hid]))
        have hnode : users.getImmediateChild (stringOfInt a.number) = c.2 :=
          he ▸ PathTree.getImmediateChild_of_mem h.keys.nodup hc
        rw [hasLocation_iff,hnode] at hloc
        obtain ⟨n,hexp⟩ := hacc.totalExp
        exact absurd ⟨⟨_,hacc.username⟩,Or.inl ⟨_,hacc.health⟩,Or.inl ⟨_,hacc.power⟩,
          holdsInt_of_leaf hexp,hloc.1,hloc.2⟩ hn
      · rw [hnone] at hl
        contradiction
      · obtain ⟨_,_,_,he,_⟩ := h.child hc
        simp [he] at hk

/-- In one state of such a history. -/
theorem Historic.scanSucceeds_iff {p : Platform K} {l : Label K} {w : World K}
    (h : Historic w) : ScanSucceeds p l w ↔ OthersReported l w := by
  refine forall_congr' (fun m => forall_congr' (fun s => imp_congr_right (fun hs => ?_)))
  obtain ⟨hloc,c,i,d,tab,t,rfl,hr,ht,rfl⟩ := scanned_eq_some hs
  have hmem := List.mem_of_getElem? hr
  obtain ⟨qs,hi⟩ := h.serial
  obtain ⟨c₀,owner,hlocated⟩ := h.located
  have hc := hlocated.client_eq hr
  subst hc
  obtain ⟨hsnap,hstore⟩ := hi.snapshot_of_map hr rfl
  have hkeys (id : Int) : stringOfInt id ∈ s.childKeys ↔
      stringOfInt id ∈ (w.store.getImmediateChild "users").childKeys := by
    rw [hsnap.keys.mem_iff,hstore.keys.mem_iff]
  have howner := hlocated.reads _ hmem tab .findPlayersAroundUser t rfl ht
  have hreported (id : Int) (hid : id ≠ t.map.user.userID) : HasLocation id s ↔ Reported id w := by
    constructor
    · intro hl
      by_contra hn
      exact h.unreported.snapshots id hn c _ hmem s rfl rfl hl.1
    · intro hrep
      refine hlocated.snapshots _ hmem s rfl rfl id hrep (fun he => hid ?_)
      rw [← howner] at he
      exact Option.some.inj he
  have hiff := hsnap.findPlayers_iff (p := p) t.map.user hloc
  constructor
  · rintro ⟨hok,_⟩ id hid hne
    exact (hreported id hne).mp (hiff.mp hok id ((hkeys id).mpr hid) hne)
  · intro hall
    have hok := hiff.mpr (fun id hid hne =>
      (hreported id hne).mpr (hall id ((hkeys id).mp hid) hne))
    obtain ⟨players,hscan⟩ := hok
    exact ⟨⟨players,hscan⟩,findPlayersAroundUser_eq_ok hscan⟩

/-- Along operations that come one after another, from an empty store on. -/
theorem scanSucceeds_iff_othersReported (p : Platform K) (ls : List (Label K))
    (hc : Along (step p) OneAtATime ls (World.start .empty)) :
    Along (step p) (ScanSucceeds p) ls (World.start .empty) ↔
      Along (step p) OthersReported ls (World.start .empty) := by
  have hstep {D : Label K → World K → Prop} (l : Label K) (w w' : World K) (hi : Historic w)
      (hl : OneAtATime l w ∧ D l w) (hs : step p l w = some w') : Historic w' :=
    hi.step hl.1 hs
  constructor
  · intro hscan
    exact Along.mono_of_invariant (step p) hstep
      (fun l w hi hl => hi.scanSucceeds_iff.mp hl.2) historic_start (hc.and (step p) hscan)
  · intro hrep
    exact Along.mono_of_invariant (step p) hstep
      (fun l w hi hl => hi.scanSucceeds_iff.mpr hl.2) historic_start (hc.and (step p) hrep)

end

end

/-- Ann reports a location before bob has an account, and bob then looks for players. -/
def bobFindsAnn : List (Label ℚ) :=
  signup 0 sampleDraw 0 "ann" "pw" ++ login 0 sampleDraw "ann" "pw" ++
    locate 0 sampleDraw 0 ⟨0,0⟩ ++ signup 0 sampleDraw 1 "bob" "pw" ++
    login 0 sampleDraw "bob" "pw" ++ locate 0 sampleDraw 1 ⟨0,0⟩

theorem scanSucceeds_bobFindsAnn : (∃ w,
    run (step planePlatform) bobFindsAnn (World.start .empty) = some w ∧
      (w.clients 0).locals.tabBarVCs.map (fun t => t.map.userAnnotations.map User.username) =
        [[],["ann"]]) ∧
    (Along (step planePlatform) (ScanSucceeds planePlatform) bobFindsAnn (World.start .empty) ↔
      Along (step planePlatform) OthersReported bobFindsAnn (World.start .empty)) := by
  have hrun : (run (step planePlatform) bobFindsAnn (World.start .empty)).map (fun w =>
      (w.clients 0).locals.tabBarVCs.map (fun t => t.map.userAnnotations.map User.username)) =
        some [[],["ann"]] := by
    decide +kernel
  have hstart : (World.start (.empty : FNode ℚ)).Quiet := fun _ => ⟨rfl,rfl⟩
  have hclient : ∀ l ∈ bobFindsAnn, l.client = 0 := by decide +kernel
  have halong : Along (step planePlatform) (QuietClient 0) bobFindsAnn (World.start .empty) := by
    decide +kernel
  exact ⟨Option.map_eq_some_iff.mp hrun,scanSucceeds_iff_othersReported planePlatform bobFindsAnn
    (oneAtATime_of_quietClient hstart hclient halong)⟩

/-- Bob has an account but no location when ann gets her first one. -/
def annBeforeScan : List (Label ℚ) :=
  signup 0 sampleDraw 0 "ann" "pw" ++ signup 0 sampleDraw 1 "bob" "pw" ++
    login 0 sampleDraw "ann" "pw" ++
    [.event 0 (.map 0 (.didUpdateLocations [⟨0,0⟩]))] ++ answer 0 sampleDraw ++ [.snapshot 0 0]

theorem not_scanSucceeds : ∃ ls : List (Label ℚ),
    Along (step planePlatform) OneAtATime ls (World.start .empty) ∧
      (∃ w, run (step planePlatform) ls (World.start .empty) = some w ∧
        (w.clients 0).trap = some (.cast .findPlayersAroundUser "latitude")) ∧
      ¬ Along (step planePlatform) (ScanSucceeds planePlatform) ls (World.start .empty) := by
  have hstart : (World.start (.empty : FNode ℚ)).Quiet := fun _ => ⟨rfl,rfl⟩
  have hclient : ∀ l ∈ annBeforeScan ++ [.deliver 0 0 sampleDraw], l.client = 0 := by
    decide +kernel
  have halong : Along (step planePlatform) (QuietClient 0)
      (annBeforeScan ++ [.deliver 0 0 sampleDraw]) (World.start .empty) := by
    decide +kernel
  have htrap : (run (step planePlatform) (annBeforeScan ++ [.deliver 0 0 sampleDraw])
      (World.start .empty)).map (fun w => (w.clients 0).trap) =
        some (some (.cast .findPlayersAroundUser "latitude")) := by
    decide +kernel
  have hscan : (run (step planePlatform) annBeforeScan (World.start .empty)).map (fun w =>
      (scanned (.deliver 0 0 sampleDraw) w).map (fun x => (MapVC.findPlayersAroundUser planePlatform
        x.1.user x.1.userLocation x.2.children).isOk)) = some (some false) := by
    decide +kernel
  obtain ⟨w,hw,he⟩ := Option.map_eq_some_iff.mp hscan
  obtain ⟨⟨m,s⟩,hs,hfalse⟩ := Option.map_eq_some_iff.mp he
  refine ⟨_,oneAtATime_of_quietClient hstart hclient halong,Option.map_eq_some_iff.mp htrap,
    not_along_of_run (step planePlatform) hw (fun hsucceeds => ?_)⟩
  obtain ⟨⟨players,hok⟩,_⟩ := hsucceeds m s hs
  simp [hok,Except.isOk,Except.toBool] at hfalse

end GFLGO
