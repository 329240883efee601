import GFLGO.PairedWrites
import GFLGO.SessionWrites
import GFLGO.EnemyStore

/-!
The position of a player, stored by two writes for each report, and what other
clients read of it.
-/

set_option autoImplicit false

namespace GFLGO

open Runs Async PairedWrites

section
variable {K : Type}

def latitudePath (id : Int) : List String := ["users",stringOfInt id,"latitude"]

def longitudePath (id : Int) : List String := ["users",stringOfInt id,"longitude"]

def Device.sessionID (d : Device K) (tab : Nat) : Option Int :=
  (d.tabBarVCs[tab]?).map (fun t => t.map.user.userID)

def Write.half (id : Int) (x : Write K) : Option (FNode K ⊕ FNode K) :=
  if x.path = latitudePath id then some (.inl x.node)
  else if x.path = longitudePath id then some (.inr x.node)
  else none

def positionCells (id : Int) (w : World K) : Cells (FNode K) (FNode K) :=
  { first := w.store.getChild (latitudePath id)
    second := w.store.getChild (longitudePath id)
    pending := fun c => (w.clients c).writes.map (Write.half id) }

/-- The location that a session of the player reports. -/
def newReport (id : Int) : Label K → World K → Option (Coordinate K)
  | .event c (.map tab (.didUpdateLocations locations)), w =>
    match (w.clients c).locals.tabBarVCs[tab]? with
    | some t =>
      if t.receives (.didUpdateLocations locations) ∧ t.map.user.userID = id then locations.getLast?
      else none
    | none => none
  | _, _ => none

/-- The client's next write is the longitude of the player. -/
def BetweenWrites (id : Int) (w : World K) (c : Nat) : Prop :=
  ∃ x xs, (w.clients c).writes = x :: xs ∧ x.path = longitudePath id

/-- No scan for players is answered, and no report of the player begins to be
stored, while a report of the player is half stored. -/
def PositionWhole (id : Int) : Label K → World K → Prop
  | .snapshot c i, w => ∀ tab,
    (w.clients c).reads[i]? = some ⟨.map tab .findPlayersAroundUser,none⟩ →
    (w.clients c).locals.sessionID tab ≠ some id → ∀ c', ¬ BetweenWrites id w c'
  | .apply c, w => ∀ x xs, (w.clients c).writes = x :: xs → x.path = latitudePath id →
    ∀ c', c' ≠ c → ¬ BetweenWrites id w c'
  | _, _ => True

variable [Field K]

/-- A coordinate made of the two stored halves. -/
def coordinateOf (latitude longitude : FNode K) : Option (Coordinate K) :=
  storedCoordinate (.branch [("latitude",latitude),("longitude",longitude)])

theorem storedCoordinate_eq (child : FNode K) : storedCoordinate child =
    coordinateOf (child.getImmediateChild "latitude") (child.getImmediateChild "longitude") := by
  simp [coordinateOf,storedCoordinate,asDouble,PathTree.getImmediateChild,
    Dictionary.lookup_cons_ite]

def Known (coordinates : List (Coordinate K)) (latitude longitude : FNode K) : Prop :=
  ∃ c ∈ coordinates, coordinateOf latitude longitude = some c

theorem known_of_mem {coordinates : List (Coordinate K)} {c : Coordinate K} (h : c ∈ coordinates) :
    Known coordinates (.leaf (.double c.latitude)) (.leaf (.double c.longitude)) :=
  ⟨c,h,by simp [coordinateOf,storedCoordinate,asDouble,PathTree.getImmediateChild,
    Dictionary.lookup_cons_ite]⟩

/-- The position that a scan of somebody else reads of the player. -/
def readPosition (id : Int) : Label K → World K → Option (Coordinate K)
  | .deliver c i _, w =>
    match (w.clients c).reads[i]? with
    | some ⟨.map tab .findPlayersAroundUser,some s⟩ =>
      if (w.clients c).locals.sessionID tab = some id then none
      else storedCoordinate (s.getImmediateChild (stringOfInt id))
    | _ => none
  | _, _ => none

variable [LinearOrder K] [FloorRing K]

/-- What other clients read and find of the player is the position at the start
or one that the player has reported. -/
structure NeverTorn (p : Platform K) (id : Int) (start : Coordinate K) (ls : List (Label K))
    (store : FNode K) : Prop where
  reads : ∀ as l w coordinate, as ++ [l] <+: ls → run (step p) as (World.start store) = some w →
    readPosition id l w = some coordinate →
    coordinate ∈ start :: collect (step p) (newReport id) as (World.start store)
  finds : ∀ as c i d w tab s t users user, as ++ [.deliver c i d] <+: ls →
    run (step p) as (World.start store) = some w →
    (w.clients c).reads[i]? = some ⟨.map tab .findPlayersAroundUser,some s⟩ →
    (w.clients c).locals.tabBarVCs[tab]? = some t →
    MapVC.findPlayersAroundUser p t.map.user t.map.userLocation s.children = .ok users →
    user ∈ users → user.userID = id →
    ∃ coordinate ∈ start :: collect (step p) (newReport id) as (World.start store),
      user.latitude = some coordinate.latitude ∧ user.longitude = some coordinate.longitude

variable {p : Platform K} {id : Int} {l : Label K} {w w' : World K} {d : Device K}

omit [LinearOrder K] [FloorRing K] in
theorem readPosition_eq_some {coordinate : Coordinate K}
    (h : readPosition id l w = some coordinate) : ∃ c i d tab s, l = .deliver c i d ∧
      (w.clients c).reads[i]? = some ⟨.map tab .findPlayersAroundUser,some s⟩ ∧
      (w.clients c).locals.sessionID tab ≠ some id ∧
      storedCoordinate (s.getImmediateChild (stringOfInt id)) = some coordinate := by
  cases l with
  | deliver c i d =>
    simp only [readPosition] at h
    split at h
    · next tab s hread =>
      split at h
      · contradiction
      · next hid => exact ⟨c,i,d,tab,s,rfl,hread,hid,h⟩
    · contradiction
  | event c e => contradiction
  | snapshot c i => contradiction
  | apply c => contradiction

omit [Field K] [LinearOrder K] [FloorRing K] in
theorem Device.sessionID_setTab {tab : Nat} {t u : TabBarVC K} (ht : d.tabBarVCs[tab]? = some t)
    (hu : u.map.user.userID = t.map.user.userID) (tab' : Nat) :
    (d.setTab tab u).sessionID tab' = d.sessionID tab' := by
  by_cases h : tab' = tab
  · subst h
    have hlt := (List.getElem?_eq_some_iff.mp ht).1
    rw [sessionID,sessionID,setTab,List.getElem?_set_self hlt,ht,Option.map_some,Option.map_some,hu]
  · simp [sessionID,setTab,List.getElem?_set_ne (Ne.symm h)]

omit [FloorRing K] in
theorem EventOutcome.sessionID {e : Event K} {r : DeviceReaction K} (h : EventOutcome p d e r)
    (tab : Nat) : r.locals.sessionID tab = d.sessionID tab := by
  cases h with
  | map ht hr =>
    obtain ⟨⟨_,_,hu⟩,_⟩ := MapVC.onEvent_effect hr
    refine Device.sessionID_setTab ht ?_ tab
    simp [hu]
  | battleAction ht he =>
    refine Device.sessionID_setTab ht ?_ tab
    rfl
  | scene ht hs hr =>
    refine Device.sessionID_setTab ht ?_ tab
    exact (GameScene.receive_sameAccount hr).2.2.1
  | newPassword ht =>
    refine Device.sessionID_setTab ht ?_ tab
    rfl
  | logout ht =>
    refine Device.sessionID_setTab ht ?_ tab
    rfl
  | _ => rfl

theorem ReadOutcome.sessionID {snapshot : FNode K} {draw : Draw K} {q : Read K}
    {r : DeviceReaction K} (h : ReadOutcome p snapshot draw d q r) {tab : Nat}
    (htab : tab < d.tabBarVCs.length) : r.locals.sessionID tab = d.sessionID tab := by
  cases h with
  | map ht hr =>
    refine Device.sessionID_setTab ht ?_ tab
    exact congrArg User.userID (MapVC.onRead_effect hr).1
  | login hl => simp [Device.sessionID,List.getElem?_append_left htab]
  | _ => rfl

theorem sessionID_step (hs : step p l w = some w') {c tab : Nat}
    (htab : tab < (w.clients c).locals.tabBarVCs.length) :
    (w'.clients c).locals.sessionID tab = (w.clients c).locals.sessionID tab := by
  have hstep := client_step hs c
  generalize w'.clients c = cl at hstep
  cases hstep with
  | @event e =>
    cases hr : (program p).onEvent e (w.clients c).locals with
    | error t => rfl
    | ok r => exact (onEvent_outcome hr).sessionID tab
  | @deliver i d q s hq =>
    cases hr : (program p).onRead q s d (w.clients c).locals with
    | error t => rfl
    | ok r => exact (onRead_outcome hr).sessionID htab
  | _ => rfl

omit [FloorRing K] in
theorem EventOutcome.report {e : Event K} {r : DeviceReaction K} (h : EventOutcome p d e r)
    {tab : Nat} {c : Coordinate K} (hq : .map tab (.didUpdateLocations c) ∈ r.reads) :
    ∃ locations t, e = .map tab (.didUpdateLocations locations) ∧
      d.tabBarVCs[tab]? = some t ∧ locations.getLast? = some c := by
  cases h with
  | map ht hr =>
    obtain ⟨q,hq,he⟩ := List.mem_map.mp hq
    cases he
    cases MapVC.onEvent_asks hr hq with
    | report hl => exact ⟨_,_,rfl,ht,hl⟩
  | createAccountAction hv => simp at hq
  | loginAction => simp at hq
  | changePasswordAction ht hn => simp at hq
  | _ => contradiction

theorem ReadOutcome.no_report {snapshot : FNode K} {draw : Draw K} {q : Read K}
    {r : DeviceReaction K} (h : ReadOutcome p snapshot draw d q r) {tab : Nat} {c : Coordinate K} :
    .map tab (.didUpdateLocations c) ∉ r.reads := by
  intro hq
  cases h with
  | map ht hr =>
    obtain ⟨q,hq,he⟩ := List.mem_map.mp hq
    cases he
    rcases MapVC.onRead_spawn hr with ⟨_,_,enemy,hs⟩ | hfill
    · simp [hs.reads] at hq
    · simp [hfill.reads] at hq
  | userIsNew hv hc => simp at hq
  | _ => contradiction

theorem newReport_of_reads {c tab : Nat} {r : DeviceReaction K} {location : Coordinate K}
    (hr : Reacts (program p) w c r l) (hq : .map tab (.didUpdateLocations location) ∈ r.reads)
    (hid : (w.clients c).locals.sessionID tab = some id) : newReport id l w = some location := by
  cases hr with
  | @event e hr =>
    obtain ⟨locations,t,rfl,ht,hl⟩ := (onEvent_outcome hr).report hq
    have hown : t.map.user.userID = id := by simpa [Device.sessionID,ht] using hid
    have hreceives : t.receives (.didUpdateLocations locations) = true := by
      by_contra hno
      have hidle : (w.clients c).locals.onEvent p (.map tab (.didUpdateLocations locations)) =
          .ok (w.clients c).locals.idle := by
        simp [Device.onEvent,ht,hno]
      have hsame : r = (w.clients c).locals.idle := Except.ok.inj (hr.symm.trans hidle)
      rw [hsame] at hq
      contradiction
    simp [newReport,ht,hreceives,hown,hl]
  | deliver hread hr => exact absurd hq (onRead_outcome hr).no_report

section
omit [Field K] [LinearOrder K] [FloorRing K]

variable {x : Write K}

theorem half_of_latitude (h : x.path = latitudePath id) : x.half id = some (.inl x.node) :=
  if_pos h

theorem latitudePath_ne (id : Int) : latitudePath id ≠ longitudePath id := by
  simp [latitudePath,longitudePath]

theorem half_of_longitude (h : x.path = longitudePath id) : x.half id = some (.inr x.node) := by
  rw [Write.half,if_neg (fun hl => latitudePath_ne id (hl.symm.trans h)),if_pos h]

theorem half_of_ne (hlat : x.path ≠ latitudePath id) (hlong : x.path ≠ longitudePath id) :
    x.half id = none := by
  rw [Write.half,if_neg hlat,if_neg hlong]

theorem path_of_half_inl {y : FNode K} (h : x.half id = some (.inl y)) :
    x.path = latitudePath id := by
  by_contra hlat
  rw [Write.half,if_neg hlat] at h
  split at h <;> simp at h

theorem between_iff {c : Nat} : Between (positionCells id w) c ↔ BetweenWrites id w c := by
  constructor
  · rintro ⟨y,ws,hws⟩
    obtain ⟨x,xs,hx,hhalf,_⟩ := List.map_eq_cons_iff.mp hws
    refine ⟨x,xs,hx,?_⟩
    by_contra hlong
    by_cases hlat : x.path = latitudePath id
    · simp [half_of_latitude hlat] at hhalf
    · simp [half_of_ne hlat hlong] at hhalf
  · rintro ⟨x,xs,hx,hp⟩
    exact ⟨x.node,xs.map (Write.half id),by simp [positionCells,hx,half_of_longitude hp]⟩

end

omit [LinearOrder K] [FloorRing K] in
theorem queue_locationWrites {user : User K} {c : Coordinate K} {coordinates : List (Coordinate K)}
    (h : user.userID = id → c ∈ coordinates) :
    Queue (Known coordinates) ((MapVC.locationWrites user c).map (Write.half id)) := by
  by_cases hid : user.userID = id
  · subst hid
    rw [MapVC.locationWrites,List.map_cons,List.map_cons,List.map_nil,
      half_of_latitude rfl,half_of_longitude rfl]
    exact .pair (known_of_mem (h rfl)) .nil
  · have hkey : stringOfInt user.userID ≠ stringOfInt id := fun he => hid (stringOfInt_injective he)
    refine .of_elsewhere (fun o ho => ?_)
    obtain ⟨x,hx,rfl⟩ := List.mem_map.mp ho
    rcases List.mem_pair.mp hx with rfl | rfl <;>
      exact half_of_ne (by simp [setValue,latitudePath,hkey])
        (by simp [setValue,longitudePath,hkey])

structure Tracked (id : Int) (start : Coordinate K) (reported : List (Coordinate K)) (w : World K) :
    Prop where
  sessions : SessionsOnly w
  tabs : ∀ c, TabsThere (w.clients c)
  asked : ∀ c, ∀ rd ∈ (w.clients c).reads, ∀ tab location,
    rd.read = .map tab (.didUpdateLocations location) →
    (w.clients c).locals.sessionID tab = some id → location ∈ reported
  cells : Sound (Known (start :: reported)) (positionCells id w)
  seen : ∀ c, ∀ rd ∈ (w.clients c).reads, ∀ tab s, rd = ⟨.map tab .findPlayersAroundUser,some s⟩ →
    (w.clients c).locals.sessionID tab ≠ some id → ∀ coordinate,
    storedCoordinate (s.getImmediateChild (stringOfInt id)) = some coordinate →
    coordinate ∈ start :: reported

variable {start : Coordinate K} {reported : List (Coordinate K)}

theorem Tracked.queue (h : Tracked id start reported w) {c : Nat} {r : DeviceReaction K}
    (hr : Reacts (program p) w c r l) :
    Queue (Known (start :: reported)) (r.writes.map (Write.half id)) := by
  have helsewhere : (∀ x ∈ r.writes, x.path ≠ latitudePath id ∧ x.path ≠ longitudePath id) →
      Queue (Known (start :: reported)) (r.writes.map (Write.half id)) := by
    intro hne
    refine .of_elsewhere (fun o ho => ?_)
    obtain ⟨x,hx,rfl⟩ := List.mem_map.mp ho
    exact half_of_ne (hne x hx).1 (hne x hx).2
  cases hr with
  | event hr =>
    refine helsewhere (fun x hx => ?_)
    rcases (onEvent_outcome hr).path x hx with ⟨rest,hp⟩ | ⟨key,hp⟩ <;>
      simp [hp,latitudePath,longitudePath]
  | @deliver i d q s hq hr =>
    have hmem := List.mem_of_getElem? hq
    have hout := onRead_outcome hr
    have hsession := h.sessions.reads c _ hmem
    cases hout with
    | addUser hv => contradiction
    | passwordChanged hs ht hn =>
      refine helsewhere (fun x hx => ?_)
      rw [List.mem_singleton.mp hx]
      simp [setValue,latitudePath,longitudePath]
    | @map tab t q mr ht hmap =>
      simp only [Device.ofMap] at helsewhere ⊢
      rcases (MapVC.onRead_effect hmap).2 with ⟨location,rfl,hw,_⟩ | ⟨enemy,_,hw,_⟩ | ⟨hw,_⟩
      · rw [hw]
        refine queue_locationWrites (fun hid => List.mem_cons_of_mem start ?_)
        exact h.asked c _ hmem tab location rfl (by simp [Device.sessionID,ht,hid])
      · refine helsewhere (fun x hx => ?_)
        rw [hw] at hx
        obtain ⟨rest,hp⟩ := enemyWrites_path enemy x hx
        simp [hp,latitudePath,longitudePath]
      · rw [hw]
        exact .nil
    | _ => exact .nil

def positionAction : Label K → Action
  | .apply c => .apply c
  | _ => .issue

theorem Tracked.cellsIssue (h : Tracked id start reported w) (hs : step p l w = some w')
    (hl : ∀ c, l ≠ .apply c) :
    Step (Known (start :: reported)) .issue (positionCells id w) (positionCells id w') := by
  have hstore : w'.store = w.store :=
    (step_store hs).resolve_right (fun ⟨c,_,_,he,_⟩ => hl c he)
  refine .issue (by simp [positionCells,hstore]) (by simp [positionCells,hstore]) (fun c => ?_)
  obtain ⟨ws,hws,hissued⟩ := writes_step hs (hl c)
  refine ⟨ws.map (Write.half id),by simp [positionCells,hws],?_⟩
  rcases hissued with rfl | ⟨r,hr,rfl⟩
  · exact .nil
  · exact h.queue hr

theorem Tracked.cellsApply (h : Tracked id start reported w) {c : Nat}
    (hs : step p (.apply c) w = some w') : Step (Known (start :: reported)) (.apply c)
      (positionCells id w) (positionCells id w') := by
  obtain ⟨x,xs,hx,rfl⟩ := step_apply hs
  have hsession := h.sessions.writes c x (by rw [hx]; exact List.mem_cons_self)
  have hothers (c' : Nat) (hc : c' ≠ c) :
      ((w.setClient c { w.clients c with writes := xs }).clients c').writes.map (Write.half id) =
        (w.clients c').writes.map (Write.half id) := by
    rw [setClient_clients_ne _ _ _ hc]
  by_cases hlat : x.path = latitudePath id
  · have hnode : (applyWrite x w.store).getChild (latitudePath id) = x.node :=
      hlat ▸ getChild_applyWrite_self w.store x.path x.node
    refine .first ?_ ?_ hothers
    · simp [positionCells,hx,half_of_latitude hlat,backend,hnode]
    · exact hsession.keeps (fun hlong => latitudePath_ne id (hlat.symm.trans hlong)) w.store
  · by_cases hlong : x.path = longitudePath id
    · have hnode : (applyWrite x w.store).getChild (longitudePath id) = x.node :=
        hlong ▸ getChild_applyWrite_self w.store x.path x.node
      refine .second ?_ ?_ hothers
      · simp [positionCells,hx,half_of_longitude hlong,backend,hnode]
      · exact hsession.keeps hlat w.store
    · refine .elsewhere ?_ ?_ ?_ hothers
      · simp [positionCells,hx,half_of_ne hlat hlong]
      · exact hsession.keeps hlat w.store
      · exact hsession.keeps hlong w.store

omit [Field K] [LinearOrder K] [FloorRing K] in
theorem alone_of_positionWhole (h : PositionWhole id l w) :
    Alone (positionAction l) (positionCells id w) := by
  cases l with
  | apply c =>
    intro y ws hws c' hc hbetween
    obtain ⟨x,xs,hx,hhalf,_⟩ := List.map_eq_cons_iff.mp hws
    exact h x xs hx (path_of_half_inl hhalf) c' hc (between_iff.mp hbetween)
  | event c e => trivial
  | snapshot c i => trivial
  | deliver c i d => trivial

theorem tab_lt_of_reacts {c tab : Nat} {q : MapRead K} {r : DeviceReaction K}
    (hr : Reacts (program p) w c r l) (hq : .map tab q ∈ r.reads) :
    tab < (w.clients c).locals.tabBarVCs.length := by
  cases hr with
  | event hr => exact (onEvent_outcome hr).tabs.2 _ hq tab q rfl
  | deliver hread hr => exact (onRead_outcome hr).tabs.2 _ hq tab q rfl

theorem Tracked.asked_step (h : Tracked id start reported w) (hs : step p l w = some w') {c : Nat}
    {rd : Pending (Read K) (FNode K)} (hrd : rd ∈ (w'.clients c).reads) {tab : Nat}
    {location : Coordinate K} (hread : rd.read = .map tab (.didUpdateLocations location))
    (hid : (w'.clients c).locals.sessionID tab = some id) :
    location ∈ reported ++ (newReport id l w).toList := by
  rcases mem_reads_step hs hrd with ⟨rd',hrd',hsame⟩ | ⟨r,hr,hnew⟩
  · have hread' := hsame.trans hread
    rw [sessionID_step hs (h.tabs c rd' hrd' tab _ hread')] at hid
    exact List.mem_append_left _ (h.asked c rd' hrd' tab location hread' hid)
  · rw [hread] at hnew
    rw [sessionID_step hs (tab_lt_of_reacts hr hnew)] at hid
    rw [newReport_of_reads hr hnew hid]
    exact List.mem_append_right _ (List.mem_singleton_self location)

theorem Tracked.seen_step (h : Tracked id start reported w) (hc : PositionWhole id l w)
    (hs : step p l w = some w') {c tab : Nat} {s : FNode K}
    (hrd : ⟨.map tab .findPlayersAroundUser,some s⟩ ∈ (w'.clients c).reads)
    (hid : (w'.clients c).locals.sessionID tab ≠ some id) {coordinate : Coordinate K}
    (hcoord : storedCoordinate (s.getImmediateChild (stringOfInt id)) = some coordinate) :
    coordinate ∈ start :: reported := by
  rcases snapshot_of_step hs hrd rfl with hold | ⟨i,rfl,hread,hview⟩
  · rw [sessionID_step hs (h.tabs c _ hold tab _ rfl)] at hid
    exact h.seen c _ hold tab s rfl hid coordinate hcoord
  · rw [sessionID_step hs (h.tabs c _ (List.mem_of_getElem? hread) tab _ rfl)] at hid
    have hwhole := h.cells.whole (fun c' hb => hc tab hread hid c' (between_iff.mp hb))
    obtain ⟨known,hmem,hknown⟩ := hwhole.stored
    rw [hview,storedCoordinate_eq] at hcoord
    have hsame : some coordinate = some known := hcoord.symm.trans hknown
    rw [Option.some.inj hsame]
    exact hmem

theorem Tracked.step (h : Tracked id start reported w) (hl : NoSignup l)
    (hc : PositionWhole id l w) (hs : GFLGO.step p l w = some w') :
    Tracked id start (reported ++ (newReport id l w).toList) w' where
  sessions := h.sessions.step hl hs
  tabs := tabsThere_step h.tabs hs
  asked := fun c rd hrd tab location hread hid => h.asked_step hs hrd hread hid
  cells := by
    have hstep : PairedWrites.Step (Known (start :: reported)) (positionAction l)
        (positionCells id w) (positionCells id w') := by
      cases l with
      | apply c => exact h.cellsApply hs
      | event c e => exact h.cellsIssue hs (fun c' he => by cases he)
      | snapshot c i => exact h.cellsIssue hs (fun c' he => by cases he)
      | deliver c i d => exact h.cellsIssue hs (fun c' he => by cases he)
    exact (h.cells.step hstep (alone_of_positionWhole hc)).mono
      (fun x y ⟨known,hmem,hknown⟩ => ⟨known,List.mem_append_left _ hmem,hknown⟩)
  seen := by
    rintro c rd hrd tab s rfl hid coordinate hcoord
    exact List.mem_append_left _ (h.seen_step hc hs hrd hid hcoord)

omit [LinearOrder K] [FloorRing K] in
theorem tracked_start {store : FNode K}
    (h : storedCoordinate (store.getChild ["users",stringOfInt id]) = some start) :
    Tracked id start [] (World.start store) where
  sessions := sessionsOnly_start store
  tabs := fun c rd hrd => by contradiction
  asked := fun c rd hrd => by contradiction
  cells := Or.inl ⟨⟨start,List.mem_cons_self,by rw [← h,storedCoordinate_eq]; rfl⟩,fun _ => .nil⟩
  seen := fun c rd hrd => by contradiction

/-- A player that a scan finds has the position of the record with its key. -/
theorem stored_of_found {n : Nat} {s : FNode K} (hs : InitialSegment n s) {self user : User K}
    {location : Option (Coordinate K)} {users : List (User K)}
    (hfind : MapVC.findPlayersAroundUser p self location s.children = .ok users)
    (huser : user ∈ users) : self.userID ≠ user.userID ∧ ∃ coordinate,
      storedCoordinate (s.getImmediateChild (stringOfInt user.userID)) = some coordinate ∧
      user.latitude = some coordinate.latitude ∧ user.longitude = some coordinate.longitude := by
  obtain ⟨child,hc,hdecodes⟩ := exists_of_mem_right (findPlayersAroundUser_decodes hfind) huser
  obtain ⟨hchild,hother⟩ := List.mem_filter.mp (nearChildren_sublist.subset hc)
  obtain ⟨k,_,hkey⟩ := (hs.mem_iff child.1).mp (List.mem_map_of_mem hchild)
  have hid : (k : Int) = user.userID := by
    have hid := hdecodes.userID
    rwa [hkey,intOfString_stringOfInt,Option.some.injEq] at hid
  obtain ⟨latitude,hlat,hlat'⟩ := hdecodes.latitude
  obtain ⟨longitude,hlong,hlong'⟩ := hdecodes.longitude
  refine ⟨?_,⟨latitude,longitude⟩,?_,hlat,hlong⟩
  · rw [hkey,intOfString_stringOfInt,hid] at hother
    exact fun he => of_decide_eq_true hother (he ▸ rfl)
  · rw [← hid,← hkey,PathTree.getImmediateChild_of_mem hs.nodup hchild]
    exact storedCoordinate_of_ok hlat' hlong'

/-- When positions are read and replaced whole, they are never torn. -/
theorem neverTorn_of_whole (p : Platform K) (id : Int) (start : Coordinate K) (store : FNode K)
    (n : Nat) (ls : List (Label K)) (hn : InitialSegment n (store.getChild ["users"]))
    (hstart : storedCoordinate (store.getChild ["users",stringOfInt id]) = some start)
    (hl : ∀ l ∈ ls, NoSignup l)
    (hc : Along (step p) (PositionWhole id) ls (World.start store)) :
    NeverTorn p id start ls store := by
  have halong : Along (step p) (fun l w => NoSignup l ∧ PositionWhole id l w) ls
      (World.start store) := (along_of_forall_mem (step p) hl _).and (step p) hc
  have htracked : ∀ {as ls' w}, as ++ ls' <+: ls → run (step p) as (World.start store) = some w →
      Tracked id start (collect (step p) (newReport id) as (World.start store)) w := by
    rintro as ls' w ⟨bs,rfl⟩ hr
    rw [List.append_assoc] at halong
    exact run_collect (f := newReport id) (I := Tracked id start) (step p)
      (fun l u u' _ hi hc hs => hi.step hc.1 hc.2 hs) (tracked_start hstart)
      (halong.left (step p)) hr
  have hreads : ∀ {as l w coordinate}, as ++ [l] <+: ls →
      run (step p) as (World.start store) = some w → readPosition id l w = some coordinate →
      coordinate ∈ start :: collect (step p) (newReport id) as (World.start store) := by
    intro as l w coordinate hp hr hread
    obtain ⟨c,i,d,tab,s,_,hread,hid,hcoord⟩ := readPosition_eq_some hread
    exact (htracked hp hr).seen c _ (List.mem_of_getElem? hread) tab s rfl hid coordinate hcoord
  refine ⟨fun as l w coordinate => hreads,?_⟩
  intro as c i d w tab s t users user hp hr hread ht hfind huser hid
  obtain ⟨m,hkeys⟩ : ∃ m, KeysInv m w :=
    run_invariant (I := fun w => ∃ n, KeysInv n w) (C := fun _ _ => True) (step p)
      (fun _ _ _ hi _ hs => hi.elim (fun _ hi => hi.step hs)) ⟨n,keysInv_start hn⟩
      (along_of_forall_mem (step p) (fun _ _ => trivial) _) hr
  have hkey := (hkeys.clients c).reads _ (List.mem_of_getElem? hread)
  obtain ⟨_,_,hsegment⟩ := hkey.snapshot s rfl rfl
  obtain ⟨hself,coordinate,hcoord,hlat,hlong⟩ := stored_of_found hsegment hfind huser
  rw [hid] at hself hcoord
  refine ⟨coordinate,hreads hp hr ?_,hlat,hlong⟩
  simp [readPosition,hread,Device.sessionID,ht,hself,hcoord]

def Read.looksFrom : Read K → Option Nat
  | .map tab .findPlayersAroundUser => some tab
  | _ => none

def PositionWholeAmong (A : List Nat) (id : Int) : Label K → World K → Prop
  | .snapshot c i, w => ∀ rd ∈ (w.clients c).reads[i]?, ∀ tab ∈ rd.read.looksFrom,
    (w.clients c).locals.sessionID tab ≠ some id →
      ∀ c' ∈ A, ∀ x ∈ (w.clients c').writes.head?, x.path ≠ longitudePath id
  | .apply c, w => ∀ x ∈ (w.clients c).writes.head?, x.path = latitudePath id →
    ∀ c' ∈ A, c' ≠ c → ∀ x ∈ (w.clients c').writes.head?, x.path ≠ longitudePath id
  | _, _ => True

instance (A : List Nat) (id : Int) (l : Label K) (w : World K) :
    Decidable (PositionWholeAmong A id l w) :=
  match l with
  | .snapshot c i => inferInstanceAs (Decidable (∀ rd ∈ (w.clients c).reads[i]?, _))
  | .apply c => inferInstanceAs (Decidable (∀ x ∈ (w.clients c).writes.head?, _))
  | .event _ _ | .deliver _ _ _ => isTrue trivial

omit [Field K] [LinearOrder K] [FloorRing K] in
theorem positionWhole_of_among {A : List Nat} {id : Int} {store : FNode K} {l : Label K}
    {w : World K} (hw : ∀ c, c ∉ A → w.clients c = (World.start store).clients c)
    (h : PositionWholeAmong A id l w) : PositionWhole id l w := by
  cases l with
  | snapshot c i =>
    rintro tab hr hsession c' ⟨x,xs,hx,hp⟩
    exact forall_clients_of_mem (R := fun cl => ∀ x ∈ cl.writes.head?, x.path ≠ longitudePath id)
      hw (fun _ x hx => by contradiction) (h _ hr tab rfl hsession) c' x (by simp [hx]) hp
  | apply c =>
    rintro x xs hx hlat c' hne ⟨y,ys,hy,hp⟩
    have hothers := h x (by simp [hx]) hlat
    by_cases hc : c' ∈ A
    · exact hothers c' hc hne y (by simp [hy]) hp
    · simp [hw c' hc,World.start] at hy
  | event c e => trivial
  | deliver c i d => trivial

end

def twoPlayers : FNode ℚ :=
  drain (SignupVC.userWrites "1" (User.init "bob" (some "pw") 1 50 3.2 10) ++
    MapVC.locationWrites (User.init "ann" (some "pw") 0 50 3.2 10) ⟨0,0⟩ ++
    MapVC.locationWrites (User.init "bob" (some "pw") 1 50 3.2 10) ⟨0,0⟩) annStore

theorem initialSegment_twoPlayers : InitialSegment 2 (twoPlayers.getChild ["users"]) := by
  have hkeys : (twoPlayers.getChild ["users"]).childKeys =
      [stringOfInt (0 : Nat),stringOfInt (1 : Nat)] := by
    decide +kernel
  refine ⟨hkeys ▸ by decide +kernel,fun key => ?_⟩
  rw [hkeys,List.mem_pair]
  constructor
  · rintro (rfl | rfl)
    · exact ⟨0,by omega,rfl⟩
    · exact ⟨1,by omega,rfl⟩
  · rintro ⟨k,hk,rfl⟩
    obtain rfl | rfl : k = 0 ∨ k = 1 := by omega
    · exact Or.inl rfl
    · exact Or.inr rfl

/-- Bob's scan is answered after the first of the two writes of ann's report. -/
def scanBetween : List (Label ℚ) :=
  login 0 sampleDraw "ann" "pw" ++ login 1 sampleDraw "bob" "pw" ++
    (locate 0 sampleDraw 0 ⟨1/100000,1/100000⟩).dropLast ++
    [.event 1 (.map 0 (.didUpdateLocations [⟨0,0⟩])),.snapshot 1 1]

/-- Bob finds ann at the latitude of her report and the longitude she had before. -/
theorem not_neverTorn : ¬ ∀ (id : Int) (start : Coordinate ℚ) (store : FNode ℚ) (n : Nat)
    (ls : List (Label ℚ)), InitialSegment n (store.getChild ["users"]) →
      storedCoordinate (store.getChild ["users",stringOfInt id]) = some start →
      (∀ l ∈ ls, NoSignup l) → NeverTorn planePlatform id start ls store := by
  intro h
  have hrun : (run (step planePlatform) scanBetween (World.start twoPlayers)).map (fun w =>
      readPosition 0 (.deliver 1 1 sampleDraw) w) = some (some ⟨1/100000,0⟩) := by
    decide +kernel
  obtain ⟨w,hw,hread⟩ := Option.map_eq_some_iff.mp hrun
  have htorn := h 0 ⟨0,0⟩ twoPlayers 2 (scanBetween ++ [.deliver 1 1 sampleDraw])
    initialSegment_twoPlayers (by decide +kernel) (by decide +kernel)
  have hmem := htorn.reads scanBetween _ w _ (List.prefix_refl _) hw hread
  have hreports : collect (step planePlatform) (newReport 0) scanBetween (World.start twoPlayers) =
      [⟨1/100000,1/100000⟩] := by
    decide +kernel
  rw [hreports] at hmem
  simp at hmem

/-- Bob looks for players before ann's report is stored and again after it, and his
own report is stored around hers. -/
def scansAround : List (Label ℚ) :=
  login 0 sampleDraw "ann" "pw" ++ login 1 sampleDraw "bob" "pw" ++
    [.event 0 (.map 0 (.didUpdateLocations [⟨1/100000,1/100000⟩]))] ++ answer 0 sampleDraw ++
    answer 0 sampleDraw ++ [.event 1 (.map 0 (.didUpdateLocations [⟨0,0⟩])),.snapshot 1 1] ++
    answer 0 sampleDraw ++ [.deliver 1 1 sampleDraw] ++ answer 1 sampleDraw ++
    answer 1 sampleDraw ++ [.apply 1,.apply 0,.event 1 (.map 0 .centerAction),.apply 0] ++
    answer 1 sampleDraw ++ answer 1 sampleDraw ++ [.apply 1]

theorem neverTorn_scansAround : ∃ w,
    run (step planePlatform) scansAround (World.start twoPlayers) = some w ∧
      storedCoordinate (w.store.getChild ["users","0"]) = some ⟨1/100000,1/100000⟩ ∧
      NeverTorn planePlatform 0 ⟨0,0⟩ scansAround twoPlayers := by
  have hrun : (run (step planePlatform) scansAround (World.start twoPlayers)).map
      (fun w => storedCoordinate (w.store.getChild ["users","0"])) =
        some (some ⟨1/100000,1/100000⟩) := by
    decide +kernel
  obtain ⟨w,hw,he⟩ := Option.map_eq_some_iff.mp hrun
  have hwhole : Along (step planePlatform) (PositionWholeAmong [0,1] 0) scansAround
      (World.start twoPlayers) := by
    decide +kernel
  exact ⟨w,hw,he,neverTorn_of_whole planePlatform 0 ⟨0,0⟩ twoPlayers 2 scansAround
    initialSegment_twoPlayers (by decide +kernel) (by decide +kernel)
    (along_of_clients (A := [0,1]) (by decide +kernel)
      (fun _ _ hu hl => positionWhole_of_among hu hl) hwhole)⟩

end GFLGO
