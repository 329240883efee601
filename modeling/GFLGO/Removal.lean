import GFLGO.Enemies
import GFLGO.Experience

/-!
An enemy that was removed from the store. It comes back when its six writes, or
the callback that issues them, were still on their way.
-/

set_option autoImplicit false

namespace GFLGO

open Runs Async

section
variable {K : Type}

/-- The step applies the removal of the enemy. -/
def Removes (e : String) (l : Label K) (w : World K) : Prop :=
  ∃ c xs, l = .apply c ∧ (w.clients c).writes = removeValue ["enemies",e] :: xs

/-- Nothing that could store the enemy is on its way. -/
structure NothingPending (e : String) (w : World K) : Prop where
  reads : ∀ c, ∀ rd ∈ (w.clients c).reads, ∀ enemy, rd.read.enemy = some enemy →
    enemy.identifier ≠ e
  writes : ∀ c, ∀ x ∈ (w.clients c).writes, ∀ rest, x.path = "enemies" :: e :: rest →
    x.node.isEmpty = true

/-- The removal comes after everything that stores the enemy. -/
def RemovedLast (e : String) (l : Label K) (w : World K) : Prop :=
  Removes e l w → NothingPending e w

structure UnknownTo (e : String) (cl : Client K) : Prop where
  device : ¬ cl.locals.Knows e
  reads : ∀ rd ∈ cl.reads, ∀ enemy, rd.read.enemy = some enemy → enemy.identifier ≠ e
  snapshots : ∀ rd ∈ cl.reads, ∀ tab s, rd = ⟨.map tab .findEnemiesAroundUser,some s⟩ →
    e ∉ s.childKeys
  writes : ∀ x ∈ cl.writes, ∀ rest, x.path ≠ "enemies" :: e :: rest

structure Unknown (e : String) (w : World K) : Prop where
  store : e ∉ enemyKeys w.store
  clients : ∀ c, UnknownTo e (w.clients c)

structure GoneFor (e : String) (cl : Client K) : Prop where
  reads : ∀ rd ∈ cl.reads, ∀ enemy, rd.read.enemy = some enemy → enemy.identifier ≠ e
  writes : ∀ x ∈ cl.writes, x.Spares e

structure Gone (e : String) (w : World K) : Prop where
  store : e ∉ enemyKeys w.store
  clients : ∀ c, GoneFor e (w.clients c)

def AllPlaced (w : World K) : Prop := ∀ c, ∀ x ∈ (w.clients c).writes, x.Placed

theorem enemyWrites_placed {enemy : Enemy K} {x : Write K} (h : x ∈ MapVC.enemyWrites enemy) :
    x.Placed := by
  obtain ⟨rest,hp⟩ := enemyWrites_path enemy x h
  exact .enemies hp

variable [Field K] [LinearOrder K] [FloorRing K] {p : Platform K}

/-- How often the enemy is spawned: once if the store has it at the start, and
once for each spawn of the run. -/
def spawnCount (p : Platform K) (e : String) (ls : List (Label K)) (store : FNode K) : Nat :=
  (enemyKeys store ++
    (collect (step p) (spawned p) ls (World.start store)).map Enemy.identifier).count e

/-- After its removal no later state of the store has a child for the enemy. -/
def StaysGone (p : Platform K) (e : String) (ls : List (Label K)) (store : FNode K) : Prop :=
  ∀ as l bs w w', as ++ l :: bs <+: ls → run (step p) as (World.start store) = some w →
    Removes e l w → run (step p) (l :: bs) w = some w' → e ∉ enemyKeys w'.store

theorem AllPlaced.step {l : Label K} {w w' : World K} (h : AllPlaced w)
    (hs : GFLGO.step p l w = some w') : AllPlaced w' := by
  intro c x hx
  rcases placed_of_step hs hx with hold | ⟨rest,hp⟩ | ⟨id,_,rfl⟩ | ⟨rd,_,enemy,_,hnew⟩
  · exact h c x hold
  · exact .users hp
  · exact .enemies rfl
  · exact enemyWrites_placed hnew

/-- A step stores an enemy only by a write that stood before it. -/
theorem enemyKeys_of_step {e : String} {l : Label K} {w w' : World K} (hp : AllPlaced w)
    (hs : GFLGO.step p l w = some w') (he : e ∈ enemyKeys w'.store) :
    e ∈ enemyKeys w.store ∨ ∃ c, ∃ x ∈ (w.clients c).writes, ∃ rest,
      x.path = "enemies" :: e :: rest := by
  rcases step_store hs with hsame | ⟨c,x,xs,_,hx,hstore⟩
  · exact Or.inl (hsame ▸ he)
  · have hmem : x ∈ (w.clients c).writes := by
      rw [hx]
      exact List.mem_cons_self
    rw [hstore] at he
    cases hp c x hmem with
    | users hpath => exact Or.inl (by rwa [← enemyKeys_applyWrite_users hpath w.store])
    | enemies hpath =>
      rcases mem_enemyKeys_of_applyWrite hpath he with rfl | hold
      · exact Or.inr ⟨c,x,hmem,_,hpath⟩
      · exact Or.inl hold

theorem Unknown.step {e : String} {l : Label K} {w w' : World K} (h : Unknown e w)
    (hp : AllPlaced w) (hn : ∀ enemy, spawned p l w = some enemy → enemy.identifier ≠ e)
    (hs : GFLGO.step p l w = some w') : Unknown e w' := by
  refine ⟨fun he => ?_,fun c => ⟨fun hk => ?_,fun rd hrd enemy he hid => ?_,
    fun rd hrd tab s hrd' hkey => ?_,fun x hx rest hpath => ?_⟩⟩
  · rcases enemyKeys_of_step hp hs he with hold | ⟨c,x,hx,rest,hpath⟩
    · exact h.store hold
    · exact (h.clients c).writes x hx rest hpath
  · rcases knows_of_step hs hk with hold | ⟨enemy,hnew,hid⟩ | ⟨tab,s,hrd,hkey⟩
    · exact (h.clients c).device hold
    · exact hn enemy hnew hid
    · exact (h.clients c).snapshots _ hrd tab s rfl hkey
  · rcases asked_of_step hs hrd he with ⟨rd',hrd',he'⟩ | hnew
    · exact (h.clients c).reads rd' hrd' enemy he' hid
    · exact hn enemy hnew hid
  · subst hrd'
    rcases snapshot_of_step hs hrd rfl with hold | ⟨i,_,_,hview⟩
    · exact (h.clients c).snapshots _ hold tab s rfl hkey
    · rw [hview] at hkey
      exact h.store hkey
  · rcases placed_of_step hs hx with hold | ⟨rest',hp'⟩ | ⟨id,hk,rfl⟩ | ⟨rd,hrd,enemy,he,hnew⟩
    · exact (h.clients c).writes x hold rest hpath
    · rw [hp'] at hpath
      simp at hpath
    · have hid : id = e := by simpa [removeValue] using (List.cons.inj (List.cons.inj hpath).2).1
      exact (h.clients c).device (hid ▸ hk)
    · obtain ⟨rest',hp'⟩ := enemyWrites_path enemy x hnew
      rw [hp'] at hpath
      exact (h.clients c).reads rd hrd enemy he (List.cons.inj (List.cons.inj hpath).2).1

theorem Gone.step {e : String} {l : Label K} {w w' : World K} (h : Gone e w)
    (hn : ∀ enemy, spawned p l w = some enemy → enemy.identifier ≠ e)
    (hs : GFLGO.step p l w = some w') : Gone e w' := by
  refine ⟨?_,fun c => ⟨fun rd hrd enemy he hid => ?_,fun x hx => ?_⟩⟩
  · rcases step_store hs with hsame | ⟨c,x,xs,_,hx,hstore⟩
    · exact hsame ▸ h.store
    · rw [hstore]
      exact ((h.clients c).writes x (by rw [hx]; exact List.mem_cons_self)).not_mem h.store
  · rcases asked_of_step hs hrd he with ⟨rd',hrd',he'⟩ | hnew
    · exact (h.clients c).reads rd' hrd' enemy he' hid
    · exact hn enemy hnew hid
  · rcases placed_of_step hs hx with hold | ⟨rest,hp⟩ | ⟨id,_,rfl⟩ | ⟨rd,hrd,enemy,he,hnew⟩
    · exact (h.clients c).writes x hold
    · exact ⟨.users hp,fun rest' hp' => by simp [hp] at hp'⟩
    · exact ⟨.enemies rfl,fun _ _ => rfl⟩
    · obtain ⟨rest,hp⟩ := enemyWrites_path enemy x hnew
      refine ⟨.enemies hp,fun rest' hp' => absurd ?_ ((h.clients c).reads rd hrd enemy he)⟩
      rw [hp] at hp'
      exact (List.cons.inj (List.cons.inj hp').2).1

theorem Gone.of_removal {e : String} {l : Label K} {w w' : World K} (hp : AllPlaced w)
    (hr : Removes e l w) (hc : NothingPending e w) (hs : GFLGO.step p l w = some w') :
    Gone e w' := by
  obtain ⟨c,xs,rfl,hx⟩ := hr
  obtain ⟨x,xs',hx',rfl⟩ := step_apply hs
  rw [hx] at hx'
  cases hx'
  have hgone (c' : Nat) : GoneFor e (w.clients c') :=
    ⟨hc.reads c',fun x hxc => ⟨hp c' x hxc,hc.writes c' x hxc⟩⟩
  refine ⟨not_mem_enemyKeys_removeValue w.store e,
    forall_clients_update (R := fun _ (cl : Client K) => GoneFor e cl) ?_ (fun c' _ => hgone c')⟩
  refine ⟨(hgone c).reads,fun y hy => (hgone c).writes y ?_⟩
  rw [hx]
  exact List.mem_cons_of_mem _ hy

theorem unknown_of_run {e : String} {ls : List (Label K)} {store : FNode K} {w : World K}
    (hr : run (step p) ls (World.start store) = some w) (hstore : e ∉ enemyKeys store)
    (hn : e ∉ (collect (step p) (spawned p) ls (World.start store)).map Enemy.identifier) :
    Unknown e w := by
  have hstart : Unknown e (World.start store) :=
    ⟨hstore,fun c => ⟨by simp [Device.Knows,World.start],by simp [World.start],
      by simp [World.start],by simp [World.start]⟩⟩
  have hinv := run_collect (f := spawned p) (C := fun _ _ => True)
    (I := fun enemies w => AllPlaced w ∧ (e ∉ enemies.map Enemy.identifier → Unknown e w))
    (step p) ?_ ⟨fun c x hx => by simp [World.start] at hx,fun _ => hstart⟩
    (along_of_forall_mem (step p) (A := fun _ => True) (fun _ _ => trivial) _) hr
  · exact hinv.2 hn
  · rintro l u u' enemies ⟨hp,hu⟩ _ hs
    refine ⟨hp.step hs,fun hnot => ?_⟩
    rw [List.map_append,List.mem_append,not_or] at hnot
    refine (hu hnot.1).step hp (fun enemy he hid => hnot.2 ?_) hs
    simp [he,hid]

theorem gone_of_run {e : String} {ls : List (Label K)} {w w' : World K} (h : Gone e w)
    (hr : run (step p) ls w = some w')
    (hn : e ∉ (collect (step p) (spawned p) ls w).map Enemy.identifier) : Gone e w' := by
  have hinv := run_collect (f := spawned p) (C := fun _ _ => True)
    (I := fun enemies w => e ∉ enemies.map Enemy.identifier → Gone e w)
    (step p) ?_ (fun _ => h)
    (along_of_forall_mem (step p) (A := fun _ => True) (fun _ _ => trivial) _) hr
  · exact hinv hn
  · intro l u u' enemies hu _ hs hnot
    rw [List.map_append,List.mem_append,not_or] at hnot
    refine (hu hnot.1).step (fun enemy he hid => hnot.2 ?_) hs
    simp [he,hid]

theorem allPlaced_of_run {ls : List (Label K)} {store : FNode K} {w : World K}
    (hr : run (step p) ls (World.start store) = some w) : AllPlaced w :=
  run_invariant (I := AllPlaced) (C := fun _ _ => True) (step p) (fun _ _ _ h _ hs => h.step hs)
    (fun c x hx => by simp [World.start] at hx)
    (along_of_forall_mem (step p) (A := fun _ => True) (fun _ _ => trivial) _) hr

omit [Field K] [LinearOrder K] [FloorRing K] in
theorem Unknown.not_removes {e : String} {l : Label K} {w : World K} (h : Unknown e w) :
    ¬ Removes e l w := by
  rintro ⟨c,xs,_,hx⟩
  refine (h.clients c).writes (removeValue ["enemies",e]) ?_ [] rfl
  rw [hx]
  exact List.mem_cons_self

theorem staysGone_of_removedLast {e : String} {ls : List (Label K)} {store : FNode K}
    (hcount : spawnCount p e ls store ≤ 1)
    (h : Along (step p) (RemovedLast e) ls (World.start store)) : StaysGone p e ls store := by
  rintro as l bs w w' ⟨cs,rfl⟩ hw hremoves hw'
  rw [List.append_assoc] at h hcount
  have hcond := ((along_append (step p) hw).mp h).2.1 hremoves
  obtain ⟨u,hu,hrest⟩ := (run_cons_eq_some (step p)).mp hw'
  have hgone := Gone.of_removal (allPlaced_of_run hw) hremoves hcond hu
  refine (gone_of_run hgone hrest (fun hagain => ?_)).store
  -- the removed enemy was spawned before, and a second time after
  have hbefore : e ∈ enemyKeys store ++
      (collect (step p) (spawned p) as (World.start store)).map Enemy.identifier := by
    by_contra hnot
    rw [List.mem_append,not_or] at hnot
    exact (unknown_of_run hw hnot.1 hnot.2).not_removes hremoves
  have hlater : e ∈ (collect (step p) (spawned p) (l :: bs ++ cs) w).map Enemy.identifier := by
    simp only [List.cons_append,collect,hu,collect_append (step p) hrest,List.map_append,
      List.mem_append]
    exact Or.inr (Or.inl hagain)
  rw [spawnCount,collect_append (step p) hw,List.map_append,← List.append_assoc,
    List.count_append] at hcount
  have := List.count_pos_iff.mpr hbefore
  have := List.count_pos_iff.mpr hlater
  omega

/-! The other way round: what was still on its way brings the enemy back. -/

omit [Field K] [LinearOrder K] [FloorRing K] in
/-- Something that stores the enemy is on its way, unless a client has crashed. -/
inductive Returns (e : String) (w : World K) : Prop
  | trapped {c : Nat} (ht : (w.clients c).trap ≠ none)
  | read {c : Nat} {r : Pending (Read K) (FNode K)} {enemy : Enemy K}
    (hr : r ∈ (w.clients c).reads) (he : r.read.enemy = some enemy)
    (hid : enemy.identifier = e)
  | write {c : Nat} {x : Write K} {rest : List String} (hx : x ∈ (w.clients c).writes)
    (hp : x.path = "enemies" :: e :: rest) (hn : x.node.isEmpty = false)

omit [Field K] [LinearOrder K] [FloorRing K] in
theorem not_returns_of_quiet {e : String} {w : World K} (hq : w.Quiet)
    (ht : ∀ c, (w.clients c).trap = none) : ¬ Returns e w := by
  intro h
  cases h with
  | @trapped c hn => exact hn (ht c)
  | @read c rd enemy hr he hid => simp [(hq c).1] at hr
  | @write c x rest hx hp hn => simp [(hq c).2] at hx

omit [Field K] [LinearOrder K] [FloorRing K] in
theorem returns_of_not_nothingPending {e : String} {w : World K} (h : ¬ NothingPending e w) :
    Returns e w := by
  by_contra hn
  refine h ⟨fun c rd hrd enemy he hid => hn (.read hrd he hid),fun c x hx rest hp => ?_⟩
  by_contra hne
  exact hn (.write hx hp (by simpa using hne))

omit [Field K] [LinearOrder K] [FloorRing K] in
theorem Returns.of_update {e : String} {w : World K} {c : Nat} {cl : Client K} {w' : World K}
    (h : Returns e w) (hw : w'.clients = Function.update w.clients c cl)
    (ht : (w.clients c).trap ≠ none → cl.trap ≠ none)
    (hr : ∀ rd ∈ (w.clients c).reads, ∀ enemy, rd.read.enemy = some enemy →
      enemy.identifier = e → Returns e w')
    (hx : ∀ x ∈ (w.clients c).writes, ∀ rest, x.path = "enemies" :: e :: rest →
      x.node.isEmpty = false → Returns e w') : Returns e w' := by
  cases h with
  | @trapped c' hn =>
    refine .trapped (c := c') ?_
    rw [hw]
    by_cases hc : c' = c
    · subst hc
      simpa using ht hn
    · simpa [hc] using hn
  | @read c' rd enemy hrd he hid =>
    by_cases hc : c' = c
    · subst hc
      exact hr rd hrd enemy he hid
    · exact .read (c := c') (by simpa [hw,hc] using hrd) he hid
  | @write c' x rest hx' hp hn =>
    by_cases hc : c' = c
    · subst hc
      exact hx x hx' rest hp hn
    · exact .write (c := c') (by simpa [hw,hc] using hx') hp hn

theorem Returns.step {e : String} {l : Label K} {w w' : World K} (h : Returns e w)
    (htabs : ∀ c, TabsThere (w.clients c)) (he : e ∉ enemyKeys w'.store)
    (hs : GFLGO.step p l w = some w') : Returns e w' := by
  cases l with
  | event c e' =>
    obtain ⟨_,rfl⟩ := step_event hs
    cases hr : (program p).onEvent e' (w.clients c).locals with
    | error t => exact .trapped (c := c) (by simp [Client.absorb])
    | ok r =>
      refine h.of_update (c := c) rfl (fun ht => by simpa [Client.absorb] using ht)
        (fun rd hrd enemy hen hid => .read (c := c) ?_ hen hid)
        (fun x hx rest hp hn => .write (c := c) ?_ hp hn)
      · rw [react_clients_self]
        exact mem_reads_absorb.mpr (Or.inl hrd)
      · rw [react_clients_self]
        exact List.mem_append_left _ hx
  | snapshot c i =>
    obtain ⟨q,hq,rfl⟩ := step_snapshot hs
    refine h.of_update (c := c) rfl id (fun rd hrd enemy hen hid => ?_)
      (fun x hx rest hp hn => .write (c := c) ?_ hp hn)
    · by_cases hrd' : rd = ⟨q,none⟩
      · subst hrd'
        refine .read (r := ⟨q,some (backend.view q w.store)⟩) (c := c) ?_ hen hid
        rw [setClient_clients_self]
        exact mem_set_self hq
      · refine .read (r := rd) (c := c) ?_ hen hid
        rw [setClient_clients_self]
        exact mem_set_of_ne hq hrd hrd'
    · rw [setClient_clients_self]
      exact hx
  | deliver c i d =>
    obtain ⟨q,s,hq,rfl⟩ := step_deliver hs
    cases hr : (program p).onRead q s d (w.clients c).locals with
    | error t => exact .trapped (c := c) (by simp [Client.absorb])
    | ok r =>
      refine h.of_update (c := c) rfl (fun ht => by simpa [Client.absorb] using ht)
        (fun rd hrd enemy hen hid => ?_) (fun x hx rest hp hn => .write (c := c) ?_ hp hn)
      · by_cases hrd' : rd = ⟨q,some s⟩
        · -- the callback now issues the six writes
          subst hrd'
          have hwrites := writes_of_add hr hen (htabs c _ (List.mem_of_getElem? hq))
          refine .write (c := c) (x := setValue ["enemies",enemy.identifier]
            (.string enemy.identifier)) ?_ (show _ = ["enemies",e] by rw [setValue,hid]) rfl
          rw [react_clients_self]
          refine List.mem_append_right _ ?_
          rw [hwrites]
          exact List.mem_cons_self
        · refine .read (r := rd) (c := c) ?_ hen hid
          rw [react_clients_self]
          exact mem_reads_absorb.mpr (Or.inl (mem_eraseIdx_of_ne hq hrd hrd'))
      · rw [react_clients_self]
        exact List.mem_append_left _ hx
  | apply c =>
    obtain ⟨x₀,xs,hx₀,rfl⟩ := step_apply hs
    refine h.of_update (c := c) rfl id (fun rd hrd enemy hen hid => .read (c := c) ?_ hen hid)
      (fun x hx rest hp hn => ?_)
    · simpa [World.setClient] using hrd
    · rw [hx₀] at hx
      rcases List.mem_cons.mp hx with rfl | hmem
      · exact absurd ((mem_enemyKeys_applyWrite hp hn w.store).mpr (Or.inl rfl)) he
      · exact .write (c := c) (by simpa [World.setClient] using hmem) hp hn

theorem not_returns_of_stays {e : String} {ls : List (Label K)} {w w' : World K}
    (hr : run (step p) ls w = some w') (hq : w'.Quiet) (ht : ∀ c, (w'.clients c).trap = none)
    (htabs : ∀ c, TabsThere (w.clients c))
    (hstays : ∀ bs u, bs <+: ls → run (step p) bs w = some u → bs ≠ [] → e ∉ enemyKeys u.store) :
    ¬ Returns e w := by
  intro hreturns
  have halong : Along (step p) (fun l u => ∀ u', step p l u = some u' → e ∉ enemyKeys u'.store)
      ls w := by
    refine along_of_forall_prefix (step p) (fun bs l u hp hu u' hs => ?_)
    refine hstays (bs ++ [l]) u' hp ?_ (by simp)
    exact (run_append_eq_some (step p)).mpr ⟨u,hu,(run_cons_eq_some (step p)).mpr ⟨u',hs,rfl⟩⟩
  have hinv := run_invariant (I := fun u => Returns e u ∧ ∀ c, TabsThere (u.clients c)) (step p)
    (fun _ _ _ hi hc hs => ⟨hi.1.step hi.2 (hc _ hs) hs,tabsThere_step hi.2 hs⟩)
    ⟨hreturns,htabs⟩ halong hr
  exact not_returns_of_quiet hq ht hinv.1

/-- A defeated enemy stays gone when its removal comes after all that stores it;
and in a run that ends with nothing under way, only then. -/
theorem staysGone_iff_removedLast (p : Platform K) (store : FNode K) (e : String)
    (ls : List (Label K)) (hcount : spawnCount p e ls store ≤ 1) :
    (Along (step p) (RemovedLast e) ls (World.start store) → StaysGone p e ls store) ∧
    ∀ w, run (step p) ls (World.start store) = some w → w.Quiet →
      (∀ c, (w.clients c).trap = none) → StaysGone p e ls store →
      Along (step p) (RemovedLast e) ls (World.start store) := by
  refine ⟨staysGone_of_removedLast hcount,fun w hr hq ht hstays => ?_⟩
  refine along_of_forall_prefix (step p) (fun as l u hp hu hremoves => ?_)
  by_contra hpending
  have hstart : ∀ c, TabsThere ((World.start store : World K).clients c) :=
    fun c rd hrd => by simp [World.start] at hrd
  have htabs : ∀ c, TabsThere (u.clients c) :=
    run_invariant (I := fun u => ∀ c, TabsThere (u.clients c)) (C := fun _ _ => True) (step p)
      (fun _ _ _ hi _ hs => tabsThere_step hi hs) hstart
      (along_of_forall_mem (step p) (A := fun _ => True) (fun _ _ => trivial) _) hu
  obtain ⟨cs,rfl⟩ := hp
  rw [List.append_assoc,List.singleton_append] at hr hstays
  obtain ⟨u',hu',hrest⟩ := (run_append_eq_some (step p)).mp hr
  rw [hu,Option.some.injEq] at hu'
  subst hu'
  refine not_returns_of_stays hrest hq ht htabs (fun bs v hbs hv hne => ?_)
    (returns_of_not_nothingPending hpending)
  cases bs with
  | nil => exact absurd rfl hne
  | cons l' bs =>
    obtain rfl := (List.cons_prefix_cons.mp hbs).1
    exact hstays as l' bs u v ((List.prefix_append_right_inj as).mpr hbs) hu hremoves hv

def RemovedLastAmong (A : List Nat) (e : String) : Label K → World K → Prop
  | .apply c, w => ∀ x ∈ (w.clients c).writes.head?, x.path = ["enemies",e] →
    x.node.isEmpty = true → ∀ c' ∈ A,
      (∀ rd ∈ (w.clients c').reads, ∀ enemy ∈ rd.read.enemy, enemy.identifier ≠ e) ∧
        ∀ x ∈ (w.clients c').writes, x.isBelow "enemies" e = true → x.node.isEmpty = true
  | _, _ => True

instance (A : List Nat) (e : String) (l : Label K) (w : World K) :
    Decidable (RemovedLastAmong A e l w) :=
  match l with
  | .apply c => inferInstanceAs (Decidable (∀ x ∈ (w.clients c).writes.head?, _))
  | .event _ _ | .snapshot _ _ | .deliver _ _ _ => isTrue trivial

omit [Field K] [LinearOrder K] [FloorRing K] in
theorem removedLast_of_among {A : List Nat} {e : String} {store : FNode K} {l : Label K}
    {w : World K} (hw : ∀ c, c ∉ A → w.clients c = (World.start store).clients c)
    (h : RemovedLastAmong A e l w) : RemovedLast e l w := by
  rintro ⟨c,xs,rfl,hx⟩
  have hall := forall_clients_of_mem
    (R := fun cl => (∀ rd ∈ cl.reads, ∀ enemy ∈ rd.read.enemy, enemy.identifier ≠ e) ∧
      ∀ x ∈ cl.writes, x.isBelow "enemies" e = true → x.node.isEmpty = true) hw
    (fun _ => ⟨fun rd hrd => by contradiction,fun x hx => by contradiction⟩)
    (h (removeValue ["enemies",e]) (by simp [hx]) rfl rfl)
  refine ⟨fun c' => (hall c').1,fun c' x hxc rest hp => (hall c').2 x hxc ?_⟩
  simp [Write.isBelow,hp]

end

def blows (c tab scene survived : Nat) : List (Label ℚ) :=
  (List.replicate survived
    (tapAttack c tab scene ++ [.event c (.scene tab scene .waitCompleted)])).flatten ++
    tapAttack c tab scene

/-- The callback that stores the enemy waits until the enemy is defeated. -/
def defeatBeforeStore : List (Label ℚ) :=
  login 0 sampleDraw "ann" "pw" ++ locate 0 sampleDraw 0 ⟨0,0⟩ ++
    [.event 0 (.map 0 (.addEnemyAction sampleDraw)),.snapshot 0 0] ++ battle 0 0 0 ++ blows 0 0 0 9

/-- The enemy is removed, and stored after that. -/
theorem not_staysGone : ¬ ∀ (store : FNode ℚ) (e : String) (ls : List (Label ℚ)),
    spawnCount planePlatform e ls store ≤ 1 → StaysGone planePlatform e ls store := by
  intro h
  let rest : List (Label ℚ) := [.apply 0,.deliver 0 0 sampleDraw] ++ applyAll 0 6
  have hrun : (run (step planePlatform) defeatBeforeStore (World.start annStore)).map (fun w =>
      ((w.clients 0).writes.head?.map (fun x => (x.path,x.node.isEmpty)),
        (run (step planePlatform) (.apply 0 :: rest) w).map (fun w' => enemyKeys w'.store))) =
      some (some (["enemies","u0e1500000000d0"],true),some ["u0e1500000000d0"]) := by
    decide +kernel
  obtain ⟨w,hw,he⟩ := Option.map_eq_some_iff.mp hrun
  simp only [Prod.mk.injEq] at he
  obtain ⟨x,hx,hnode⟩ := Option.map_eq_some_iff.mp he.1
  obtain ⟨w',hw',hkeys⟩ := Option.map_eq_some_iff.mp he.2
  obtain ⟨xs,hwrites⟩ := List.head?_eq_some_iff.mp hx
  simp only [Prod.mk.injEq] at hnode
  have hremoves : Removes "u0e1500000000d0" (.apply 0) w := by
    refine ⟨0,xs,rfl,?_⟩
    rw [hwrites,removeValue,← hnode.1,← PathTree.isEmpty_iff.mp hnode.2]
  refine h annStore "u0e1500000000d0" (defeatBeforeStore ++ .apply 0 :: rest) (by decide +kernel)
    defeatBeforeStore _ rest w w' (List.prefix_refl _) hw hremoves hw' ?_
  simp [hkeys]

/-- Two sessions find the enemy that one of them spawned. Both bring it down
before either of the removals is applied. -/
def goneForBoth : List (Label ℚ) :=
  login 0 sampleDraw "ann" "pw" ++ login 1 sampleDraw "ann" "pw" ++ locate 0 sampleDraw 0 ⟨0,0⟩ ++
    [.event 0 (.map 0 (.addEnemyAction sampleDraw)),
     .event 1 (.map 0 (.didUpdateLocations [⟨0,0⟩]))] ++ answer 0 sampleDraw ++ applyAll 0 6 ++
    answer 1 sampleDraw ++ answer 1 sampleDraw ++ answer 1 sampleDraw ++ applyAll 1 2 ++
    battle 0 0 0 ++ battle 1 0 0 ++ blows 0 0 0 9 ++ blows 1 0 0 9 ++
    [.apply 0,.apply 1,.apply 0,.apply 1]

theorem staysGone_goneForBoth : ∃ w,
    run (step planePlatform) goneForBoth (World.start annStore) = some w ∧
      enemyKeys w.store = [] ∧ StaysGone planePlatform "u0e1500000000d0" goneForBoth annStore := by
  have hrun : (run (step planePlatform) goneForBoth (World.start annStore)).map
      (fun w => enemyKeys w.store) = some [] := by
    decide +kernel
  obtain ⟨w,hw,he⟩ := Option.map_eq_some_iff.mp hrun
  have hlast : Along (step planePlatform) (RemovedLastAmong [0,1] "u0e1500000000d0") goneForBoth
      (World.start annStore) := by
    decide +kernel
  refine ⟨w,hw,he,?_⟩
  exact (staysGone_iff_removedLast planePlatform annStore _ _ (by decide +kernel)).1
    (along_of_clients (A := [0,1]) (by decide +kernel)
      (fun _ _ hu hl => removedLast_of_among hu hl) hlast)

end GFLGO
