import GFLGO.EventCaches
import GFLGO.RegularWrites
import GFLGO.SnapshotNode

/-!
The app over the database's library: the store in the library's own nodes, and
what the library of one client makes of the writes that are still on their way.
-/

set_option autoImplicit false

namespace GFLGO

open Runs Async Overlay RepoEvent

section
variable {K : Type}

def applied : Label K → World K → Option (Write K)
  | .apply c, w => (w.clients c).writes.head?
  | _, _ => none

def Write.snapshotNode (x : Write K) : SnapshotNode (Value K) := .ofValue (leaf? x.node)

/-- What the library of a client is told in a step: its own new writes, and the response to
the oldest one. -/
def repoEvents [Field K] [LinearOrder K] [FloorRing K] (p : Platform K) (c : Nat) (l : Label K)
    (w : World K) : List (RepoEvent String (Value K)) :=
  if l.client = c then
    match l with
    | .event _ e => (writesOf ((w.clients c).locals.onEvent p e)).map (fun x => .set x.path x.node)
    | .snapshot _ _ => []
    | .deliver _ i d =>
      match (w.clients c).reads[i]? with
      | some ⟨q,some s⟩ =>
        (writesOf ((w.clients c).locals.onRead p q s d)).map (fun x => .set x.path x.node)
      | _ => []
    | .apply _ => [.ackWrite]
  else []

def repoHistory [Field K] [LinearOrder K] [FloorRing K] (p : Platform K) (c : Nat)
    (ls : List (Label K)) (w : World K) : List (RepoEvent String (Value K)) :=
  (collect (step p) (fun l w => some (repoEvents p c l w)) ls w).flatten

/-- Values are stored below a key of a collection alone. -/
def Deep (store : FNode K) : Prop := ∀ path, leaf? (store.getChild path) ≠ none → 2 ≤ path.length

theorem deep_empty : Deep (.empty : FNode K) := by
  intro path h
  rw [PathTree.getChild_empty] at h
  exact absurd rfl h

theorem Write.Regular.path_eq {x : Write K} (h : x.Regular) :
    ∃ coll key rest, x.path = coll :: key :: rest := by
  cases h with
  | value hx hp =>
    subst hx
    exact ⟨_,_,_,rfl⟩
  | removal hx hk =>
    subst hx
    exact ⟨_,_,_,rfl⟩

theorem Deep.applyWrite {store : FNode K} (h : Deep store) {x : Write K} (hx : x.Regular) :
    Deep (applyWrite x store) := by
  obtain ⟨coll,key,rest,hpath⟩ := hx.path_eq
  intro path hl
  by_contra hlen
  refine hl ?_
  have hold : leaf? (store.getChild path) = none := by
    by_contra hne
    exact hlen (h path hne)
  rw [GFLGO.applyWrite,hpath]
  cases path with
  | nil => exact leaf?_updateChild hold
  | cons k path =>
    obtain rfl : path = [] :=
      List.eq_nil_of_length_eq_zero (by rw [List.length_cons] at hlen; omega)
    by_cases hk : k = coll
    · subst hk
      have hk : [k] <+: k :: key :: rest := List.prefix_append [k] (key :: rest)
      rw [getChild_updateChild_of_above hk]
      exact leaf?_updateChild hold
    · rw [getChild_updateChild_of_apart ⟨?_,?_⟩]
      · exact hold
      · exact fun hp => absurd hp.length_le (by simp)
      · exact fun hp => hk (List.cons_prefix_cons.mp hp).1

theorem compatible_of_regular {store : FNode K} (hd : Deep store) {ws : List (Write K)}
    (hw : ∀ x ∈ ws, x.Regular) :
    Compatible (overlay (ws.map (fun x => (x.path,x.node)))) store := by
  rintro path hnone hl ⟨r,hr⟩
  have hlen := hd path hl
  have hbelow : ∃ v ∈ ws.map (fun x => (x.path,x.node)), path <+: v.1 := by
    by_contra hno
    refine hr (overlay_eq_none_iff.mpr (fun v hv hp => ?_))
    rcases List.prefix_or_prefix_of_prefix hp (List.prefix_append path r) with h | h
    · exact overlay_eq_none_iff.mp hnone v hv h
    · exact hno ⟨v,hv,h⟩
  obtain ⟨v,hv,⟨s,hs⟩,ho⟩ := overlay_last hnone hbelow
  obtain ⟨x,hx,rfl⟩ := List.mem_map.mp hv
  refine ⟨s,x.node,by rwa [hs],?_⟩
  cases hw x hx with
  | value hx hp => rw [hx]; rfl
  | @removal key hx hk =>
    -- its path is as short as the value's, so it would cover the value
    have hx2 : x.path.length = 2 := by rw [hx]; rfl
    have hcover := overlay_eq_none_iff.mp hnone _ hv
    have hsl := congrArg List.length hs
    rw [List.length_append,hx2] at hsl
    obtain rfl : s = [] := List.eq_nil_of_length_eq_zero (by omega)
    rw [List.append_nil] at hs
    exact absurd (hs ▸ List.prefix_refl _) hcover

theorem replay_eq_drain (ws : List (Write K)) (store : FNode K) :
    replay (ws.map (fun x => (x.path,x.node))) store = drain ws store := by
  rw [replay,List.foldl_map]
  rfl

theorem foldl_outstanding_set (ws : List (Write K))
    (pending : List (List (List String × FNode K))) :
    (ws.map (fun x => RepoEvent.set x.path x.node)).foldl outstanding pending =
      pending ++ ws.map (fun x => [(x.path,x.node)]) := by
  induction ws generalizing pending with
  | nil => simp
  | cons x ws ih =>
    rw [List.map_cons,List.foldl_cons,ih]
    simp [outstanding]

theorem related_snapshotNode {ws : List (Write K)} (hw : ∀ x ∈ ws, x.Regular) :
    SortedEntries.Related (StandsFor {k | Ordinary k})
      (ws.map (fun x => (x.path,x.snapshotNode))) (ws.map (fun x => (x.path,x.node))) := by
  induction ws with
  | nil => exact .nil
  | cons x ws ih =>
    obtain ⟨hx,hrest⟩ := List.forall_mem_cons.mp hw
    refine .cons ?_ (ih hrest)
    cases hx with
    | value hx hp =>
      rw [hx]
      exact .leaf _
    | removal hx hk =>
      rw [hx]
      exact .empty

variable [Field K] [LinearOrder K] [FloorRing K] {p : Platform K} {l : Label K} {w w' : World K}

theorem outstanding_step (hs : step p l w = some w') (c : Nat) :
    (repoEvents p c l w).foldl outstanding
        ((w.clients c).writes.map (fun x => [(x.path,x.node)])) =
      (w'.clients c).writes.map (fun x => [(x.path,x.node)]) := by
  have hreact (cl : Client K) (r : Except Trap (DeviceReaction K)) :
      (cl.absorb r).writes = cl.writes ++ writesOf r := by
    cases r <;> simp [Client.absorb,writesOf]
  by_cases hl : l.client = c
  · subst hl
    unfold repoEvents
    rw [if_pos rfl]
    cases l with
    | event c e =>
      obtain ⟨_,rfl⟩ := step_event hs
      simp only [Label.client]
      rw [foldl_outstanding_set,react_clients_self,hreact,List.map_append]
      rfl
    | snapshot c i =>
      obtain ⟨q,_,rfl⟩ := step_snapshot hs
      simp only [Label.client]
      rw [setClient_clients_self]
      rfl
    | deliver c i d =>
      obtain ⟨q,s,hq,rfl⟩ := step_deliver hs
      simp only [Label.client,hq]
      rw [foldl_outstanding_set,react_clients_self,hreact,List.map_append]
      rfl
    | apply c =>
      obtain ⟨x,xs,hx,rfl⟩ := step_apply hs
      simp only [Label.client]
      rw [hx]
      simp [outstanding]
  · unfold repoEvents
    rw [if_neg hl,step_clients_ne hs (Ne.symm hl)]
    rfl

theorem shallow_repoEvents (p : Platform K) (c : Nat) (l : Label K) (w : World K) :
    ∀ e ∈ repoEvents p c l w, e.Shallow := by
  intro e he
  unfold repoEvents at he
  split at he
  · split at he
    · obtain ⟨x,-,rfl⟩ := List.mem_map.mp he
      trivial
    · cases he
    · split at he
      · obtain ⟨x,-,rfl⟩ := List.mem_map.mp he
        trivial
      · cases he
    · rw [List.mem_singleton.mp he]
      trivial
  · cases he

theorem deep_step (hr : Regular w) (hd : Deep w.store) (hs : step p l w = some w') :
    Deep w'.store := by
  rcases step_store hs with hsame | ⟨c,x,xs,_,hx,hstore⟩
  · rwa [hsame]
  · rw [hstore]
    exact hd.applyWrite (hr.writes c x (by rw [hx]; exact List.mem_cons_self))

/-- What the library of a client has been told, and where it leaves the writes. -/
structure Told (c : Nat) (events : List (RepoEvent String (Value K))) (w : World K) : Prop where
  regular : Regular w
  deep : Deep w.store
  shallow : ∀ e ∈ events, e.Shallow
  outstanding : events.foldl outstanding [] = (w.clients c).writes.map (fun x => [(x.path,x.node)])

theorem told_of_run {ls : List (Label K)} (c : Nat)
    (hr : run (step p) ls (World.start .empty) = some w) :
    Told c (repoHistory p c ls (World.start .empty)) w := by
  have hstart : Told c [] (World.start (.empty : FNode K)) :=
    ⟨regular_start (by simp [enemyKeys,PathTree.childKeys]),deep_empty,by simp,rfl⟩
  refine run_collect (f := fun l w => some (repoEvents p c l w)) (C := fun _ _ => True)
    (I := fun bss w => Told c bss.flatten w) (step p) ?_ hstart
    (along_of_forall_mem (step p) (A := fun _ => True) (fun _ _ => trivial) _) hr
  intro l u u' bss h _ hs
  simp only [Option.toList_some,List.flatten_append,List.flatten_cons,List.flatten_nil,
    List.append_nil]
  refine ⟨h.regular.step hs,deep_step h.regular h.deep hs,?_,?_⟩
  · exact List.forall_mem_append.mpr ⟨h.shallow,shallow_repoEvents p c l u⟩
  · rw [List.foldl_append,h.outstanding]
    exact outstanding_step hs c

omit [Field K] [LinearOrder K] [FloorRing K] in
theorem Told.allOutstanding {c : Nat} {events : List (RepoEvent String (Value K))}
    (h : Told c events w) :
    allOutstanding events = (w.clients c).writes.map (fun x => (x.path,x.node)) := by
  rw [RepoEvent.allOutstanding,h.outstanding,← List.flatMap_def,List.map_eq_flatMap]

omit [Field K] [LinearOrder K] [FloorRing K] in
theorem Told.eventCache (cmp : String → String → Ordering) [Std.TransCmp cmp]
    [Std.LawfulEqCmp cmp] {c : Nat} {events : List (RepoEvent String (Value K))}
    (h : Told c events w) (treePath : List String) :
    ∃ n, (FRepo.run cmp events).pendingWriteTree.calculateCompleteEventCache cmp treePath
        (some (w.store.getChild treePath)) none false = some n ∧
      ∀ q, leaf? (n.getChild q) =
        leaf? ((drain (w.clients c).writes w.store).getChild (treePath ++ q)) := by
  obtain ⟨ho,hc⟩ := FRepo.run_layered cmp _ h.shallow
  rw [h.allOutstanding] at hc
  rw [← replay_eq_drain]
  exact FRepo.calculateCompleteEventCache_of_complete ho hc
    (compatible_of_regular h.deep (h.regular.writes c)) treePath

/-- At any moment of any run a listener of a client would be shown the store as it will be
when the client's own writes have arrived, whatever the other clients do. -/
theorem eventCache_of_run (cmp : String → String → Ordering) [Std.TransCmp cmp]
    [Std.LawfulEqCmp cmp] {ls : List (Label K)}
    (hr : run (step p) ls (World.start .empty) = some w) (c : Nat) (treePath : List String) :
    ∃ n, (FRepo.run cmp
        (repoHistory p c ls (World.start .empty))).pendingWriteTree.calculateCompleteEventCache
          cmp treePath (some (w.store.getChild treePath)) none false = some n ∧
      ∀ q, leaf? (n.getChild q) =
        leaf? ((drain (w.clients c).writes w.store).getChild (treePath ++ q)) :=
  (told_of_run c hr).eventCache cmp treePath

/-- To a client whose writes have all arrived, the library shows what `backend` has it see. -/
theorem eventCache_of_view (cmp : String → String → Ordering) [Std.TransCmp cmp]
    [Std.LawfulEqCmp cmp] {ls : List (Label K)}
    (hr : run (step p) ls (World.start .empty) = some w) {c : Nat}
    (hw : (w.clients c).writes = []) (q : Read K) :
    ∃ n, (FRepo.run cmp
        (repoHistory p c ls (World.start .empty))).pendingWriteTree.calculateCompleteEventCache
          cmp q.path (some (backend.view q w.store)) none false = some n ∧
      ∀ path, leaf? (n.getChild path) = leaf? ((backend.view q w.store).getChild path) := by
  obtain ⟨n,hn,hleaf⟩ := (told_of_run c hr).eventCache cmp q.path
  refine ⟨n,hn,fun path => ?_⟩
  rw [hleaf,hw,drain_nil,view_eq,PathTree.getChild_append]

theorem store_of_run {ls : List (Label K)} (hr : run (step p) ls (World.start .empty) = some w) :
    Regular w ∧ w.store = drain (collect (step p) applied ls (World.start .empty)) .empty ∧
      ∀ x ∈ collect (step p) applied ls (World.start .empty), x.Regular := by
  refine run_collect (f := applied) (C := fun _ _ => True)
    (I := fun xs w => Regular w ∧ w.store = drain xs .empty ∧ ∀ x ∈ xs, x.Regular) (step p) ?_
    ⟨regular_start (by simp [enemyKeys,PathTree.childKeys]),rfl,by simp⟩
    (along_of_forall_mem (step p) (A := fun _ => True) (fun _ _ => trivial) _) hr
  rintro l u u' xs ⟨hreg,hstore,hxs⟩ _ hs
  refine ⟨hreg.step hs,?_⟩
  cases l with
  | apply c =>
    obtain ⟨x,ys,hx,rfl⟩ := step_apply hs
    have hreg' := hreg.writes c x (by rw [hx]; exact List.mem_cons_self)
    simp only [applied,hx,List.head?_cons,Option.toList_some]
    refine ⟨?_,List.forall_mem_append.mpr ⟨hxs,by simpa using hreg'⟩⟩
    rw [drain_append,← hstore]
    rfl
  | event c e =>
    obtain ⟨_,rfl⟩ := step_event hs
    simpa [applied] using ⟨hstore,hxs⟩
  | snapshot c i =>
    obtain ⟨q,_,rfl⟩ := step_snapshot hs
    simpa [applied] using ⟨hstore,hxs⟩
  | deliver c i d =>
    obtain ⟨q,s,hq,rfl⟩ := step_deliver hs
    simpa [applied] using ⟨hstore,hxs⟩

omit [Field K] [LinearOrder K] [FloorRing K] in
theorem Read.Regular.path {q : Read K} (h : q.Regular) : ∀ k ∈ q.path, Ordinary k := by
  have husers : Ordinary "users" := ordinary_of_mem_fields (by simp)
  have henemies : Ordinary "enemies" := ordinary_of_mem_fields (by simp)
  cases q with
  | changeIfValidPassword tab vc oldPassword userID =>
    have hp : Ordinary "password" := ordinary_of_mem_fields (by simp)
    simpa [Read.path] using ⟨husers,h.password _ _ _ _ rfl,hp⟩
  | map tab q => cases q <;> simpa [Read.path,MapRead.path]
  | _ => simpa [Read.path]

/-- In every run the library's own nodes take all writes without an exception, and answer
every read as the store does. -/
theorem storeNode_of_run {ls : List (Label K)}
    (hr : run (step p) ls (World.start .empty) = some w) :
    ∃ n, SnapshotNode.updateAll ((collect (step p) applied ls (World.start .empty)).map
        (fun x => (x.path,x.snapshotNode))) .emptyNode = .ok n ∧
      (∀ path, (∀ k ∈ path, Ordinary k) →
        let child := n.getChild path
        let tree := w.store.getChild path
        child.isEmpty = tree.isEmpty ∧ child.numChildren = tree.numChildren ∧
          child.childKeys = tree.childKeys ∧ ∀ v, child = .leafNode v ↔ tree = .leaf v) ∧
      ∀ c, ∀ rd ∈ (w.clients c).reads, ∀ k ∈ rd.read.path, Ordinary k := by
  obtain ⟨hreg,hstore,hxs⟩ := store_of_run hr
  obtain ⟨n,hn,hfor⟩ := StandsFor.updateAll tellsApart_ordinary (related_snapshotNode hxs)
    (t := .empty) (fun u hu => by
      obtain ⟨x,hx,rfl⟩ := List.mem_map.mp hu
      exact (hxs x hx).ordinary) StandsFor.empty
  have hw : StandsFor {k | Ordinary k} n w.store := by
    rw [hstore,← replay_eq_drain]
    exact hfor
  exact ⟨n,hn,fun path hp => (StandsFor.getChild tellsApart_ordinary hp hw).reads,
    fun c rd hrd => (hreg.reads c rd hrd).path⟩

end

/-- Two of the six writes of a signup have arrived. -/
def halfSignup : List (Label ℚ) :=
  tapCreateAccount 0 0 "ann" "pw" ++ answer 0 sampleDraw ++ answer 0 sampleDraw ++ applyAll 0 2

theorem eventCache_of_run_halfSignup : ∃ w,
    run (step planePlatform) halfSignup (World.start .empty) = some w ∧
    ∃ n, (FRepo.run compare (repoHistory planePlatform 0 halfSignup
        (World.start .empty))).pendingWriteTree.calculateCompleteEventCache compare ["users"]
          (some (w.store.getChild ["users"])) none false = some n ∧
      leaf? (n.getChild ["0","password"]) = some (.string "pw") := by
  have hrun : ((run (step planePlatform) halfSignup (World.start .empty)).bind (fun w =>
      leaf? ((drain (w.clients 0).writes w.store).getChild ["users","0","password"]))) =
        some (.string "pw") := by
    decide +kernel
  obtain ⟨w,hw,hl⟩ := Option.bind_eq_some_iff.mp hrun
  obtain ⟨n,hn,hv⟩ := eventCache_of_run compare hw 0 ["users"]
  exact ⟨w,hw,n,hn,(hv _).trans hl⟩

theorem eventCache_of_view_signup : ∃ w,
    run (step planePlatform) (halfSignup ++ applyAll 0 4) (World.start .empty) = some w ∧
    ∃ n, (FRepo.run compare (repoHistory planePlatform 0 (halfSignup ++ applyAll 0 4)
        (World.start .empty))).pendingWriteTree.calculateCompleteEventCache compare ["users"]
          (some (backend.view (.loginIfValid "ann" "pw") w.store)) none false = some n ∧
      leaf? (n.getChild ["0","password"]) = some (.string "pw") := by
  have hrun : ((run (step planePlatform) (halfSignup ++ applyAll 0 4) (World.start .empty)).map
      (fun w => (decide ((w.clients 0).Quiet),
        leaf? ((w.store.getChild ["users"]).getChild ["0","password"])))) =
          some (true,some (.string "pw")) := by
    decide +kernel
  obtain ⟨w,hw,he⟩ := Option.map_eq_some_iff.mp hrun
  simp only [Prod.mk.injEq,decide_eq_true_eq] at he
  obtain ⟨n,hn,hv⟩ := eventCache_of_view compare hw he.1.2 (.loginIfValid "ann" "pw")
  exact ⟨w,hw,n,hn,(hv _).trans he.2⟩

theorem storeNode_of_run_halfSignup : ∃ n,
    SnapshotNode.updateAll ((collect (step planePlatform) applied halfSignup
      (World.start .empty)).map (fun x => (x.path,x.snapshotNode))) .emptyNode = .ok n ∧
    (n.getChild ["users"]).childKeys = ["0"] := by
  have hrun : ((run (step planePlatform) halfSignup (World.start .empty)).map (fun w =>
      (w.store.getChild ["users"]).childKeys)) = some ["0"] := by
    decide +kernel
  obtain ⟨w,hw,hk⟩ := Option.map_eq_some_iff.mp hrun
  obtain ⟨n,hn,hreads,-⟩ := storeNode_of_run hw
  refine ⟨n,hn,?_⟩
  have hu := (hreads ["users"] (by simpa using ordinary_of_mem_fields (by simp))).2.2.1
  rw [hu,hk]

end GFLGO
