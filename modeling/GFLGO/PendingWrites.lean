import GFLGO.WriteTree

/-!
Histories of pending writes that are acknowledged in the order they were made:
what the client shows is what the server will have.
-/

set_option autoImplicit false

namespace GFLGO

open SortedEntries Overlay FCompoundWrite FImmutableTree FWriteTree

namespace FWriteRecord

variable {κ ν : Type}

/-- The writes of a record, one by one. -/
def writes (r : FWriteRecord κ ν) : List (List κ × PathTree κ ν) :=
  match r.data with
  | .overwrite n => [(r.path,n)]
  | .merge m => m.forEach.map (fun e => (r.path ++ e.1,e.2))

/-- A merge changes children of the node at its path, nothing deeper. -/
def Shallow (r : FWriteRecord κ ν) : Prop :=
  ∀ m, r.data = .merge m → ∀ e ∈ m.forEach, e.1.length = 1

theorem prefix_of_mem_writes {r : FWriteRecord κ ν} {w : List κ × PathTree κ ν}
    (h : w ∈ r.writes) : r.path <+: w.1 := by
  obtain ⟨id,path,data,visible⟩ := r
  cases data with
  | overwrite n =>
    obtain rfl := List.mem_singleton.mp h
    exact List.prefix_refl _
  | merge m =>
    obtain ⟨e,-,rfl⟩ := List.mem_map.mp h
    exact List.prefix_append _ _

theorem recordContainsPath_iff [DecidableEq κ] (r : FWriteRecord κ ν) (path : List κ) :
    recordContainsPath r path = true ↔ ∃ w ∈ r.writes, w.1 <+: path := by
  obtain ⟨id,p,data,visible⟩ := r
  cases data with
  | overwrite n => simp [recordContainsPath,writes]
  | merge m =>
    simp only [recordContainsPath,writes,List.any_eq_true,decide_eq_true_eq]
    constructor
    · rintro ⟨e,he,hp⟩
      exact ⟨_,List.mem_map_of_mem he,hp⟩
    · rintro ⟨w,hw,hp⟩
      obtain ⟨e,he,rfl⟩ := List.mem_map.mp hw
      exact ⟨e,he,hp⟩

theorem Shallow.above {r : FWriteRecord κ ν} (hs : r.Shallow) {w : List κ × PathTree κ ν}
    (hw : w ∈ r.writes) {p : List κ} (hp : p <+: w.1) : p <+: r.path ∨ p = w.1 := by
  obtain ⟨id,path,data,visible⟩ := r
  cases data with
  | overwrite n =>
    obtain rfl := List.mem_singleton.mp hw
    exact Or.inl hp
  | merge m =>
    obtain ⟨e,he,rfl⟩ := List.mem_map.mp hw
    obtain ⟨k,hk⟩ := List.length_eq_one_iff.mp (hs m rfl e he)
    rw [hk] at hp ⊢
    rcases List.prefix_concat_iff.mp hp with h | h
    · exact Or.inr h
    · exact Or.inl h

theorem Shallow.length_eq {r : FWriteRecord κ ν} (hs : r.Shallow)
    {v w : List κ × PathTree κ ν} (hv : v ∈ r.writes) (hw : w ∈ r.writes) :
    v.1.length = w.1.length := by
  obtain ⟨id,path,data,visible⟩ := r
  cases data with
  | overwrite n =>
    obtain rfl := List.mem_singleton.mp hv
    obtain rfl := List.mem_singleton.mp hw
    rfl
  | merge m =>
    obtain ⟨e,he,rfl⟩ := List.mem_map.mp hv
    obtain ⟨f,hf,rfl⟩ := List.mem_map.mp hw
    rw [List.length_append,List.length_append,hs m rfl e he,hs m rfl f hf]

theorem apart_writes [DecidableEq κ] {r s : FWriteRecord κ ν} (hr : r.Shallow) (hs : s.Shallow)
    (hc : recordContainsPath s r.path = false) (hp : ¬ r.path <+: s.path)
    {v w : List κ × PathTree κ ν} (hv : v ∈ r.writes) (hw : w ∈ s.writes) : Apart v.1 w.1 := by
  have hnw : ¬ w.1 <+: r.path := fun h =>
    Bool.eq_false_iff.mp hc ((recordContainsPath_iff s r.path).mpr ⟨w,hw,h⟩)
  have hrv := prefix_of_mem_writes hv
  have hrw : ¬ r.path <+: w.1 := by
    intro h
    rcases hs.above hw h with h | h
    · exact hp h
    · exact hnw (h ▸ List.prefix_refl _)
  refine ⟨fun h => hrw (hrv.trans h),fun h => ?_⟩
  rcases hr.above hv h with h | h
  · exact hnw h
  · exact hrw (h ▸ hrv)

end FWriteRecord

section
variable {κ ν : Type} [DecidableEq κ]

/-- The loop finds a later write that hides the removed one, or else any write inside it. -/
theorem shadowing_spec (w : FWriteRecord κ ν) (index : Nat) (ws : List (FWriteRecord κ ν × Nat))
    (hv : ∀ c ∈ ws, c.1.visible = true) (overlaps : Bool) :
    ((shadowing w index ws (true,overlaps)).1 = true ↔
      ∀ c ∈ ws, index ≤ c.2 → recordContainsPath c.1 w.path = false) ∧
    ((shadowing w index ws (true,overlaps)).1 = true →
      ((shadowing w index ws (true,overlaps)).2 = true ↔
        overlaps = true ∨ ∃ c ∈ ws, w.path <+: c.1.path)) := by
  induction ws generalizing overlaps with
  | nil => simp [shadowing]
  | cons c ws ih =>
    obtain ⟨record,i⟩ := c
    have hr := hv (record,i) List.mem_cons_self
    have ih' := ih (fun c hc => hv c (List.mem_cons_of_mem _ hc))
    rw [shadowing,if_pos rfl,if_pos hr]
    by_cases hc : index ≤ i ∧ recordContainsPath record w.path = true
    · have hf : shadowing w index ws (false,overlaps) = (false,overlaps) := by
        cases ws <;> rfl
      rw [if_pos (by simpa using hc),hf]
      simp only [Bool.false_eq_true,false_iff,false_imp_iff,and_true]
      intro hall
      rw [hall (record,i) List.mem_cons_self hc.1] at hc
      cases hc.2
    · rw [if_neg (by simpa using hc)]
      have hi : index ≤ i → recordContainsPath record w.path = false := fun hle =>
        Bool.eq_false_iff.mpr (fun ht => hc ⟨hle,ht⟩)
      split
      · next hp =>
        obtain ⟨h₁,h₂⟩ := ih' true
        refine ⟨?_,fun h => ?_⟩
        · rw [h₁,List.forall_mem_cons]
          exact ⟨fun h => ⟨hi,h⟩,fun h => h.2⟩
        · rw [h₂ h]
          simp [hp]
      · next hp =>
        obtain ⟨h₁,h₂⟩ := ih' overlaps
        refine ⟨?_,fun h => ?_⟩
        · rw [h₁,List.forall_mem_cons]
          exact ⟨fun h => ⟨hi,h⟩,fun h => h.2⟩
        · rw [h₂ h]
          simp [hp]

end

section
variable {κ ν : Type} [DecidableEq κ] [KeyOrder κ] {cmp : κ → κ → Ordering}

theorem addCompoundWrite_eq (W m : FCompoundWrite κ ν) (path : List κ) :
    addCompoundWrite cmp W m path =
      (m.forEach.map (fun e => (path ++ e.1,e.2))).foldl (fun W w => addWrite cmp W w.1 w.2) W := by
  rw [addCompoundWrite,List.foldl_map]

theorem layerWrite_root (W : FCompoundWrite κ ν) (r : FWriteRecord κ ν) :
    layerWrite cmp [] W r = r.writes.foldl (fun W w => addWrite cmp W w.1 w.2) W := by
  obtain ⟨id,path,data,visible⟩ := r
  cases data with
  | overwrite n => simp [layerWrite,FWriteRecord.writes]
  | merge m => simp [layerWrite,FWriteRecord.writes,addCompoundWrite_eq]

theorem layerTreeFromWrites_root (rs : List (FWriteRecord κ ν)) :
    layerTreeFromWrites cmp rs defaultFilter [] =
      (rs.flatMap FWriteRecord.writes).foldl (fun W w => addWrite cmp W w.1 w.2) emptyWrite := by
  rw [layerTreeFromWrites,List.foldl_flatMap]
  congr 1
  funext W r
  exact (if_pos (rfl : defaultFilter r = true)).trans (layerWrite_root W r)

end

namespace FWriteTree

variable {κ ν : Type} [DecidableEq κ] [KeyOrder κ]

def pendingWrites (t : FWriteTree κ ν) : List (List κ × PathTree κ ν) :=
  t.allWrites.flatMap FWriteRecord.writes

/-- The tree of the visible writes fixes what the pending writes fix. -/
structure Layered (cmp : κ → κ → Ordering) (t : FWriteTree κ ν) : Prop where
  ordered : Ordered cmp t.visibleWrites
  visible : ∀ r ∈ t.allWrites, r.visible = true
  shallow : ∀ r ∈ t.allWrites, r.Shallow
  complete : ∀ p, completeNodeAtPath cmp t.visibleWrites p = overlay t.pendingWrites p

namespace Layered

variable {cmp : κ → κ → Ordering} {t : FWriteTree κ ν}

theorem init : Layered cmp (FWriteTree.init : FWriteTree κ ν) :=
  { ordered := ordered_empty
    visible := fun _ h => absurd h List.not_mem_nil
    shallow := fun _ h => absurd h List.not_mem_nil
    complete := fun p => completeNodeAtPath_empty p }

variable [Std.TransCmp cmp] [Std.LawfulEqCmp cmp]

theorem add (h : Layered cmp t) {t' : FWriteTree κ ν} {r : FWriteRecord κ ν}
    (hv : r.visible = true) (hs : r.Shallow) (ha : t'.allWrites = t.allWrites ++ [r])
    (hw : t'.visibleWrites =
      r.writes.foldl (fun W w => addWrite cmp W w.1 w.2) t.visibleWrites) : Layered cmp t' := by
  obtain ⟨ho,hc⟩ := completeNodeAtPath_addWrites r.writes h.ordered
  constructor
  · rw [hw]
    exact ho
  · rw [ha]
    exact List.forall_mem_append.mpr ⟨h.visible,by simpa using hv⟩
  · rw [ha]
    exact List.forall_mem_append.mpr ⟨h.shallow,by simpa using hs⟩
  · intro p
    rw [hw,hc,pendingWrites,ha,List.flatMap_append,overlay_append,h.complete]
    simp [pendingWrites]

theorem addOverwrite (h : Layered cmp t) (path : List κ) (n : PathTree κ ν) (writeId : Int) :
    Layered cmp (t.addOverwrite cmp path n writeId true) := by
  refine h.add (r := ⟨writeId,path,.overwrite n,true⟩) rfl (fun _ hm => ?_) rfl rfl
  cases hm

theorem addMerge (h : Layered cmp t) (path : List κ) {m : FCompoundWrite κ ν} (writeId : Int)
    (hm : ∀ e ∈ m.forEach, e.1.length = 1) :
    Layered cmp (t.addMerge cmp path m writeId) :=
  h.add (r := ⟨writeId,path,.merge m,true⟩) rfl (fun m' hm' => by cases hm'; exact hm) rfl
    (addCompoundWrite_eq t.visibleWrites m path)

omit [KeyOrder κ] in
theorem removeWrites (ps : List (List κ)) {W : FCompoundWrite κ ν} (ho : Ordered cmp W)
    (hn : ∀ p ∈ ps, ∀ q, q <+: p → q ≠ p → completeNodeAtPath cmp W q = none) :
    Ordered cmp (ps.foldl (removeWriteAtPath cmp) W) ∧
    ∀ q, completeNodeAtPath cmp (ps.foldl (removeWriteAtPath cmp) W) q =
      if ∃ p ∈ ps, p <+: q then none else completeNodeAtPath cmp W q := by
  induction ps generalizing W with
  | nil => exact ⟨ho,fun q => by simp⟩
  | cons p ps ih =>
    have hp := hn p List.mem_cons_self
    have hr := fun q => completeNodeAtPath_removeWriteAtPath (p := p) ho hp q
    obtain ⟨ho',hc⟩ := ih (ordered_removeWriteAtPath ho p) (fun x hx q hq hne => by
      rw [hr]
      split
      · rfl
      · exact hn x (List.mem_cons_of_mem _ hx) q hq hne)
    refine ⟨ho',fun q => ?_⟩
    rw [List.foldl_cons,hc,hr]
    by_cases h : p <+: q
    · simp [h]
    · simp [h]

end Layered

theorem forall_mem_zipIdx {α : Type} {xs : List α} {P : α → Prop} :
    (∀ c ∈ xs.zipIdx.reverse, P c.1) ↔ ∀ x ∈ xs, P x := by
  constructor
  · intro h x hx
    rw [← List.zipIdx_map_fst 0 xs] at hx
    obtain ⟨c,hc,rfl⟩ := List.mem_map.mp hx
    exact h c (List.mem_reverse.mpr hc)
  · intro h c hc
    refine h c.1 ?_
    rw [← List.zipIdx_map_fst 0 xs]
    exact List.mem_map_of_mem (List.mem_reverse.mp hc)

def withoutRecord (cmp : κ → κ → Ordering) (w : FWriteRecord κ ν) (W : FCompoundWrite κ ν) :
    FCompoundWrite κ ν := (w.writes.map Prod.fst).foldl (removeWriteAtPath cmp) W

section
variable (cmp : κ → κ → Ordering) {t : FWriteTree κ ν} {w : FWriteRecord κ ν}
  {rest : List (FWriteRecord κ ν)}

theorem removeWriteId_eq (hw : t.allWrites = w :: rest) (hvw : w.visible = true) :
    let t' : FWriteTree κ ν := { t with allWrites := rest }
    let found := shadowing w 0 rest.zipIdx.reverse (true,false)
    t.removeWriteId cmp w.writeId =
      if !found.1 then some (t',false)
      else if found.2 then some (resetTree cmp t',true)
      else some ({ t' with visibleWrites := withoutRecord cmp w t.visibleWrites },true) := by
  have hfind : t.allWrites.findIdx? (fun record => record.writeId == w.writeId) = some 0 := by
    rw [hw,List.findIdx?_cons]
    simp
  have hget : t.allWrites[0]? = some w := by rw [hw]; rfl
  have herase : t.allWrites.eraseIdx 0 = rest := by rw [hw]; rfl
  simp only [removeWriteId,hfind,hget,herase,hvw]
  obtain ⟨id,path,data,visible⟩ := w
  cases data with
  | overwrite n => rfl
  | merge m =>
    simp only [withoutRecord,FWriteRecord.writes,List.map_map,List.foldl_map]
    rfl

theorem removeWriteId_oldest (hw : t.allWrites = w :: rest) (hvw : w.visible = true)
    (hvr : ∀ r ∈ rest, r.visible = true) :
    let t' : FWriteTree κ ν := { t with allWrites := rest }
    (∃ r ∈ rest, recordContainsPath r w.path = true) ∧
        t.removeWriteId cmp w.writeId = some (t',false) ∨
      t.removeWriteId cmp w.writeId = some (resetTree cmp t',true) ∨
      (∀ r ∈ rest, recordContainsPath r w.path = false ∧ ¬ w.path <+: r.path) ∧
        t.removeWriteId cmp w.writeId =
          some ({ t' with visibleWrites := withoutRecord cmp w t.visibleWrites },true) := by
  intro t'
  obtain ⟨h₁,h₂⟩ := shadowing_spec w 0 rest.zipIdx.reverse
    (forall_mem_zipIdx.mpr hvr) false
  have hhid : (shadowing w 0 rest.zipIdx.reverse (true,false)).1 = true ↔
      ∀ r ∈ rest, recordContainsPath r w.path = false := by
    rw [h₁,← forall_mem_zipIdx (P := fun r => recordContainsPath r w.path = false)]
    simp only [Nat.zero_le,true_imp_iff]
  have hrun := removeWriteId_eq cmp hw hvw
  simp only at hrun
  cases hf : (shadowing w 0 rest.zipIdx.reverse (true,false)).1 with
  | false =>
    refine Or.inl ⟨?_,by rw [hrun,hf]; rfl⟩
    by_contra hno
    rw [hf] at hhid
    exact Bool.false_ne_true
      (hhid.mpr (fun r hr => Bool.eq_false_iff.mpr (fun ht => hno ⟨r,hr,ht⟩)))
  | true =>
    refine Or.inr ?_
    cases ho : (shadowing w 0 rest.zipIdx.reverse (true,false)).2 with
    | true => exact Or.inl (by rw [hrun,hf,ho]; rfl)
    | false =>
      refine Or.inr ⟨?_,by rw [hrun,hf,ho]; rfl⟩
      have hno : ∀ r ∈ rest, ¬ w.path <+: r.path := by
        refine forall_mem_zipIdx.mp (fun c hc hp => ?_)
        rw [(h₂ hf).mpr (Or.inr ⟨c,hc,hp⟩)] at ho
        cases ho
      exact fun r hr => ⟨hhid.mp hf r hr,hno r hr⟩

end

namespace Layered

variable {cmp : κ → κ → Ordering} {t : FWriteTree κ ν} [Std.TransCmp cmp] [Std.LawfulEqCmp cmp]

theorem resetTree (hv : ∀ r ∈ t.allWrites, r.visible = true)
    (hs : ∀ r ∈ t.allWrites, r.Shallow) : Layered cmp (t.resetTree cmp) := by
  obtain ⟨ho,hc⟩ := completeNodeAtPath_addWrites t.pendingWrites
    (ordered_empty : Ordered cmp (emptyWrite : FCompoundWrite κ ν))
  constructor
  · rw [FWriteTree.resetTree,layerTreeFromWrites_root]
    exact ho
  · exact hv
  · exact hs
  · intro p
    rw [FWriteTree.resetTree,layerTreeFromWrites_root]
    refine (hc p).trans ?_
    rw [completeNodeAtPath_empty]
    rfl

/-- The oldest write is removed: the tree keeps it when a later write hides it, is built anew
when one lies inside it, and loses it else. -/
theorem removeOldest (h : Layered cmp t) {w : FWriteRecord κ ν} {rest : List (FWriteRecord κ ν)}
    (hw : t.allWrites = w :: rest) : ∃ t' seen, t.removeWriteId cmp w.writeId = some (t',seen) ∧
      t'.allWrites = rest ∧ Layered cmp t' := by
  have hvr : ∀ r ∈ rest, r.visible = true := fun r hr =>
    h.visible r (hw ▸ List.mem_cons_of_mem _ hr)
  have hsr : ∀ r ∈ rest, r.Shallow := fun r hr =>
    h.shallow r (hw ▸ List.mem_cons_of_mem _ hr)
  have hcomp : ∀ p, completeNodeAtPath cmp t.visibleWrites p =
      overlay (w.writes ++ rest.flatMap FWriteRecord.writes) p := by
    intro p
    rw [h.complete,pendingWrites,hw,List.flatMap_cons]
  rcases removeWriteId_oldest cmp hw (h.visible w (hw ▸ List.mem_cons_self)) hvr with
    ⟨⟨r,hr,hc⟩,he⟩ | he | ⟨hno,he⟩
  · refine ⟨_,_,he,rfl,h.ordered,hvr,hsr,fun p => ?_⟩
    obtain ⟨v,hv,hp⟩ := (FWriteRecord.recordContainsPath_iff r w.path).mp hc
    rw [hcomp,overlay_append_of_covered ⟨v,List.mem_flatMap.mpr ⟨r,hr,hv⟩,fun u hu =>
      hp.trans (FWriteRecord.prefix_of_mem_writes hu)⟩]
    rfl
  · exact ⟨_,_,he,rfl,resetTree hvr hsr⟩
  · have hap : ∀ u ∈ w.writes, ∀ v ∈ rest.flatMap FWriteRecord.writes, Apart u.1 v.1 := by
      intro u hu v hv
      obtain ⟨r,hr,hvr⟩ := List.mem_flatMap.mp hv
      exact FWriteRecord.apart_writes (h.shallow w (hw ▸ List.mem_cons_self)) (hsr r hr)
        (hno r hr).1 (hno r hr).2 hu hvr
    have hsw : w.Shallow := h.shallow w (hw ▸ List.mem_cons_self)
    have habove : ∀ p ∈ w.writes.map Prod.fst, ∀ q, q <+: p → q ≠ p →
        completeNodeAtPath cmp t.visibleWrites q = none := by
      intro p hp q hq hne
      obtain ⟨u,hu,rfl⟩ := List.mem_map.mp hp
      rw [hcomp,overlay_eq_none_iff,List.forall_mem_append]
      refine ⟨fun v hv hvq => hne ?_,fun v hv hvq => (hap u hu v hv).2 (hvq.trans hq)⟩
      refine hq.eq_of_length_le ?_
      rw [hsw.length_eq hu hv]
      exact hvq.length_le
    obtain ⟨ho,hc⟩ := removeWrites (w.writes.map Prod.fst) h.ordered habove
    refine ⟨_,_,he,rfl,ho,hvr,hsr,fun p => (hc p).trans ?_⟩
    change _ = overlay (rest.flatMap FWriteRecord.writes) p
    split
    · next hp =>
      obtain ⟨x,hx,hxp⟩ := hp
      obtain ⟨u,hu,rfl⟩ := List.mem_map.mp hx
      exact (foldl_cover_of_apart
        (fun v hv => ((hap u hu v hv).below hxp).symm)).symm
    · next hp =>
      have hnone : overlay w.writes p = none := overlay_eq_none_iff.mpr
        (fun u hu hup => hp ⟨u.1,List.mem_map_of_mem hu,hup⟩)
      rw [hcomp,overlay_append,hnone]
      rfl

end Layered

end FWriteTree

/-- What happens to the pending writes of a client: `setValue:` and `removeValue`,
`updateChildValues:`, the response to the oldest write, and the purge of all. -/
inductive RepoEvent (κ ν : Type) where
  | set (path : List κ) (node : PathTree κ ν)
  | update (path : List κ) (nodes : FCompoundWrite κ ν)
  | ackWrite
  | purgeOutstandingWrites

/-- The part of `FRepo` that numbers the writes. -/
structure FRepo (κ ν : Type) where
  pendingWriteTree : FWriteTree κ ν
  writeIdCounter : Int

namespace FRepo

variable {κ ν : Type} [DecidableEq κ] [KeyOrder κ] (cmp : κ → κ → Ordering)

def init : FRepo κ ν := { pendingWriteTree := FWriteTree.init, writeIdCounter := 0 }

def handle (repo : FRepo κ ν) : RepoEvent κ ν → FRepo κ ν
  | .set path newNode =>
    { pendingWriteTree :=
        repo.pendingWriteTree.addOverwrite cmp path newNode repo.writeIdCounter true
      writeIdCounter := repo.writeIdCounter + 1 }
  | .update path nodes =>
    if nodes.isEmpty then repo
    else
      { pendingWriteTree := repo.pendingWriteTree.addMerge cmp path nodes repo.writeIdCounter
        writeIdCounter := repo.writeIdCounter + 1 }
  | .ackWrite =>
    match repo.pendingWriteTree.allWrites with
    | [] => repo
    | write :: _ =>
      match repo.pendingWriteTree.removeWriteId cmp write.writeId with
      | some (tree,_) => { repo with pendingWriteTree := tree }
      | none => repo
  | .purgeOutstandingWrites =>
    { repo with pendingWriteTree := repo.pendingWriteTree.removeAllWrites.1 }

def run (events : List (RepoEvent κ ν)) : FRepo κ ν := events.foldl (handle cmp) init

end FRepo

namespace RepoEvent

variable {κ ν : Type}

/-- The updates change children of a node, nothing deeper. -/
def Shallow : RepoEvent κ ν → Prop
  | .update _ nodes => ∀ e ∈ nodes.forEach, e.1.length = 1
  | _ => True

/-- The writes without a response yet, each as the list of what it puts where. -/
def outstanding (pending : List (List (List κ × PathTree κ ν))) :
    RepoEvent κ ν → List (List (List κ × PathTree κ ν))
  | .set path newNode => pending ++ [[(path,newNode)]]
  | .update path nodes =>
    if nodes.isEmpty then pending
    else pending ++ [nodes.forEach.map (fun e => (path ++ e.1,e.2))]
  | .ackWrite => pending.tail
  | .purgeOutstandingWrites => []

def allOutstanding (events : List (RepoEvent κ ν)) : List (List κ × PathTree κ ν) :=
  (events.foldl outstanding []).flatten

end RepoEvent

namespace FRepo

open RepoEvent

variable {κ ν : Type} [DecidableEq κ] [KeyOrder κ] {cmp : κ → κ → Ordering} [Std.TransCmp cmp]
  [Std.LawfulEqCmp cmp]

theorem handle_layered {repo : FRepo κ ν} (h : Layered cmp repo.pendingWriteTree)
    {e : RepoEvent κ ν} (he : e.Shallow) :
    Layered cmp (repo.handle cmp e).pendingWriteTree ∧
      (repo.handle cmp e).pendingWriteTree.allWrites.map FWriteRecord.writes =
        outstanding (repo.pendingWriteTree.allWrites.map FWriteRecord.writes) e := by
  cases e with
  | set path newNode =>
    refine ⟨h.addOverwrite path newNode _,?_⟩
    simp [handle,addOverwrite,outstanding,FWriteRecord.writes]
  | update path nodes =>
    cases hn : nodes.isEmpty with
    | true => simpa [handle,outstanding,hn] using h
    | false =>
      simp only [handle,outstanding,hn,Bool.false_eq_true,if_false]
      refine ⟨h.addMerge path _ he,?_⟩
      simp [addMerge,FWriteRecord.writes]
  | ackWrite =>
    cases hw : repo.pendingWriteTree.allWrites with
    | nil => simpa [handle,outstanding,hw] using h
    | cons w rest =>
      obtain ⟨t',seen,hr,ha,hl⟩ := h.removeOldest hw
      simp only [handle,hw,hr,outstanding,ha]
      exact ⟨hl,rfl⟩
  | purgeOutstandingWrites =>
    refine ⟨⟨ordered_empty,?_,?_,?_⟩,rfl⟩
    · exact fun _ hm => absurd hm List.not_mem_nil
    · exact fun _ hm => absurd hm List.not_mem_nil
    · exact fun p => completeNodeAtPath_empty p

theorem foldl_handle_layered (events : List (RepoEvent κ ν)) (he : ∀ e ∈ events, e.Shallow)
    {repo : FRepo κ ν} (h : Layered cmp repo.pendingWriteTree) :
    Layered cmp (events.foldl (handle cmp) repo).pendingWriteTree ∧
      (events.foldl (handle cmp) repo).pendingWriteTree.allWrites.map FWriteRecord.writes =
        events.foldl outstanding (repo.pendingWriteTree.allWrites.map FWriteRecord.writes) := by
  induction events generalizing repo with
  | nil => exact ⟨h,rfl⟩
  | cons e events ih =>
    obtain ⟨hl,hw⟩ := handle_layered h (he e List.mem_cons_self)
    obtain ⟨hl',hw'⟩ := ih (fun e hm => he e (List.mem_cons_of_mem _ hm)) hl
    exact ⟨hl',by rw [List.foldl_cons,hw',hw,List.foldl_cons]⟩

/-- After any events the tree of the visible writes fixes what the outstanding ones fix. -/
theorem run_layered (cmp : κ → κ → Ordering) [Std.TransCmp cmp] [Std.LawfulEqCmp cmp]
    (events : List (RepoEvent κ ν)) (he : ∀ e ∈ events, e.Shallow) :
    Ordered cmp (run cmp events).pendingWriteTree.visibleWrites ∧
      ∀ p, completeNodeAtPath cmp (run cmp events).pendingWriteTree.visibleWrites p =
        overlay (allOutstanding events) p := by
  have hinit : Layered cmp (init : FRepo κ ν).pendingWriteTree := Layered.init
  obtain ⟨hl,hw⟩ := foldl_handle_layered events he hinit
  refine ⟨hl.ordered,fun p => ?_⟩
  rw [allOutstanding]
  refine (hl.complete p).trans ?_
  rw [pendingWrites,List.flatMap_def]
  exact congrArg (fun ws => overlay ws.flatten p) hw

end FRepo

end GFLGO
