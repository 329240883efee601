import GFLGO.KeyComparator

/-!
The snapshot nodes of the client, `FLeafNode` and `FChildrenNode`, over sorted
dictionaries, without priorities. They represent the trees the readers of the
app are modelled on.
-/

set_option autoImplicit false

namespace GFLGO

open SortedEntries FImmutableSortedDictionary DictionaryChange

inductive SnapshotNode (ν : Type) where
  | leafNode (value : ν)
  | childrenNode (children : FImmutableSortedDictionary String (SnapshotNode ν))

namespace SnapshotNode

variable {ν σ : Type}

def emptyNode : SnapshotNode ν := .childrenNode dictionaryWithComparator

def isEmpty : SnapshotNode ν → Bool
  | .leafNode _ => false
  | .childrenNode children => children.isEmpty

def numChildren : SnapshotNode ν → Nat
  | .leafNode _ => 0
  | .childrenNode children => children.count

def enumerateChildren (reverse : Bool) (block : σ → String → SnapshotNode ν → σ × Bool) (s : σ) :
    SnapshotNode ν → σ × Bool
  | .leafNode _ => (s,false)
  | .childrenNode children => children.enumerateKeysAndObjects reverse block s

def childKeys (n : SnapshotNode ν) : List String :=
  (n.enumerateChildren false (fun keys key _ => (keys ++ [key],false)) []).1

def getImmediateChild (childName : String) : SnapshotNode ν → SnapshotNode ν
  | .leafNode _ => emptyNode
  | .childrenNode children => (children.get compareKey childName).getD emptyNode

def getChild : SnapshotNode ν → List String → SnapshotNode ν
  | n, [] => n
  | .leafNode _, _ :: _ => emptyNode
  | .childrenNode children, front :: path =>
    ((SnapshotNode.childrenNode children).getImmediateChild front).getChild path

@[simp] theorem getChild_nil (n : SnapshotNode ν) : n.getChild [] = n := by
  cases n <;> rfl

/-- `-[FChildrenNode updateImmediateChild:withNewChild:]` -/
def updateChildren (childName : String) (newChildNode : SnapshotNode ν)
    (children : FImmutableSortedDictionary String (SnapshotNode ν)) :
    Except NSException (SnapshotNode ν) := do
  let newChildren ←
    if newChildNode.isEmpty then .ok (children.removeKey compareKey childName)
    else children.insertKey compareKey childName newChildNode
  return if newChildren.isEmpty then emptyNode else .childrenNode newChildren

def updateImmediateChild (n : SnapshotNode ν) (childName : String)
    (newChildNode : SnapshotNode ν) : Except NSException (SnapshotNode ν) :=
  match n with
  | .leafNode v =>
    if newChildNode.isEmpty then .ok (.leafNode v)
    else updateChildren childName newChildNode dictionaryWithComparator
  | .childrenNode children => updateChildren childName newChildNode children

def updateChild (n : SnapshotNode ν) (path : List String) (newChildNode : SnapshotNode ν) :
    Except NSException (SnapshotNode ν) :=
  match path with
  | [] => .ok newChildNode
  | front :: path =>
    match n with
    | .leafNode v =>
      if newChildNode.isEmpty then .ok (.leafNode v)
      else do
        let newImmediateChild ← emptyNode.updateChild path newChildNode
        (SnapshotNode.leafNode v).updateImmediateChild front newImmediateChild
    | .childrenNode children => do
      let child := (SnapshotNode.childrenNode children).getImmediateChild front
      let newImmediateChild ← child.updateChild path newChildNode
      (SnapshotNode.childrenNode children).updateImmediateChild front newImmediateChild

/-- Writes one after the other. -/
def updateAll : List (List String × SnapshotNode ν) → SnapshotNode ν →
    Except NSException (SnapshotNode ν)
  | [], n => .ok n
  | w :: ws, n => n.updateChild w.1 w.2 >>= updateAll ws

def ofValue : Option ν → SnapshotNode ν
  | some v => .leafNode v
  | none => emptyNode

end SnapshotNode

/-- The node stands for the tree: the same entries in the same order, in dictionaries that are
kept as they should be, with keys from `S`. -/
inductive StandsFor {ν : Type} (S : Set String) : SnapshotNode ν → PathTree String ν → Prop
  | leaf (v : ν) : StandsFor S (.leafNode v) (.leaf v)
  | branch {d : FImmutableSortedDictionary String (SnapshotNode ν)}
    {cs : List (String × PathTree String ν)} (sound : Sound compareKey d)
    (within : Within S d.entries)
    (entries : Related (StandsFor S) d.entries cs) : StandsFor S (.childrenNode d) (.branch cs)

namespace StandsFor

open SnapshotNode

variable {ν : Type} {S : Set String} {n c : SnapshotNode ν} {t u : PathTree String ν}
  {d : FImmutableSortedDictionary String (SnapshotNode ν)} {cs : List (String × PathTree String ν)}

theorem empty : StandsFor S (emptyNode : SnapshotNode ν) PathTree.empty :=
  .branch (sound_dictionaryWithComparator compareKey) (fun _ h => absurd h List.not_mem_nil) .nil

theorem isEmpty_eq (h : StandsFor S n t) : n.isEmpty = t.isEmpty := by
  cases h with
  | leaf v => rfl
  | @branch d cs hs hw he =>
    rw [SnapshotNode.isEmpty,FImmutableSortedDictionary.isEmpty_eq hs]
    generalize d.entries = es at he
    cases he <;> rfl

theorem visit_keys {α : Type} (cs : List (String × α)) (keys : List String) :
    visit (fun keys key _ => (keys ++ [key],false)) cs keys =
      (keys ++ cs.map Prod.fst,false) := by
  induction cs generalizing keys with
  | nil => simp [visit]
  | cons c cs ih => simp [visit,ih]

theorem childKeys_eq (h : StandsFor S n t) : n.childKeys = t.childKeys := by
  cases h with
  | leaf v => rfl
  | branch hs hw he =>
    rw [SnapshotNode.childKeys,enumerateChildren,enumerateKeysAndObjects_eq]
    exact (congrArg Prod.fst (visit_keys _ [])).trans he.keys_eq

theorem numChildren_eq (h : StandsFor S n t) : n.numChildren = t.numChildren := by
  cases h with
  | leaf v => rfl
  | @branch d cs hs hw he =>
    rw [SnapshotNode.numChildren,FImmutableSortedDictionary.count_eq hs,PathTree.numChildren,
      PathTree.children_branch]
    have hl := congrArg List.length he.keys_eq
    rwa [List.length_map,List.length_map] at hl

theorem within (he : Related (StandsFor S) d.entries cs) (hw : Within S d.entries) :
    Within S cs := by
  intro c hc
  obtain ⟨a,ha,hac⟩ := he.mem_keys hc
  exact hac ▸ hw a ha

theorem branch_of_entries (hs : Sound compareKey d) (hw : Within S d.entries)
    (he : Related (StandsFor S) d.entries cs) :
    StandsFor S (if d.isEmpty then emptyNode else .childrenNode d) (.branch cs) := by
  cases hd : d.isEmpty with
  | true =>
    rw [FImmutableSortedDictionary.isEmpty_eq hs,List.isEmpty_iff] at hd
    rw [hd] at he
    cases he
    exact empty
  | false => exact .branch hs hw he

section
variable (ht : TellsApart compareKey S) {k : String} (hk : k ∈ S)

include ht hk

theorem getImmediateChild (h : StandsFor S n t) :
    StandsFor S (n.getImmediateChild k) (t.getImmediateChild k) := by
  cases h with
  | leaf v => exact empty
  | @branch d cs hs hw he =>
    rw [SnapshotNode.getImmediateChild,get_eq k hs,PathTree.getImmediateChild,
      PathTree.children_branch,lookup_eq_find ht hk (within he hw)]
    have hf := he.find compareKey k
    revert hf
    generalize SortedEntries.find compareKey k d.entries = a
    generalize SortedEntries.find compareKey k cs = b
    rintro (h | -)
    · exact h
    · exact empty

theorem updateChildren (hs : Sound compareKey d) (hw : Within S d.entries)
    (he : Related (StandsFor S) d.entries cs) (hc : StandsFor S c u) :
    ∃ n', SnapshotNode.updateChildren k c d = .ok n' ∧
      StandsFor S n' ((PathTree.branch cs).updateImmediateChild k u) := by
  rw [SnapshotNode.updateChildren,PathTree.updateImmediateChild,hc.isEmpty_eq]
  cases hu : u.isEmpty with
  | true =>
    obtain ⟨hs',he'⟩ := removeKey_spec k hs
    have hw' : Within S (d.removeKey compareKey k).entries :=
      he' ▸ within_change hw (.removeObject k) hk
    refine ⟨_,by rw [if_pos rfl]; rfl,?_⟩
    rw [if_pos rfl,removeObject_eq_remove ht hk (within he hw)]
    exact branch_of_entries hs' hw' (he' ▸ he.remove k)
  | false =>
    obtain ⟨d',hd',hs',he'⟩ := perform_entries ht hw (.setObject k c) hk hs
    have hw' : Within S d'.entries := he' ▸ within_change hw (.setObject k c) hk
    have hd' : d.insertKey compareKey k c = .ok d' := hd'
    refine ⟨if d'.isEmpty then emptyNode else .childrenNode d',?_,?_⟩
    · rw [if_neg Bool.false_ne_true,hd']
      rfl
    rw [if_neg Bool.false_ne_true,setObject_eq_insert ht hk u (within he hw) (he.ascending hs.1)]
    exact branch_of_entries hs' hw' (by rw [he']; exact he.insert k hc)

theorem updateImmediateChild (h : StandsFor S n t) (hc : StandsFor S c u) :
    ∃ n', n.updateImmediateChild k c = .ok n' ∧
      StandsFor S n' (t.updateImmediateChild k u) := by
  cases h with
  | branch hs hw he => exact updateChildren ht hk hs hw he hc
  | leaf v =>
    rw [SnapshotNode.updateImmediateChild,hc.isEmpty_eq]
    cases hu : u.isEmpty with
    | true => exact ⟨_,rfl,by simpa [PathTree.updateImmediateChild,hu] using .leaf v⟩
    | false =>
      have he : Related (StandsFor S)
          (dictionaryWithComparator : FImmutableSortedDictionary String (SnapshotNode ν)).entries
          [] := .nil
      obtain ⟨n',hn,hr⟩ := updateChildren ht hk (sound_dictionaryWithComparator compareKey)
        (fun _ h => absurd h List.not_mem_nil) he hc
      refine ⟨n',hn,?_⟩
      simpa [PathTree.updateImmediateChild,hu,Dictionary.setObject,Dictionary.insertObject]
        using hr

end

section
variable (ht : TellsApart compareKey S)

include ht

theorem getChild {path : List String} (hp : ∀ k ∈ path, k ∈ S) (h : StandsFor S n t) :
    StandsFor S (n.getChild path) (t.getChild path) := by
  induction path generalizing n t with
  | nil => simpa using h
  | cons k path ih =>
    have hk := hp k List.mem_cons_self
    have hp' : ∀ j ∈ path, j ∈ S := fun j hj => hp j (List.mem_cons_of_mem _ hj)
    cases h with
    | leaf v =>
      rw [PathTree.getChild_cons,PathTree.getImmediateChild_leaf,PathTree.getChild_empty]
      exact empty
    | branch hs hw he =>
      rw [PathTree.getChild_cons]
      exact ih hp' (getImmediateChild ht hk (.branch hs hw he))

theorem updateChild {path : List String} (hp : ∀ k ∈ path, k ∈ S) (h : StandsFor S n t)
    (hc : StandsFor S c u) : ∃ n', n.updateChild path c = .ok n' ∧
      StandsFor S n' (t.updateChild path u) := by
  induction path generalizing n t with
  | nil => exact ⟨c,rfl,hc⟩
  | cons k path ih =>
    have hk := hp k List.mem_cons_self
    have hp' : ∀ j ∈ path, j ∈ S := fun j hj => hp j (List.mem_cons_of_mem _ hj)
    rw [PathTree.updateChild_cons]
    cases h with
    | branch hs hw he =>
      have hb := StandsFor.branch hs hw he
      obtain ⟨m,hm,hr⟩ := ih hp' (getImmediateChild ht hk hb)
      obtain ⟨n',hn,hr'⟩ := updateImmediateChild ht hk hb hr
      refine ⟨n',?_,hr'⟩
      rw [SnapshotNode.updateChild,hm]
      exact hn
    | leaf v =>
      rw [SnapshotNode.updateChild,hc.isEmpty_eq,PathTree.getImmediateChild_leaf]
      cases hu : u.isEmpty with
      | true =>
        rw [PathTree.isEmpty_iff.mp hu,PathTree.updateChild_empty]
        exact ⟨_,rfl,.leaf v⟩
      | false =>
        obtain ⟨m,hm,hr⟩ := ih hp' empty
        obtain ⟨n',hn,hr'⟩ := updateImmediateChild ht hk (.leaf v) hr
        refine ⟨n',?_,hr'⟩
        rw [hm]
        exact hn

theorem updateAll {ws : List (List String × SnapshotNode ν)}
    {us : List (List String × PathTree String ν)} (hw : Related (StandsFor S) ws us)
    (hp : ∀ w ∈ us, ∀ k ∈ w.1, k ∈ S) (h : StandsFor S n t) :
    ∃ n', SnapshotNode.updateAll ws n = .ok n' ∧
      StandsFor S n' (us.foldl (fun t w => t.updateChild w.1 w.2) t) := by
  induction hw generalizing n t with
  | nil => exact ⟨n,rfl,h⟩
  | @cons path c u ws us hc _ ih =>
    obtain ⟨m,hm,hr⟩ := updateChild ht (hp (path,u) List.mem_cons_self) h hc
    obtain ⟨n',hn,hr'⟩ := ih (fun w hw => hp w (List.mem_cons_of_mem _ hw)) hr
    refine ⟨n',?_,hr'⟩
    rw [SnapshotNode.updateAll,hm]
    exact hn

end

theorem reads (h : StandsFor S n t) : n.isEmpty = t.isEmpty ∧ n.numChildren = t.numChildren ∧
    n.childKeys = t.childKeys ∧ ∀ v, n = .leafNode v ↔ t = .leaf v := by
  refine ⟨h.isEmpty_eq,h.numChildren_eq,h.childKeys_eq,fun v => ?_⟩
  cases h <;> simp

end StandsFor

namespace SnapshotNode

variable {ν : Type}

end SnapshotNode

end GFLGO
