import Mathlib.Data.List.InsertIdx
import Mathlib.Data.List.Sort
import GFLGO.TreeBuilder

/-!
`FImmutableSortedDictionary`: a short dictionary is a pair of arrays, a long one
a tree. An array that would grow past the threshold is turned into a tree.
-/

set_option autoImplicit false

namespace GFLGO

open SortedEntries

/-- `SORTED_DICTIONARY_ARRAY_TO_RB_TREE_SIZE_THRESHOLD` -/
def arrayToTreeSizeThreshold : Nat := 25

/-- The `NSMutableDictionary` with one entry set. Its order does not matter. -/
def setEntry {κ α : Type} [DecidableEq κ] (k : κ) (v : α) (dict : List (κ × α)) :
    List (κ × α) :=
  (k,v) :: dict.filter (fun c => c.1 ≠ k)

structure FArraySortedDictionary (κ α : Type) where
  keys : List κ
  values : List α
  deriving DecidableEq, Repr

inductive FImmutableSortedDictionary (κ α : Type) where
  | array (d : FArraySortedDictionary κ α)
  | tree (root : FLLRBNode κ α)
  deriving DecidableEq, Repr

namespace FArraySortedDictionary

variable {κ α : Type} {cmp : κ → κ → Ordering}

def findInsertPositionForKey (cmp : κ → κ → Ordering) (key : κ) : List κ → Nat
  | [] => 0
  | k :: keys => if cmp k key = .lt then findInsertPositionForKey cmp key keys + 1 else 0

/-- `none` is `NSNotFound`. -/
def findKey (cmp : κ → κ → Ordering) (key : κ) : List κ → Option Nat
  | [] => none
  | k :: keys =>
    match cmp key k with
    | .eq => some 0
    | .lt => none
    | .gt => (findKey cmp key keys).map (· + 1)

def insertKey [DecidableEq κ] (cmp : κ → κ → Ordering) (key : κ) (value : α)
    (d : FArraySortedDictionary κ α) : Except NSException (FImmutableSortedDictionary κ α) :=
  match findKey cmp key d.keys with
  | none =>
    if arrayToTreeSizeThreshold ≤ d.keys.length then do
      let dict := (d.keys.zip d.values).foldl (fun dict c => setEntry c.1 c.2 dict) []
      let root ← FLLRBNode.fromDictionary cmp (setEntry key value dict)
      return .tree root
    else
      let newPos := findInsertPositionForKey cmp key d.keys
      .ok (.array {
        keys := d.keys.insertIdx newPos key
        values := d.values.insertIdx newPos value })
  | some pos => .ok (.array { keys := d.keys.set pos key, values := d.values.set pos value })

def removeKey (cmp : κ → κ → Ordering) (key : κ) (d : FArraySortedDictionary κ α) :
    FArraySortedDictionary κ α :=
  match findKey cmp key d.keys with
  | none => d
  | some pos => { keys := d.keys.eraseIdx pos, values := d.values.eraseIdx pos }

def get (cmp : κ → κ → Ordering) (key : κ) (d : FArraySortedDictionary κ α) : Option α :=
  match findKey cmp key d.keys with
  | none => none
  | some pos => d.values[pos]?

def getPredecessorKey (cmp : κ → κ → Ordering) (key : κ) (d : FArraySortedDictionary κ α) :
    Except NSException (Option κ) :=
  match findKey cmp key d.keys with
  | none => .error ⟨"NSInternalInconsistencyException",
      "Can't get predecessor key for non-existent key"⟩
  | some 0 => .ok none
  | some (pos+1) => .ok d.keys[pos]?

def entries (d : FArraySortedDictionary κ α) : List (κ × α) := d.keys.zip d.values

section
variable [Std.TransCmp cmp]

theorem findKey_spec (key : κ) {keys : List κ} {values : List α} (hl : values.length = keys.length)
    (hs : Ascending cmp (keys.zip values)) :
    match findKey cmp key keys with
    | none => (∀ c ∈ keys.zip values, cmp key c.1 ≠ .eq) ∧ ∀ value : α,
        (keys.insertIdx (findInsertPositionForKey cmp key keys) key).zip
          (values.insertIdx (findInsertPositionForKey cmp key keys) value) =
            put cmp key value (keys.zip values)
    | some pos => pos < keys.length ∧ values[pos]? = find cmp key (keys.zip values) ∧
        (∀ value : α,
          (keys.set pos key).zip (values.set pos value) = put cmp key value (keys.zip values)) ∧
        (keys.eraseIdx pos).zip (values.eraseIdx pos) = remove cmp key (keys.zip values) ∧
        (keys.zip values).take pos = before cmp key (keys.zip values) := by
  induction keys generalizing values with
  | nil =>
    obtain rfl := List.length_eq_zero_iff.mp hl
    exact ⟨fun c hc => by simp at hc,fun _ => rfl⟩
  | cons k keys ih =>
    cases values with
    | nil => simp at hl
    | cons v values =>
      have hl' : values.length = keys.length := by simpa using hl
      rw [List.zip_cons_cons] at hs ⊢
      have hs' : Ascending cmp (([] : List (κ × α)) ++ (k,v) :: keys.zip values) := hs
      have ih' := ih hl' (List.pairwise_cons.mp hs).2
      rw [findKey]
      cases hk : cmp key k with
      | lt =>
        refine ⟨fun c hc => ?_,fun value => ?_⟩
        · rw [lt_of_mem_right hs' hk hc]
          decide
        · simp [findInsertPositionForKey,Std.OrientedCmp.gt_of_lt hk,put,upsert,hk]
      | eq =>
        refine ⟨by simp,by simp [find_cons,hk],fun value => by simp [put,upsert,hk],?_,?_⟩
        · exact (remove_append_eq hs' hk).symm
        · exact (before_append_eq hs' hk).symm
      | gt =>
        have hput : ∀ value, put cmp key value ((k,v) :: keys.zip values) =
            (k,v) :: put cmp key value (keys.zip values) := by simp [put,upsert,hk]
        have hrem : remove cmp key ((k,v) :: keys.zip values) =
            (k,v) :: remove cmp key (keys.zip values) := remove_append_gt hs' hk
        have hbef : before cmp key ((k,v) :: keys.zip values) =
            (k,v) :: before cmp key (keys.zip values) := before_append_gt hs' hk
        cases hf : findKey cmp key keys with
        | none =>
          rw [hf] at ih'
          refine ⟨fun c hc => ?_,fun value => ?_⟩
          · rcases List.mem_cons.mp hc with rfl | hc
            · simp [hk]
            · exact ih'.1 c hc
          · rw [hput,← ih'.2]
            simp [findInsertPositionForKey,Std.OrientedCmp.lt_of_gt hk]
        | some pos =>
          rw [hf] at ih'
          obtain ⟨hpos,hget,hset,herase,htake⟩ := ih'
          refine ⟨by simpa using hpos,by simpa [find_cons,hk] using hget,
            fun value => ?_,?_,?_⟩
          · rw [hput,← hset]
            rfl
          · rw [hrem,← herase]
            rfl
          · rw [hbef,← htake]
            rfl

end

end FArraySortedDictionary

namespace FImmutableSortedDictionary

open FLLRBNode

variable {κ α σ : Type} {cmp : κ → κ → Ordering}

def dictionaryWithComparator : FImmutableSortedDictionary κ α := .array { keys := [], values := [] }

/-- `+[FArraySortedDictionary fromDictionary:withComparator:]` -/
def arrayFromDictionary (cmp : κ → κ → Ordering) (dictionary : List (κ × α)) :
    Except NSException (FImmutableSortedDictionary κ α) := do
  let sorted ← sortedKeyList cmp dictionary
  return .array { keys := sorted.map Prod.fst, values := sorted.map Prod.snd }

def fromDictionary (cmp : κ → κ → Ordering) (dictionary : List (κ × α)) :
    Except NSException (FImmutableSortedDictionary κ α) :=
  if dictionary.length ≤ arrayToTreeSizeThreshold then arrayFromDictionary cmp dictionary
  else do
    let root ← FLLRBNode.fromDictionary cmp dictionary
    return .tree root

def insertKey [DecidableEq κ] (cmp : κ → κ → Ordering) (key : κ) (value : α) :
    FImmutableSortedDictionary κ α → Except NSException (FImmutableSortedDictionary κ α)
  | .array d => d.insertKey cmp key value
  | .tree root => .ok (.tree (root.insertKey cmp key value).blacken)

def get (cmp : κ → κ → Ordering) (key : κ) : FImmutableSortedDictionary κ α → Option α
  | .array d => d.get cmp key
  | .tree root => root.get cmp key

/-- A tree is not touched when the key is not there. -/
def removeKey (cmp : κ → κ → Ordering) (key : κ) :
    FImmutableSortedDictionary κ α → FImmutableSortedDictionary κ α
  | .array d => .array (d.removeKey cmp key)
  | .tree root =>
    if (root.get cmp key).isNone then .tree root else .tree (root.remove cmp key).blacken

def getPredecessorKey (cmp : κ → κ → Ordering) (key : κ) :
    FImmutableSortedDictionary κ α → Except NSException (Option κ)
  | .array d => d.getPredecessorKey cmp key
  | .tree root => root.predecessor cmp key none

def isEmpty : FImmutableSortedDictionary κ α → Bool
  | .array d => d.keys.isEmpty
  | .tree root => root.isEmpty

def count : FImmutableSortedDictionary κ α → Nat
  | .array d => d.keys.length
  | .tree root => root.count

def minKey : FImmutableSortedDictionary κ α → Option κ
  | .array d => d.keys.head?
  | .tree root => root.minKey

def maxKey : FImmutableSortedDictionary κ α → Option κ
  | .array d => d.keys.getLast?
  | .tree root => root.maxKey

def contains (cmp : κ → κ → Ordering) (key : κ) : FImmutableSortedDictionary κ α → Bool
  | .array d => (FArraySortedDictionary.findKey cmp key d.keys).isSome
  | .tree root => (root.get cmp key).isSome

def enumerateKeysAndObjects (reverse : Bool) (block : σ → κ → α → σ × Bool) (s : σ) :
    FImmutableSortedDictionary κ α → σ × Bool
  | .array d =>
    if reverse then visit block d.entries.reverse s else visit block d.entries s
  | .tree root =>
    if reverse then root.reverseTraversal block s else root.inorderTraversal block s

def entries : FImmutableSortedDictionary κ α → List (κ × α)
  | .array d => d.entries
  | .tree root => root.entries

/-- What every operation keeps. -/
def Sound (cmp : κ → κ → Ordering) (d : FImmutableSortedDictionary κ α) : Prop :=
  Ascending cmp d.entries ∧
  match d with
  | .array d => d.values.length = d.keys.length ∧ d.keys.length ≤ arrayToTreeSizeThreshold
  | .tree root => ∃ n, Balanced .black n root

theorem sound_dictionaryWithComparator (cmp : κ → κ → Ordering) :
    Sound cmp (dictionaryWithComparator : FImmutableSortedDictionary κ α) :=
  ⟨ascending_nil,rfl,Nat.zero_le _⟩

theorem setEntry_of_not_mem [DecidableEq κ] {k : κ} {v : α} {dict : List (κ × α)}
    (h : ∀ c ∈ dict, c.1 ≠ k) : setEntry k v dict = (k,v) :: dict := by
  rw [setEntry,List.filter_eq_self.mpr]
  intro c hc
  simpa using h c hc

theorem perm_setEntries [DecidableEq κ] (cs dict : List (κ × α))
    (h : (cs ++ dict).Pairwise (fun a b => a.1 ≠ b.1)) :
    (cs.foldl (fun dict c => setEntry c.1 c.2 dict) dict).Perm (cs ++ dict) := by
  induction cs generalizing dict with
  | nil => exact List.Perm.refl _
  | cons c cs ih =>
    obtain ⟨hc,ht⟩ := List.pairwise_cons.mp h
    rw [List.foldl_cons,
      setEntry_of_not_mem (fun a ha => (hc a (List.mem_append_right _ ha)).symm)]
    have hm : (cs ++ c :: dict).Perm (c :: (cs ++ dict)) := List.perm_middle
    exact (ih _ ((hm.pairwise_iff Ne.symm).mpr h)).trans hm

theorem ascending_of_eq {xs ys : List (κ × α)} (he : xs = ys) (h : Ascending cmp ys) :
    Ascending cmp xs := by
  rw [he]
  exact h

theorem distinguished_of_ascending {cs : List (κ × α)} (h : Ascending cmp cs) :
    Distinguished cmp cs :=
  h.imp (fun hab => by simp [hab])

section
variable [Std.TransCmp cmp] {key : κ}

theorem ne_of_distinguished {cs : List (κ × α)} (h : Distinguished cmp cs) :
    cs.Pairwise (fun a b => a.1 ≠ b.1) :=
  h.imp (fun hab he => hab (by rw [he]; exact Std.ReflCmp.compare_self))

theorem fromDictionary_spec {dictionary : List (κ × α)} (hlt : dictionary.length+1 < 2^32)
    (h : Distinguished cmp dictionary) :
    ∃ d, fromDictionary cmp dictionary = .ok d ∧ Sound cmp d ∧ d.entries.Perm dictionary := by
  rw [fromDictionary]
  split
  · next hfew =>
    obtain ⟨keys,hk,hs,hp⟩ := sortedKeyList_of_distinguished h
    have hzip : (keys.map Prod.fst).zip (keys.map Prod.snd) = keys :=
      (List.zip_of_prod rfl rfl).symm
    refine ⟨.array ⟨keys.map Prod.fst,keys.map Prod.snd⟩,?_,⟨ascending_of_eq hzip hs,?_,?_⟩,?_⟩
    · rw [arrayFromDictionary,hk]
      rfl
    · simp only [List.length_map]
    · simpa only [List.length_map,hp.length_eq] using hfew
    · exact (List.Perm.of_eq hzip).trans hp
  · obtain ⟨root,hr,hb,hs,hp⟩ := fromDictionary_of_distinguished hlt h
    refine ⟨.tree root,?_,⟨hs,hb⟩,hp⟩
    rw [hr]
    rfl

theorem fromDictionary_of_array [DecidableEq κ] (value : α) {cs : List (κ × α)}
    (hlt : cs.length+2 < 2^32) (hs : Ascending cmp cs) (hk : ∀ c ∈ cs, cmp key c.1 ≠ .eq) :
    ∃ root, FLLRBNode.fromDictionary cmp (setEntry key value
        (cs.foldl (fun dict c => setEntry c.1 c.2 dict) [])) = .ok root ∧
      (∃ n, Balanced .black n root) ∧ root.entries = put cmp key value cs := by
  have hd : Distinguished cmp ((key,value) :: cs) :=
    List.pairwise_cons.mpr ⟨hk,distinguished_of_ascending hs⟩
  have hperm : (cs.foldl (fun dict c => setEntry c.1 c.2 dict) []).Perm cs := by
    have h := perm_setEntries cs []
      (by simpa using ne_of_distinguished (distinguished_of_ascending hs))
    simpa using h
  have hset : setEntry key value (cs.foldl (fun dict c => setEntry c.1 c.2 dict) []) =
      (key,value) :: cs.foldl (fun dict c => setEntry c.1 c.2 dict) [] := by
    refine setEntry_of_not_mem (fun c hc he => ?_)
    exact hk c (hperm.mem_iff.mp hc) (he ▸ Std.ReflCmp.compare_self)
  have hd' : Distinguished cmp
      ((key,value) :: cs.foldl (fun dict c => setEntry c.1 c.2 dict) []) :=
    ((hperm.cons _).pairwise_iff (fun h he => h (Std.OrientedCmp.eq_symm he))).mpr hd
  obtain ⟨root,hroot,hb,hsr,hpr⟩ := fromDictionary_of_distinguished
    (by rw [List.length_cons,hperm.length_eq]; exact hlt) hd'
  refine ⟨root,hset ▸ hroot,hb,eq_of_perm hsr (ascending_put hs) ?_⟩
  exact (hpr.trans (hperm.cons _)).trans (put_perm hk).symm

variable {d : FImmutableSortedDictionary κ α}

theorem insertKey_array [DecidableEq κ] (key : κ) (value : α) {a : FArraySortedDictionary κ α}
    (h : Sound cmp (.array a)) : ∃ d', a.insertKey cmp key value = .ok d' ∧ Sound cmp d' ∧
      d'.entries = put cmp key value a.entries := by
  obtain ⟨hs,hl,hn⟩ := h
  change Ascending cmp (a.keys.zip a.values) at hs
  have hspec := FArraySortedDictionary.findKey_spec key hl hs
  rw [FArraySortedDictionary.insertKey]
  cases hf : FArraySortedDictionary.findKey cmp key a.keys with
  | none =>
    rw [hf] at hspec
    by_cases hfull : arrayToTreeSizeThreshold ≤ a.keys.length
    · have hlt : (a.keys.zip a.values).length+2 < 2^32 := by
        rw [List.length_zip,hl,Nat.min_self]
        exact (Nat.add_le_add_right hn 2).trans_lt (by decide)
      obtain ⟨root,hroot,hb,he⟩ := fromDictionary_of_array value hlt hs hspec.1
      refine ⟨.tree root,?_,⟨ascending_of_eq he (ascending_put hs),hb⟩,he⟩
      simp only [if_pos hfull,hroot]
      rfl
    · refine ⟨_,if_neg hfull,⟨?_,?_,?_⟩,hspec.2 value⟩
      · exact ascending_of_eq (hspec.2 value) (ascending_put hs)
      · simp only [List.length_insertIdx,hl]
      · simp only [List.length_insertIdx]
        split <;> omega
  | some pos =>
    rw [hf] at hspec
    obtain ⟨-,-,hput,-,-⟩ := hspec
    refine ⟨_,rfl,⟨ascending_of_eq (hput value) (ascending_put hs),?_,?_⟩,hput value⟩
    · simp only [List.length_set,hl]
    · simp only [List.length_set,hn]

/-- Setting a key never raises. An array takes the key as it is given, a tree keeps its own. -/
theorem insertKey_spec [DecidableEq κ] (key : κ) (value : α) (h : Sound cmp d) :
    ∃ d', d.insertKey cmp key value = .ok d' ∧ Sound cmp d' ∧
      (d'.entries = put cmp key value d.entries ∨
        d'.entries = SortedEntries.insert cmp key value d.entries) := by
  cases d with
  | array a =>
    obtain ⟨d',hd,hsd,he⟩ := insertKey_array key value h
    exact ⟨d',hd,hsd,Or.inl he⟩
  | tree root =>
    obtain ⟨hs,n,hb⟩ := h
    obtain ⟨hbal,he⟩ := insertKey_blacken value hb hs
    exact ⟨_,rfl,⟨ascending_of_eq he (ascending_insert hs),hbal⟩,Or.inr he⟩

theorem get_eq (key : κ) (h : Sound cmp d) : d.get cmp key = find cmp key d.entries := by
  cases d with
  | tree root => exact FLLRBNode.get_eq h.1
  | array a =>
    obtain ⟨hs,hl,-⟩ := h
    change Ascending cmp (a.keys.zip a.values) at hs
    have hspec := FArraySortedDictionary.findKey_spec key hl hs
    rw [get,FArraySortedDictionary.get]
    cases hf : FArraySortedDictionary.findKey cmp key a.keys with
    | none =>
      rw [hf] at hspec
      exact (find_eq_none_iff.mpr hspec.1).symm
    | some pos =>
      rw [hf] at hspec
      exact hspec.2.1

theorem removeKey_spec (key : κ) (h : Sound cmp d) : Sound cmp (d.removeKey cmp key) ∧
    (d.removeKey cmp key).entries = SortedEntries.remove cmp key d.entries := by
  cases d with
  | array a =>
    obtain ⟨hs,hl,hn⟩ := h
    change Ascending cmp (a.keys.zip a.values) at hs
    have hspec := FArraySortedDictionary.findKey_spec key hl hs
    rw [removeKey,FArraySortedDictionary.removeKey]
    cases hf : FArraySortedDictionary.findKey cmp key a.keys with
    | none =>
      rw [hf] at hspec
      exact ⟨⟨hs,hl,hn⟩,(remove_eq_self hspec.1).symm⟩
    | some pos =>
      rw [hf] at hspec
      obtain ⟨hpos,-,-,herase,-⟩ := hspec
      refine ⟨⟨ascending_of_eq herase (ascending_select hs),?_,?_⟩,herase⟩
      · simp only [List.length_eraseIdx,hl]
      · simp only [List.length_eraseIdx]
        split <;> omega
  | tree root =>
    obtain ⟨hs,n,hb⟩ := h
    change Ascending cmp root.entries at hs
    rw [removeKey]
    split
    · next hnone =>
      rw [FLLRBNode.get_eq hs,Option.isNone_iff_eq_none,find_eq_none_iff] at hnone
      exact ⟨⟨hs,n,hb⟩,(remove_eq_self hnone).symm⟩
    · obtain ⟨hbal,he⟩ := remove_blacken hb hs
      exact ⟨⟨ascending_of_eq he (ascending_select hs),hbal⟩,he⟩

end

end FImmutableSortedDictionary

/-- `FArraySortedDictionaryEnumerator` or `FTreeSortedDictionaryEnumerator` -/
inductive KeyEnumerator (κ α : Type) where
  | array (keys : List κ) (pos : Int) (reverse : Bool)
  | tree (stack : List (FLLRBNode κ α)) (isReverse : Bool)

namespace KeyEnumerator

variable {κ α : Type}

def nextObject : KeyEnumerator κ α → Option κ × KeyEnumerator κ α
  | .array keys pos reverse =>
    if 0 ≤ pos ∧ pos < keys.length then
      (keys[pos.toNat]?,.array keys (if reverse then pos - 1 else pos + 1) reverse)
    else (none,.array keys pos reverse)
  | .tree stack isReverse =>
    let (result,stack) := FLLRBNode.nextObject isReverse stack
    (result,.tree stack isReverse)

/-- What `nextObject` gives when it is sent so many times, until it gives `nil`. -/
def nextObjects : Nat → KeyEnumerator κ α → List κ
  | 0, _ => []
  | n+1, e =>
    match e.nextObject with
    | (some k,e) => k :: nextObjects n e
    | (none,_) => []

theorem nextObjects_tree (n : Nat) (stack : List (FLLRBNode κ α)) (isReverse : Bool) :
    nextObjects n (.tree stack isReverse) = FLLRBNode.nextObjects isReverse n stack := by
  induction n generalizing stack with
  | zero => rfl
  | succ n ih =>
    rw [nextObjects,FLLRBNode.nextObjects,nextObject]
    cases FLLRBNode.nextObject isReverse stack with
    | mk result stack =>
      cases result with
      | none => rfl
      | some k => exact congrArg (k :: ·) (ih stack)

theorem nextObjects_forward (n : Nat) (keys : List κ) (pos : Nat) :
    nextObjects n (.array keys pos false : KeyEnumerator κ α) = (keys.drop pos).take n := by
  induction n generalizing pos with
  | zero => rfl
  | succ n ih =>
    rw [nextObjects,nextObject]
    by_cases h : pos < keys.length
    · have hp : (0:Int) ≤ pos ∧ (pos:Int) < keys.length := by omega
      rw [if_pos hp,Int.toNat_natCast,List.getElem?_eq_getElem h,List.drop_eq_getElem_cons h,
        List.take_succ_cons]
      exact congrArg (keys[pos] :: ·) (ih (pos+1))
    · rw [if_neg (by omega),List.drop_eq_nil_of_le (by omega)]
      rfl

theorem nextObjects_reverse (n : Nat) (keys : List κ) (pos : Nat) (h : pos ≤ keys.length) :
    nextObjects n (.array keys ((pos:Int) - 1) true : KeyEnumerator κ α) =
      (keys.take pos).reverse.take n := by
  induction n generalizing pos with
  | zero => rfl
  | succ n ih =>
    rw [nextObjects,nextObject]
    cases pos with
    | zero => rfl
    | succ pos =>
      have hp : (0:Int) ≤ ((pos+1:Nat):Int) - 1 ∧ ((pos+1:Nat):Int) - 1 < keys.length := by omega
      have hi : (((pos+1:Nat):Int) - 1).toNat = pos := by omega
      have hq : ((pos+1:Nat):Int) - 1 = pos := by omega
      rw [if_pos hp,hi,hq,List.getElem?_eq_getElem h,List.take_succ_eq_append_getElem h,
        List.reverse_append,List.reverse_singleton,List.singleton_append,List.take_succ_cons]
      exact congrArg (keys[pos] :: ·) (ih pos (by omega))

end KeyEnumerator

namespace FArraySortedDictionary

variable {κ α : Type} {cmp : κ → κ → Ordering}

/-- The start of `reverseKeyEnumeratorFrom:`, one position further on. Without an exact match
the enumerator starts before the insert position. -/
def reverseStart (cmp : κ → κ → Ordering) (startKey : κ) (keys : List κ) : Nat :=
  let startPos := findInsertPositionForKey cmp startKey keys
  match keys[startPos]? with
  | none => startPos
  | some k => if cmp k startKey ≠ .eq then startPos else startPos + 1

theorem reverseStart_le (startKey : κ) (keys : List κ) :
    reverseStart cmp startKey keys ≤ keys.length := by
  have hle : findInsertPositionForKey cmp startKey keys ≤ keys.length := by
    induction keys with
    | nil => exact Nat.le_refl _
    | cons k keys ih =>
      rw [findInsertPositionForKey]
      split <;> simp [ih]
  rw [reverseStart]
  cases h : keys[findInsertPositionForKey cmp startKey keys]? with
  | none => exact hle
  | some k =>
    have hlt := (List.getElem?_eq_some_iff.mp h).1
    dsimp only
    split <;> omega

theorem reverseStart_cons_gt [Std.OrientedCmp cmp] {startKey k : κ} (h : cmp startKey k = .gt)
    (keys : List κ) : reverseStart cmp startKey (k :: keys) =
      reverseStart cmp startKey keys + 1 := by
  have hlt := Std.OrientedCmp.lt_of_gt h
  simp only [reverseStart,findInsertPositionForKey,hlt,if_true,List.getElem?_cons_succ]
  cases keys[findInsertPositionForKey cmp startKey keys]? with
  | none => rfl
  | some j =>
    dsimp only
    split <;> rfl

variable [Std.TransCmp cmp]

theorem startPosition_spec (startKey : κ) {cs : List (κ × α)} (hs : Ascending cmp cs) :
    cs.drop (findInsertPositionForKey cmp startKey (cs.map Prod.fst)) =
        startingAt cmp startKey cs ∧
      cs.take (reverseStart cmp startKey (cs.map Prod.fst)) = endingAt cmp startKey cs := by
  induction cs with
  | nil => exact ⟨rfl,rfl⟩
  | cons c cs ih =>
    have hs' : Ascending cmp (([] : List (κ × α)) ++ c :: cs) := hs
    obtain ⟨hd,ht⟩ := ih (List.pairwise_cons.mp hs).2
    rw [List.map_cons]
    cases hk : cmp startKey c.1 with
    | lt =>
      have hgt := Std.OrientedCmp.gt_of_lt hk
      refine ⟨?_,?_⟩
      · exact (by simp [findInsertPositionForKey,hgt] : _ = c :: cs).trans
          (startingAt_append_lt hs' hk).symm
      · exact (by simp [reverseStart,findInsertPositionForKey,hgt] : _ = []).trans
          (endingAt_append_lt hs' hk).symm
    | eq =>
      have heq := Std.OrientedCmp.eq_symm hk
      refine ⟨?_,?_⟩
      · exact (by simp [findInsertPositionForKey,heq] : _ = c :: cs).trans
          (startingAt_append_eq hs' hk).symm
      · exact (by simp [reverseStart,findInsertPositionForKey,heq] : _ = [c]).trans
          (endingAt_append_eq hs' hk).symm
    | gt =>
      have hlt := Std.OrientedCmp.lt_of_gt hk
      rw [reverseStart_cons_gt hk]
      refine ⟨?_,?_⟩
      · have hstep : startingAt cmp startKey (c :: cs) = startingAt cmp startKey cs :=
          startingAt_append_gt hs' hk
        rw [hstep,← hd]
        simp [findInsertPositionForKey,hlt]
      · have hstep : endingAt cmp startKey (c :: cs) = c :: endingAt cmp startKey cs :=
          endingAt_append_gt hs' hk
        rw [hstep,← ht,List.take_succ_cons]

end FArraySortedDictionary

namespace FImmutableSortedDictionary

open FArraySortedDictionary KeyEnumerator

variable {κ α σ : Type} {cmp : κ → κ → Ordering}

def keyEnumerator (cmp : κ → κ → Ordering) : FImmutableSortedDictionary κ α → KeyEnumerator κ α
  | .array d => .array d.keys 0 false
  | .tree root => .tree (root.startEnumerator cmp none false []) false

def keyEnumeratorFrom (cmp : κ → κ → Ordering) (startKey : κ) :
    FImmutableSortedDictionary κ α → KeyEnumerator κ α
  | .array d => .array d.keys (findInsertPositionForKey cmp startKey d.keys) false
  | .tree root => .tree (root.startEnumerator cmp (some startKey) false []) false

def reverseKeyEnumerator (cmp : κ → κ → Ordering) :
    FImmutableSortedDictionary κ α → KeyEnumerator κ α
  | .array d => .array d.keys ((d.keys.length : Int) - 1) true
  | .tree root => .tree (root.startEnumerator cmp none true []) true

def reverseKeyEnumeratorFrom (cmp : κ → κ → Ordering) (startKey : κ) :
    FImmutableSortedDictionary κ α → KeyEnumerator κ α
  | .array d => .array d.keys ((reverseStart cmp startKey d.keys : Int) - 1) true
  | .tree root => .tree (root.startEnumerator cmp (some startKey) true []) true

theorem keys_of_sound {a : FArraySortedDictionary κ α} (h : Sound cmp (.array a)) :
    a.keys = (FImmutableSortedDictionary.array a).entries.map Prod.fst := by
  rw [entries,FArraySortedDictionary.entries,List.map_fst_zip (Nat.le_of_eq h.2.1.symm)]

theorem nextObjects_reverseKeyEnumerator_array {a : FArraySortedDictionary κ α}
    (h : Sound cmp (.array a)) (n : Nat) :
    nextObjects n ((FImmutableSortedDictionary.array a).reverseKeyEnumerator cmp) =
      ((FImmutableSortedDictionary.array a).entries.reverse.map Prod.fst).take n := by
  rw [reverseKeyEnumerator,nextObjects_reverse n a.keys _ (Nat.le_refl _),List.take_length,
    List.map_reverse,← keys_of_sound h]

theorem nextObjects_reverseKeyEnumerator_tree (root : FLLRBNode κ α) (n : Nat) :
    nextObjects n ((FImmutableSortedDictionary.tree root).reverseKeyEnumerator cmp) = [] := by
  rw [reverseKeyEnumerator,FLLRBNode.startEnumerator_reverse_none,nextObjects_tree]
  cases n <;> rfl

section
variable [Std.TransCmp cmp] {d : FImmutableSortedDictionary κ α}

theorem nextObjects_keyEnumerator (h : Sound cmp d) (n : Nat) :
    nextObjects n (d.keyEnumerator cmp) = (d.entries.map Prod.fst).take n := by
  cases d with
  | array a =>
    rw [keyEnumerator,← keys_of_sound h]
    exact nextObjects_forward n a.keys 0
  | tree root =>
    obtain ⟨hp,he⟩ := FLLRBNode.startEnumerator_forward h.1 none FLLRBNode.pushed_nil
    rw [keyEnumerator,nextObjects_tree,FLLRBNode.nextObjects_eq false n hp,he]
    simp [FLLRBNode.startingFrom,FLLRBNode.pending,entries]

theorem nextObjects_keyEnumeratorFrom (h : Sound cmp d) (startKey : κ) (n : Nat) :
    nextObjects n (d.keyEnumeratorFrom cmp startKey) =
      ((startingAt cmp startKey d.entries).map Prod.fst).take n := by
  cases d with
  | array a =>
    rw [keyEnumeratorFrom,nextObjects_forward,keys_of_sound h,← List.map_drop,
      (startPosition_spec startKey h.1).1]
  | tree root =>
    obtain ⟨hp,he⟩ := FLLRBNode.startEnumerator_forward h.1 (some startKey) FLLRBNode.pushed_nil
    rw [keyEnumeratorFrom,nextObjects_tree,FLLRBNode.nextObjects_eq false n hp,he]
    simp [FLLRBNode.startingFrom,FLLRBNode.pending,entries]

theorem nextObjects_reverseKeyEnumeratorFrom (h : Sound cmp d) (startKey : κ) (n : Nat) :
    nextObjects n (d.reverseKeyEnumeratorFrom cmp startKey) =
      ((endingAt cmp startKey d.entries).reverse.map Prod.fst).take n := by
  cases d with
  | array a =>
    rw [reverseKeyEnumeratorFrom,nextObjects_reverse n a.keys _ (reverseStart_le startKey a.keys),
      keys_of_sound h,← List.map_take,(startPosition_spec startKey h.1).2,List.map_reverse]
  | tree root =>
    obtain ⟨hp,he⟩ := FLLRBNode.startEnumerator_reverse h.1 startKey FLLRBNode.pushed_nil
    rw [reverseKeyEnumeratorFrom,nextObjects_tree,FLLRBNode.nextObjects_eq true n hp,he]
    simp [FLLRBNode.pending,entries]

theorem contains_eq (key : κ) (h : Sound cmp d) :
    d.contains cmp key = (find cmp key d.entries).isSome := by
  cases d with
  | array a =>
    obtain ⟨hs,hl,-⟩ := h
    have hspec := findKey_spec key hl hs
    rw [contains]
    cases hf : findKey cmp key a.keys with
    | none =>
      rw [hf] at hspec
      have hn : find cmp key (FImmutableSortedDictionary.array a).entries = none :=
        find_eq_none_iff.mpr hspec.1
      rw [hn]
      rfl
    | some pos =>
      rw [hf] at hspec
      obtain ⟨hpos,hget,-⟩ := hspec
      have hsome : find cmp key (FImmutableSortedDictionary.array a).entries =
          some a.values[pos] := hget.symm.trans (List.getElem?_eq_getElem (by omega))
      rw [hsome]
      rfl
  | tree root => rw [contains,FLLRBNode.get_eq h.1,entries]

theorem getPredecessorKey_eq (key : κ) (h : Sound cmp d) :
    (d.getPredecessorKey cmp key).toOption =
      if (find cmp key d.entries).isSome then
        some ((before cmp key d.entries).getLast?.map Prod.fst)
      else none := by
  rw [← contains_eq key h]
  cases d with
  | array a =>
    have hk := keys_of_sound h
    obtain ⟨hs,hl,-⟩ := h
    have hspec := findKey_spec key hl hs
    rw [getPredecessorKey,FArraySortedDictionary.getPredecessorKey,contains]
    cases hf : findKey cmp key a.keys with
    | none => rfl
    | some pos =>
      rw [hf] at hspec
      obtain ⟨hpos,-,-,-,htake⟩ := hspec
      have hb : before cmp key (FImmutableSortedDictionary.array a).entries =
          (FImmutableSortedDictionary.array a).entries.take pos := htake.symm
      rw [hb,← List.getLast?_map,List.map_take,← hk]
      cases pos with
      | zero => rfl
      | succ pos =>
        have hlast : (a.keys.take (pos+1)).getLast? = some a.keys[pos] := by
          rw [List.take_succ_eq_append_getElem (by omega),List.getLast?_concat]
        have hget : a.keys[pos]? = some a.keys[pos] := List.getElem?_eq_getElem (by omega)
        rw [hlast]
        exact congrArg some hget
  | tree root =>
    rw [getPredecessorKey,FLLRBNode.predecessor_eq h.1,contains,FLLRBNode.get_eq h.1,entries]
    split
    · simp [Except.toOption]
    · rfl

end

variable {d : FImmutableSortedDictionary κ α}

theorem count_eq (h : Sound cmp d) : d.count = d.entries.length := by
  cases d with
  | array a =>
    rw [count,keys_of_sound h,List.length_map]
  | tree root => exact (FLLRBNode.length_entries root).symm

theorem isEmpty_eq (h : Sound cmp d) : d.isEmpty = d.entries.isEmpty := by
  cases d with
  | array a =>
    rw [isEmpty,keys_of_sound h]
    cases (FImmutableSortedDictionary.array a).entries <;> rfl
  | tree root => cases root <;> simp [isEmpty,entries]

theorem minKey_eq (h : Sound cmp d) : d.minKey = d.entries.head?.map Prod.fst := by
  cases d with
  | array a => rw [minKey,keys_of_sound h,List.head?_map]
  | tree root => exact FLLRBNode.minKey_eq root

theorem maxKey_eq (h : Sound cmp d) : d.maxKey = d.entries.getLast?.map Prod.fst := by
  cases d with
  | array a => rw [maxKey,keys_of_sound h,List.getLast?_map]
  | tree root => exact FLLRBNode.maxKey_eq root

theorem enumerateKeysAndObjects_eq (reverse : Bool) (block : σ → κ → α → σ × Bool) (s : σ)
    (d : FImmutableSortedDictionary κ α) : d.enumerateKeysAndObjects reverse block s =
      visit block (if reverse then d.entries.reverse else d.entries) s := by
  cases d with
  | array a => cases reverse <;> rfl
  | tree root =>
    cases reverse with
    | false => exact FLLRBNode.inorderTraversal_eq block root s
    | true => exact FLLRBNode.reverseTraversal_eq block root s

end FImmutableSortedDictionary

end GFLGO
