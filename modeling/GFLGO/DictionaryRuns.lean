import GFLGO.SortedDictionary

/-!
Whole histories of a sorted dictionary, and what a caller can tell of the way a
dictionary is kept.
-/

set_option autoImplicit false

namespace GFLGO

open SortedEntries FImmutableSortedDictionary

inductive DictionaryChange (κ α : Type) where
  | setObject (key : κ) (value : α)
  | removeObject (key : κ)
  deriving DecidableEq, Repr

namespace DictionaryChange

variable {κ α : Type} {cmp : κ → κ → Ordering}

def key : DictionaryChange κ α → κ
  | .setObject k _ => k
  | .removeObject k => k

def perform [DecidableEq κ] (cmp : κ → κ → Ordering) (d : FImmutableSortedDictionary κ α) :
    DictionaryChange κ α → Except NSException (FImmutableSortedDictionary κ α)
  | .setObject k v => d.insertKey cmp k v
  | .removeObject k => .ok (d.removeKey cmp k)

def performAll [DecidableEq κ] (cmp : κ → κ → Ordering) :
    List (DictionaryChange κ α) → FImmutableSortedDictionary κ α →
      Except NSException (FImmutableSortedDictionary κ α)
  | [], d => .ok d
  | c :: cs, d => c.perform cmp d >>= performAll cmp cs

/-- What a key holds after the change. -/
def effect (cmp : κ → κ → Ordering) (k : κ) (held : Option α) (c : DictionaryChange κ α) :
    Option α :=
  if cmp k c.key = .eq then
    match c with
    | .setObject _ v => some v
    | .removeObject _ => none
  else held

def change (cmp : κ → κ → Ordering) (cs : List (κ × α)) : DictionaryChange κ α → List (κ × α)
  | .setObject k v => SortedEntries.insert cmp k v cs
  | .removeObject k => SortedEntries.remove cmp k cs

/-- The comparator tells any two of the keys apart. -/
def TellsApart (cmp : κ → κ → Ordering) (S : Set κ) : Prop :=
  ∀ j ∈ S, ∀ k ∈ S, cmp j k = .eq → j = k

section
variable [DecidableEq κ] [Std.TransCmp cmp] {d : FImmutableSortedDictionary κ α}

theorem perform_spec (c : DictionaryChange κ α) (h : Sound cmp d) :
    ∃ d', c.perform cmp d = .ok d' ∧ Sound cmp d' ∧
      ∀ k, find cmp k d'.entries = effect cmp k (find cmp k d.entries) c := by
  cases c with
  | setObject j v =>
    obtain ⟨d',hd,hs,he⟩ := insertKey_spec j v h
    refine ⟨d',hd,hs,fun k => ?_⟩
    rcases he with he | he
    · rw [he,find_put h.1]
      rfl
    · rw [he,find_insert h.1]
      rfl
  | removeObject j =>
    obtain ⟨hs,he⟩ := removeKey_spec j h
    refine ⟨_,rfl,hs,fun k => ?_⟩
    rw [he,find_remove]
    rfl

theorem performAll_spec (cs : List (DictionaryChange κ α)) (h : Sound cmp d) :
    ∃ d', performAll cmp cs d = .ok d' ∧ Sound cmp d' ∧
      ∀ k, find cmp k d'.entries = cs.foldl (effect cmp k) (find cmp k d.entries) := by
  induction cs generalizing d with
  | nil => exact ⟨d,rfl,h,fun k => rfl⟩
  | cons c cs ih =>
    obtain ⟨d',hd,hs,he⟩ := perform_spec c h
    obtain ⟨d'',hd',hs',he'⟩ := ih hs
    refine ⟨d'',?_,hs',fun k => ?_⟩
    · rw [performAll,hd]
      exact hd'
    · rw [he',he,List.foldl_cons]

/-- No history of a dictionary raises, and every key holds what was last set for it. -/
theorem get_of_history (cs : List (DictionaryChange κ α)) :
    ∃ d, performAll cmp cs dictionaryWithComparator = .ok d ∧ Sound cmp d ∧
      ∀ k, d.get cmp k = cs.foldl (effect cmp k) none := by
  obtain ⟨d,hd,hs,he⟩ := performAll_spec cs (sound_dictionaryWithComparator cmp)
  refine ⟨d,hd,hs,fun k => ?_⟩
  rw [get_eq k hs,he]
  rfl

theorem get_of_history_swapped :
    ∃ d, performAll compare [setObject 2 "b",setObject 1 "a",removeObject 2]
      dictionaryWithComparator = .ok d ∧ d.get compare 1 = some "a" ∧ d.get compare 2 = none := by
  obtain ⟨d,hd,-,hget⟩ :=
    @get_of_history Nat String compare _ _ [setObject 2 "b",setObject 1 "a",removeObject 2]
  exact ⟨d,hd,hget 1,hget 2⟩

def Within (S : Set κ) (cs : List (κ × α)) : Prop := ∀ c ∈ cs, c.1 ∈ S

omit [DecidableEq κ] [Std.TransCmp cmp] in
theorem within_change {S : Set κ} {cs : List (κ × α)} (hw : Within S cs) (c : DictionaryChange κ α)
    (hc : c.key ∈ S) : Within S (c.change cmp cs) := by
  intro a ha
  cases c with
  | setObject j v =>
    rcases keys_upsert ha with h | h | ⟨b,hb,-,h⟩
    · exact hw a h
    · exact h ▸ hc
    · exact h ▸ hw b hb
  | removeObject j => exact hw a (List.mem_of_mem_filter ha)

theorem perform_entries {S : Set κ} (ht : TellsApart cmp S) (hw : Within S d.entries)
    (c : DictionaryChange κ α) (hc : c.key ∈ S) (h : Sound cmp d) :
    ∃ d', c.perform cmp d = .ok d' ∧ Sound cmp d' ∧
      d'.entries = c.change cmp d.entries := by
  cases c with
  | setObject j v =>
    obtain ⟨d',hd,hs,he⟩ := insertKey_spec j v h
    refine ⟨d',hd,hs,?_⟩
    rcases he with he | he
    · rw [he]
      exact put_eq_insert (fun a ha hja => (ht j hc a.1 (hw a ha) hja).symm)
    · exact he
  | removeObject j =>
    obtain ⟨hs,he⟩ := removeKey_spec j h
    exact ⟨_,rfl,hs,he⟩

theorem performAll_entries {S : Set κ} (ht : TellsApart cmp S) (hw : Within S d.entries)
    (cs : List (DictionaryChange κ α)) (hc : ∀ c ∈ cs, c.key ∈ S) (h : Sound cmp d) :
    ∃ d', performAll cmp cs d = .ok d' ∧ Sound cmp d' ∧
      d'.entries = cs.foldl (change cmp) d.entries := by
  induction cs generalizing d with
  | nil => exact ⟨d,rfl,h,rfl⟩
  | cons c cs ih =>
    have hck : c.key ∈ S := hc c List.mem_cons_self
    obtain ⟨d',hd,hs,he⟩ := perform_entries ht hw c hck h
    obtain ⟨d'',hd',hs',he'⟩ :=
      ih (he ▸ within_change hw c hck) (fun a ha => hc a (List.mem_cons_of_mem _ ha)) hs
    refine ⟨d'',?_,hs',?_⟩
    · rw [performAll,hd]
      exact hd'
    · rw [he',he,List.foldl_cons]

end

theorem performAll_entries_swapped :
    ∃ d, performAll compare [setObject 2 "b",setObject 1 "a"] dictionaryWithComparator = .ok d ∧
      d.entries = [(1,"a"),(2,"b")] := by
  have hempty : Within (Set.univ : Set Nat)
      (dictionaryWithComparator : FImmutableSortedDictionary Nat String).entries :=
    fun c _ => Set.mem_univ c.1
  obtain ⟨d,hd,-,he⟩ := performAll_entries (S := Set.univ)
    (fun j _ k _ => Nat.compare_eq_eq.mp) hempty [setObject 2 "b",setObject 1 "a"]
    (fun c _ => Set.mem_univ c.key) (sound_dictionaryWithComparator compare)
  exact ⟨d,hd,he⟩

end DictionaryChange

namespace FLLRBNode

variable {κ α : Type}

end FLLRBNode

namespace DictionaryChange

variable {κ α : Type} [DecidableEq κ] {cmp : κ → κ → Ordering} [Std.TransCmp cmp]

end DictionaryChange

namespace FImmutableSortedDictionary

variable {κ α : Type} {cmp : κ → κ → Ordering} [Std.TransCmp cmp]

/-- Dictionaries of the same entries cannot be told apart by a key, by an enumeration from a
key on or by a block, whether they are arrays or trees. -/
theorem answers_eq {d₁ d₂ : FImmutableSortedDictionary κ α} (h₁ : Sound cmp d₁)
    (h₂ : Sound cmp d₂) (he : d₁.entries = d₂.entries) :
    (∀ key, d₁.get cmp key = d₂.get cmp key ∧ d₁.contains cmp key = d₂.contains cmp key ∧
      (d₁.getPredecessorKey cmp key).toOption = (d₂.getPredecessorKey cmp key).toOption) ∧
    (d₁.count = d₂.count ∧ d₁.isEmpty = d₂.isEmpty ∧ d₁.minKey = d₂.minKey ∧
      d₁.maxKey = d₂.maxKey) ∧
    (∀ n, (d₁.keyEnumerator cmp).nextObjects n = (d₂.keyEnumerator cmp).nextObjects n ∧
      ∀ startKey, (d₁.keyEnumeratorFrom cmp startKey).nextObjects n =
          (d₂.keyEnumeratorFrom cmp startKey).nextObjects n ∧
        (d₁.reverseKeyEnumeratorFrom cmp startKey).nextObjects n =
          (d₂.reverseKeyEnumeratorFrom cmp startKey).nextObjects n) ∧
    ∀ (σ : Type) (reverse : Bool) (block : σ → κ → α → σ × Bool) (s : σ),
      d₁.enumerateKeysAndObjects reverse block s = d₂.enumerateKeysAndObjects reverse block s := by
  refine ⟨fun key => ⟨?_,?_,?_⟩,⟨?_,?_,?_,?_⟩,fun n => ⟨?_,fun startKey => ⟨?_,?_⟩⟩,
    fun σ reverse block s => ?_⟩
  · rw [get_eq key h₁,get_eq key h₂,he]
  · rw [contains_eq key h₁,contains_eq key h₂,he]
  · rw [getPredecessorKey_eq key h₁,getPredecessorKey_eq key h₂,he]
  · rw [count_eq h₁,count_eq h₂,he]
  · rw [isEmpty_eq h₁,isEmpty_eq h₂,he]
  · rw [minKey_eq h₁,minKey_eq h₂,he]
  · rw [maxKey_eq h₁,maxKey_eq h₂,he]
  · rw [nextObjects_keyEnumerator h₁,nextObjects_keyEnumerator h₂,he]
  · rw [nextObjects_keyEnumeratorFrom h₁,nextObjects_keyEnumeratorFrom h₂,he]
  · rw [nextObjects_reverseKeyEnumeratorFrom h₁,nextObjects_reverseKeyEnumeratorFrom h₂,he]
  · rw [enumerateKeysAndObjects_eq,enumerateKeysAndObjects_eq,he]

theorem sound_one : Sound (compare : Nat → Nat → Ordering)
    (.array (FArraySortedDictionary.mk [1] [true])) :=
  ⟨by simp [Ascending,entries,FArraySortedDictionary.entries],by decide,by decide⟩

theorem answers_eq_pair :
    (FImmutableSortedDictionary.array (FArraySortedDictionary.mk [1] [true])).get compare 1 =
      (FImmutableSortedDictionary.tree
        (.valueNode 1 true .black .emptyNode .emptyNode)).get compare 1 := by
  have h := @answers_eq Nat Bool compare _
    (.array (FArraySortedDictionary.mk [1] [true]))
    (.tree (.valueNode 1 true .black .emptyNode .emptyNode))
    sound_one ⟨by simp [Ascending,entries],1,.black .emptyNode .emptyNode⟩ rfl
  exact (h.1 1).1

omit [Std.TransCmp cmp] in
/-- The enumerator of all keys in reverse is the exception: on a tree it gives none. -/
theorem reverseKeyEnumerator_complete_iff {d : FImmutableSortedDictionary κ α}
    (h : Sound cmp d) :
    (∀ n, (d.reverseKeyEnumerator cmp).nextObjects n =
      (d.entries.reverse.map Prod.fst).take n) ↔ (∃ a, d = .array a) ∨ d.entries = [] := by
  cases d with
  | array a =>
    exact ⟨fun _ => Or.inl ⟨a,rfl⟩,fun _ n => nextObjects_reverseKeyEnumerator_array h n⟩
  | tree root =>
    constructor
    · intro hall
      have hone := hall 1
      rw [nextObjects_reverseKeyEnumerator_tree] at hone
      refine Or.inr ?_
      cases he : (FImmutableSortedDictionary.tree root).entries.reverse with
      | nil => exact List.reverse_eq_nil_iff.mp he
      | cons c cs =>
        rw [he] at hone
        simp at hone
    · rintro (⟨a,ha⟩ | he) n
      · cases ha
      · rw [nextObjects_reverseKeyEnumerator_tree,he]
        simp

theorem reverseKeyEnumerator_complete_iff_one :
    ((FImmutableSortedDictionary.array (FArraySortedDictionary.mk [1] [true])).reverseKeyEnumerator
      compare).nextObjects 1 = [1] :=
  (reverseKeyEnumerator_complete_iff sound_one).mpr (Or.inl ⟨_,rfl⟩) 1

end FImmutableSortedDictionary

end GFLGO
