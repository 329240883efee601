import Mathlib.Data.Nat.Bitwise
import Mathlib.Data.Nat.Log
import GFLGO.TreeDictionary

/-!
`+fromDictionary:withComparator:` builds a tree from sorted keys at once. The
number of keys, written with the digits 1 and 2, says which perfect trees hang
on the left spine, the largest first.
-/

set_option autoImplicit false

namespace GFLGO

namespace FLLRBNode

open SortedEntries

variable {κ α : Type}

theorem half_bound_lt {n length : Nat} (h : Nat.min n length ≠ 0) :
    Nat.min n length / 2 < length := by
  have hb : Nat.min n length ≤ length := Nat.min_le_right _ _
  omega

/-- A perfect tree of black nodes when `length` is one less than a power of two. -/
def buildBalancedTree (keys : List (κ × α)) (startIndex length : Nat) : FLLRBNode κ α :=
  -- bounded by the actual length of the array
  let bound := Nat.min (keys.length - startIndex) length
  if h : bound = 0 then emptyNode
  else
    have := half_bound_lt h
    match keys[startIndex + bound / 2]? with
    | none => emptyNode
    | some (k,v) =>
      if bound = 1 then valueNode k v .black emptyNode emptyNode
      else
        valueNode k v .black (buildBalancedTree keys startIndex (bound / 2))
          (buildBalancedTree keys (startIndex + bound / 2 + 1) (bound / 2))
termination_by length

/-- `buildPennant`: a node over the next `chunkSize` keys from the end of the list. -/
def buildPennant (keyList : List (κ × α)) (color : FLLRBColor) (chunkSize index : Nat)
    (left : FLLRBNode κ α) : FLLRBNode κ α :=
  let startIndex := index - chunkSize + 1
  match keyList[index - chunkSize]? with
  | none => emptyNode
  | some (k,v) =>
    valueNode k v color left (buildBalancedTree keyList startIndex (chunkSize - 1))

structure Base1_2List where
  bits : Nat
  count : Nat
  deriving DecidableEq, Repr

/-- `length` is an `unsigned int`, and so is the number after it. `log_base2` is the C
library's quotient of logarithms, cut off. -/
def base1_2List_new (length : Nat) : Base1_2List :=
  let num := (length+1) % 2^32
  -- at the largest `length` this is the logarithm of 0, which C leaves open
  let count := Nat.log 2 num
  { bits := num % 2^count, count := count }

/-- `base1_2List_next`, with the current bit: whether the digit is a 1. -/
def isOne (bits current : Nat) : Bool := !bits.testBit current

/-- The loop of `rootFrom12List`. The pennants still to come are attached to the last one. -/
def attachPennants (bits : Nat) (keyList : List (κ × α)) : Nat → Nat → FLLRBNode κ α
  | 0, _ => emptyNode
  | current+1, index =>
    let chunkSize := 2^current
    if isOne bits current then
      buildPennant keyList .black chunkSize index
        (attachPennants bits keyList current (index - chunkSize))
    else
      buildPennant keyList .black chunkSize index
        (buildPennant keyList .red chunkSize (index - chunkSize)
          (attachPennants bits keyList current (index - chunkSize - chunkSize)))

def rootFrom12List (base1_2List : Base1_2List) (keyList : List (κ × α)) : FLLRBNode κ α :=
  attachPennants base1_2List.bits keyList base1_2List.count keyList.length

section
variable {keys : List (κ × α)} {color : FLLRBColor} {index n : Nat} {left : FLLRBNode κ α}

theorem take_drop_succ {s a b : Nat} {x : κ × α} (h : keys[s+a]? = some x) :
    (keys.drop s).take (a+1+b) = (keys.drop s).take a ++ x :: (keys.drop (s+a+1)).take b := by
  obtain ⟨hlt,rfl⟩ := List.getElem?_eq_some_iff.mp h
  rw [Nat.add_assoc,List.take_add,List.drop_drop,List.drop_eq_getElem_cons hlt,Nat.add_comm 1 b,
    List.take_succ_cons]

theorem buildBalancedTree_succ {n startIndex : Nat} {k : κ} {v : α}
    (hk : keys[startIndex + (2^n - 1)]? = some (k,v))
    (h : startIndex + (2^(n+1) - 1) ≤ keys.length) :
    buildBalancedTree keys startIndex (2^(n+1) - 1) =
      valueNode k v .black (buildBalancedTree keys startIndex (2^n - 1))
        (buildBalancedTree keys (startIndex + (2^n - 1) + 1) (2^n - 1)) := by
  have hpos : 0 < 2^n := Nat.two_pow_pos n
  have hpow : 2^(n+1) = 2^n + 2^n := by omega
  have hb : Nat.min (keys.length - startIndex) (2^(n+1) - 1) = 2^(n+1) - 1 :=
    Nat.min_eq_right (by omega)
  have hhalf : (2^(n+1) - 1) / 2 = 2^n - 1 := by omega
  rw [buildBalancedTree]
  simp only [hb,hhalf,hk]
  rw [dif_neg (by omega)]
  split
  · next hone =>
    have hzero : 2^n - 1 = 0 := by omega
    have hempty : ∀ s, buildBalancedTree keys s 0 = emptyNode := by
      intro s
      rw [buildBalancedTree]
      simp
    rw [hzero,hempty,hempty]
  · rfl

theorem buildBalancedTree_spec (keys : List (κ × α)) (n startIndex : Nat)
    (h : startIndex + (2^n - 1) ≤ keys.length) :
    Balanced .black n (buildBalancedTree keys startIndex (2^n - 1)) ∧
      (buildBalancedTree keys startIndex (2^n - 1)).entries =
        (keys.drop startIndex).take (2^n - 1) := by
  induction n generalizing startIndex with
  | zero =>
    rw [buildBalancedTree]
    simp
    exact .emptyNode
  | succ n ih =>
    have hpos : 0 < 2^n := Nat.two_pow_pos n
    have hpow : 2^(n+1) = 2^n + 2^n := by omega
    obtain ⟨x,hx⟩ : ∃ x, keys[startIndex + (2^n - 1)]? = some x :=
      ⟨_,List.getElem?_eq_getElem (by omega)⟩
    obtain ⟨hl,hel⟩ := ih startIndex (by omega)
    obtain ⟨hr,her⟩ := ih (startIndex + (2^n - 1) + 1) (by omega)
    have hlen : 2^(n+1) - 1 = (2^n - 1) + 1 + (2^n - 1) := by omega
    rw [buildBalancedTree_succ hx h]
    refine ⟨.black hl hr,?_⟩
    rw [entries_valueNode,hel,her,hlen,take_drop_succ hx]

theorem buildPennant_spec (color : FLLRBColor) (left : FLLRBNode κ α) (n : Nat)
    (hi : index ≤ keys.length) (hc : 2^n ≤ index) :
    ∃ k v r, buildPennant keys color (2^n) index left = valueNode k v color left r ∧
      Balanced .black n r ∧
      (k,v) :: r.entries = (keys.drop (index - 2^n)).take (2^n) := by
  have hpos : 0 < 2^n := Nat.two_pow_pos n
  obtain ⟨⟨k,v⟩,hx⟩ : ∃ x, keys[index - 2^n]? = some x :=
    ⟨_,List.getElem?_eq_getElem (by omega)⟩
  obtain ⟨hr,her⟩ := buildBalancedTree_spec keys n (index - 2^n + 1) (by omega)
  refine ⟨k,v,_,?_,hr,?_⟩
  · simp only [buildPennant,hx]
  · have hlen : 2^n = 0 + 1 + (2^n - 1) := by omega
    have hslice : (keys.drop (index - 2^n)).take (2^n) =
        (k,v) :: (keys.drop (index - 2^n + 1)).take (2^n - 1) :=
      (congrArg (fun m => (keys.drop (index - 2^n)).take m) hlen).trans
        (take_drop_succ (a := 0) hx)
    rw [her,hslice]

theorem take_pennant {n : Nat} (hc : 2^n ≤ index) :
    keys.take (index - 2^n) ++ (keys.drop (index - 2^n)).take (2^n) = keys.take index := by
  rw [← List.take_add,Nat.sub_add_cancel hc]

/-- So many keys belong to the digits from the current one down. -/
def digitsLength (bits current : Nat) : Nat := 2^current - 1 + bits % 2^current

theorem digitsLength_succ (bits current : Nat) : digitsLength bits (current+1) =
    digitsLength bits current + 2^current + if bits.testBit current then 2^current else 0 := by
  have hpos : 0 < 2^current := Nat.two_pow_pos current
  have hpow : 2^(current+1) = 2^current + 2^current := by omega
  have hmod := Nat.mod_pow_succ (x := bits) (b := 2) (k := current)
  rw [Nat.testBit_eq_decide_div_mod_eq]
  unfold digitsLength
  rcases Nat.mod_two_eq_zero_or_one (bits / 2^current) with hz | ho
  · rw [hz] at hmod
    simp [hz]
    omega
  · rw [ho] at hmod
    simp [ho]
    omega

theorem attachPennants_spec (keys : List (κ × α)) (bits current : Nat)
    (h : digitsLength bits current ≤ keys.length) :
    Balanced .black current (attachPennants bits keys current (digitsLength bits current)) ∧
      (attachPennants bits keys current (digitsLength bits current)).entries =
        keys.take (digitsLength bits current) := by
  induction current with
  | zero => simpa [digitsLength,attachPennants,Nat.mod_one] using Balanced.emptyNode
  | succ current ih =>
    have hs := digitsLength_succ bits current
    have hpos : 0 < 2^current := Nat.two_pow_pos current
    obtain ⟨hl,hel⟩ := ih (by omega)
    rw [attachPennants,isOne]
    cases hbit : bits.testBit current with
    | false =>
      rw [hbit,if_neg (by simp),Nat.add_zero] at hs
      have hsub : digitsLength bits (current+1) - 2^current = digitsLength bits current := by
        omega
      simp only [Bool.not_false,if_true]
      obtain ⟨k,v,r,hp,hr,her⟩ := buildPennant_spec .black
        (attachPennants bits keys current (digitsLength bits current)) current h (by omega)
      rw [hsub,hp]
      refine ⟨.black hl hr,?_⟩
      rw [entries_valueNode,hel,her,hsub,← hsub,take_pennant (by omega)]
    | true =>
      rw [hbit,if_pos rfl] at hs
      have hsub : digitsLength bits (current+1) - 2^current - 2^current =
          digitsLength bits current := by omega
      have hle : digitsLength bits (current+1) - 2^current ≤ keys.length := by omega
      have hge : 2^current ≤ digitsLength bits (current+1) - 2^current := by omega
      simp only [Bool.not_true,Bool.false_eq_true,if_false]
      obtain ⟨k,v,r,hp,hr,her⟩ := buildPennant_spec .red
        (attachPennants bits keys current (digitsLength bits current)) current hle hge
      rw [hsub,hp]
      obtain ⟨k',v',r',hp',hr',her'⟩ := buildPennant_spec .black
        (valueNode k v .red (attachPennants bits keys current (digitsLength bits current)) r)
        current h (by omega)
      rw [hp']
      refine ⟨.black (.red hl hr) hr',?_⟩
      rw [entries_valueNode,entries_valueNode,hel,her,her',← hsub,take_pennant (by omega),
        take_pennant (by omega)]

theorem digitsLength_base1_2List_new {length : Nat} (h : length+1 < 2^32) :
    digitsLength (base1_2List_new length).bits (base1_2List_new length).count = length := by
  have hlow : 2^(Nat.log 2 (length+1)) ≤ length+1 := Nat.pow_log_le_self 2 (by omega)
  have hhigh : length+1 < 2^(Nat.log 2 (length+1) + 1) :=
    Nat.lt_pow_succ_log_self (by omega) _
  have hpow : 2^(Nat.log 2 (length+1) + 1) =
      2^(Nat.log 2 (length+1)) + 2^(Nat.log 2 (length+1)) := by
    rw [Nat.pow_succ]
    omega
  have hmod : (length+1) % 2^(Nat.log 2 (length+1)) = length+1 - 2^(Nat.log 2 (length+1)) := by
    rw [Nat.mod_eq_sub_mod hlow,Nat.mod_eq_of_lt (by omega)]
  have hnew : base1_2List_new length =
      ⟨(length+1) % 2^(Nat.log 2 (length+1)),Nat.log 2 (length+1)⟩ := by
    rw [base1_2List_new,Nat.mod_eq_of_lt h]
  have hd : digitsLength ((length+1) % 2^(Nat.log 2 (length+1))) (Nat.log 2 (length+1)) =
      2^(Nat.log 2 (length+1)) - 1 +
        (length+1) % 2^(Nat.log 2 (length+1)) % 2^(Nat.log 2 (length+1)) := rfl
  rw [hnew,hd,Nat.mod_mod,hmod]
  omega

theorem rootFrom12List_spec (hlt : keys.length+1 < 2^32) :
    (∃ n, Balanced .black n (rootFrom12List (base1_2List_new keys.length) keys)) ∧
      (rootFrom12List (base1_2List_new keys.length) keys).entries = keys := by
  have hlen := digitsLength_base1_2List_new hlt
  have h := attachPennants_spec keys (base1_2List_new keys.length).bits
    (base1_2List_new keys.length).count (Nat.le_of_eq hlen)
  rw [hlen,List.take_length] at h
  exact ⟨⟨_,h.1⟩,h.2⟩

end

def sortedKeyList (cmp : κ → κ → Ordering) (dictionary : List (κ × α)) :
    Except NSException (List (κ × α)) :=
  let sorted := dictionary.mergeSort (fun a b => (cmp a.1 b.1).isLE)
  if sorted.IsChain (fun a b => cmp a.1 b.1 = .lt) then .ok sorted
  else .error ⟨"NSInvalidArgumentException",
    "Can't create FImmutableSortedDictionary with keys with same ordering!"⟩

/-- `dictionary` lists the entries of an `NSDictionary` in any order. -/
def fromDictionary (cmp : κ → κ → Ordering) (dictionary : List (κ × α)) :
    Except NSException (FLLRBNode κ α) := do
  let keys ← sortedKeyList cmp dictionary
  return rootFrom12List (base1_2List_new keys.length) keys

section
variable {cmp : κ → κ → Ordering} [Std.TransCmp cmp] {dictionary keys : List (κ × α)}

def Distinguished (cmp : κ → κ → Ordering) (cs : List (κ × α)) : Prop :=
  cs.Pairwise (fun a b => cmp a.1 b.1 ≠ .eq)

theorem sortedKeyList_of_distinguished (h : Distinguished cmp dictionary) :
    ∃ keys, sortedKeyList cmp dictionary = .ok keys ∧ Ascending cmp keys ∧
      keys.Perm dictionary := by
  have hperm := List.mergeSort_perm dictionary (fun a b => (cmp a.1 b.1).isLE)
  have htotal : ∀ a b : κ × α, (cmp a.1 b.1).isLE || (cmp b.1 a.1).isLE := by
    intro a b
    rw [Bool.or_eq_true,← Std.OrientedCmp.isGE_iff_isLE (a := a.1)]
    cases cmp a.1 b.1 <;> simp
  have hle : (dictionary.mergeSort (fun a b => (cmp a.1 b.1).isLE)).Pairwise
      (fun a b => (cmp a.1 b.1).isLE) :=
    List.pairwise_mergeSort (fun _ _ _ => Std.TransCmp.isLE_trans) htotal dictionary
  have hne : Distinguished cmp (dictionary.mergeSort (fun a b => (cmp a.1 b.1).isLE)) :=
    (hperm.pairwise_iff (fun h he => h (Std.OrientedCmp.eq_symm he))).mpr h
  have hs : Ascending cmp (dictionary.mergeSort (fun a b => (cmp a.1 b.1).isLE)) :=
    (hle.and hne).imp (fun hab => (Ordering.isLE_iff_eq_lt_or_eq_eq.mp hab.1).resolve_right hab.2)
  exact ⟨_,if_pos hs.isChain,hs,hperm⟩

theorem fromDictionary_of_distinguished (hlt : dictionary.length+1 < 2^32)
    (h : Distinguished cmp dictionary) :
    ∃ root, fromDictionary cmp dictionary = .ok root ∧ (∃ n, Balanced .black n root) ∧
      Ascending cmp root.entries ∧ root.entries.Perm dictionary := by
  obtain ⟨keys,hk,hs,hp⟩ := sortedKeyList_of_distinguished h
  obtain ⟨hb,he⟩ := rootFrom12List_spec (hp.length_eq ▸ hlt)
  refine ⟨rootFrom12List (base1_2List_new keys.length) keys,?_,hb,he.symm ▸ hs,he.symm ▸ hp⟩
  rw [fromDictionary,hk]
  rfl

end

end FLLRBNode

end GFLGO
