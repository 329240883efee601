import GFLGO.Database
import GFLGO.DictionaryRuns

/-!
`+[FUtilities compareKey:toKey:]` as the comparator of a sorted dictionary. It
orders all keys, but takes two spellings of zero for the same.
-/

set_option autoImplicit false

namespace GFLGO

open SortedEntries

theorem compareKey_int_int {a b : String} {m n : Int}
    (ha : tryParseStringToInt a.toList = some m) (hb : tryParseStringToInt b.toList = some n) :
    compareKey a b = (compare m n).then (compare a.length b.length) := by
  rw [compareKey,ha,hb]

theorem compareKey_int_other {a b : String} {m : Int}
    (ha : tryParseStringToInt a.toList = some m) (hb : tryParseStringToInt b.toList = none) :
    compareKey a b = .lt := by
  rw [compareKey,ha,hb]

theorem compareKey_other_int {a b : String} {n : Int}
    (ha : tryParseStringToInt a.toList = none) (hb : tryParseStringToInt b.toList = some n) :
    compareKey a b = .gt := by
  rw [compareKey,ha,hb]

theorem compareKey_other_other {a b : String}
    (ha : tryParseStringToInt a.toList = none) (hb : tryParseStringToInt b.toList = none) :
    compareKey a b = compare (a.toList.map Char.toNat) (b.toList.map Char.toNat) := by
  rw [compareKey,ha,hb]

/-- How two integer keys are compared: by value, then by length. -/
def compareInt : Int × Nat → Int × Nat → Ordering :=
  compareLex (compareOn Prod.fst) (compareOn Prod.snd)

instance : Std.TransCmp compareInt :=
  inferInstanceAs (Std.TransCmp (compareLex (compareOn Prod.fst) (compareOn Prod.snd)))

theorem compareInt_swap (x y : Int × Nat) : compareInt x y = (compareInt y x).swap :=
  Std.OrientedCmp.eq_swap

theorem compareInt_trans {x y z : Int × Nat} (h : (compareInt x y).isLE)
    (h' : (compareInt y z).isLE) : (compareInt x z).isLE := Std.TransCmp.isLE_trans h h'

instance : Std.TransCmp compareKey where
  eq_swap := by
    intro a b
    cases ha : tryParseStringToInt a.toList with
    | some m =>
      cases hb : tryParseStringToInt b.toList with
      | some n =>
        rw [compareKey_int_int ha hb,compareKey_int_int hb ha]
        exact compareInt_swap (m,a.length) (n,b.length)
      | none => rw [compareKey_int_other ha hb,compareKey_other_int hb ha]; rfl
    | none =>
      cases hb : tryParseStringToInt b.toList with
      | some n => rw [compareKey_other_int ha hb,compareKey_int_other hb ha]; rfl
      | none =>
        rw [compareKey_other_other ha hb,compareKey_other_other hb ha]
        exact Std.OrientedOrd.eq_swap
  isLE_trans := by
    intro a b c hab hbc
    cases ha : tryParseStringToInt a.toList with
    | some m =>
      cases hc : tryParseStringToInt c.toList with
      | none => rw [compareKey_int_other ha hc]; rfl
      | some p =>
        cases hb : tryParseStringToInt b.toList with
        | none => simp [compareKey_other_int hb hc] at hbc
        | some n =>
          rw [compareKey_int_int ha hb] at hab
          rw [compareKey_int_int hb hc] at hbc
          rw [compareKey_int_int ha hc]
          exact compareInt_trans (x := (m,a.length)) (y := (n,b.length)) (z := (p,c.length))
            hab hbc
    | none =>
      cases hb : tryParseStringToInt b.toList with
      | some n => simp [compareKey_other_int ha hb] at hab
      | none =>
        cases hc : tryParseStringToInt c.toList with
        | some p => simp [compareKey_other_int hb hc] at hbc
        | none =>
          rw [compareKey_other_other ha hb] at hab
          rw [compareKey_other_other hb hc] at hbc
          rw [compareKey_other_other ha hc]
          exact Std.TransOrd.isLE_trans hab hbc

theorem digit_sub_lt {c : Char} (h : c.isDigit = true) : c.toNat - '0'.toNat < 10 := by
  obtain ⟨-,hle⟩ := Char.isDigit_iff_toNat.mp h
  have h0 : '0'.toNat = 48 := rfl
  have h9 : '9'.toNat = 57 := rfl
  omega

theorem digit_eq {c d : Char} (hc : c.isDigit = true) (hd : d.isDigit = true)
    (h : c.toNat - '0'.toNat = d.toNat - '0'.toNat) : c = d := by
  obtain ⟨hc',-⟩ := Char.isDigit_iff_toNat.mp hc
  obtain ⟨hd',-⟩ := Char.isDigit_iff_toNat.mp hd
  have h0 : '0'.toNat = 48 := rfl
  exact Char.toNat_inj.mp (by omega)

theorem ofDigitChars_inj {as bs : List Char} {i j : Nat} (hl : as.length = bs.length)
    (ha : as.all Char.isDigit = true) (hb : bs.all Char.isDigit = true)
    (h : Nat.ofDigitChars 10 as i = Nat.ofDigitChars 10 bs j) : as = bs ∧ i = j := by
  induction as generalizing bs i j with
  | nil =>
    obtain rfl := List.length_eq_zero_iff.mp hl.symm
    exact ⟨rfl,h⟩
  | cons a as ih =>
    cases bs with
    | nil => simp at hl
    | cons b bs =>
      simp only [List.all_cons,Bool.and_eq_true] at ha hb
      obtain ⟨he,hij⟩ := ih (by simpa using hl) ha.2 hb.2 h
      change 10 * i + (a.toNat - '0'.toNat) = 10 * j + (b.toNat - '0'.toNat) at hij
      have hla := digit_sub_lt ha.1
      have hlb := digit_sub_lt hb.1
      have hd : a.toNat - '0'.toNat = b.toNat - '0'.toNat := by omega
      exact ⟨by rw [he,digit_eq ha.1 hb.1 hd],by omega⟩

theorem digitsValue_eq_some {cs : List Char} {n : Nat} (h : digitsValue cs = some n) :
    cs ≠ [] ∧ cs.all Char.isDigit = true ∧ Nat.ofDigitChars 10 cs 0 = n := by
  rw [digitsValue] at h
  split at h
  · next hd => exact ⟨hd.1,hd.2,Option.some.inj h⟩
  · cases h

theorem ofDigitChars_replicate_zero (n : Nat) :
    Nat.ofDigitChars 10 (List.replicate n '0') 0 = 0 := by
  induction n with
  | zero => rfl
  | succ n ih => exact ih

theorem all_isDigit_replicate_zero (n : Nat) :
    (List.replicate n '0').all Char.isDigit = true := by
  simp only [List.all_replicate]
  split <;> rfl

theorem eq_replicate_of_zero {cs : List Char} (h : digitsValue cs = some 0) :
    cs = List.replicate cs.length '0' := by
  obtain ⟨-,hd,hz⟩ := digitsValue_eq_some h
  exact (ofDigitChars_inj (by simp) hd (all_isDigit_replicate_zero _)
    (hz.trans (ofDigitChars_replicate_zero _).symm)).1

theorem tryParseStringToInt_cases {s : List Char} {v : Int}
    (h : tryParseStringToInt s = some v) : s.length ≤ 11 ∧
      ((∃ ds n, s = '-' :: ds ∧ digitsValue ds = some n ∧ v = -(n : Int)) ∨
        ∃ n, digitsValue s = some n ∧ v = (n : Int)) := by
  unfold tryParseStringToInt at h
  split at h
  · cases h
  · next hl =>
    refine ⟨by omega,?_⟩
    obtain ⟨hv,-⟩ := Option.filter_eq_some_iff.mp h
    split at hv
    · next ds =>
      cases hd : digitsValue ds with
      | none => simp [hd] at hv
      | some n =>
        rw [hd] at hv
        exact Or.inl ⟨ds,n,rfl,hd,(Option.some.inj hv).symm⟩
    · cases hd : digitsValue s with
      | none => simp [hd] at hv
      | some n =>
        rw [hd] at hv
        exact Or.inr ⟨n,rfl,(Option.some.inj hv).symm⟩

/-- Two spellings of zero with as many characters. -/
def ZeroPair (a b : String) : Prop :=
  ∃ n, 0 < n ∧ n ≤ 10 ∧ a.toList = List.replicate (n+1) '0' ∧
    b.toList = '-' :: List.replicate n '0'

theorem digitsValue_replicate_zero {n : Nat} (h : 0 < n) :
    digitsValue (List.replicate n '0') = some 0 := by
  have hne : List.replicate n '0' ≠ [] := by simpa using Nat.pos_iff_ne_zero.mp h
  rw [digitsValue,if_pos ⟨hne,all_isDigit_replicate_zero n⟩,ofDigitChars_replicate_zero]

theorem compareKey_of_zeroPair {a b : String} (h : ZeroPair a b) : compareKey a b = .eq := by
  obtain ⟨n,hpos,hle,ha,hb⟩ := h
  have hla : a.length = n + 1 := by rw [← String.length_toList,ha]; simp
  have hlb : b.length = n + 1 := by rw [← String.length_toList,hb]; simp
  have hta : tryParseStringToInt a.toList = some 0 := by
    rw [ha,List.replicate_succ]
    have hd := digitsValue_replicate_zero (n := n+1) (by omega)
    rw [List.replicate_succ] at hd
    simp [tryParseStringToInt,hd]
    omega
  have htb : tryParseStringToInt b.toList = some 0 := by
    rw [hb]
    simp [tryParseStringToInt,digitsValue_replicate_zero hpos]
    omega
  rw [compareKey_int_int hta htb,hla,hlb]
  simp [Std.ReflCmp.compare_self]

theorem digitsValue_inj {as bs : List Char} {n : Nat} (hl : as.length = bs.length)
    (ha : digitsValue as = some n) (hb : digitsValue bs = some n) : as = bs := by
  obtain ⟨-,hda,hna⟩ := digitsValue_eq_some ha
  obtain ⟨-,hdb,hnb⟩ := digitsValue_eq_some hb
  exact (ofDigitChars_inj hl hda hdb (hna.trans hnb.symm)).1

theorem zeroPair_of_value {a b : String} {ds : List Char} {m n : Nat} (hb : b.toList = '-' :: ds)
    (hds : digitsValue ds = some m) (ha : digitsValue a.toList = some n)
    (hv : (n : Int) = -(m : Int)) (hl : a.toList.length = b.toList.length)
    (hle : a.toList.length ≤ 11) : ZeroPair a b := by
  obtain rfl : m = 0 := by omega
  obtain rfl : n = 0 := by omega
  have hne : ds.length ≠ 0 := fun h0 =>
    (digitsValue_eq_some hds).1 (List.length_eq_zero_iff.mp h0)
  have hla : a.toList.length = ds.length + 1 := by simp [hl,hb]
  refine ⟨ds.length,by omega,by omega,?_,?_⟩
  · rw [← hla]
    exact eq_replicate_of_zero ha
  · rw [hb,← eq_replicate_of_zero hds]

/-- The comparator takes two keys for the same when they are equal, and when they are the zeros
with and without a minus sign. -/
theorem compareKey_eq_iff (a b : String) :
    compareKey a b = .eq ↔ a = b ∨ ZeroPair a b ∨ ZeroPair b a := by
  constructor
  · intro h
    cases ha : tryParseStringToInt a.toList with
    | none =>
      cases hb : tryParseStringToInt b.toList with
      | some n => simp [compareKey_other_int ha hb] at h
      | none =>
        rw [compareKey_other_other ha hb,Std.LawfulEqOrd.compare_eq_iff_eq] at h
        exact Or.inl (String.toList_inj.mp
          (List.map_injective_iff.mpr (fun c d hcd => Char.toNat_inj.mp hcd) h))
    | some m =>
      cases hb : tryParseStringToInt b.toList with
      | none => simp [compareKey_int_other ha hb] at h
      | some n =>
        rw [compareKey_int_int ha hb,Ordering.then_eq_eq,Std.LawfulEqOrd.compare_eq_iff_eq,
          Std.LawfulEqOrd.compare_eq_iff_eq] at h
        obtain ⟨rfl,hl⟩ := h
        rw [← String.length_toList,← String.length_toList] at hl
        obtain ⟨hla,hca⟩ := tryParseStringToInt_cases ha
        obtain ⟨hlb,hcb⟩ := tryParseStringToInt_cases hb
        rcases hca with ⟨ds,i,hda,hi,hmi⟩ | ⟨i,hi,hmi⟩ <;>
          rcases hcb with ⟨es,j,hdb,hj,hmj⟩ | ⟨j,hj,hmj⟩
        · have hij : i = j := by omega
          rw [hda,hdb] at hl
          have hde := digitsValue_inj (by simpa using hl) hi (hij ▸ hj)
          exact Or.inl (String.toList_inj.mp (by rw [hda,hdb,hde]))
        · exact Or.inr (Or.inr (zeroPair_of_value hda hi hj (by omega) hl.symm hlb))
        · exact Or.inr (Or.inl (zeroPair_of_value hdb hj hi (by omega) hl hla))
        · have hij : i = j := by omega
          exact Or.inl (String.toList_inj.mp (digitsValue_inj hl hi (hij ▸ hj)))
  · rintro (rfl | h | h)
    · exact Std.ReflCmp.compare_self
    · exact compareKey_of_zeroPair h
    · rw [Std.OrientedCmp.eq_comm]
      exact compareKey_of_zeroPair h

theorem compareKey_self (k : String) : compareKey k k = .eq := Std.ReflCmp.compare_self

/-- A key the comparator tells from all others of its kind. A minus sign and zeros is none, and
the priority of a node is not one of its children. -/
def Ordinary (k : String) : Prop :=
  k ≠ ".priority" ∧ ∀ n, 0 < n → n ≤ 10 → k.toList ≠ '-' :: List.replicate n '0'

theorem ordinary_of_head {k : String} (hp : k ≠ ".priority") (h : k.toList.head? ≠ some '-') :
    Ordinary k := by
  refine ⟨hp,fun n _ _ hz => h ?_⟩
  rw [hz]
  rfl

theorem tellsApart_ordinary : DictionaryChange.TellsApart compareKey {k | Ordinary k} := by
  intro j hj k hk h
  rcases (compareKey_eq_iff j k).mp h with he | ⟨n,hn,hle,-,hz⟩ | ⟨n,hn,hle,-,hz⟩
  · exact he
  · exact absurd hz (hk.2 n hn hle)
  · exact absurd hz (hj.2 n hn hle)

section
open Dictionary

variable {α : Type} {S : Set String} {k : String} {cs : List (String × α)}

theorem compareKey_eq_iff_of_mem (ht : DictionaryChange.TellsApart compareKey S) (hk : k ∈ S)
    {j : String} (hj : j ∈ S) : compareKey k j = .eq ↔ k = j := by
  constructor
  · exact ht k hk j hj
  · rintro rfl
    exact compareKey_self k

theorem lookup_eq_find (ht : DictionaryChange.TellsApart compareKey S) (hk : k ∈ S)
    (hw : DictionaryChange.Within S cs) : cs.lookup k = find compareKey k cs := by
  induction cs with
  | nil => rfl
  | cons c cs ih =>
    rw [lookup_cons_ite,find_cons,ih (fun a ha => hw a (List.mem_cons_of_mem _ ha))]
    simp only [compareKey_eq_iff_of_mem ht hk (hw c List.mem_cons_self)]

theorem removeObject_eq_remove (ht : DictionaryChange.TellsApart compareKey S) (hk : k ∈ S)
    (hw : DictionaryChange.Within S cs) : removeObject k cs = remove compareKey k cs := by
  refine List.filter_congr (fun c hc => ?_)
  have hiff := compareKey_eq_iff_of_mem ht hk (hw c hc)
  by_cases he : k = c.1
  · simp [he,compareKey_self]
  · simp [Ne.symm he,mt hiff.mp he]

theorem insertObject_eq_insert (ht : DictionaryChange.TellsApart compareKey S) (hk : k ∈ S) (v : α)
    (hw : DictionaryChange.Within S cs) (hn : k ∉ keys cs) :
    insertObject k v cs = SortedEntries.insert compareKey k v cs := by
  induction cs with
  | nil => rfl
  | cons c cs ih =>
    rw [keys_cons,List.mem_cons,not_or] at hn
    have hi := ih (fun a ha => hw a (List.mem_cons_of_mem _ ha)) hn.2
    rw [SortedEntries.insert] at hi ⊢
    rw [insertObject,upsert,hi]
    cases hc : compareKey k c.1 with
    | lt => simp [KeyOrder.precedes,hc]
    | eq => exact absurd (ht k hk c.1 (hw c List.mem_cons_self) hc) hn.1
    | gt => simp [KeyOrder.precedes,hc]

theorem replace_eq_insert (v : α) (hs : Ascending compareKey cs) (hm : k ∈ keys cs) :
    cs.map (fun c => if c.1 = k then (k,v) else c) =
      SortedEntries.insert compareKey k v cs := by
  induction cs with
  | nil => simp at hm
  | cons c cs ih =>
    obtain ⟨hc,ht'⟩ := List.pairwise_cons.mp hs
    rw [SortedEntries.insert,upsert,List.map_cons]
    by_cases he : c.1 = k
    · have hn : k ∉ keys cs := by
        rintro hmem
        obtain ⟨a,ha,hak⟩ := List.mem_map.mp hmem
        have hlt := hc a ha
        rw [he,hak,compareKey_self] at hlt
        cases hlt
      rw [map_replace_of_not_mem v hn,if_pos he,he,compareKey_self]
      rfl
    · have hmem : k ∈ keys cs := by
        rcases List.mem_cons.mp (keys_cons c cs ▸ hm) with hkc | hkc
        · exact absurd hkc.symm he
        · exact hkc
      obtain ⟨a,ha,hak⟩ := List.mem_map.mp hmem
      have hgt : compareKey k c.1 = .gt := Std.OrientedCmp.gt_of_lt (hak ▸ hc a ha)
      rw [if_neg he,ih ht' hmem,hgt]
      rfl

theorem setObject_eq_insert (ht : DictionaryChange.TellsApart compareKey S) (hk : k ∈ S) (v : α)
    (hw : DictionaryChange.Within S cs) (hs : Ascending compareKey cs) :
    setObject k v cs = SortedEntries.insert compareKey k v cs := by
  unfold setObject
  split
  · next hm => exact replace_eq_insert v hs hm
  · next hm => exact insertObject_eq_insert ht hk v hw hm

end

end GFLGO
