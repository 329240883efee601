import GFLGO.Records
import GFLGO.Scans

/-!
How a record is published: its node first, then one field at a time. A record
that lacks a field is the one some outbox is about to complete.
-/

set_option autoImplicit false

namespace GFLGO

section
variable {K : Type}

/-- The write is the next field of the record under the key. -/
def isFieldOf (coll : String) (fields : List String) (key : String) (x : Write K) : Bool :=
  fields.any (fun f => x.path = [coll,key,f])

def upcoming (coll : String) (fields : List String) (key : String) (ws : List (Write K)) :
    List (Write K) :=
  ws.takeWhile (isFieldOf coll fields key)

def MidRecord (coll : String) (fields : List String) (key f : String) (ws : List (Write K)) :
    Prop :=
  ∃ x ∈ upcoming coll fields key ws, x.path = [coll,key,f]

theorem isFieldOf_iff {coll key : String} {fields : List String} {x : Write K} :
    isFieldOf coll fields key x = true ↔ ∃ f ∈ fields, x.path = [coll,key,f] := by
  simp [isFieldOf]

theorem MidRecord.append {coll key f : String} {fields : List String} {ws : List (Write K)}
    (h : MidRecord coll fields key f ws) (vs : List (Write K)) :
    MidRecord coll fields key f (ws ++ vs) := by
  obtain ⟨x,hx,hf⟩ := h
  refine ⟨x,?_,hf⟩
  unfold upcoming at hx ⊢
  induction ws with
  | nil => simp at hx
  | cons y ws ih =>
    rw [List.cons_append,List.takeWhile_cons]
    rw [List.takeWhile_cons] at hx
    split at hx
    · next hy =>
      rw [if_pos hy]
      rcases List.mem_cons.mp hx with rfl | hrest
      · exact List.mem_cons_self
      · exact List.mem_cons_of_mem _ (ih hrest)
    · simp at hx

theorem MidRecord.head {coll key f : String} {fields : List String} {x : Write K}
    {ws : List (Write K)} (h : MidRecord coll fields key f (x :: ws)) :
    (∃ g ∈ fields, x.path = [coll,key,g]) ∧
      (x.path = [coll,key,f] ∨ MidRecord coll fields key f ws) := by
  obtain ⟨y,hy,hf⟩ := h
  unfold upcoming at hy
  rw [List.takeWhile_cons] at hy
  split at hy
  · next hx =>
    refine ⟨isFieldOf_iff.mp hx,?_⟩
    rcases List.mem_cons.mp hy with rfl | hrest
    · exact Or.inl hf
    · exact Or.inr ⟨y,hrest,hf⟩
  · simp at hy

variable [Field K] [LinearOrder K] [FloorRing K]

/-- The record has the field, with a value of the type its scans cast it to. -/
def Holds (f : String) (node : FNode K) : Prop :=
  if f ∈ ["username","password","name"] then HoldsString f node
  else if f = "totalExp" then HoldsInt f node
  else HoldsNumber f node

theorem Holds.congr {f : String} {node node' : FNode K} (h : Holds f node)
    (he : node'.getImmediateChild f = node.getImmediateChild f) : Holds f node' := by
  simpa only [Holds,HoldsString,HoldsInt,HoldsNumber,asInt,he] using h

/-- A value that makes the record hold the field it is stored in. -/
def Fits (f : String) (v : Value K) : Prop :=
  ∀ node : FNode K, node.getImmediateChild f = .leaf v → Holds f node

/-- An outbox whose records are published in full, over the keys that are there. -/
inductive Outbox (coll : String) (fields : List String) : (String → Prop) → List (Write K) → Prop
  | nil {known : String → Prop} : Outbox coll fields known []
  | other {known : String → Prop} {coll' : String} {path : List String} {node : FNode K}
    {ws : List (Write K)} (hc : coll ≠ coll') (h : Outbox coll fields known ws) :
    Outbox coll fields known (⟨coll' :: path,node⟩ :: ws)
  | node {known : String → Prop} {key : String} {v : Value K} {ws : List (Write K)}
    (hf : ∀ f ∈ fields, MidRecord coll fields key f ws)
    (h : Outbox coll fields (fun k => known k ∨ k = key) ws) :
    Outbox coll fields known (setValue [coll,key] v :: ws)
  | field {known : String → Prop} {key f : String} {v : Value K} {ws : List (Write K)}
    (hk : known key) (hv : f ∈ fields → Fits f v) (h : Outbox coll fields known ws) :
    Outbox coll fields known (setValue [coll,key,f] v :: ws)

section
variable {coll : String} {fields : List String}

theorem Outbox.mono {known known' : String → Prop} {ws : List (Write K)}
    (h : Outbox coll fields known ws) (hk : ∀ key, known key → known' key) :
    Outbox coll fields known' ws := by
  induction h generalizing known' with
  | nil => exact .nil
  | other hc _ ih => exact .other hc (ih hk)
  | node hf _ ih => exact .node hf (ih (fun key h => h.imp (hk key) id))
  | field hkey hv _ ih => exact .field (hk _ hkey) hv (ih hk)

theorem Outbox.append {known : String → Prop} {ws vs : List (Write K)}
    (h : Outbox coll fields known ws) (hv : Outbox coll fields known vs) :
    Outbox coll fields known (ws ++ vs) := by
  induction h with
  | nil => exact hv
  | other hc _ ih => exact .other hc (ih hv)
  | node hf _ ih =>
    exact .node (fun f hm => (hf f hm).append vs) (ih (hv.mono (fun key h => Or.inl h)))
  | field hk hfits _ ih => exact .field hk hfits (ih hv)

/-- Every record has every field, or an outbox is about to store it. -/
def Covered (coll : String) (fields : List String) (store : FNode K)
    (outboxes : Nat → List (Write K)) : Prop :=
  ∀ key ∈ (store.getImmediateChild coll).childKeys, ∀ f ∈ fields,
    Holds f (record coll key store) ∨ ∃ c, MidRecord coll fields key f (outboxes c)

/-- One write out of an outbox: the keys only grow, the records stay covered and
the outbox stays in order. -/
theorem Covered.apply {store : FNode K} {outboxes : Nat → List (Write K)} {c : Nat}
    {x : Write K} {xs : List (Write K)} (hc : Covered coll fields store outboxes)
    (hx : outboxes c = x :: xs)
    (ho : Outbox coll fields (· ∈ (store.getImmediateChild coll).childKeys) (x :: xs)) :
    (∀ key ∈ (store.getImmediateChild coll).childKeys,
        key ∈ ((applyWrite x store).getImmediateChild coll).childKeys) ∧
      Covered coll fields (applyWrite x store) (Function.update outboxes c xs) ∧
      Outbox coll fields (· ∈ ((applyWrite x store).getImmediateChild coll).childKeys) xs := by
  -- what covers a record that the write does not touch
  have hkeep {key f : String} (hmid : ∃ c', MidRecord coll fields key f (outboxes c'))
      (hne : x.path ≠ [coll,key,f]) :
      ∃ c', MidRecord coll fields key f (Function.update outboxes c xs c') := by
    obtain ⟨c',hm⟩ := hmid
    refine ⟨c',?_⟩
    by_cases he : c' = c
    · subst he
      rw [hx] at hm
      simpa using hm.head.2.resolve_left hne
    · simpa [he] using hm
  cases ho with
  | @other _ coll' path node _ hcoll h =>
    have hsame := collection_applyWrite_of_ne store path node hcoll
    refine ⟨fun key hk => hsame ▸ hk,fun key hk f hf => ?_,hsame ▸ h⟩
    rw [hsame] at hk
    rw [record_eq,hsame]
    rcases hc key hk f hf with hold | hmid
    · exact Or.inl hold
    · exact Or.inr (hkeep hmid (by simp [Ne.symm hcoll]))
  | @node _ key₀ v _ hmid h =>
    have hupd := collection_applyWrite store coll key₀ [] (.leaf v)
    have hkeys (key : String) : key ∈ ((applyWrite (setValue [coll,key₀] v)
        store).getImmediateChild coll).childKeys ↔
          key = key₀ ∨ key ∈ (store.getImmediateChild coll).childKeys := by
      rw [setValue,hupd]
      exact PathTree.mem_childKeys_updateImmediateChild rfl
    refine ⟨fun key hk => (hkeys key).mpr (Or.inr hk),fun key hk f hf => ?_,
      h.mono (fun key hk => (hkeys key).mpr hk.symm)⟩
    by_cases hkey : key = key₀
    · subst hkey
      exact Or.inr ⟨c,by simpa using hmid f hf⟩
    · have hold := ((hkeys key).mp hk).resolve_left hkey
      rw [record_eq,setValue,hupd,
        PathTree.getImmediateChild_updateImmediateChild_ne _ _ hkey]
      rcases hc key hold f hf with hold | hm
      · exact Or.inl hold
      · exact Or.inr (hkeep hm (by simp [setValue]))
  | @field _ key₀ f₀ v _ hk₀ hv h =>
    have hupd := collection_applyWrite store coll key₀ [f₀] (.leaf v)
    have hkeys : ((applyWrite (setValue [coll,key₀,f₀] v) store).getImmediateChild
        coll).childKeys = (store.getImmediateChild coll).childKeys := by
      rw [setValue,hupd]
      exact PathTree.childKeys_updateImmediateChild_of_mem
        (PathTree.isEmpty_updateChild _ _ rfl) hk₀
    refine ⟨fun key hk => hkeys ▸ hk,fun key hk f hf => ?_,hkeys ▸ h⟩
    rw [hkeys] at hk
    by_cases hkey : key = key₀
    · subst hkey
      have hrec : record coll key (applyWrite (setValue [coll,key,f₀] v) store) =
          (record coll key store).updateImmediateChild f₀ (.leaf v) := by
        rw [record_eq,setValue,hupd,PathTree.getImmediateChild_updateImmediateChild_self]
        rfl
      rw [hrec]
      by_cases hff : f = f₀
      · subst hff
        exact Or.inl (hv hf _ (PathTree.getImmediateChild_updateImmediateChild_self _ _ _))
      · rcases hc key hk f hf with hold | hm
        · exact Or.inl (hold.congr (PathTree.getImmediateChild_updateImmediateChild_ne _ _ hff))
        · exact Or.inr (hkeep hm (by simpa [setValue] using Ne.symm hff))
    · rw [record_eq,setValue,hupd,
        PathTree.getImmediateChild_updateImmediateChild_ne _ _ hkey]
      rcases hc key hk f hf with hold | hm
      · exact Or.inl hold
      · exact Or.inr (hkeep hm (by simpa [setValue] using fun he => absurd he.symm hkey))

end

end

end GFLGO
