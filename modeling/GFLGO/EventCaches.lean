import GFLGO.Database
import GFLGO.PendingWrites

/-!
What listeners are shown while writes are outstanding.
-/

set_option autoImplicit false

namespace GFLGO

open SortedEntries Overlay FCompoundWrite FImmutableTree FWriteTree

namespace FRepo

open RepoEvent

variable {κ ν : Type} [DecidableEq κ] [KeyOrder κ] {cmp : κ → κ → Ordering}
  [Std.LawfulEqCmp cmp]

theorem leaf?_applyToNode_child {W : FCompoundWrite κ ν} {ws : List (List κ × PathTree κ ν)}
    (ho : Ordered cmp W) (hc : ∀ p, completeNodeAtPath cmp W p = overlay ws p)
    {store : PathTree κ ν} (hf : Compatible (overlay ws) store) (p q : List κ) :
    leaf? ((applyToNode (childCompoundWriteAtPath cmp W p) (store.getChild p)).getChild q) =
      leaf? ((replay ws store).getChild (p ++ q)) :=
  leaf?_applyToNode (ordered_childCompoundWriteAtPath ho p)
    (fun q => by rw [completeNodeAtPath_childCompoundWriteAtPath,hc]) hf q

theorem applyToNode_of_isEmpty {W : FCompoundWrite κ ν} (h : W.isEmpty = true)
    (n : PathTree κ ν) : applyToNode W n = n := by
  rw [FImmutableTree.isEmpty_iff.mp h]
  rfl

/-- What is shown when the server data is known: the outstanding writes on top of it. -/
theorem calculateCompleteEventCache_of_complete {t : FWriteTree κ ν}
    {ws : List (List κ × PathTree κ ν)} (ho : Ordered cmp t.visibleWrites)
    (hc : ∀ p, completeNodeAtPath cmp t.visibleWrites p = overlay ws p) {store : PathTree κ ν}
    (hf : Compatible (overlay ws) store) (treePath : List κ) :
    ∃ n, t.calculateCompleteEventCache cmp treePath (some (store.getChild treePath)) none false =
        some n ∧
      ∀ q, leaf? (n.getChild q) = leaf? ((replay ws store).getChild (treePath ++ q)) := by
  have hvals := leaf?_applyToNode_child ho hc hf treePath
  rw [calculateCompleteEventCache]
  simp only [Option.isNone_none,Bool.not_false,Bool.and_self,if_true,Option.isNone_some,
    Bool.false_and,Bool.false_eq_true,if_false,Option.getD_some]
  cases hs : completeNodeAtPath cmp t.visibleWrites treePath with
  | some m =>
    refine ⟨m,rfl,fun q => ?_⟩
    have hq := completeNodeAtPath_append hs q
    rw [hc] at hq
    rw [getChild_replay hq]
  | none =>
    simp only []
    split
    · next hempty => exact ⟨_,rfl,fun q => by rw [← hvals,applyToNode_of_isEmpty hempty]⟩
    · exact ⟨_,rfl,hvals⟩

variable [Std.TransCmp cmp]

def Overwrites : RepoEvent κ ν → Prop
  | .update _ _ => False
  | _ => True

omit [DecidableEq κ] [KeyOrder κ] in
theorem Overwrites.shallow {e : RepoEvent κ ν} (he : Overwrites e) : e.Shallow := by
  cases e with
  | update path nodes => exact he.elim
  | _ => trivial

end FRepo

end GFLGO
