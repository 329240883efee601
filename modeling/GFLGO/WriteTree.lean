import GFLGO.CompoundWrite

/-!
`FWriteTree`: the pending writes of a client, all of them in order and the
visible ones as one tree. The tree is changed write by write, also when one of
them is acknowledged, and rebuilt only where writes overlap.
-/

set_option autoImplicit false

namespace GFLGO

open SortedEntries Overlay FCompoundWrite FImmutableTree

inductive WriteData (κ ν : Type) where
  | overwrite (node : PathTree κ ν)
  | merge (changedChildren : FCompoundWrite κ ν)

structure FWriteRecord (κ ν : Type) where
  writeId : Int
  path : List κ
  data : WriteData κ ν
  visible : Bool

structure FWriteTree (κ ν : Type) where
  visibleWrites : FCompoundWrite κ ν
  allWrites : List (FWriteRecord κ ν)
  lastWriteId : Int

namespace FWriteTree

variable {κ ν : Type} [DecidableEq κ] [KeyOrder κ] (cmp : κ → κ → Ordering)

def init : FWriteTree κ ν := { visibleWrites := emptyWrite, allWrites := [], lastWriteId := -1 }

def addOverwrite (t : FWriteTree κ ν) (path : List κ) (newData : PathTree κ ν) (writeId : Int)
    (visible : Bool) : FWriteTree κ ν :=
  { visibleWrites :=
      if visible then addWrite cmp t.visibleWrites path newData else t.visibleWrites
    allWrites := t.allWrites ++ [⟨writeId,path,.overwrite newData,visible⟩]
    lastWriteId := writeId }

def addMerge (t : FWriteTree κ ν) (path : List κ) (changedChildren : FCompoundWrite κ ν)
    (writeId : Int) : FWriteTree κ ν :=
  { visibleWrites := addCompoundWrite cmp t.visibleWrites changedChildren path
    allWrites := t.allWrites ++ [⟨writeId,path,.merge changedChildren,true⟩]
    lastWriteId := writeId }

def recordContainsPath (record : FWriteRecord κ ν) (path : List κ) : Bool :=
  match record.data with
  | .overwrite _ => record.path <+: path
  | .merge merge => merge.forEach.any (fun e => record.path ++ e.1 <+: path)

/-- One record of `layerTreeFromWrites:filter:treeRoot:`. -/
def layerWrite (treeRoot : List κ) (compoundWrite : FCompoundWrite κ ν)
    (record : FWriteRecord κ ν) : FCompoundWrite κ ν :=
  match record.data with
  | .overwrite overwrite =>
    if treeRoot <+: record.path then
      addWrite cmp compoundWrite (record.path.drop treeRoot.length) overwrite
    else if record.path <+: treeRoot then
      addWrite cmp compoundWrite [] (overwrite.getChild (treeRoot.drop record.path.length))
    else compoundWrite
  | .merge merge =>
    if treeRoot <+: record.path then
      addCompoundWrite cmp compoundWrite merge (record.path.drop treeRoot.length)
    else if record.path <+: treeRoot then
      let relativePath := treeRoot.drop record.path.length
      if relativePath = [] then addCompoundWrite cmp compoundWrite merge []
      else
        match completeNodeAtPath cmp merge relativePath with
        | some child => addWrite cmp compoundWrite [] (child.getChild relativePath.tail)
        | none => compoundWrite
    else compoundWrite

def layerTreeFromWrites (writes : List (FWriteRecord κ ν)) (filter : FWriteRecord κ ν → Bool)
    (treeRoot : List κ) : FCompoundWrite κ ν :=
  writes.foldl
    (fun compoundWrite record =>
      if filter record then layerWrite cmp treeRoot compoundWrite record else compoundWrite)
    emptyWrite

/-- It keeps everything, what is not visible included. -/
def defaultFilter (_ : FWriteRecord κ ν) : Bool := true

def resetTree (t : FWriteTree κ ν) : FWriteTree κ ν :=
  { visibleWrites := layerTreeFromWrites cmp t.allWrites defaultFilter []
    allWrites := t.allWrites
    lastWriteId := (t.allWrites.getLast?.map (·.writeId)).getD (-1) }

/-- The loop of `removeWriteId:` over the other writes, from the last on: whether the removed
write is still taken for visible, and whether it overlaps with another. -/
def shadowing (writeToRemove : FWriteRecord κ ν) (index : Nat) :
    List (FWriteRecord κ ν × Nat) → Bool × Bool → Bool × Bool
  | [], found => found
  | (currentWrite,i) :: writes, (visible,overlaps) =>
    if visible then
      if currentWrite.visible then
        if index ≤ i && recordContainsPath currentWrite writeToRemove.path then
          shadowing writeToRemove index writes (false,overlaps)
        else if writeToRemove.path <+: currentWrite.path then
          shadowing writeToRemove index writes (true,true)
        else shadowing writeToRemove index writes (true,overlaps)
      else shadowing writeToRemove index writes (true,overlaps)
    else (false,overlaps)

/-- The writes without the removed one, and whether it may have been seen. There is no result
when no write has the id. -/
def removeWriteId (t : FWriteTree κ ν) (writeId : Int) : Option (FWriteTree κ ν × Bool) :=
  match t.allWrites.findIdx? (fun record => record.writeId == writeId) with
  | none => none
  | some index =>
    match t.allWrites[index]? with
    | none => none
    | some writeToRemove =>
      let t := { t with allWrites := t.allWrites.eraseIdx index }
      let (visible,overlaps) := shadowing writeToRemove index t.allWrites.zipIdx.reverse
        (writeToRemove.visible,false)
      if !visible then some (t,false)
      else if overlaps then some (resetTree cmp t,true)
      else
        let visibleWrites :=
          match writeToRemove.data with
          | .overwrite _ => removeWriteAtPath cmp t.visibleWrites writeToRemove.path
          | .merge merge => merge.forEach.foldl (fun writes e =>
              removeWriteAtPath cmp writes (writeToRemove.path ++ e.1)) t.visibleWrites
        some ({ t with visibleWrites := visibleWrites },true)

def removeAllWrites (t : FWriteTree κ ν) : FWriteTree κ ν × List (FWriteRecord κ ν) :=
  ({ t with visibleWrites := emptyWrite, allWrites := [] },t.allWrites)

/-- The filter of `calculateCompleteEventCacheAtPath:`. `writeIdsToExclude` is `none` for `nil`. -/
def cacheFilter (treePath : List κ) (writeIdsToExclude : Option (List Int))
    (includeHiddenWrites : Bool) (record : FWriteRecord κ ν) : Bool :=
  (record.visible || includeHiddenWrites) &&
    (writeIdsToExclude.isNone || !(writeIdsToExclude.getD []).contains record.writeId) &&
    (record.path <+: treePath || treePath <+: record.path)

def calculateCompleteEventCache (t : FWriteTree κ ν) (treePath : List κ)
    (completeServerCache : Option (PathTree κ ν)) (writeIdsToExclude : Option (List Int))
    (includeHiddenWrites : Bool) : Option (PathTree κ ν) :=
  if writeIdsToExclude.isNone && !includeHiddenWrites then
    match completeNodeAtPath cmp t.visibleWrites treePath with
    | some shadowingNode => some shadowingNode
    | none =>
      let subMerge := childCompoundWriteAtPath cmp t.visibleWrites treePath
      if subMerge.isEmpty then completeServerCache
      else if completeServerCache.isNone && !hasCompleteWriteAtPath cmp subMerge [] then none
      else some (applyToNode subMerge (completeServerCache.getD PathTree.empty))
  else
    let merge := childCompoundWriteAtPath cmp t.visibleWrites treePath
    if !includeHiddenWrites && merge.isEmpty then completeServerCache
    else if !includeHiddenWrites && completeServerCache.isNone &&
        !hasCompleteWriteAtPath cmp merge [] then none
    else
      let mergeAtPath := layerTreeFromWrites cmp t.allWrites
        (cacheFilter treePath writeIdsToExclude includeHiddenWrites) treePath
      some (applyToNode mergeAtPath (completeServerCache.getD PathTree.empty))

end FWriteTree

end GFLGO
