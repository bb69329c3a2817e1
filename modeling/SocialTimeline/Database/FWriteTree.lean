import SocialTimeline.Database.FCompoundWrite
import SocialTimeline.Lib.TSys

/-!
# `FWriteTree`

The writes a client has issued and the server has not answered yet. `allWrites` lists
them in the order of issue; `visibleWrites` is the same laid over each other, kept up
to date write by write.

* `removeWriteId` looks at the writes left and rebuilds `visibleWrites` only where the
  removed write overlaps one of them (`removeWriteId_cases`);
* `calculateCompleteEventCacheAtPath` lays the writes over what the server is known to
  have.
-/

namespace SocialTimeline

open Lib Lib.Nested

variable {N : Type} [Nested String N]

/-- A write on its way. A merge is always visible; an overwrite of a transaction need
not be. -/
inductive FWriteRecord (N : Type) [Nested String N]
  | overwrite (path : List String) (newData : N) (writeId : Int) (visible : Bool)
  | merge (path : List String) (changedChildren : FCompoundWrite N) (writeId : Int)

namespace FWriteRecord

def path : FWriteRecord N → List String
  | overwrite path _ _ _ => path
  | merge path _ _ => path

def writeId : FWriteRecord N → Int
  | overwrite _ _ writeId _ => writeId
  | merge _ _ writeId => writeId

def visible : FWriteRecord N → Bool
  | overwrite _ _ _ visible => visible
  | merge _ _ _ => true

/-- `record:containsPath:`. -/
def containsPath (record : FWriteRecord N) (path : List String) : Bool :=
  match record with
  | overwrite recordPath _ _ _ => recordPath.isPrefixOf path
  | merge recordPath changedChildren _ =>
      changedChildren.writeTree.forEach.any fun e => (recordPath ++ e.1).isPrefixOf path

end FWriteRecord

structure FWriteTree (N : Type) [Nested String N] where
  visibleWrites : FCompoundWrite N
  allWrites : List (FWriteRecord N)
  lastWriteId : Int

namespace FWriteTree

def init : FWriteTree N where
  visibleWrites := .emptyWrite
  allWrites := []
  lastWriteId := -1

/-! ## Adding -/

def addOverwriteAtPath (tree : FWriteTree N) (path : List String) (newData : N) (writeId : Int)
    (visible : Bool) : FWriteTree N where
  visibleWrites := if visible then tree.visibleWrites.addWrite newData path else tree.visibleWrites
  allWrites := tree.allWrites ++ [.overwrite path newData writeId visible]
  lastWriteId := writeId

def addMergeAtPath (tree : FWriteTree N) (path : List String) (changedChildren : FCompoundWrite N)
    (writeId : Int) : FWriteTree N where
  visibleWrites := tree.visibleWrites.addCompoundWrite changedChildren path
  allWrites := tree.allWrites ++ [.merge path changedChildren writeId]
  lastWriteId := writeId

/-! ## Layering -/

/-- One turn of the loop of `layerTreeFromWrites:filter:treeRoot:`. -/
def layerWrite (treeRoot : List String) (compoundWrite : FCompoundWrite N) :
    FWriteRecord N → FCompoundWrite N
  | .overwrite writePath newData _ _ =>
      if treeRoot <+: writePath then
        compoundWrite.addWrite newData (writePath.drop treeRoot.length)
      else if writePath <+: treeRoot then
        compoundWrite.addWrite (get (treeRoot.drop writePath.length) newData) []
      else compoundWrite
  | .merge writePath changedChildren _ =>
      if treeRoot <+: writePath then
        compoundWrite.addCompoundWrite changedChildren (writePath.drop treeRoot.length)
      else if writePath <+: treeRoot then
        let relativePath := treeRoot.drop writePath.length
        if relativePath = [] then compoundWrite.addCompoundWrite changedChildren []
        else
          match changedChildren.completeNodeAtPath relativePath with
          -- the node at the path already, gone into once more
          | some child => compoundWrite.addWrite (get relativePath.tail child) []
          | none => compoundWrite
      else compoundWrite

def layerTreeFromWrites (writes : List (FWriteRecord N)) (filter : FWriteRecord N → Bool)
    (treeRoot : List String) : FCompoundWrite N :=
  (writes.filter filter).foldl (layerWrite treeRoot) .emptyWrite

/-- "Keep everything that's visible": everything. -/
def defaultFilter (_ : FWriteRecord N) : Bool := true

/-- "Re-layer the writes and merges into a tree." -/
def resetTree (tree : FWriteTree N) : FWriteTree N where
  visibleWrites := layerTreeFromWrites tree.allWrites defaultFilter []
  allWrites := tree.allWrites
  lastWriteId := (tree.allWrites.getLast?.map FWriteRecord.writeId).getD (-1)

/-! ## Removing -/

def writeForId (tree : FWriteTree N) (writeId : Int) : Option (FWriteRecord N) :=
  tree.allWrites.find? fun record => record.writeId = writeId

/-- The loop over the writes left, with their indices from the last down: whether the
removed write was visible, and whether it overlaps another. -/
def overlapping (index : Nat) (writeToRemove : FWriteRecord N) :
    List (FWriteRecord N × Nat) → Bool → Bool → Bool × Bool
  | [], removedWriteWasVisible, overlaps => (removedWriteWasVisible, overlaps)
  | (currentWrite, i) :: writes, removedWriteWasVisible, overlaps =>
      if removedWriteWasVisible then
        if currentWrite.visible then
          if index ≤ i ∧ currentWrite.containsPath writeToRemove.path then
            -- shadowed by a subsequent write
            overlapping index writeToRemove writes false overlaps
          else if writeToRemove.path <+: currentWrite.path then
            overlapping index writeToRemove writes removedWriteWasVisible true
          else overlapping index writeToRemove writes removedWriteWasVisible overlaps
        else overlapping index writeToRemove writes removedWriteWasVisible overlaps
      else (removedWriteWasVisible, overlaps)

/-- Take the writes of a record out of a tree. -/
def removeWrite (visibleWrites : FCompoundWrite N) : FWriteRecord N → FCompoundWrite N
  | .overwrite path _ _ _ => visibleWrites.removeWriteAtPath path
  | .merge path changedChildren _ =>
      changedChildren.writeTree.forEach.foldl
        (fun visibleWrites e => visibleWrites.removeWriteAtPath (path ++ e.1)) visibleWrites

/-- Whether the views need to be looked at again, and the tree without the write. There
is none without such a write. -/
def removeWriteId (tree : FWriteTree N) (writeId : Int) : Option (Bool × FWriteTree N) := do
  let index ← tree.allWrites.findIdx? fun record => record.writeId = writeId
  let writeToRemove ← tree.allWrites[index]?
  let allWrites := tree.allWrites.eraseIdx index
  let (removedWriteWasVisible, overlaps) :=
    overlapping index writeToRemove allWrites.zipIdx.reverse writeToRemove.visible false
  if !removedWriteWasVisible then return (false, { tree with allWrites })
  else if overlaps then return (true, resetTree { tree with allWrites })
  else
    return (true, { tree with
      visibleWrites := removeWrite tree.visibleWrites writeToRemove
      allWrites })

def removeAllWrites (tree : FWriteTree N) : List (FWriteRecord N) × FWriteTree N :=
  (tree.allWrites, { tree with visibleWrites := .emptyWrite, allWrites := [] })

/-! ## Reading -/

def calculateCompleteEventCacheAtPath (tree : FWriteTree N) (treePath : List String)
    (completeServerCache : Option N) (writeIdsToExclude : Option (List Int))
    (includeHiddenWrites : Bool) : Option N :=
  let merge := tree.visibleWrites.childCompoundWriteAtPath treePath
  if writeIdsToExclude = none ∧ includeHiddenWrites = false then
    match tree.visibleWrites.completeNodeAtPath treePath with
    | some shadowingNode => some shadowingNode
    | none =>
        if merge.isEmpty then completeServerCache
        else if completeServerCache.isNone ∧ !merge.hasCompleteWriteAtPath [] then none
        else some (merge.applyToNode (completeServerCache.getD empty))
  else if !includeHiddenWrites ∧ merge.isEmpty then completeServerCache
  else if !includeHiddenWrites ∧ completeServerCache.isNone ∧ !merge.hasCompleteWriteAtPath [] then
    none
  else
    let filter := fun record : FWriteRecord N =>
      (record.visible || includeHiddenWrites) &&
        !(writeIdsToExclude.getD []).contains record.writeId &&
        (record.path.isPrefixOf treePath || treePath.isPrefixOf record.path)
    let mergeAtPath := layerTreeFromWrites tree.allWrites filter treePath
    some (mergeAtPath.applyToNode (completeServerCache.getD empty))

/-- What to show at a child path after the server has changed it; nothing new where a
write shadows it. -/
def calculateEventCacheAfterServerOverwriteAtPath (tree : FWriteTree N)
    (treePath childPath : List String) (existingServerSnap : N) : Option N :=
  let path := treePath ++ childPath
  if tree.visibleWrites.hasCompleteWriteAtPath path then none
  else
    let childMerge := tree.visibleWrites.childCompoundWriteAtPath path
    if childMerge.isEmpty then some (get childPath existingServerSnap)
    else some (childMerge.applyToNode (get childPath existingServerSnap))

def shadowingWriteAtPath (tree : FWriteTree N) (path : List String) : Option N :=
  tree.visibleWrites.completeNodeAtPath path

/-! ## Steps -/

/-- What happens to the tree: writes are issued, answered one by one, and given up all
together. -/
inductive Act (N : Type) [Nested String N]
  | overwrite (path : List String) (newData : N) (writeId : Int) (visible : Bool)
  | merge (path : List String) (changedChildren : FCompoundWrite N) (writeId : Int)
  | remove (writeId : Int)
  | removeAll

/-- A newer write stacks on top of the older ones, by assertion. -/
def next (tree : FWriteTree N) : Act N → Option (FWriteTree N)
  | .overwrite path newData writeId visible =>
      if tree.lastWriteId < writeId then
        some (tree.addOverwriteAtPath path newData writeId visible)
      else none
  | .merge path changedChildren writeId =>
      if tree.lastWriteId < writeId then some (tree.addMergeAtPath path changedChildren writeId)
      else none
  | .remove writeId => (tree.removeWriteId writeId).map Prod.snd
  | .removeAll => some tree.removeAllWrites.2

def writeTree : TSys (FWriteTree N) (Act N) where
  init := init
  step := next

end FWriteTree

end SocialTimeline
