import SocialTimeline.Database.FView
import SocialTimeline.Lib.TSys

/-!
# `FSyncTree`

The pending writes of a client and its view of one location. What the user and the
server do anywhere reaches the view as far as it concerns the location; the events go
to the observers.

The steps of the tree, as the repository of the database takes them, are a transition
system. A step is refused where an assertion fails, or if the processor throws.
-/

namespace SocialTimeline

open Lib Lib.Nested

abbrev Events := List (FEventRegistration × FDataEvent)

/-! ## The view -/

structure FView where
  viewCache : FViewCache
  eventRegistrations : List FEventRegistration

namespace FView

/-- The event cache of a new view, from what the server has and the pending writes. -/
def initialViewCache (writesCache : FWriteTreeRef) (serverCache : FCacheNode) : FViewCache where
  cachedEventSnap :=
    match writesCache.calculateCompleteEventCache serverCache.completeNode with
    | some eventCache => { node := eventCache, isFullyInitialized := true }
    | none =>
        { node := writesCache.calculateCompleteEventChildren serverCache.node
          isFullyInitialized := false }
  cachedServerSnap := serverCache

def applyOperation (view : FView) (operation : FOperation) (writesCache : FWriteTreeRef)
    (optCompleteServerCache : Option Snapshot) :
    Except FirebaseDatabaseInternalError (FView × Events) := do
  let result ← FViewProcessor.applyOperationOn view.viewCache operation writesCache
    optCompleteServerCache
  let events := FEventGenerator.generateEventsForChanges result.changes result.valueChange
    view.eventRegistrations
  return ({ view with viewCache := result.viewCache }, events)

/-- Every child is new to an observer, and the value if there is one. -/
def initialEvents (view : FView) (registration : FEventRegistration) : Events :=
  let eventSnap := view.viewCache.cachedEventSnap
  let initialChanges := eventSnap.node.childKeys.map fun key =>
    FChange.childAdded key (child eventSnap.node key)
  FEventGenerator.generateEventsForChanges initialChanges eventSnap.completeNode [registration]

def addEventRegistration (view : FView) (registration : FEventRegistration) : FView :=
  { view with eventRegistrations := view.eventRegistrations ++ [registration] }

end FView

/-! ## The tree -/

structure FSyncTree where
  pendingWriteTree : FWriteTree Snapshot
  view : Option FView

namespace FSyncTree

def init : FSyncTree where
  pendingWriteTree := .init
  view := none

/-- What is left of an operation where the location of the view is reached, on the path
of the operation or below it. -/
def operationAt : List String → FOperation → Option FOperation
  | [], operation => some operation
  | childKey :: location, operation =>
      if operation.path = [] ∨ operation.path.head? = some childKey then
        (operation.operationForChild childKey).bind (operationAt location)
      else none

section Location

variable (location : List String)

def writesCache (tree : FSyncTree) : FWriteTreeRef where
  path := location
  writeTree := tree.pendingWriteTree

def applyOperationToSyncPoints (tree : FSyncTree) (operation : FOperation) :
    Option (FSyncTree × Events) :=
  match tree.view, operationAt location operation with
  | some view, some operation => do
      let serverCache := view.viewCache.completeServerSnap
      let (view, events) ←
        (view.applyOperation operation (tree.writesCache location) serverCache).toOption
      return ({ tree with view := some view }, events)
  | _, _ => some (tree, [])

def applyUserOverwriteAtPath (tree : FSyncTree) (path : List String) (newData : Snapshot)
    (writeId : Int) (visible : Bool) : Option (FSyncTree × Events) := do
  let pendingWriteTree ← tree.pendingWriteTree.next (.overwrite path newData writeId visible)
  let tree := { tree with pendingWriteTree }
  if visible then tree.applyOperationToSyncPoints location (.overwrite .user path newData)
  else return (tree, [])

def applyUserMergeAtPath (tree : FSyncTree) (path : List String)
    (changedChildren : FCompoundWrite Snapshot) (writeId : Int) : Option (FSyncTree × Events) := do
  let pendingWriteTree ← tree.pendingWriteTree.next (.merge path changedChildren writeId)
  let tree := { tree with pendingWriteTree }
  tree.applyOperationToSyncPoints location (.merge .user path changedChildren)

/-- The paths a write may have changed. -/
def affectedTree : FWriteRecord Snapshot → FImmutableTree Unit
  | .overwrite _ _ _ _ => FImmutableTree.setValue () [] FImmutableTree.empty
  | .merge _ changedChildren _ =>
      changedChildren.writeTree.forEach.foldl
        (fun affectedTree e => FImmutableTree.setValue () e.1 affectedTree) FImmutableTree.empty

def ackUserWriteWithWriteId (tree : FSyncTree) (writeId : Int) (revert : Bool) :
    Option (FSyncTree × Events) := do
  let write ← tree.pendingWriteTree.writeForId writeId
  let (needToReevaluate, pendingWriteTree) ← tree.pendingWriteTree.removeWriteId writeId
  let tree := { tree with pendingWriteTree }
  if needToReevaluate then
    tree.applyOperationToSyncPoints location (.ackUserWrite write.path (affectedTree write) revert)
  else return (tree, [])

def removeAllWrites (tree : FSyncTree) : Option (FSyncTree × Events) :=
  let (removedWrites, pendingWriteTree) := tree.pendingWriteTree.removeAllWrites
  let tree := { tree with pendingWriteTree }
  if removedWrites ≠ [] then
    tree.applyOperationToSyncPoints location
      (.ackUserWrite [] (FImmutableTree.setValue () [] FImmutableTree.empty) true)
  else some (tree, [])

def applyServerOverwriteAtPath (tree : FSyncTree) (path : List String) (newData : Snapshot) :
    Option (FSyncTree × Events) :=
  tree.applyOperationToSyncPoints location (.overwrite .server path newData)

def applyServerMergeAtPath (tree : FSyncTree) (path : List String)
    (changedChildren : FCompoundWrite Snapshot) : Option (FSyncTree × Events) :=
  tree.applyOperationToSyncPoints location (.merge .server path changedChildren)

def applyListenCompleteAtPath (tree : FSyncTree) (path : List String) :
    Option (FSyncTree × Events) :=
  tree.applyOperationToSyncPoints location (.listenComplete path)

/-- The first observer of the location makes the view, of which the server has told
nothing yet. -/
def addEventRegistration (tree : FSyncTree) (registration : FEventRegistration) :
    FSyncTree × Events :=
  let view : FView :=
    tree.view.getD
      { viewCache := FView.initialViewCache (tree.writesCache location)
          { node := empty, isFullyInitialized := false }
        eventRegistrations := [] }
  let view := view.addEventRegistration registration
  ({ tree with view := some view }, view.initialEvents registration)

/-! ## Steps -/

/-- What happens to a tree. -/
inductive Act
  | userOverwrite (path : List String) (newData : Snapshot) (writeId : Int) (visible : Bool)
  | userMerge (path : List String) (changedChildren : FCompoundWrite Snapshot) (writeId : Int)
  | ackUserWrite (writeId : Int) (revert : Bool)
  | removeAllWrites
  | serverOverwrite (path : List String) (newData : Snapshot)
  | serverMerge (path : List String) (changedChildren : FCompoundWrite Snapshot)
  | listenComplete (path : List String)
  | addEventRegistration (registration : FEventRegistration)

/-- The tree after a step, with the events raised. -/
def next (tree : FSyncTree) : Act → Option (FSyncTree × Events)
  | .userOverwrite path newData writeId visible =>
      tree.applyUserOverwriteAtPath location path newData writeId visible
  | .userMerge path changedChildren writeId =>
      tree.applyUserMergeAtPath location path changedChildren writeId
  | .ackUserWrite writeId revert => tree.ackUserWriteWithWriteId location writeId revert
  | .removeAllWrites => tree.removeAllWrites location
  | .serverOverwrite path newData => tree.applyServerOverwriteAtPath location path newData
  | .serverMerge path changedChildren => tree.applyServerMergeAtPath location path changedChildren
  | .listenComplete path => tree.applyListenCompleteAtPath location path
  | .addEventRegistration registration => some (tree.addEventRegistration location registration)

end Location

end FSyncTree

/-- The sync tree of a client, with the view of a location. -/
def syncTree (location : List String) : TSys FSyncTree FSyncTree.Act where
  init := .init
  step tree act := (tree.next location act).map Prod.fst

end SocialTimeline
