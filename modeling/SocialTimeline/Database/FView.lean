import SocialTimeline.Database.Changes
import SocialTimeline.Database.FWriteTree

/-!
# `FView`

A view of a whole location: what the server is known to have there, and what the
observers are shown, which is that with the pending writes laid over it. Operations come
from the user, from the server, and from the answers to writes; `FViewProcessor` brings
both sides up to date and `FView` raises the events.

Both sides know whether they are complete. Before the first data of the server is there,
the shown side holds what the writes alone tell.
-/

namespace SocialTimeline

open Lib Lib.Nested

/-! ## Caches -/

structure FCacheNode where
  node : Snapshot
  isFullyInitialized : Bool

namespace FCacheNode

def isCompleteForChild (cache : FCacheNode) (childKey : String) : Bool :=
  cache.isFullyInitialized || cache.node.hasChild childKey

def isCompleteForPath (cache : FCacheNode) : List String → Bool
  | [] => cache.isFullyInitialized
  | childKey :: _ => cache.isCompleteForChild childKey

/-- The node, where it is all there is. -/
def completeNode (cache : FCacheNode) : Option Snapshot :=
  if cache.isFullyInitialized then some cache.node else none

end FCacheNode

structure FViewCache where
  cachedEventSnap : FCacheNode
  cachedServerSnap : FCacheNode

namespace FViewCache

def completeEventSnap (viewCache : FViewCache) : Option Snapshot :=
  viewCache.cachedEventSnap.completeNode

def completeServerSnap (viewCache : FViewCache) : Option Snapshot :=
  viewCache.cachedServerSnap.completeNode

end FViewCache

/-! ## The pending writes at a location -/

namespace FCompoundWrite

/-- The children that a write, or a part of one, replaces. -/
def completeChildren (write : FCompoundWrite Snapshot) : List (String × Snapshot) :=
  match write.writeTree.value with
  | some node => node.childKeys.map fun childKey => (childKey, child node childKey)
  | none => write.writeTree.children.filterMap fun e => e.2.value.map fun node => (e.1, node)

end FCompoundWrite

/-- Children put together to a snapshot. -/
def updateChildren (node : Snapshot) (children : List (String × Snapshot)) : Snapshot :=
  children.foldl (fun node e => Nested.setChild node e.1 e.2) node

structure FWriteTreeRef where
  path : List String
  writeTree : FWriteTree Snapshot

namespace FWriteTreeRef

def calculateCompleteEventCache (writesCache : FWriteTreeRef)
    (completeServerCache : Option Snapshot) : Option Snapshot :=
  writesCache.writeTree.calculateCompleteEventCacheAtPath writesCache.path completeServerCache
    none false

/-- The children there is complete data for. -/
def calculateCompleteEventChildren (writesCache : FWriteTreeRef)
    (completeServerChildren : Snapshot) : Snapshot :=
  let visibleWrites := writesCache.writeTree.visibleWrites
  match visibleWrites.completeNodeAtPath writesCache.path with
  | some topLevelSet =>
      if topLevelSet.isLeafNode then Nested.empty
      else
        updateChildren Nested.empty
          (topLevelSet.childKeys.map fun key => (key, child topLevelSet key))
  | none =>
      let merge := visibleWrites.childCompoundWriteAtPath writesCache.path
      let completeChildren := updateChildren Nested.empty
        (completeServerChildren.childKeys.map fun key =>
          (key, (merge.childCompoundWriteAtPath [key]).applyToNode
            (child completeServerChildren key)))
      updateChildren completeChildren merge.completeChildren

def calculateEventCacheAfterServerOverwrite (writesCache : FWriteTreeRef)
    (childPath : List String) (existingServerSnap : Snapshot) : Option Snapshot :=
  writesCache.writeTree.calculateEventCacheAfterServerOverwriteAtPath writesCache.path childPath
    existingServerSnap

def shadowingWriteAtPath (writesCache : FWriteTreeRef) (path : List String) : Option Snapshot :=
  writesCache.writeTree.shadowingWriteAtPath (writesCache.path ++ path)

def calculateCompleteChild (writesCache : FWriteTreeRef) (childKey : String)
    (existingServerCache : FCacheNode) : Option Snapshot :=
  let path := writesCache.path ++ [childKey]
  let visibleWrites := writesCache.writeTree.visibleWrites
  match visibleWrites.completeNodeAtPath path with
  | some shadowingNode => some shadowingNode
  | none =>
      if existingServerCache.isCompleteForChild childKey then
        some ((visibleWrites.childCompoundWriteAtPath path).applyToNode
          (child existingServerCache.node childKey))
      else none

end FWriteTreeRef

/-! ## Operations -/

inductive FOperationSource
  | user
  | server
  deriving DecidableEq

inductive FOperation
  | overwrite (source : FOperationSource) (path : List String) (snap : Snapshot)
  | merge (source : FOperationSource) (path : List String) (children : FCompoundWrite Snapshot)
  | ackUserWrite (path : List String) (affectedTree : FImmutableTree Unit) (revert : Bool)
  | listenComplete (path : List String)

namespace FOperation

def path : FOperation → List String
  | overwrite _ path _ => path
  | merge _ path _ => path
  | ackUserWrite path _ _ => path
  | listenComplete path => path

/-- What is left of an operation for a child, on its path or below it. -/
def operationForChild (childKey : String) : FOperation → Option FOperation
  | overwrite source [] snap => some (overwrite source [] (child snap childKey))
  | overwrite source (_ :: path) snap => some (overwrite source path snap)
  | merge source [] children =>
      let childTree := children.childCompoundWriteAtPath [childKey]
      if childTree.isEmpty then none
      else
        match childTree.rootWrite with
        | some snap => some (overwrite source [] snap)
        | none => some (merge source [] childTree)
  | merge source (_ :: path) children => some (merge source path children)
  | ackUserWrite [] affectedTree revert =>
      if affectedTree.value.isSome then some (ackUserWrite [] affectedTree revert)
      else some (ackUserWrite [] (FImmutableTree.subtreeAtPath [childKey] affectedTree) revert)
  | ackUserWrite (_ :: path) affectedTree revert => some (ackUserWrite path affectedTree revert)
  | listenComplete path => some (listenComplete path.tail)

end FOperation

/-! ## The processor

Each step comes with the changes it tracks. -/

namespace FViewProcessor

/-- One step after another, with the changes of all. -/
def thenApply {α : Type} (step : FViewCache → α → FViewCache × List FChange)
    (viewCache : FViewCache) : List α → FViewCache × List FChange
  | [] => (viewCache, [])
  | a :: as =>
      let (viewCache, changes) := step viewCache a
      let (viewCache, changes') := thenApply step viewCache as
      (viewCache, changes ++ changes')

/-- `completeChild:` of the write tree source. -/
def completeChild (writesCache : FWriteTreeRef) (viewCache : FViewCache)
    (optCompleteServerCache : Option Snapshot) (childKey : String) : Option Snapshot :=
  let node := viewCache.cachedEventSnap
  if node.isCompleteForChild childKey then some (child node.node childKey)
  else
    writesCache.calculateCompleteChild childKey
      (match optCompleteServerCache with
      | some serverCache => { node := serverCache, isFullyInitialized := true }
      | none => viewCache.cachedServerSnap)

/-- `newEventChild`, the child after the server has changed something in it. -/
def newEventChild (viewCache : FViewCache) (childKey : String) (childChangePath : List String)
    (writesCache : FWriteTreeRef) : Option Snapshot :=
  let oldEventSnap := viewCache.cachedEventSnap
  if oldEventSnap.isCompleteForChild childKey then
    match writesCache.calculateEventCacheAfterServerOverwrite (childKey :: childChangePath)
        viewCache.cachedServerSnap.node with
    | some eventChildUpdate =>
        some (set childChangePath eventChildUpdate (child oldEventSnap.node childKey))
    | none => some (child oldEventSnap.node childKey)
  else writesCache.calculateCompleteChild childKey viewCache.cachedServerSnap

def generateEventCacheAfterServerEvent (viewCache : FViewCache) (changePath : List String)
    (writesCache : FWriteTreeRef) : FViewCache × List FChange :=
  let oldEventSnap := viewCache.cachedEventSnap
  if (writesCache.shadowingWriteAtPath changePath).isSome then (viewCache, [])
  else
    let (newEventCache, changes) :=
      match changePath with
      | [] =>
          -- there is complete server data, by assertion
          FIndexedFilter.updateFullNode oldEventSnap.node
            ((writesCache.calculateCompleteEventCache viewCache.completeServerSnap).getD empty)
      | childKey :: childChangePath =>
          match newEventChild viewCache childKey childChangePath writesCache with
          | some newEventChild =>
              FIndexedFilter.updateChildIn oldEventSnap.node childKey newEventChild childChangePath
          | none => (oldEventSnap.node, [])
    ({ viewCache with
      cachedEventSnap :=
        { node := newEventCache
          isFullyInitialized := oldEventSnap.isFullyInitialized || changePath.isEmpty } }, changes)

def applyServerOverwriteTo (oldViewCache : FViewCache) (changePath : List String)
    (changedSnap : Snapshot) (writesCache : FWriteTreeRef) : FViewCache × List FChange :=
  let oldServerSnap := oldViewCache.cachedServerSnap
  if !oldServerSnap.isCompleteForPath changePath ∧ 1 < changePath.length then
    -- meant for other listeners
    (oldViewCache, [])
  else
    let newServerCache :=
      match changePath with
      | [] => (FIndexedFilter.updateFullNode oldServerSnap.node changedSnap).1
      | childKey :: childChangePath =>
          let newChildNode := set childChangePath changedSnap (child oldServerSnap.node childKey)
          (FIndexedFilter.updateChildIn oldServerSnap.node childKey newChildNode childChangePath).1
    let newViewCache : FViewCache :=
      { oldViewCache with
        cachedServerSnap :=
          { node := newServerCache
            isFullyInitialized := oldServerSnap.isFullyInitialized || changePath.isEmpty } }
    generateEventCacheAfterServerEvent newViewCache changePath writesCache

/-- `newChild`, the child after the user has overwritten something in it. -/
def overwrittenChild (writesCache : FWriteTreeRef) (optCompleteCache : Option Snapshot)
    (oldViewCache : FViewCache) (childKey : String) (childChangePath : List String)
    (changedSnap : Snapshot) : Snapshot :=
  if childChangePath = [] then changedSnap
  else
    match completeChild writesCache oldViewCache optCompleteCache childKey with
    | some childNode => set childChangePath changedSnap childNode
    | none => empty

def applyUserOverwriteTo (writesCache : FWriteTreeRef) (optCompleteCache : Option Snapshot)
    (oldViewCache : FViewCache) (write : List String × Snapshot) : FViewCache × List FChange :=
  let (changePath, changedSnap) := write
  let oldEventSnap := oldViewCache.cachedEventSnap
  match changePath with
  | [] =>
      let (newEventCache, changes) := FIndexedFilter.updateFullNode oldEventSnap.node changedSnap
      ({ oldViewCache with
        cachedEventSnap := { node := newEventCache, isFullyInitialized := true } }, changes)
  | childKey :: childChangePath =>
      let newChild := overwrittenChild writesCache optCompleteCache oldViewCache childKey
        childChangePath changedSnap
      if child oldEventSnap.node childKey ≠ newChild then
        let (newEventSnap, changes) :=
          FIndexedFilter.updateChildIn oldEventSnap.node childKey newChild childChangePath
        ({ oldViewCache with cachedEventSnap := { oldEventSnap with node := newEventSnap } },
          changes)
      else (oldViewCache, [])

/-- Changes to children in view first. -/
def applyUserMergeTo (viewCache : FViewCache) (path : List String)
    (changedChildren : FCompoundWrite Snapshot) (writesCache : FWriteTreeRef)
    (serverCache : Option Snapshot) : FViewCache × List FChange :=
  let writes := changedChildren.writeTree.forEach.map fun e => (path ++ e.1, e.2)
  let inView := fun write : List String × Snapshot =>
    viewCache.cachedEventSnap.isCompleteForPath write.1
  thenApply (applyUserOverwriteTo writesCache serverCache) viewCache
    (writes.filter inView ++ writes.filter fun write => !inView write)

/-- A merge of the server, as overwrites of the children it touches; those the server is
known to have first. -/
def applyServerMergeTo (viewCache : FViewCache) (path : List String)
    (changedChildren : FCompoundWrite Snapshot) (writesCache : FWriteTreeRef) :
    FViewCache × List FChange :=
  let serverSnap := viewCache.cachedServerSnap
  if serverSnap.node.isEmpty ∧ !serverSnap.isFullyInitialized then (viewCache, [])
  else
    let actualMerge :=
      if path = [] then changedChildren
      else FCompoundWrite.emptyWrite.addCompoundWrite changedChildren path
    let known := fun childKey => serverSnap.node.hasChild childKey
    let isUnknownDeepMerge := fun childKey =>
      !serverSnap.isCompleteForChild childKey && (actualMerge.subtree [childKey]).rootWrite.isNone
    let overwriteChild := fun (curViewCache : FViewCache) childKey =>
      let childMerge := actualMerge.subtree [childKey]
      applyServerOverwriteTo curViewCache [childKey]
        (childMerge.applyToNode (child serverSnap.node childKey)) writesCache
    thenApply overwriteChild viewCache
      (actualMerge.childKeys.filter known ++
        actualMerge.childKeys.filter fun childKey =>
          !known childKey && !isUnknownDeepMerge childKey)

/-- What the server has at the affected paths is applied again, no longer shadowed. -/
def ackUserWriteOn (viewCache : FViewCache) (ackPath : List String)
    (affectedTree : FImmutableTree Unit) (writesCache : FWriteTreeRef) :
    FViewCache × List FChange :=
  let serverCache := viewCache.cachedServerSnap
  if (writesCache.shadowingWriteAtPath ackPath).isSome then (viewCache, [])
  else if affectedTree.value.isSome then
    if serverCache.isCompleteForPath ackPath then
      applyServerOverwriteTo viewCache ackPath (get ackPath serverCache.node) writesCache
    else if ackPath = [] then
      let changedChildren := serverCache.node.childKeys.foldl
        (fun changedChildren key => changedChildren.addWrite (child serverCache.node key) [key])
        FCompoundWrite.emptyWrite
      applyServerMergeTo viewCache ackPath changedChildren writesCache
    else (viewCache, [])
  else
    let changedChildren := affectedTree.forEach.foldl (fun changedChildren e =>
      let serverCachePath := ackPath ++ e.1
      if serverCache.isCompleteForPath serverCachePath then
        changedChildren.addWrite (get serverCachePath serverCache.node) e.1
      else changedChildren) FCompoundWrite.emptyWrite
    applyServerMergeTo viewCache ackPath changedChildren writesCache

/-- The child once a write in it is taken back. -/
def revertedChild (viewCache : FViewCache) (childKey : String) (writesCache : FWriteTreeRef) :
    Option Snapshot :=
  match writesCache.calculateCompleteChild childKey viewCache.cachedServerSnap with
  | some newChild => some newChild
  | none =>
      if viewCache.cachedServerSnap.isCompleteForChild childKey then
        some (child viewCache.cachedEventSnap.node childKey)
      else none

/-- Without a complete child the one that is there is deleted. -/
def revertChildIn (viewCache : FViewCache) (childKey : String) (affectedPath : List String)
    (writesCache : FWriteTreeRef) : Snapshot × List FChange :=
  let oldEventCache := viewCache.cachedEventSnap.node
  match revertedChild viewCache childKey writesCache with
  | some newChild => FIndexedFilter.updateChildIn oldEventCache childKey newChild affectedPath
  | none =>
      if oldEventCache.hasChild childKey then
        FIndexedFilter.updateChildIn oldEventCache childKey empty affectedPath
      else (oldEventCache, [])

def revertUserWriteOn (viewCache : FViewCache) (path : List String)
    (writesCache : FWriteTreeRef) : FViewCache × List FChange :=
  let serverSnap := viewCache.cachedServerSnap
  if (writesCache.shadowingWriteAtPath path).isSome then (viewCache, [])
  else
    let (newEventCache, changes) :=
      match path with
      | [] =>
          let newNode :=
            if serverSnap.isFullyInitialized then
              (writesCache.calculateCompleteEventCache viewCache.completeServerSnap).getD empty
            else writesCache.calculateCompleteEventChildren serverSnap.node
          FIndexedFilter.updateFullNode viewCache.cachedEventSnap.node newNode
      | childKey :: affectedPath =>
          let (newEventCache, changes) := revertChildIn viewCache childKey affectedPath writesCache
          let complete :=
            (writesCache.calculateCompleteEventCache viewCache.completeServerSnap).getD empty
          if newEventCache.isEmpty ∧ serverSnap.isFullyInitialized ∧ complete.isLeafNode then
            -- "Maybe the old event was a leaf node."
            let (newEventCache, changes') := FIndexedFilter.updateFullNode newEventCache complete
            (newEventCache, changes ++ changes')
          else (newEventCache, changes)
    let complete := serverSnap.isFullyInitialized || (writesCache.shadowingWriteAtPath []).isSome
    ({ viewCache with
      cachedEventSnap := { node := newEventCache, isFullyInitialized := complete } }, changes)

def listenComplete (viewCache : FViewCache) (path : List String) (writesCache : FWriteTreeRef) :
    FViewCache × List FChange :=
  let oldServerNode := viewCache.cachedServerSnap
  let newViewCache : FViewCache :=
    { viewCache with
      cachedServerSnap :=
        { oldServerNode with
          isFullyInitialized := oldServerNode.isFullyInitialized || path.isEmpty } }
  generateEventCacheAfterServerEvent newViewCache path writesCache

/-- The new caches, and the changes an accumulator is to track. -/
def process (oldViewCache : FViewCache) (operation : FOperation) (writesCache : FWriteTreeRef)
    (optCompleteCache : Option Snapshot) : FViewCache × List FChange :=
  match operation with
  | .overwrite .user path snap =>
      applyUserOverwriteTo writesCache optCompleteCache oldViewCache (path, snap)
  | .overwrite .server path snap => applyServerOverwriteTo oldViewCache path snap writesCache
  | .merge .user path children =>
      applyUserMergeTo oldViewCache path children writesCache optCompleteCache
  | .merge .server path children => applyServerMergeTo oldViewCache path children writesCache
  | .ackUserWrite path affectedTree revert =>
      if revert then revertUserWriteOn oldViewCache path writesCache
      else ackUserWriteOn oldViewCache path affectedTree writesCache
  | .listenComplete path => listenComplete oldViewCache path writesCache

/-- The change of the value, if the children have changed, or the value is there for the
first time, or is none of children and another one. -/
def maybeAddValue (oldViewCache newViewCache : FViewCache) (changes : List FChange) :
    Option Snapshot :=
  let eventSnap := newViewCache.cachedEventSnap
  let isLeafOrEmpty := eventSnap.node.isLeafNode || eventSnap.node.isEmpty
  if eventSnap.isFullyInitialized ∧ (changes ≠ [] ∨
      oldViewCache.cachedEventSnap.isFullyInitialized = false ∨
      isLeafOrEmpty ∧ oldViewCache.completeEventSnap ≠ some eventSnap.node) then
    some eventSnap.node
  else none

structure Result where
  viewCache : FViewCache
  changes : List FChange
  valueChange : Option Snapshot

def applyOperationOn (oldViewCache : FViewCache) (operation : FOperation)
    (writesCache : FWriteTreeRef) (optCompleteCache : Option Snapshot) :
    Except FirebaseDatabaseInternalError Result := do
  let processed := process oldViewCache operation writesCache optCompleteCache
  let changeMap ← FChildChangeAccumulator.track processed.2
  let changes := FChildChangeAccumulator.changes changeMap
  return {
    viewCache := processed.1
    changes
    valueChange := maybeAddValue oldViewCache processed.1 changes }

end FViewProcessor

end SocialTimeline
