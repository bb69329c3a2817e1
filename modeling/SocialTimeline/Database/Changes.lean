import SocialTimeline.App.FirebaseTimelineService
import SocialTimeline.Database.Keys
import SocialTimeline.Database.Snapshot
import Mathlib.Data.List.Sort

/-!
# Changes of a snapshot

How a view of a whole location comes from one snapshot to the next: `FIndexedFilter`
makes the update and names the changes of the children on the way,
`FChildChangeAccumulator` folds the changes of one child into one, and
`FEventGenerator` turns what is left into events.

Children are ordered by their keys; nothing has a priority, so no child moves.
-/

namespace SocialTimeline

open FirebaseTimelineService Lib Lib.Nested

namespace Snapshot

def isEmpty (node : Snapshot) : Bool := node = Nested.empty

def hasChild (node : Snapshot) (childKey : String) : Bool := !(child node childKey).isEmpty

/-- The keys `enumerateChildrenUsingBlock:` comes by. -/
def childKeys (node : Snapshot) : List String :=
  match node.val with
  | .leaf _ => []
  | .children children => children.map Prod.fst

end Snapshot

/-! ## Changes -/

/-- A change of a child: what it is now, or was when it was removed. -/
inductive FChange
  | childAdded (childKey : String) (indexedNode : Snapshot)
  | childRemoved (childKey : String) (indexedNode : Snapshot)
  | childChanged (childKey : String) (indexedNode oldIndexedNode : Snapshot)
  deriving DecidableEq

namespace FChange

def type : FChange → DataEventType
  | childAdded _ _ => .childAdded
  | childRemoved _ _ => .childRemoved
  | childChanged _ _ _ => .childChanged

def childKey : FChange → String
  | childAdded childKey _ => childKey
  | childRemoved childKey _ => childKey
  | childChanged childKey _ _ => childKey

def indexedNode : FChange → Snapshot
  | childAdded _ indexedNode => indexedNode
  | childRemoved _ indexedNode => indexedNode
  | childChanged _ indexedNode _ => indexedNode

end FChange

/-- "Illegal combination of changes: %@ occurred after %@". -/
structure FirebaseDatabaseInternalError where
  change : FChange
  oldChange : FChange

namespace FChildChangeAccumulator

/-- The changes by child key. -/
abbrev ChangeMap := List (String × FChange)

def trackChildChange (changeMap : ChangeMap) (change : FChange) :
    Except FirebaseDatabaseInternalError ChangeMap :=
  match changeMap.lookup change.childKey with
  | none => .ok (insertKey change.childKey change changeMap)
  | some oldChange =>
      match change, oldChange with
      | .childAdded childKey indexedNode, .childRemoved _ oldIndexedNode =>
          .ok (insertKey childKey (.childChanged childKey indexedNode oldIndexedNode) changeMap)
      | .childRemoved childKey _, .childAdded _ _ => .ok (removeKey childKey changeMap)
      | .childRemoved childKey _, .childChanged _ _ oldIndexedNode =>
          .ok (insertKey childKey (.childRemoved childKey oldIndexedNode) changeMap)
      | .childChanged childKey indexedNode _, .childAdded _ _ =>
          .ok (insertKey childKey (.childAdded childKey indexedNode) changeMap)
      | .childChanged childKey indexedNode _, .childChanged _ _ oldIndexedNode =>
          .ok (insertKey childKey (.childChanged childKey indexedNode oldIndexedNode) changeMap)
      | _, _ => .error { change, oldChange }

/-- An accumulator that has tracked some changes, one after another. -/
def track (changes : List FChange) : Except FirebaseDatabaseInternalError ChangeMap :=
  changes.foldlM trackChildChange []

def changes (changeMap : ChangeMap) : List FChange := changeMap.map Prod.snd

end FChildChangeAccumulator

/-! ## Updates

An update comes with the changes it has an accumulator track, in order. Without an
accumulator they are dropped. -/

namespace FIndexedFilter

def updateChildIn (node : Snapshot) (childKey : String) (newChildSnap : Snapshot)
    (affectedPath : List String) : Snapshot × List FChange :=
  let oldChildSnap := child node childKey
  if get affectedPath oldChildSnap = get affectedPath newChildSnap ∧
      oldChildSnap.isEmpty = newChildSnap.isEmpty then (node, [])
  else
    let changes :=
      if newChildSnap.isEmpty then
        if node.hasChild childKey then [.childRemoved childKey oldChildSnap] else []
      else if oldChildSnap.isEmpty then [.childAdded childKey newChildSnap]
      else [.childChanged childKey newChildSnap oldChildSnap]
    if node.isLeafNode ∧ newChildSnap.isEmpty then (node, changes)
    else (Nested.setChild node childKey newChildSnap, changes)

def updateFullNode (oldSnap newSnap : Snapshot) : Snapshot × List FChange :=
  let removed := (oldSnap.childKeys.filter fun childKey => !newSnap.hasChild childKey).map
    fun childKey => FChange.childRemoved childKey (child oldSnap childKey)
  let updated := newSnap.childKeys.flatMap fun childKey =>
    let childNode := child newSnap childKey
    if oldSnap.hasChild childKey then
      let oldChildSnap := child oldSnap childKey
      if oldChildSnap = childNode then [] else [.childChanged childKey childNode oldChildSnap]
    else [.childAdded childKey childNode]
  (newSnap, removed ++ updated)

end FIndexedFilter

/-! ## Events -/

/-- What an observer can be registered for. -/
inductive FIRDataEventType
  | child (type : DataEventType)
  | value
  deriving DecidableEq

/-- An event with the snapshot it delivers. -/
inductive FDataEvent
  | child (event : DataEvent)
  | value (node : Snapshot)
  deriving DecidableEq

/-- An observer, with the kinds of events it has callbacks for. -/
structure FEventRegistration where
  handle : Nat
  responseTo : FIRDataEventType → Bool

namespace FEventGenerator

/-- The order of the children. -/
def ordered (one two : FChange) : Bool :=
  FUtilities.compareKey (.key one.childKey) (.key two.childKey) ≠ .gt

/-- The event of a change. -/
def dataEvent (change : FChange) : DataEvent where
  type := change.type
  key := change.childKey
  node := change.indexedNode.val

/-- `generateEvents:forType:…`. -/
def generateEvents (eventType : DataEventType) (changes : List FChange)
    (registrations : List FEventRegistration) : List (FEventRegistration × FDataEvent) :=
  let filteredChanges := (changes.filter fun change => change.type = eventType).mergeSort ordered
  filteredChanges.flatMap fun change =>
    (registrations.filter fun registration => registration.responseTo (.child eventType)).map
      fun registration => (registration, .child (dataEvent change))

/-- The events of some changes, and of a change of the value where there is one. -/
def generateEventsForChanges (changes : List FChange) (valueChange : Option Snapshot)
    (registrations : List FEventRegistration) : List (FEventRegistration × FDataEvent) :=
  generateEvents .childRemoved changes registrations ++
    generateEvents .childAdded changes registrations ++
    generateEvents .childChanged changes registrations ++
    valueChange.toList.flatMap fun node =>
      (registrations.filter fun registration => registration.responseTo .value).map
        fun registration => (registration, .value node)

end FEventGenerator

end SocialTimeline
