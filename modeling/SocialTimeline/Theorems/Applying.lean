import SocialTimeline.System.SyncTree
import SocialTimeline.Theorems.Following

/-!
# Steps of the sync tree

The steps that a run of the system has a sync tree do are taken, whatever its state
(`Applied`): the events are those of changes to other values, and a view that the server
has told all stays so. What the app makes of the events of a step in which one child
changes is what is heard of the change (`liveEvents_of_reported`), and of additions nobody
is called back (`liveEvents_added`).
-/

namespace SocialTimeline

open FirebaseTimelineService Lib Lib.Nested FEventGenerator

/-! ## Views that the server has told all -/

namespace FViewProcessor

variable {writesCache : FWriteTreeRef} {viewCache : FViewCache}

/-- What every step keeps. -/
theorem thenApply_keeps {α : Type} {P : FViewCache → Prop}
    {step : FViewCache → α → FViewCache × List FChange}
    (hstep : ∀ viewCache a, P viewCache → P (step viewCache a).1) (as : List α)
    (h : P viewCache) : P (thenApply step viewCache as).1 := by
  induction as generalizing viewCache with
  | nil => exact h
  | cons a as ih => exact ih (hstep viewCache a h)

theorem applyServerOverwriteTo_full
    (h : viewCache.cachedServerSnap.isFullyInitialized = true) (path : List String)
    (snap : Snapshot) :
    (applyServerOverwriteTo viewCache path snap
      writesCache).1.cachedServerSnap.isFullyInitialized = true := by
  unfold applyServerOverwriteTo
  dsimp only
  split
  · exact h
  · rw [generateEventCacheAfterServerEvent_serverSnap]
    exact Bool.or_eq_true_iff.mpr (.inl h)

/-- The server tells all there is. -/
theorem applyServerOverwriteTo_all (viewCache : FViewCache) (snap : Snapshot)
    (writesCache : FWriteTreeRef) :
    (applyServerOverwriteTo viewCache [] snap
      writesCache).1.cachedServerSnap.isFullyInitialized = true := by
  unfold applyServerOverwriteTo
  dsimp only
  rw [if_neg (by simp), generateEventCacheAfterServerEvent_serverSnap]
  exact Bool.or_true _

theorem applyServerMergeTo_full (h : viewCache.cachedServerSnap.isFullyInitialized = true)
    (path : List String) (children : FCompoundWrite Snapshot) :
    (applyServerMergeTo viewCache path children
      writesCache).1.cachedServerSnap.isFullyInitialized = true := by
  unfold applyServerMergeTo
  dsimp only
  split
  · exact h
  · exact thenApply_keeps
      (P := fun viewCache => viewCache.cachedServerSnap.isFullyInitialized = true)
      (fun _ _ hfull => applyServerOverwriteTo_full hfull _ _) _ h

theorem ackUserWriteOn_full (h : viewCache.cachedServerSnap.isFullyInitialized = true)
    (path : List String) (affectedTree : FImmutableTree Unit) :
    (ackUserWriteOn viewCache path affectedTree
      writesCache).1.cachedServerSnap.isFullyInitialized = true := by
  unfold ackUserWriteOn
  dsimp only
  split
  · exact h
  · split
    · split
      · exact applyServerOverwriteTo_full h _ _
      · split
        · exact applyServerMergeTo_full h _ _
        · exact h
    · exact applyServerMergeTo_full h _ _

/-- A view once told all stays so. -/
theorem process_full (h : viewCache.cachedServerSnap.isFullyInitialized = true)
    (operation : FOperation) (optCompleteCache : Option Snapshot) :
    (process viewCache operation writesCache
      optCompleteCache).1.cachedServerSnap.isFullyInitialized = true := by
  match operation with
  | .overwrite .user path snap =>
      rw [process, applyUserOverwriteTo_serverSnap]
      exact h
  | .overwrite .server path snap => exact applyServerOverwriteTo_full h path snap
  | .merge .user path children =>
      rw [process, applyUserMergeTo_serverSnap]
      exact h
  | .merge .server path children => exact applyServerMergeTo_full h path children
  | .ackUserWrite path affectedTree true =>
      rw [process, if_pos rfl, revertUserWriteOn_serverSnap]
      exact h
  | .ackUserWrite path affectedTree false => exact ackUserWriteOn_full h path affectedTree
  | .listenComplete path =>
      rw [process, listenComplete, generateEventCacheAfterServerEvent_serverSnap]
      exact Bool.or_eq_true_iff.mpr (.inl h)

end FViewProcessor

/-! ## New views -/

/-- A child put together with others is one of them, if it is there. -/
theorem child_updateChildren (children : List (String × Snapshot)) (node : Snapshot)
    (childKey : String) : child (updateChildren node children) childKey = child node childKey ∨
      (childKey, child (updateChildren node children) childKey) ∈ children := by
  induction children generalizing node with
  | nil => exact .inl rfl
  | cons e children ih =>
      rcases ih (Nested.setChild node e.1 e.2) with hsame | hmem
      · show child (updateChildren (Nested.setChild node e.1 e.2) children) childKey = _ ∨ _
        by_cases hkey : childKey = e.1
        · refine .inr (List.mem_cons.mpr (.inl ?_))
          show (childKey, child (updateChildren (Nested.setChild node e.1 e.2) children) childKey) =
            (e.1, e.2)
          rw [hsame, hkey, child_setChild_self]
        · rw [hsame, child_setChild_of_ne _ _ hkey]
          exact .inl rfl
      · exact .inr (List.mem_cons_of_mem _ hmem)

namespace FWriteTreeRef

variable {writesCache : FWriteTreeRef} {ws : List (List String × Snapshot)}

/-- What was written somewhere is there. -/
theorem Lays.eq_of_valueAtPath (h : writesCache.Lays ws) {path : List String} {node : Snapshot}
    (hvalue : FImmutableTree.valueAtPath path writesCache.writeTree.visibleWrites.writeTree =
      some node) (server : Snapshot) : node = get path (setAll ws server) := by
  have hcovers : Covers ws path := by
    by_contra hnot
    have hnone := h.exposed_iff.mpr hnot path (List.prefix_refl path)
    cases hvalue.symm.trans hnone
  rw [get_setAll_covered hcovers server empty, ← h.applyToNode fun w _ => clear_empty w.1,
    FCompoundWrite.applyToNode_eq_set_of_value hvalue, get_set]

theorem Lays.subtree_rootWrite (h : writesCache.Lays ws) {path : List String}
    (hnot : ¬Covers ws path) :
    (writesCache.writeTree.visibleWrites.subtree path).rootWrite = none := by
  show FImmutableTree.valueAtPath [] (FImmutableTree.subtreeAtPath path _) = none
  rw [FImmutableTree.valueAtPath_subtreeAtPath, List.append_nil]
  exact h.exposed_iff.mpr hnot path (List.prefix_refl path)

/-- Without anything of the server a location that is not covered is not known. -/
theorem Lays.calculateCompleteEventCache_none (h : writesCache.Lays ws)
    (hnot : ¬Covers ws writesCache.path) : writesCache.calculateCompleteEventCache none = none := by
  have hnone := h.completeNodeAtPath_eq_none hnot
  have hroot : (writesCache.writeTree.visibleWrites.subtree
      writesCache.path).hasCompleteWriteAtPath [] = false := by
    have hvalue := h.subtree_rootWrite hnot
    rw [FCompoundWrite.rootWrite] at hvalue
    rw [FCompoundWrite.hasCompleteWriteAtPath, FCompoundWrite.completeNodeAtPath,
      FImmutableTree.findRootMostValueAndPath, hvalue]
    rfl
  unfold FWriteTreeRef.calculateCompleteEventCache FWriteTree.calculateCompleteEventCacheAtPath
  dsimp only
  rw [hnone, FCompoundWrite.childCompoundWriteAtPath_of_none hnone, hroot]
  simp

/-- The children that are replaced are what the writes make of them. -/
theorem Lays.mem_completeChildren (h : writesCache.Lays ws) (hnot : ¬Covers ws writesCache.path)
    {childKey : String} {node : Snapshot}
    (hmem : (childKey, node) ∈ (writesCache.writeTree.visibleWrites.subtree
      writesCache.path).completeChildren) (server : Snapshot) :
    node = child (get writesCache.path (setAll ws server)) childKey := by
  have hroot := h.subtree_rootWrite hnot
  rw [FCompoundWrite.rootWrite] at hroot
  rw [FCompoundWrite.completeChildren, hroot] at hmem
  obtain ⟨⟨key, tree⟩, he, hvalue⟩ := List.mem_filterMap.mp hmem
  obtain ⟨node', hnode, heq⟩ := Option.map_eq_some_iff.mp hvalue
  obtain ⟨rfl, rfl⟩ := Prod.mk.inj heq
  have hkeyed := FImmutableTree.keyed_iff.mp (writesCache.writeTree.visibleWrites.subtree
    writesCache.path).keyed
  dsimp only at hnode ⊢
  have hlookup := (lookup_eq_some_iff hkeyed.1).mpr he
  have hat : FImmutableTree.valueAtPath [key] (writesCache.writeTree.visibleWrites.subtree
      writesCache.path).writeTree = some node' := by
    rw [FImmutableTree.valueAtPath_cons, hlookup]
    exact hnode
  have hat' : FImmutableTree.valueAtPath (writesCache.path ++ [key])
      writesCache.writeTree.visibleWrites.writeTree = some node' := by
    rw [← FImmutableTree.valueAtPath_subtreeAtPath]
    exact hat
  rw [h.eq_of_valueAtPath hat' server]
  exact get_append writesCache.path [key] _

/-- A new view shows of each child nothing, or what the writes make of it. -/
theorem Lays.child_initialViewCache (h : writesCache.Lays ws) (server : Snapshot)
    (childKey : String) :
    child (FView.initialViewCache writesCache
        { node := empty, isFullyInitialized := false }).cachedEventSnap.node childKey = empty ∨
      child (FView.initialViewCache writesCache
        { node := empty, isFullyInitialized := false }).cachedEventSnap.node childKey =
          child (get writesCache.path (setAll ws server)) childKey := by
  have hnode : FCacheNode.completeNode { node := empty, isFullyInitialized := false } = none := rfl
  unfold FView.initialViewCache
  rw [hnode]
  by_cases hcovers : Covers ws writesCache.path
  · rw [h.calculateCompleteEventCache_covered hcovers server]
    exact .inr rfl
  · have hnone := h.completeNodeAtPath_eq_none hcovers
    rw [h.calculateCompleteEventCache_none hcovers]
    show child (writesCache.calculateCompleteEventChildren empty) childKey = empty ∨
      child (writesCache.calculateCompleteEventChildren empty) childKey = _
    unfold FWriteTreeRef.calculateCompleteEventChildren
    dsimp only
    rw [hnone, FCompoundWrite.childCompoundWriteAtPath_of_none hnone]
    rcases child_updateChildren _ empty childKey with hsame | hmem
    · exact .inl (hsame.trans (child_empty childKey))
    · exact .inr (h.mem_completeChildren hcovers hmem server)

end FWriteTreeRef

namespace FSyncTree

variable {location : List String} {tree tree' : FSyncTree} {events : Events}
  {operation : FOperation}

/-- The server has told a view all of its location. -/
def Full (tree : FSyncTree) : Prop :=
  ∀ view, tree.view = some view → view.viewCache.cachedServerSnap.isFullyInitialized = true

theorem Full.apply (h : tree.Full)
    (happly : tree.applyOperationToSyncPoints location operation = some (tree', events)) :
    tree'.Full := by
  obtain ⟨-, hview⟩ := applyOperationToSyncPoints_cases happly
  intro view' hview'
  obtain ⟨view, hold, hcache⟩ := hview view' hview'
  rw [hcache]
  split
  · exact FViewProcessor.process_full (h view hold) _ _
  · exact h view hold

/-! ## Steps that are taken -/

/-- The processor never throws. -/
theorem applyOperationToSyncPoints_ne_none (location : List String) (tree : FSyncTree)
    (operation : FOperation) :
    ∃ tree' events,
      tree.applyOperationToSyncPoints location operation = some (tree', events) := by
  unfold applyOperationToSyncPoints
  split
  · rename_i view rest hview hrest
    obtain ⟨changes, valueChange, -, -, -, happly⟩ := view.applyOperation_eq rest
      (tree.writesCache location) view.viewCache.completeServerSnap
    dsimp only
    rw [happly]
    exact ⟨_, _, rfl⟩
  · exact ⟨_, _, rfl⟩

/-- A step that is taken, and reports changes to other values. -/
structure Applied (location : List String) (tree : FSyncTree) (act : Act) (tree' : FSyncTree)
    (events : Events) : Prop where
  next : tree.next location act = some (tree', events)
  reported : ∃ changes, Reported tree tree' changes events ∧ ∀ change ∈ changes, change.Strict
  full : tree.Full → tree'.Full
  unviewed : tree.view = none → tree'.view = none

variable {act : Act}

theorem applied_of_apply {pendingWriteTree : FWriteTree Snapshot}
    (hplain : ∀ rest, operationAt location operation = some rest → FViewProcessor.Plain rest)
    (hnext : tree.next location act =
      { tree with pendingWriteTree }.applyOperationToSyncPoints location operation) :
    ∃ tree' events, Applied location tree act tree' events ∧
      tree'.pendingWriteTree = pendingWriteTree := by
  obtain ⟨tree', events, happly⟩ :=
    applyOperationToSyncPoints_ne_none location { tree with pendingWriteTree } operation
  obtain ⟨hpending, hview⟩ := applyOperationToSyncPoints_cases happly
  obtain ⟨changes, hreported, hstrict⟩ := applyOperationToSyncPoints_reported happly
  refine ⟨tree', events, ⟨hnext.trans happly, ?_, ?_, ?_⟩, hpending⟩
  · exact ⟨changes, hreported.of_pendingWriteTree, hstrict hplain⟩
  · intro hfull
    have hfull' : Full { tree with pendingWriteTree } := hfull
    exact hfull'.apply happly
  · intro hnone
    cases hview' : tree'.view with
    | none => rfl
    | some view' =>
        obtain ⟨view, hold, -⟩ := hview view' hview'
        cases hnone.symm.trans hold

theorem plain_of_eq {rest : FOperation} (h : operationAt location operation = some rest)
    (hplain : FViewProcessor.Plain rest) :
    ∀ rest, operationAt location operation = some rest → FViewProcessor.Plain rest :=
  fun _ hrest => Option.some.inj (h.symm.trans hrest) ▸ hplain

/-- The user writes. -/
theorem applied_user (tree : FSyncTree) (write : Write) :
    ∃ tree' events, Applied [postsPath] tree (write.userAct tree.nextWriteId) tree' events ∧
      tree'.pendingWriteTree.allWrites =
        tree.pendingWriteTree.allWrites ++ [write.record tree.nextWriteId] := by
  have hlt : tree.pendingWriteTree.lastWriteId < tree.nextWriteId := Int.lt_succ _
  have hoverwrite : ∀ key newData, ∃ tree' events,
      Applied [postsPath] tree
          (.userOverwrite [postsPath, key] newData tree.nextWriteId true) tree' events ∧
        tree'.pendingWriteTree = tree.pendingWriteTree.addOverwriteAtPath [postsPath, key] newData
          tree.nextWriteId true := by
    intro key newData
    have hat : operationAt [postsPath] (.overwrite .user [postsPath, key] newData) =
        some (.overwrite .user [key] newData) := rfl
    refine applied_of_apply (plain_of_eq hat trivial) ?_
    show (tree.pendingWriteTree.next
      (.overwrite [postsPath, key] newData tree.nextWriteId true)).bind _ = _
    rw [FWriteTree.next, if_pos hlt]
    rfl
  cases write with
  | setValue key post =>
      obtain ⟨tree', events, happlied, hpending⟩ := hoverwrite key (.ofNode post.toNode)
      exact ⟨tree', events, happlied, hpending ▸ rfl⟩
  | removeValue key =>
      obtain ⟨tree', events, happlied, hpending⟩ := hoverwrite key empty
      exact ⟨tree', events, happlied, hpending ▸ rfl⟩
  | updateChildValues key timestamp =>
      have hat : operationAt [postsPath]
          (.merge .user [postsPath, key] (Write.changedChildren timestamp)) =
            some (.merge .user [key] (Write.changedChildren timestamp)) := rfl
      have hplain : FViewProcessor.Plain
          (.merge .user [key] (Write.changedChildren timestamp)) := le_refl 1
      have hnext : tree.next [postsPath] (.userMerge [postsPath, key]
          (Write.changedChildren timestamp) tree.nextWriteId) =
            { tree with
              pendingWriteTree := tree.pendingWriteTree.addMergeAtPath [postsPath, key]
                (Write.changedChildren timestamp) tree.nextWriteId }.applyOperationToSyncPoints
              [postsPath] (.merge .user [postsPath, key] (Write.changedChildren timestamp)) := by
        show (tree.pendingWriteTree.next (.merge [postsPath, key]
          (Write.changedChildren timestamp) tree.nextWriteId)).bind _ = _
        rw [FWriteTree.next, if_pos hlt]
        rfl
      obtain ⟨tree', events, happlied, hpending⟩ :=
        applied_of_apply (plain_of_eq hat hplain) hnext
      exact ⟨tree', events, happlied, hpending ▸ rfl⟩

/-- The server tells. -/
theorem applied_server (tree : FSyncTree) (write : Write) :
    ∃ tree' events, Applied [postsPath] tree write.serverAct tree' events ∧
      tree'.pendingWriteTree = tree.pendingWriteTree := by
  cases write with
  | setValue key post =>
      have hat : operationAt [postsPath]
          (.overwrite .server [postsPath, key] (.ofNode post.toNode)) =
            some (.overwrite .server [key] (.ofNode post.toNode)) := rfl
      exact applied_of_apply (plain_of_eq hat trivial) rfl
  | updateChildValues key timestamp =>
      have hat : operationAt [postsPath]
          (.merge .server [postsPath, key] (Write.changedChildren timestamp)) =
            some (.merge .server [key] (Write.changedChildren timestamp)) := rfl
      exact applied_of_apply (plain_of_eq hat trivial) rfl
  | removeValue key =>
      have hat : operationAt [postsPath] (.overwrite .server [postsPath, key] empty) =
          some (.overwrite .server [key] empty) := rfl
      exact applied_of_apply (plain_of_eq hat trivial) rfl

/-- The server tells of all there is. -/
theorem applied_serverAll (tree : FSyncTree) (newData : Snapshot) :
    ∃ tree' events, Applied [postsPath] tree (.serverOverwrite [postsPath] newData) tree' events ∧
      tree'.pendingWriteTree = tree.pendingWriteTree := by
  have hat : operationAt [postsPath] (.overwrite .server [postsPath] newData) =
      some (.overwrite .server [] newData) := rfl
  exact applied_of_apply (plain_of_eq hat trivial) rfl

/-- A listen is complete. -/
theorem applied_listenComplete (tree : FSyncTree) :
    ∃ tree' events, Applied [postsPath] tree (.listenComplete [postsPath]) tree' events ∧
      tree'.pendingWriteTree = tree.pendingWriteTree := by
  have hat : operationAt [postsPath] (.listenComplete [postsPath]) =
      some (.listenComplete []) := rfl
  exact applied_of_apply (plain_of_eq hat trivial) rfl

/-- The server answers the oldest write. -/
theorem applied_answer {record : FWriteRecord Snapshot}
    {records : List (FWriteRecord Snapshot)}
    (hall : tree.pendingWriteTree.allWrites = record :: records) (revert : Bool) :
    ∃ tree' events,
      Applied [postsPath] tree (.ackUserWrite tree.oldestWriteId revert) tree' events ∧
        tree'.pendingWriteTree.allWrites = records := by
  have hid : tree.oldestWriteId = record.writeId := by
    rw [oldestWriteId, hall]
    rfl
  have hfound : tree.pendingWriteTree.writeForId tree.oldestWriteId = some record := by
    rw [FWriteTree.writeForId, hall, List.find?_cons_of_pos (by simp [hid])]
  have hremoved : ∃ needToReevaluate pendingWriteTree,
      tree.pendingWriteTree.removeWriteId tree.oldestWriteId =
        some (needToReevaluate, pendingWriteTree) := by
    have hindex : tree.pendingWriteTree.allWrites.findIdx?
        (fun record => record.writeId = tree.oldestWriteId) = some 0 := by
      rw [hall, List.findIdx?_cons, if_pos (by simp [hid])]
    have hget : tree.pendingWriteTree.allWrites[0]? = some record := by
      rw [hall]
      rfl
    unfold FWriteTree.removeWriteId
    rw [hindex]
    dsimp only [Option.bind_eq_bind, Option.bind]
    rw [hget]
    dsimp only [Option.bind]
    split
    · exact ⟨_, _, rfl⟩
    · split
      · exact ⟨_, _, rfl⟩
      · exact ⟨_, _, rfl⟩
  obtain ⟨needToReevaluate, pendingWriteTree, hremove⟩ := hremoved
  have hrest : pendingWriteTree.allWrites = records := by
    obtain ⟨before, w, after, hsplit, -, hfirst, hrest, -⟩ := FWriteTree.removeWriteId_cases hremove
    obtain ⟨rfl, -, rfl⟩ := before_eq_nil (hall ▸ hsplit) hid.symm hfirst
    exact hrest
  have hplain : ∀ rest, operationAt [postsPath]
      (.ackUserWrite record.path (affectedTree record) revert) = some rest →
        FViewProcessor.Plain rest := by
    intro rest hrest
    have hspec := operationAt_ackUserWrite (keyed_affectedTree record) [postsPath] record.path
      revert
    rw [hrest] at hspec
    obtain ⟨_, _, rfl, -⟩ := hspec
    trivial
  have hnext : tree.next [postsPath] (.ackUserWrite tree.oldestWriteId revert) =
      if needToReevaluate then
        { tree with pendingWriteTree }.applyOperationToSyncPoints [postsPath]
          (.ackUserWrite record.path (affectedTree record) revert)
      else some ({ tree with pendingWriteTree }, []) := by
    show (tree.pendingWriteTree.writeForId _).bind _ = _
    rw [hfound]
    show (tree.pendingWriteTree.removeWriteId _).bind _ = _
    rw [hremove]
    rfl
  cases needToReevaluate with
  | true =>
      obtain ⟨tree', events, happlied, hpending⟩ := applied_of_apply hplain hnext
      exact ⟨tree', events, happlied, hpending ▸ hrest⟩
  | false =>
      exact ⟨_, [], ⟨hnext, ⟨[], reported_nothing tree pendingWriteTree,
        fun _ h => absurd h List.not_mem_nil⟩, id, id⟩, hrest⟩

end FSyncTree

/-! ## What the app makes of the events -/

section Events

variable {tree tree' : FSyncTree} {changes : List FChange} {events : Events}
  {registrations : List FEventRegistration}

theorem liveEvents_append (events events' : Events) :
    liveEvents (events ++ events') = liveEvents events ++ liveEvents events' :=
  List.filterMap_append

/-- Events of a value are for nobody here. -/
theorem liveEvents_changes (changes : List FChange) (valueChange : Option Snapshot)
    (registrations : List FEventRegistration) :
    liveEvents (generateEventsForChanges changes valueChange registrations) =
      liveEvents (generateEvents .childRemoved changes registrations) ++
        liveEvents (generateEvents .childAdded changes registrations) ++
        liveEvents (generateEvents .childChanged changes registrations) := by
  have hvalue : liveEvents (valueChange.toList.flatMap fun node =>
      (registrations.filter fun registration => registration.responseTo .value).map
        fun registration => (registration, .value node)) = [] := by
    refine List.filterMap_eq_nil_iff.mpr fun e he => ?_
    obtain ⟨node, -, he⟩ := List.mem_flatMap.mp he
    obtain ⟨registration, -, rfl⟩ := List.mem_map.mp he
    rfl
  rw [generateEventsForChanges, liveEvents_append, liveEvents_append, liveEvents_append, hvalue,
    List.append_nil]

theorem generateEvents_of_ne {type : DataEventType}
    (h : ∀ change ∈ changes, change.type ≠ type) (registrations : List FEventRegistration) :
    generateEvents type changes registrations = [] := by
  have hfilter : (changes.filter fun change => change.type = type) = [] :=
    List.filter_eq_nil_iff.mpr fun change hchange heq =>
      h change hchange (of_decide_eq_true heq)
  rw [generateEvents, hfilter, List.mergeSort_nil]
  rfl

theorem generateEvents_one (change : FChange) (registrations : List FEventRegistration) :
    generateEvents change.type [change] registrations =
      (registrations.filter fun registration =>
        registration.responseTo (.child change.type)).map
          fun registration => (registration, .child (dataEvent change)) := by
  have hfilter : ([change].filter fun other => other.type = change.type) = [change] := by simp
  rw [generateEvents, hfilter, List.mergeSort_singleton]
  exact List.append_nil _

theorem liveEvents_nobody (changes : List FChange) (valueChange : Option Snapshot) :
    liveEvents (generateEventsForChanges changes valueChange []) = [] := by
  have hnone : ∀ type, generateEvents type changes [] = [] := fun type =>
    List.flatMap_eq_nil_iff.mpr fun _ _ => rfl
  rw [liveEvents_changes, hnone, hnone, hnone]
  rfl

/-- Nobody is called back for an addition. -/
theorem liveEvents_added (hadded : ∀ change ∈ changes, change.type = .childAdded)
    (hresponse : ∀ registration ∈ registrations,
      registration.responseTo (.child .childAdded) = false)
    (valueChange : Option Snapshot) :
    liveEvents (generateEventsForChanges changes valueChange registrations) = [] := by
  have hnone : ∀ type, type ≠ .childAdded → generateEvents type changes registrations = [] :=
    fun type hne => generateEvents_of_ne
      (fun change hchange heq => hne (heq.symm.trans (hadded change hchange))) registrations
  have hsilent : generateEvents .childAdded changes registrations = [] := by
    have hfilter : (registrations.filter fun registration =>
        registration.responseTo (.child .childAdded)) = [] :=
      List.filter_eq_nil_iff.mpr fun registration hmem => by simp [hresponse registration hmem]
    rw [generateEvents, hfilter]
    exact List.flatMap_eq_nil_iff.mpr fun _ _ => rfl
  rw [liveEvents_changes, hnone .childRemoved (by decide), hnone .childChanged (by decide),
    hsilent]
  rfl

/-- The event of one change is for the observer of its kind. -/
theorem liveEvents_one (stage : Stage) (change : FChange) (valueChange : Option Snapshot) :
    liveEvents (generateEventsForChanges [change] valueChange stage.observers) =
      if stage.listens change.type then (startLiveUpdating (dataEvent change)).toList else [] := by
  have hnone : ∀ type, type ≠ change.type →
      generateEvents type [change] stage.observers = [] := fun type hne =>
    generateEvents_of_ne (List.forall_mem_singleton.mpr (Ne.symm hne)) stage.observers
  have hfilter : ∀ type, ∃ registration, (stage.observers.filter fun registration =>
      registration.responseTo (.child type)) =
        if stage.listens type then [registration] else [] := by
    intro type
    cases stage <;> cases type <;>
      first
      | exact ⟨addedPostsObserver, rfl⟩
      | exact ⟨removedPostsObserver, rfl⟩
  have hkind : liveEvents (generateEvents change.type [change] stage.observers) =
      if stage.listens change.type then (startLiveUpdating (dataEvent change)).toList else [] := by
    obtain ⟨registration, hobservers⟩ := hfilter change.type
    rw [generateEvents_one, hobservers]
    split
    · cases hlive : startLiveUpdating (dataEvent change) with
      | none => exact List.filterMap_cons_none hlive
      | some live => exact List.filterMap_cons_some hlive
    · rfl
  have hnil : liveEvents [] = [] := rfl
  rw [liveEvents_changes]
  cases change with
  | childAdded childKey indexedNode =>
      rw [hnone .childRemoved nofun, hnone .childChanged nofun, hnil, List.nil_append,
        List.append_nil]
      exact hkind
  | childRemoved childKey indexedNode =>
      rw [hnone .childAdded nofun, hnone .childChanged nofun, hnil, List.append_nil,
        List.append_nil]
      exact hkind
  | childChanged childKey indexedNode oldIndexedNode =>
      rw [hnone .childRemoved nofun, hnone .childAdded nofun, hnil, List.nil_append,
        List.nil_append]
      exact hkind

/-- Changes of one child only, if any, come to one. -/
theorem changes_of_net {old new : Children} {key : String}
    (hnodup : (changes.map FChange.childKey).Nodup)
    (hnet : ∀ childKey, NetChange childKey (old childKey) (new childKey)
      (changes.find? fun change => change.childKey = childKey))
    (hstrict : ∀ change ∈ changes, change.Strict)
    (hsame : ∀ childKey, childKey ≠ key → old childKey = new childKey) :
    changes = [] ∧ old key = new key ∨
      ∃ change, changes = [change] ∧ change.childKey = key ∧ change.Leads (old key) (new key) := by
  have hkey : ∀ change ∈ changes, change.childKey = key := by
    intro change hchange
    by_contra hne
    exact (leads_of_net hnodup hnet hchange).ne (hstrict change hchange) (hsame _ hne)
  cases changes with
  | nil => exact .inl ⟨rfl, hnet key⟩
  | cons change changes =>
      obtain ⟨hone, hrest⟩ := List.forall_mem_cons.mp hkey
      have hleads := leads_of_net hnodup hnet List.mem_cons_self
      rw [hone] at hleads
      refine .inr ⟨change, ?_, hone, hleads⟩
      cases changes with
      | nil => rfl
      | cons other changes =>
          rw [List.map_cons, List.nodup_cons, List.map_cons, hone] at hnodup
          exact absurd (hrest other List.mem_cons_self ▸ List.mem_cons_self) hnodup.1

theorem startLiveUpdating_ofNode {node : Node} (h : Formed (some node)) (type : DataEventType)
    (key : String) : startLiveUpdating ⟨type, key, (Snapshot.ofNode node).val⟩ =
      startLiveUpdating ⟨type, key, node⟩ := by
  rw [startLiveUpdating_eq, startLiveUpdating_eq, h.decodeSnapshot_ofNode]

theorem Client.hears_of_observers {client : Client} (h : client.stage.observers = [])
    (event : Option DataEvent) : client.hears event = none := by
  cases event with
  | none => rfl
  | some event =>
      rw [hears_some, if_neg]
      cases hstage : client.stage <;> rw [hstage] at h <;> cases h <;> simp [Stage.listens]

theorem Stage.observers_childAdded (stage : Stage) : ∀ registration ∈ stage.observers,
    registration.responseTo (.child .childAdded) = false := by
  cases stage <;> simp [Stage.observers, addedPostsObserver, removedPostsObserver]

/-- Nobody is called back for a step in which children only come to be there. -/
theorem liveEvents_of_additions (h : FSyncTree.Reported tree tree' changes events)
    (hstrict : ∀ change ∈ changes, change.Strict) {stage : Stage}
    (hobservers : tree.observers = stage.observers)
    (hadditions : ∀ key, tree.shown key = empty ∨ tree.shown key = tree'.shown key) :
    liveEvents events = [] := by
  obtain ⟨valueChange, hevents⟩ := h.events
  rw [hevents, hobservers]
  refine liveEvents_added (fun change hchange => ?_) stage.observers_childAdded valueChange
  have hleads := leads_of_net h.nodup h.net hchange
  have hnone : tree.shown change.childKey = empty :=
    (hadditions change.childKey).resolve_right (hleads.ne (hstrict change hchange))
  cases change with
  | childAdded childKey indexedNode => rfl
  | childRemoved childKey indexedNode => exact absurd hnone hleads.2.1
  | childChanged childKey indexedNode oldIndexedNode => exact absurd hnone hleads.2.2.1

/-- **The events of a step** in which one child changes come to what is heard of the
change. -/
theorem liveEvents_of_reported (h : FSyncTree.Reported tree tree' changes events)
    (hstrict : ∀ change ∈ changes, change.Strict) {client : Client}
    (hobservers : tree.observers = client.stage.observers) {key : String}
    {before after : Option Node} (hbefore : Formed before) (hafter : Formed after)
    (hold : tree.shown key = Snapshot.ofChild before)
    (hnew : tree'.shown key = Snapshot.ofChild after)
    (hsame : ∀ childKey, childKey ≠ key → tree.shown childKey = tree'.shown childKey) :
    liveEvents events = (client.hears (childEvent key before after)).toList := by
  obtain ⟨valueChange, hevents⟩ := h.events
  rw [hevents, hobservers]
  rcases changes_of_net h.nodup h.net hstrict hsame with
    ⟨rfl, heq⟩ | ⟨change, rfl, rfl, hleads⟩
  · rw [hold, hnew] at heq
    rw [hbefore.ofChild_inj hafter heq, childEvent_self, Client.hears_none]
    exact liveEvents_added (fun _ h => absurd h List.not_mem_nil)
      client.stage.observers_childAdded valueChange
  · have hne := hleads.ne (hstrict change (List.mem_singleton_self change))
    rw [hold, hnew] at hleads hne
    rw [liveEvents_one]
    cases change with
    | childAdded childKey indexedNode =>
        obtain rfl := hbefore.eq_none_iff.mp hleads.1
        rw [Client.hears_childEvent_none]
        exact if_neg (by simp [FChange.type])
    | childRemoved childKey indexedNode =>
        obtain ⟨rfl, hthere, hgone⟩ := hleads
        obtain rfl := hafter.eq_none_iff.mp hgone
        cases before with
        | none => exact absurd rfl hthere
        | some node =>
            show _ = (client.hears (some ⟨.childRemoved, childKey, node⟩)).toList
            rw [Client.hears_some, apply_ite Option.toList, ← startLiveUpdating_ofNode hbefore]
            rfl
    | childChanged childKey indexedNode oldIndexedNode =>
        obtain ⟨rfl, -, hthere, hthere'⟩ := hleads
        cases before with
        | none => exact absurd rfl hthere
        | some old =>
            cases after with
            | none => exact absurd rfl hthere'
            | some new =>
                have hdiffers : old ≠ new := fun heq => hne (by rw [heq])
                have hevent : childEvent childKey (some old) (some new) =
                    some ⟨.childChanged, childKey, new⟩ := if_neg hdiffers
                show _ = (client.hears (childEvent childKey (some old) (some new))).toList
                rw [hevent, Client.hears_some, apply_ite Option.toList,
                  ← startLiveUpdating_ofNode hafter]
                rfl

end Events

end SocialTimeline
