import SocialTimeline.Database.FView
import SocialTimeline.Theorems.Changes

/-!
# What a view reports

Whatever the operation and whatever the caches hold, the changes the processor tracks
lead from the children that were shown to the children that are (`process_reports`). So
the accumulator never throws, each child has one change at most, which is its net
change, and no other value is shown without a value change (`changes_net`). Most
operations track each child once, and no change to the value that was there
(`process_proper`).
-/

namespace SocialTimeline

open FirebaseTimelineService Lib Lib.Nested

namespace FViewProcessor

variable {writesCache : FWriteTreeRef}

/-- A step of the caches, with the changes of what is shown. -/
def Reports (old : FViewCache) (new : FViewCache × List FChange) : Prop :=
  LeadsTo (child old.cachedEventSnap.node) new.2 (child new.1.cachedEventSnap.node)

/-- The server's side is not shown. -/
theorem Reports.of_serverSnap {old : FViewCache} {cachedServerSnap : FCacheNode}
    {new : FViewCache × List FChange} (h : Reports { old with cachedServerSnap } new) :
    Reports old new := h

theorem reports_nothing (viewCache : FViewCache) : Reports viewCache (viewCache, []) := .nil _

theorem thenApply_reports {α : Type} {step : FViewCache → α → FViewCache × List FChange}
    (hstep : ∀ viewCache a, Reports viewCache (step viewCache a)) (as : List α)
    (viewCache : FViewCache) : Reports viewCache (thenApply step viewCache as) := by
  induction as generalizing viewCache with
  | nil => exact reports_nothing viewCache
  | cons a as ih => exact (hstep viewCache a).append (ih _)

theorem generateEventCacheAfterServerEvent_reports (viewCache : FViewCache)
    (changePath : List String) (writesCache : FWriteTreeRef) :
    Reports viewCache (generateEventCacheAfterServerEvent viewCache changePath writesCache) := by
  unfold generateEventCacheAfterServerEvent
  simp only
  split
  · exact reports_nothing viewCache
  · cases changePath with
    | nil => exact FIndexedFilter.updateFullNode_leadsTo _ _
    | cons childKey childChangePath =>
        simp only
        split
        · exact FIndexedFilter.updateChildIn_leadsTo _ _ _ _
        · exact LeadsTo.nil _

theorem applyServerOverwriteTo_reports (viewCache : FViewCache) (changePath : List String)
    (changedSnap : Snapshot) (writesCache : FWriteTreeRef) :
    Reports viewCache (applyServerOverwriteTo viewCache changePath changedSnap writesCache) := by
  unfold applyServerOverwriteTo
  simp only
  split
  · exact reports_nothing viewCache
  · exact Reports.of_serverSnap
      (generateEventCacheAfterServerEvent_reports _ changePath writesCache)

theorem applyUserOverwriteTo_reports (writesCache : FWriteTreeRef)
    (optCompleteCache : Option Snapshot) (viewCache : FViewCache)
    (write : List String × Snapshot) :
    Reports viewCache (applyUserOverwriteTo writesCache optCompleteCache viewCache write) := by
  obtain ⟨changePath, changedSnap⟩ := write
  unfold applyUserOverwriteTo
  cases changePath with
  | nil => exact FIndexedFilter.updateFullNode_leadsTo _ _
  | cons childKey childChangePath =>
      simp only
      split
      · exact FIndexedFilter.updateChildIn_leadsTo _ _ _ _
      · exact reports_nothing viewCache

theorem applyServerMergeTo_reports (viewCache : FViewCache) (path : List String)
    (changedChildren : FCompoundWrite Snapshot) (writesCache : FWriteTreeRef) :
    Reports viewCache (applyServerMergeTo viewCache path changedChildren writesCache) := by
  unfold applyServerMergeTo
  simp only
  split
  · exact reports_nothing viewCache
  · exact thenApply_reports (fun viewCache childKey =>
      applyServerOverwriteTo_reports viewCache [childKey] _ writesCache) _ viewCache

theorem ackUserWriteOn_reports (viewCache : FViewCache) (ackPath : List String)
    (affectedTree : FImmutableTree Unit) (writesCache : FWriteTreeRef) :
    Reports viewCache (ackUserWriteOn viewCache ackPath affectedTree writesCache) := by
  unfold ackUserWriteOn
  simp only
  split
  · exact reports_nothing viewCache
  · split
    · split
      · exact applyServerOverwriteTo_reports viewCache ackPath _ writesCache
      · split
        · exact applyServerMergeTo_reports viewCache ackPath _ writesCache
        · exact reports_nothing viewCache
    · exact applyServerMergeTo_reports viewCache ackPath _ writesCache

theorem revertUserWriteOn_reports (viewCache : FViewCache) (path : List String)
    (writesCache : FWriteTreeRef) :
    Reports viewCache (revertUserWriteOn viewCache path writesCache) := by
  unfold revertUserWriteOn
  simp only
  split
  · exact reports_nothing viewCache
  · cases path with
    | nil => exact FIndexedFilter.updateFullNode_leadsTo _ _
    | cons childKey affectedPath =>
        have hchild : LeadsTo (child viewCache.cachedEventSnap.node)
            (revertChildIn viewCache childKey affectedPath writesCache).2
            (child (revertChildIn viewCache childKey affectedPath writesCache).1) := by
          unfold revertChildIn
          simp only
          split
          · exact FIndexedFilter.updateChildIn_leadsTo _ _ _ _
          · split
            · exact FIndexedFilter.updateChildIn_leadsTo _ _ _ _
            · exact LeadsTo.nil _
        simp only
        split
        · exact hchild.append (FIndexedFilter.updateFullNode_leadsTo _ _)
        · exact hchild

theorem process_reports (viewCache : FViewCache) (operation : FOperation)
    (writesCache : FWriteTreeRef) (optCompleteCache : Option Snapshot) :
    Reports viewCache (process viewCache operation writesCache optCompleteCache) := by
  cases operation with
  | overwrite source path snap =>
      cases source with
      | user => exact applyUserOverwriteTo_reports writesCache optCompleteCache viewCache _
      | server => exact applyServerOverwriteTo_reports viewCache path snap writesCache
  | merge source path children =>
      cases source with
      | user =>
          exact thenApply_reports (applyUserOverwriteTo_reports writesCache optCompleteCache) _ _
      | server => exact applyServerMergeTo_reports viewCache path children writesCache
  | ackUserWrite path affectedTree revert =>
      cases revert with
      | true => exact revertUserWriteOn_reports viewCache path writesCache
      | false => exact ackUserWriteOn_reports viewCache path affectedTree writesCache
  | listenComplete path =>
      exact Reports.of_serverSnap (generateEventCacheAfterServerEvent_reports _ path writesCache)

/-- What an operation comes to, with the net changes. -/
theorem applyOperationOn_eq (viewCache : FViewCache) (operation : FOperation)
    (writesCache : FWriteTreeRef) (optCompleteCache : Option Snapshot) :
    ∃ changes, (changes.map FChange.childKey).Nodup ∧
      (∀ childKey, NetChange childKey (child viewCache.cachedEventSnap.node childKey)
        (child (process viewCache operation writesCache optCompleteCache).1.cachedEventSnap.node
          childKey) (changes.find? fun change => change.childKey = childKey)) ∧
      applyOperationOn viewCache operation writesCache optCompleteCache = .ok
        { viewCache := (process viewCache operation writesCache optCompleteCache).1
          changes
          valueChange := maybeAddValue viewCache
            (process viewCache operation writesCache optCompleteCache).1 changes } := by
  obtain ⟨changeMap, htrack, hnets⟩ := FChildChangeAccumulator.track_of_leadsTo
    (process_reports viewCache operation writesCache optCompleteCache)
  refine ⟨FChildChangeAccumulator.changes changeMap, ?_, fun childKey => ?_, ?_⟩
  · rw [hnets.childKey_changes]
    exact hnets.nodup
  · rw [FChildChangeAccumulator.find_changes fun e he => hnets.childKey_eq he]
    exact hnets.net childKey
  · rw [applyOperationOn, htrack]
    rfl

theorem generateEventCacheAfterServerEvent_proper (viewCache : FViewCache)
    (changePath : List String) (writesCache : FWriteTreeRef) :
    Proper (generateEventCacheAfterServerEvent viewCache changePath writesCache).2 ∧
      ∀ childKey ∈ changePath.head?,
        ∀ change ∈ (generateEventCacheAfterServerEvent viewCache changePath writesCache).2,
          change.childKey = childKey := by
  unfold generateEventCacheAfterServerEvent
  dsimp only
  split
  · exact ⟨proper_nil, fun _ _ _ h => absurd h List.not_mem_nil⟩
  · cases changePath with
    | nil => exact ⟨FIndexedFilter.updateFullNode_proper _ _, nofun⟩
    | cons childKey childChangePath =>
        dsimp only
        split
        · obtain ⟨hproper, hkey⟩ := FIndexedFilter.updateChildIn_proper
            viewCache.cachedEventSnap.node childKey ‹_› childChangePath
          exact ⟨hproper, fun _ hhead => Option.some.inj hhead ▸ hkey⟩
        · exact ⟨proper_nil, fun _ _ _ h => absurd h List.not_mem_nil⟩

theorem applyServerOverwriteTo_proper (viewCache : FViewCache) (changePath : List String)
    (changedSnap : Snapshot) (writesCache : FWriteTreeRef) :
    Proper (applyServerOverwriteTo viewCache changePath changedSnap writesCache).2 ∧
      ∀ childKey ∈ changePath.head?,
        ∀ change ∈ (applyServerOverwriteTo viewCache changePath changedSnap writesCache).2,
          change.childKey = childKey := by
  unfold applyServerOverwriteTo
  dsimp only
  split
  · exact ⟨proper_nil, fun _ _ _ h => absurd h List.not_mem_nil⟩
  · exact generateEventCacheAfterServerEvent_proper _ changePath writesCache

theorem applyUserOverwriteTo_proper (writesCache : FWriteTreeRef)
    (optCompleteCache : Option Snapshot) (viewCache : FViewCache)
    (write : List String × Snapshot) :
    Proper (applyUserOverwriteTo writesCache optCompleteCache viewCache write).2 := by
  obtain ⟨changePath, changedSnap⟩ := write
  unfold applyUserOverwriteTo
  cases changePath with
  | nil => exact FIndexedFilter.updateFullNode_proper _ _
  | cons childKey childChangePath =>
      dsimp only
      split
      · exact (FIndexedFilter.updateChildIn_proper _ _ _ _).1
      · exact proper_nil

/-- Steps about different children. -/
theorem thenApply_proper {step : FViewCache → String → FViewCache × List FChange}
    (hstep : ∀ viewCache childKey, Proper (step viewCache childKey).2 ∧
      ∀ change ∈ (step viewCache childKey).2, change.childKey = childKey)
    {childKeys : List String} (hnodup : childKeys.Nodup) (viewCache : FViewCache) :
    Proper (thenApply step viewCache childKeys).2 ∧
      ∀ change ∈ (thenApply step viewCache childKeys).2, change.childKey ∈ childKeys := by
  induction childKeys generalizing viewCache with
  | nil => exact ⟨proper_nil, fun _ h => absurd h List.not_mem_nil⟩
  | cons childKey childKeys ih =>
      rw [List.nodup_cons] at hnodup
      obtain ⟨hproper, hkey⟩ := hstep viewCache childKey
      obtain ⟨hproper', hkeys⟩ := ih hnodup.2 (step viewCache childKey).1
      refine ⟨hproper.append hproper' ?_, List.forall_mem_append.mpr ⟨?_, ?_⟩⟩
      · intro key hold hnew
        obtain ⟨change, hchange, rfl⟩ := List.mem_map.mp hold
        obtain ⟨change', hchange', hsame⟩ := List.mem_map.mp hnew
        rw [hkey change hchange] at hsame
        exact hnodup.1 (hsame ▸ hkeys change' hchange')
      · exact fun change hchange => hkey change hchange ▸ List.mem_cons_self
      · exact fun change hchange => List.mem_cons_of_mem _ (hkeys change hchange)

theorem applyServerMergeTo_proper (viewCache : FViewCache) (path : List String)
    (changedChildren : FCompoundWrite Snapshot) (writesCache : FWriteTreeRef) :
    Proper (applyServerMergeTo viewCache path changedChildren writesCache).2 := by
  unfold applyServerMergeTo
  dsimp only
  split
  · exact proper_nil
  · refine (thenApply_proper (fun viewCache childKey => ?_) ?_ viewCache).1
    · obtain ⟨hproper, hkey⟩ := applyServerOverwriteTo_proper viewCache [childKey] _ writesCache
      exact ⟨hproper, hkey childKey rfl⟩
    · -- a child is overwritten once: the server is known to have it, or is not
      refine ((FCompoundWrite.nodup_childKeys _).filter _).append
        ((FCompoundWrite.nodup_childKeys _).filter _) ?_
      intro childKey hknown hother
      have hnot := (List.mem_filter.mp hother).2
      rw [(List.mem_filter.mp hknown).2] at hnot
      cases hnot

theorem ackUserWriteOn_proper (viewCache : FViewCache) (ackPath : List String)
    (affectedTree : FImmutableTree Unit) (writesCache : FWriteTreeRef) :
    Proper (ackUserWriteOn viewCache ackPath affectedTree writesCache).2 := by
  unfold ackUserWriteOn
  dsimp only
  split
  · exact proper_nil
  · split
    · split
      · exact (applyServerOverwriteTo_proper viewCache ackPath _ writesCache).1
      · split
        · exact applyServerMergeTo_proper viewCache ackPath _ writesCache
        · exact proper_nil
    · exact applyServerMergeTo_proper viewCache ackPath _ writesCache

theorem revertUserWriteOn_proper (viewCache : FViewCache) (path : List String)
    (writesCache : FWriteTreeRef) :
    Proper (revertUserWriteOn viewCache path writesCache).2 := by
  unfold revertUserWriteOn
  dsimp only
  split
  · exact proper_nil
  · cases path with
    | nil => exact FIndexedFilter.updateFullNode_proper _ _
    | cons childKey affectedPath =>
        have hchild : Proper (revertChildIn viewCache childKey affectedPath writesCache).2 := by
          unfold revertChildIn
          dsimp only
          split
          · exact (FIndexedFilter.updateChildIn_proper _ _ _ _).1
          · split
            · exact (FIndexedFilter.updateChildIn_proper _ _ _ _).1
            · exact proper_nil
        dsimp only
        split
        · -- from nothing to a leaf there is no child to track
          rename_i hleaf
          have hnone : (FIndexedFilter.updateFullNode
              (revertChildIn viewCache childKey affectedPath writesCache).1
              ((writesCache.calculateCompleteEventCache
                viewCache.completeServerSnap).getD empty)).2 = [] := by
            rw [FIndexedFilter.updateFullNode_snd, Snapshot.isEmpty_iff.mp hleaf.1,
              Snapshot.childKeys_of_isLeafNode hleaf.2.2]
            rfl
          rw [hnone, List.append_nil]
          exact hchild
        · exact hchild

/-- A merge of the user makes one write at most. -/
def Plain : FOperation → Prop
  | .merge .user _ children => children.writeTree.forEach.length ≤ 1
  | _ => True

theorem process_proper (viewCache : FViewCache) {operation : FOperation}
    (hplain : Plain operation) (writesCache : FWriteTreeRef)
    (optCompleteCache : Option Snapshot) :
    Proper (process viewCache operation writesCache optCompleteCache).2 := by
  match operation, hplain with
  | .overwrite .user path snap, _ => exact applyUserOverwriteTo_proper _ _ viewCache _
  | .overwrite .server path snap, _ =>
      exact (applyServerOverwriteTo_proper viewCache path snap writesCache).1
  | .merge .server path children, _ =>
      exact applyServerMergeTo_proper viewCache path children writesCache
  | .ackUserWrite path affectedTree true, _ =>
      exact revertUserWriteOn_proper viewCache path writesCache
  | .ackUserWrite path affectedTree false, _ =>
      exact ackUserWriteOn_proper viewCache path affectedTree writesCache
  | .listenComplete path, _ =>
      exact (generateEventCacheAfterServerEvent_proper _ path writesCache).1
  | .merge .user path children, hplain =>
      have hone : ∀ {writes : List (List String × Snapshot)}, writes.length ≤ 1 →
          Proper (thenApply (applyUserOverwriteTo writesCache optCompleteCache) viewCache
            writes).2 := by
        intro writes hlength
        match writes, hlength with
        | [], _ => exact proper_nil
        | [write], _ =>
            show Proper
              ((applyUserOverwriteTo writesCache optCompleteCache viewCache write).2 ++ [])
            rw [List.append_nil]
            exact applyUserOverwriteTo_proper _ _ viewCache write
      refine hone (le_of_eq_of_le ?_ hplain)
      rw [(List.filter_append_perm _ _).length_eq, List.length_map]

/-- The changes are reported as they are tracked. -/
theorem applyOperationOn_of_plain (viewCache : FViewCache) {operation : FOperation}
    (hplain : Plain operation) {writesCache : FWriteTreeRef}
    {optCompleteCache : Option Snapshot} {result : Result}
    (h : applyOperationOn viewCache operation writesCache optCompleteCache = .ok result) :
    ∀ change ∈ result.changes, change.Strict := by
  have hproper := process_proper viewCache hplain writesCache optCompleteCache
  obtain ⟨changeMap, htrack, hsame⟩ := FChildChangeAccumulator.track_of_nodup hproper.nodup
  rw [applyOperationOn, htrack] at h
  cases h
  exact hsame.symm ▸ hproper.strict

end FViewProcessor

end SocialTimeline
