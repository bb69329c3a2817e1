import SocialTimeline.Database.FSyncTree
import SocialTimeline.Theorems.View

/-!
# Observers of a view

An observer of all the children of a location, who keeps a copy of them from its events
alone, has the children that the view shows: after any run of what the user, the server
and the answers to writes may do, in any order (`copies_follow`).
-/

namespace SocialTimeline

open FirebaseTimelineService Lib Lib.Nested FEventGenerator

/-- What an operation comes to for a view, with the events of the net changes. -/
theorem FView.applyOperation_eq (view : FView) (operation : FOperation)
    (writesCache : FWriteTreeRef) (serverCache : Option Snapshot) :
    ∃ changes valueChange, (changes.map FChange.childKey).Nodup ∧
      (∀ childKey, NetChange childKey (child view.viewCache.cachedEventSnap.node childKey)
        (child (FViewProcessor.process view.viewCache operation writesCache
          serverCache).1.cachedEventSnap.node childKey)
        (changes.find? fun change => change.childKey = childKey)) ∧
      (FViewProcessor.Plain operation → ∀ change ∈ changes, change.Strict) ∧
      view.applyOperation operation writesCache serverCache = .ok
        ({ view with viewCache :=
            (FViewProcessor.process view.viewCache operation writesCache serverCache).1 },
          generateEventsForChanges changes valueChange view.eventRegistrations) := by
  obtain ⟨changes, hnodup, hnet, hresult⟩ :=
    FViewProcessor.applyOperationOn_eq view.viewCache operation writesCache serverCache
  refine ⟨changes, FViewProcessor.maybeAddValue view.viewCache
    (FViewProcessor.process view.viewCache operation writesCache serverCache).1 changes,
    hnodup, hnet, fun hplain => FViewProcessor.applyOperationOn_of_plain _ hplain hresult, ?_⟩
  unfold FView.applyOperation
  rw [hresult]
  rfl

namespace FSyncTree

variable {location : List String} {tree tree' : FSyncTree} {act : Act} {events : Events}

/-- The observers of the view. -/
def observers (tree : FSyncTree) : List FEventRegistration :=
  (tree.view.map FView.eventRegistrations).getD []

/-- The children the view shows; none without a view. -/
def shown (tree : FSyncTree) : Children :=
  match tree.view with
  | some view => child view.viewCache.cachedEventSnap.node
  | none => fun _ => Nested.empty

/-- The events are those of the net changes, for all observers. -/
structure Reported (tree tree' : FSyncTree) (changes : List FChange) (events : Events) : Prop where
  observers : tree'.observers = tree.observers
  nodup : (changes.map FChange.childKey).Nodup
  net : ∀ childKey, NetChange childKey (tree.shown childKey) (tree'.shown childKey)
    (changes.find? fun change => change.childKey = childKey)
  events : ∃ valueChange, events = generateEventsForChanges changes valueChange tree.observers

theorem reported_nothing (tree : FSyncTree) (pendingWriteTree : FWriteTree Snapshot) :
    Reported tree { tree with pendingWriteTree } [] [] where
  observers := rfl
  nodup := List.nodup_nil
  net _ := rfl
  events := ⟨none, by simp [generateEventsForChanges, generateEvents]⟩

/-- The pending writes are not shown themselves. -/
theorem Reported.of_pendingWriteTree {pendingWriteTree : FWriteTree Snapshot}
    {changes : List FChange} (h : Reported { tree with pendingWriteTree } tree' changes events) :
    Reported tree tree' changes events := ⟨h.observers, h.nodup, h.net, h.events⟩

theorem applyOperationToSyncPoints_reported {operation : FOperation}
    (h : tree.applyOperationToSyncPoints location operation = some (tree', events)) :
    ∃ changes, Reported tree tree' changes events ∧
      ((∀ rest, operationAt location operation = some rest → FViewProcessor.Plain rest) →
        ∀ change ∈ changes, change.Strict) := by
  unfold applyOperationToSyncPoints at h
  split at h
  · rename_i view viewOperation hview hoperation
    obtain ⟨changes, valueChange, hnodup, hnet, hstrict, happly⟩ := view.applyOperation_eq
      viewOperation (tree.writesCache location) view.viewCache.completeServerSnap
    dsimp only at h
    rw [happly] at h
    cases h
    refine ⟨changes, ⟨?_, hnodup, ?_, valueChange, ?_⟩, fun hplain => ?_⟩
    · simp [observers, hview]
    · simpa only [shown, hview] using hnet
    · simp [observers, hview]
    · exact hstrict (hplain viewOperation hoperation)
  · cases h
    exact ⟨[], reported_nothing tree tree.pendingWriteTree, fun _ _ h => absurd h List.not_mem_nil⟩

/-- What is new to an observer of a snapshot. -/
theorem initialEvents_net (view : FView) (registration : FEventRegistration) :
    ∃ changes valueChange, (changes.map FChange.childKey).Nodup ∧
      (∀ childKey, NetChange childKey Nested.empty
        (child view.viewCache.cachedEventSnap.node childKey)
        (changes.find? fun change => change.childKey = childKey)) ∧
      view.initialEvents registration =
        generateEventsForChanges changes valueChange [registration] := by
  have hkeys : (view.viewCache.cachedEventSnap.node.childKeys.map fun key =>
      FChange.childAdded key (child view.viewCache.cachedEventSnap.node key)).map
        FChange.childKey = view.viewCache.cachedEventSnap.node.childKeys := by
    rw [List.map_map]
    exact List.map_id _
  refine ⟨_, _, ?_, fun childKey => ?_, rfl⟩
  · rw [hkeys]
    exact Snapshot.nodup_childKeys _
  · cases hfind : List.find? (fun change : FChange => decide (change.childKey = childKey))
        (view.viewCache.cachedEventSnap.node.childKeys.map fun key =>
          FChange.childAdded key (child view.viewCache.cachedEventSnap.node key)) with
    | none =>
        by_contra hne
        have hmem := Snapshot.mem_childKeys.mpr (Ne.symm hne)
        exact absurd (decide_eq_true rfl)
          (List.find?_eq_none.mp hfind _ (List.mem_map_of_mem hmem))
    | some change =>
        obtain ⟨key, hmem, rfl⟩ := List.mem_map.mp (List.mem_of_find?_eq_some hfind)
        have hfound := List.find?_some hfind
        have hkey : key = childKey := of_decide_eq_true hfound
        subst hkey
        exact ⟨rfl, rfl, rfl, Snapshot.mem_childKeys.mp hmem⟩

theorem observers_addEventRegistration (location : List String) (tree : FSyncTree)
    (registration : FEventRegistration) :
    (tree.addEventRegistration location registration).1.observers =
      tree.observers ++ [registration] := by
  unfold FSyncTree.addEventRegistration observers
  cases tree.view <;> rfl

/-- **What a step does** to what is shown: an operation raises the events of the net
changes for all observers, and a new observer gets all there is. -/
theorem next_cases (h : tree.next location act = some (tree', events)) :
    (∃ changes, Reported tree tree' changes events) ∨
    ∃ registration changes valueChange, act = .addEventRegistration registration ∧
      tree'.observers = tree.observers ++ [registration] ∧
      (tree.observers ≠ [] → tree'.shown = tree.shown) ∧
      (changes.map FChange.childKey).Nodup ∧
      (∀ childKey, NetChange childKey Nested.empty (tree'.shown childKey)
        (changes.find? fun change => change.childKey = childKey)) ∧
      events = generateEventsForChanges changes valueChange [registration] := by
  have hreported : ∀ {operation : FOperation},
      tree.applyOperationToSyncPoints location operation = some (tree', events) →
        ∃ changes, Reported tree tree' changes events := fun happly =>
    (applyOperationToSyncPoints_reported happly).imp fun _ h => h.1
  have hreported' : ∀ {pendingWriteTree : FWriteTree Snapshot} {operation : FOperation},
      { tree with pendingWriteTree }.applyOperationToSyncPoints location operation =
          some (tree', events) →
        ∃ changes, Reported tree tree' changes events := fun happly =>
    (applyOperationToSyncPoints_reported happly).imp fun _ h => h.1.of_pendingWriteTree
  cases act with
  | userOverwrite path newData writeId visible =>
      obtain ⟨pendingWriteTree, -, h⟩ := Option.bind_eq_some_iff.mp h
      dsimp only at h
      split at h
      · exact .inl (hreported' h)
      · cases h
        exact .inl ⟨[], reported_nothing tree pendingWriteTree⟩
  | userMerge path changedChildren writeId =>
      obtain ⟨pendingWriteTree, -, h⟩ := Option.bind_eq_some_iff.mp h
      dsimp only at h
      exact .inl (hreported' h)
  | ackUserWrite writeId revert =>
      obtain ⟨write, -, h⟩ := Option.bind_eq_some_iff.mp h
      obtain ⟨⟨needToReevaluate, pendingWriteTree⟩, -, h⟩ := Option.bind_eq_some_iff.mp h
      dsimp only at h
      split at h
      · exact .inl (hreported' h)
      · cases h
        exact .inl ⟨[], reported_nothing tree pendingWriteTree⟩
  | removeAllWrites =>
      unfold next removeAllWrites at h
      dsimp only at h
      split at h
      · exact .inl (hreported' h)
      · cases h
        exact .inl ⟨[], reported_nothing tree _⟩
  | serverOverwrite path newData => exact .inl (hreported h)
  | serverMerge path changedChildren => exact .inl (hreported h)
  | listenComplete path => exact .inl (hreported h)
  | addEventRegistration registration =>
      cases h
      obtain ⟨changes, valueChange, hnodup, hnet, hevents⟩ := initialEvents_net
        ((tree.view.getD
          { viewCache := FView.initialViewCache (tree.writesCache location)
              { node := empty, isFullyInitialized := false }
            eventRegistrations := [] }).addEventRegistration registration) registration
      refine .inr ⟨registration, changes, valueChange, rfl,
        observers_addEventRegistration location tree registration, ?_, hnodup, hnet, hevents⟩
      intro hobservers
      cases hview : tree.view with
      | none => simp [observers, hview] at hobservers
      | some view => simp [shown, hview, FView.addEventRegistration]

/-! ## Copies -/

/-- The events of a step. -/
def raised (location : List String) (tree : FSyncTree) (act : Act) : Events :=
  ((tree.next location act).map Prod.snd).getD []

/-- An observer makes the changes of a step on its copy. -/
def listen (location : List String) (handle : Nat) (copy : String → Option Node)
    (tree : FSyncTree) (act : Act) (_ : FSyncTree) : String → Option Node :=
  (heard handle (raised location tree act)).foldl hear copy

/-- Each observer is registered once. -/
def Registrable (tree : FSyncTree) : Act → Prop
  | .addEventRegistration registration =>
      registration.handle ∉ tree.observers.map FEventRegistration.handle
  | _ => True

/-- A copy without events to make is that of no children. -/
theorem copyOf_empty : (copyOf fun _ => Nested.empty) = fun _ => none := rfl

/-- Each observer of the view is registered once, those of all children have copies of
what is shown, and who is not registered has heard nothing. -/
structure Copied (copies : Nat → String → Option Node) (tree : FSyncTree) : Prop where
  nodup : (tree.observers.map FEventRegistration.handle).Nodup
  silent : ∀ handle, handle ∉ tree.observers.map FEventRegistration.handle →
    copies handle = fun _ => none
  copied : ∀ registration ∈ tree.observers,
    (∀ type, registration.responseTo (.child type) = true) →
      copies registration.handle = copyOf tree.shown

theorem Copied.next {copies : Nat → String → Option Node} (h : Copied copies tree)
    (hstep : tree.next location act = some (tree', events)) (hregistrable : tree.Registrable act) :
    Copied (fun handle => (heard handle events).foldl hear (copies handle)) tree' := by
  rcases next_cases hstep with ⟨changes, hobservers, hnodup, hnet, valueChange, rfl⟩ |
    ⟨registration, changes, valueChange, rfl, hobservers, hshown, hnodup, hnet, rfl⟩
  · refine ⟨hobservers ▸ h.nodup, fun handle hnot => ?_, fun registration hmem hresponse => ?_⟩
    · rw [hobservers] at hnot
      rw [heard_of_not_mem hnot]
      exact h.silent handle hnot
    · rw [hobservers] at hmem
      rw [h.copied registration hmem hresponse]
      exact hear_events hmem h.nodup hresponse hnodup hnet valueChange
  · have hfresh : registration.handle ∉ tree.observers.map FEventRegistration.handle :=
      hregistrable
    have hothers : ∀ handle, handle ≠ registration.handle →
        heard handle (generateEventsForChanges changes valueChange [registration]) = [] :=
      fun handle hne => heard_of_not_mem (by simpa using hne) changes valueChange
    refine ⟨?_, fun handle hnot => ?_, fun other hmem hresponse => ?_⟩
    · rw [hobservers, List.map_append, List.map_singleton, ← List.concat_eq_append,
        List.nodup_concat]
      exact ⟨hfresh, h.nodup⟩
    · rw [hobservers, List.map_append, List.mem_append, not_or] at hnot
      rw [hothers handle (by simpa using hnot.2)]
      exact h.silent handle hnot.1
    · rw [hobservers, List.mem_append, List.mem_singleton] at hmem
      rcases hmem with hold | rfl
      · -- an older observer hears nothing of the new one
        have hne : other.handle ≠ registration.handle := fun heq =>
          hfresh (heq ▸ List.mem_map_of_mem hold)
        rw [hothers other.handle hne, hshown (List.ne_nil_of_mem hold)]
        exact h.copied other hold hresponse
      · rw [h.silent other.handle hfresh, ← copyOf_empty]
        exact hear_events (List.mem_singleton_self other) (List.nodup_singleton _) hresponse
          hnodup hnet valueChange

/-- After any run in which each observer is registered once, copies are copies. -/
theorem copied {as : List Act}
    (hregistrable : (syncTree location).EachStep (fun _ tree act => tree.Registrable act) as) :
    (syncTree location).Always (fun as tree =>
      Copied (fun handle => (syncTree location).history (listen location handle)
        (fun _ => none) as) tree) as := by
  refine TSys.always_of_eachStep ?_ (fun as act s t hrun hprev hact hstep => ?_) hregistrable
  · exact ⟨List.nodup_nil, fun _ _ => rfl, fun _ hmem => absurd hmem List.not_mem_nil⟩
  · obtain ⟨⟨u, events⟩, hnext, rfl⟩ := Option.map_eq_some_iff.mp hstep
    have hevents : ∀ handle, (syncTree location).history (listen location handle)
        (fun _ => none) (as ++ [act]) = (heard handle events).foldl hear
          ((syncTree location).history (listen location handle) (fun _ => none) as) := by
      intro handle
      rw [TSys.history_snoc _ _ _ hrun hstep, listen, raised, hnext]
      rfl
    simp only [hevents]
    exact hprev.next hnext hact

end FSyncTree

end SocialTimeline
