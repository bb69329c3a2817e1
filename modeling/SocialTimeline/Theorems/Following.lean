import SocialTimeline.Database.FSyncTree
import SocialTimeline.Theorems.Observing
import SocialTimeline.Theorems.Showing

/-!
# Views follow the server

Along every orderly run, a view that the server has told all of its location shows what
the server has told with the pending writes made on it, in the order of issue
(`view_follows`), and so do the copies of its observers (`observers_follow`). With
nothing pending both are just what the server has told.
-/

namespace SocialTimeline

open Lib Lib.Nested FImmutableTree FCompoundWrite

/-! ## Operations on the way to a location -/

namespace FOperation

/-- A merge does not replace all there is. -/
def Rootless : FOperation → Prop
  | merge _ _ children => children.rootWrite = none
  | _ => True

variable {operation : FOperation} {source : FOperationSource} {childKey : String}

theorem writes_of_isEmpty {write : FCompoundWrite Snapshot} (h : write.isEmpty = true) :
    write.writes = [] := by
  rw [List.eq_nil_iff_forall_not_mem]
  rintro ⟨q, node⟩ hmem
  have hvalue := mem_writes.mp hmem
  rw [valueAtPath_of_isEmpty h] at hvalue
  cases hvalue

theorem under_nil (writes : List (List String × Snapshot)) : under [] writes = writes := by
  simp [under]

theorem child_setAll_under (childKey : String) (path : List String)
    (writes : List (List String × Snapshot)) (node : Snapshot) :
    child (setAll (under (childKey :: path) writes) node) childKey =
      setAll (under path writes) (child node childKey) := by
  have hbelow := get_setAll_below [childKey] (under path writes) node
  unfold under at hbelow ⊢
  rw [List.map_map] at hbelow
  exact hbelow

/-- What is left of some data for a child makes of the child what the data makes of it. -/
theorem operationForChild_spec (hdata : operation.source? = some source)
    (hpath : operation.path = [] ∨ operation.path.head? = some childKey) (node : Snapshot) :
    match operation.operationForChild childKey with
    | some rest => rest.source? = some source ∧ (operation.Rootless → rest.Rootless) ∧
        child (setAll operation.writes node) childKey =
          setAll rest.writes (child node childKey) ∧
        ∀ path, Covers operation.writes (childKey :: path) → Covers rest.writes path
    | none => child (setAll operation.writes node) childKey = child node childKey ∧
        ∀ path, ¬Covers operation.writes (childKey :: path) := by
  cases operation with
  | ackUserWrite path affectedTree revert => cases hdata
  | listenComplete path => cases hdata
  | overwrite source' path snap =>
      cases path with
      | nil => exact ⟨hdata, id, rfl, fun path _ => ⟨_, List.mem_singleton_self _, List.nil_prefix⟩⟩
      | cons key path =>
          obtain rfl : key = childKey := by simpa [FOperation.path] using hpath
          refine ⟨hdata, id, child_setChild_self _ _ _, fun q hcovers => ?_⟩
          obtain ⟨w, hw, hprefix⟩ := hcovers
          rw [List.mem_singleton.mp hw] at hprefix
          exact ⟨_, List.mem_singleton_self _, (List.cons_prefix_cons.mp hprefix).2⟩
  | merge source' path children =>
      cases path with
      | cons key path =>
          obtain rfl : key = childKey := by simpa [FOperation.path] using hpath
          refine ⟨hdata, id, child_setAll_under _ _ _ _, fun q hcovers => ?_⟩
          obtain ⟨w, hw, hprefix⟩ := hcovers
          obtain ⟨e, he, rfl⟩ := List.mem_map.mp hw
          exact ⟨_, List.mem_map_of_mem he, (List.cons_prefix_cons.mp hprefix).2⟩
      | nil =>
          have hwrites : (merge source' [] children).writes = children.writes := under_nil _
          have hchild : child (setAll children.writes node) childKey =
              get [childKey] (children.applyToNode node) := by
            rw [applyToNode_eq_setAll]
            rfl
          rw [hwrites, operationForChild]
          cases hcomplete : children.completeNodeAtPath [childKey] with
          | some snap =>
              have hroot : children.childCompoundWriteAtPath [childKey] = root snap := by
                rw [childCompoundWriteAtPath, if_neg (List.cons_ne_nil _ _), hcomplete]
              rw [hroot]
              refine ⟨hdata, fun _ => trivial, ?_, fun path _ =>
                ⟨_, List.mem_singleton_self _, List.nil_prefix⟩⟩
              rw [hchild, get_applyToNode_shadowed hcomplete]
              rfl
          | none =>
              have hexposed := exposed_of_none hcomplete
              have hroot : (children.subtree [childKey]).rootWrite = none := by
                show valueAtPath [] (subtreeAtPath [childKey] children.writeTree) = none
                rw [valueAtPath_subtreeAtPath]
                exact hexposed _ (List.prefix_refl _)
              have hcovers : ∀ path, Covers children.writes (childKey :: path) →
                  Covers (children.subtree [childKey]).writes path := by
                rintro path ⟨⟨q, value⟩, hmem, hprefix⟩
                cases q with
                | nil =>
                    have hvalue := mem_writes.mp hmem
                    rw [hexposed [] List.nil_prefix] at hvalue
                    cases hvalue
                | cons key q =>
                    obtain ⟨rfl, hq⟩ := List.cons_prefix_cons.mp hprefix
                    refine ⟨(q, value), mem_writes.mpr ?_, hq⟩
                    rw [subtree, valueAtPath_subtreeAtPath]
                    exact mem_writes.mp hmem
              rw [childCompoundWriteAtPath_of_none hcomplete, hchild,
                get_applyToNode hexposed.noneAbove]
              by_cases hempty : (children.subtree [childKey]).isEmpty = true
              · rw [if_pos hempty]
                refine ⟨FWriteTree.applyToNode_of_isEmpty hempty _, fun path h => ?_⟩
                obtain ⟨w, hw, -⟩ := hcovers path h
                rw [writes_of_isEmpty hempty] at hw
                exact absurd hw List.not_mem_nil
              · rw [if_neg hempty, hroot]
                dsimp only
                rw [writes, under_nil]
                exact ⟨hdata, fun _ => hroot, applyToNode_eq_setAll _ _, hcovers⟩

end FOperation

namespace FSyncTree

open FViewProcessor FOperation

variable {operation : FOperation} {source : FOperationSource} {location : List String}

/-- What is left of some data at a location makes of it what the data makes of it. -/
theorem operationAt_spec (hdata : operation.source? = some source) (location : List String)
    (node : Snapshot) :
    match operationAt location operation with
    | some rest => rest.source? = some source ∧ (operation.Rootless → rest.Rootless) ∧
        get location (setAll operation.writes node) = setAll rest.writes (get location node) ∧
        (Covers operation.writes location → Covers rest.writes [])
    | none => get location (setAll operation.writes node) = get location node ∧
        ¬Covers operation.writes location := by
  induction location generalizing operation node with
  | nil => exact ⟨hdata, id, rfl, id⟩
  | cons childKey location ih =>
      rw [operationAt]
      by_cases hpath : operation.path = [] ∨ operation.path.head? = some childKey
      · rw [if_pos hpath]
        have hone := operationForChild_spec hdata hpath node
        cases hrest : operation.operationForChild childKey with
        | none =>
            rw [hrest] at hone
            exact ⟨congrArg (get location) hone.1, hone.2 location⟩
        | some rest =>
            rw [hrest] at hone
            obtain ⟨hdata', hrootless, hchild, hcovers⟩ := hone
            have hmore := ih hdata' (child node childKey)
            dsimp only [Option.bind]
            cases hlast : operationAt location rest with
            | none =>
                rw [hlast] at hmore
                exact ⟨(congrArg (get location) hchild).trans hmore.1,
                  fun h => hmore.2 (hcovers location h)⟩
            | some last =>
                rw [hlast] at hmore
                obtain ⟨hdata'', hrootless', hget, hcovers'⟩ := hmore
                exact ⟨hdata'', fun h => hrootless' (hrootless h),
                  (congrArg (get location) hchild).trans hget,
                  fun h => hcovers' (hcovers location h)⟩
      · rw [if_neg hpath]
        -- all of the data is elsewhere
        have hapart : ∀ e ∈ operation.writes, Diverge (childKey :: location) e.1 := by
          intro e he
          have hbelow : operation.path <+: e.1 := by
            cases operation with
            | ackUserWrite path affectedTree revert => cases hdata
            | listenComplete path => cases hdata
            | overwrite source path snap =>
                rw [List.mem_singleton.mp he]
                exact List.prefix_refl path
            | merge source path children =>
                obtain ⟨f, -, rfl⟩ := List.mem_map.mp he
                exact List.prefix_append path f.1
          cases hkeys : operation.path with
          | nil => exact absurd (.inl hkeys) hpath
          | cons key path =>
              rw [hkeys] at hbelow hpath
              obtain ⟨r, hr⟩ := hbelow
              rw [← hr]
              exact diverge_cons.mpr (.inl fun heq => hpath (.inr (by simp [heq])))
        refine ⟨get_setAll_diverge hapart node, ?_⟩
        rintro ⟨e, he, habove⟩
        exact (hapart e he).2 habove

theorem operationAt_listenComplete (location path : List String) :
    match operationAt location (.listenComplete path) with
    | some rest => ∃ path', rest = .listenComplete path' ∧ (path' = [] → path <+: location)
    | none => True := by
  induction location generalizing path with
  | nil => exact ⟨path, rfl, fun hnil => hnil ▸ List.nil_prefix⟩
  | cons childKey location ih =>
      rw [operationAt]
      by_cases hpath : (FOperation.listenComplete path).path = [] ∨
          (FOperation.listenComplete path).path.head? = some childKey
      · rw [if_pos hpath]
        have hmore := ih path.tail
        show match operationAt location (.listenComplete path.tail) with
          | some rest => _
          | none => True
        cases hlast : operationAt location (.listenComplete path.tail) with
        | none => trivial
        | some rest =>
            rw [hlast] at hmore
            obtain ⟨path', hrest, habove⟩ := hmore
            refine ⟨path', hrest, fun hnil => ?_⟩
            cases path with
            | nil => exact List.nil_prefix
            | cons key path =>
                obtain rfl : key = childKey := by simpa [FOperation.path] using hpath
                exact List.cons_prefix_cons.mpr ⟨rfl, habove hnil⟩
      · rw [if_neg hpath]
        trivial

/-! ### Answers -/

theorem operationAt_ackAll {affectedTree : FImmutableTree Unit}
    (hroot : affectedTree.value.isSome = true) (location : List String) (revert : Bool) :
    operationAt location (.ackUserWrite [] affectedTree revert) =
      some (.ackUserWrite [] affectedTree revert) := by
  induction location with
  | nil => rfl
  | cons childKey location ih =>
      rw [operationAt, if_pos (.inl rfl), operationForChild, if_pos hroot]
      exact ih

theorem affected_cons {path writePath : List String} {affectedTree : FImmutableTree Unit}
    (h : Affected location path affectedTree writePath) (childKey : String) :
    Affected (childKey :: location) path affectedTree (childKey :: writePath) := by
  rcases h with hall | hapart | ⟨e, he, heq⟩
  · exact .inl hall
  · exact .inr (.inl (diverge_cons.mpr (.inr ⟨rfl, hapart⟩)))
  · exact .inr (.inr ⟨e, he, congrArg (childKey :: ·) heq⟩)

/-- An answer reaches the location wherever it is about writes that concern it. -/
theorem operationAt_ackUserWrite {affectedTree : FImmutableTree Unit}
    (hkeyed : affectedTree.Keyed) (location path : List String) (revert : Bool) :
    match operationAt location (.ackUserWrite path affectedTree revert) with
    | some rest => ∃ path' affectedTree', rest = .ackUserWrite path' affectedTree' revert ∧
        ∀ e ∈ affectedTree.forEach, Affected location path' affectedTree' (path ++ e.1)
    | none => ∀ e ∈ affectedTree.forEach, Diverge location (path ++ e.1) := by
  induction location generalizing path affectedTree with
  | nil => exact ⟨path, affectedTree, rfl, fun e he => .inr (.inr ⟨e, he, rfl⟩)⟩
  | cons childKey location ih =>
      cases path with
      | nil =>
          by_cases hroot : affectedTree.value.isSome = true
          · rw [operationAt_ackAll hroot]
            exact ⟨[], affectedTree, rfl, fun _ _ => .inl ⟨hroot, rfl⟩⟩
          · rw [operationAt, if_pos (.inl rfl), operationForChild, if_neg hroot]
            have hmore := ih (hkeyed.subtreeAtPath [childKey]) []
            have hbelow : ∀ e ∈ affectedTree.forEach, ∃ key q, e.1 = key :: q ∧
                (key = childKey →
                  (q, e.2) ∈ (subtreeAtPath [childKey] affectedTree).forEach) := by
              rintro ⟨q, value⟩ he
              cases q with
              | nil =>
                  rw [nil_mem_forEach.mp he] at hroot
                  exact absurd rfl hroot
              | cons key q =>
                  refine ⟨key, q, rfl, ?_⟩
                  rintro rfl
                  rw [mem_forEach (hkeyed.subtreeAtPath [key]), valueAtPath_subtreeAtPath]
                  exact (mem_forEach hkeyed).mp he
            dsimp only [Option.bind]
            cases hlast : operationAt location (.ackUserWrite []
                (subtreeAtPath [childKey] affectedTree) revert) with
            | none =>
                rw [hlast] at hmore
                intro e he
                obtain ⟨key, q, heq, hmem⟩ := hbelow e he
                rw [List.nil_append, heq, diverge_cons]
                by_cases hkey : key = childKey
                · exact .inr ⟨hkey.symm, hmore _ (hmem hkey)⟩
                · exact .inl (Ne.symm hkey)
            | some rest =>
                rw [hlast] at hmore
                obtain ⟨path', affectedTree', hrest, haffected⟩ := hmore
                refine ⟨path', affectedTree', hrest, fun e he => ?_⟩
                obtain ⟨key, q, heq, hmem⟩ := hbelow e he
                rw [List.nil_append, heq]
                by_cases hkey : key = childKey
                · rw [hkey]
                  exact affected_cons (haffected _ (hmem hkey)) childKey
                · exact .inr (.inl (diverge_cons.mpr (.inl (Ne.symm hkey))))
      | cons key path =>
          rw [operationAt]
          by_cases hkey : key = childKey
          · subst hkey
            rw [if_pos (.inr rfl), operationForChild]
            have hmore := ih hkeyed path
            dsimp only [Option.bind]
            cases hlast : operationAt location (.ackUserWrite path affectedTree revert) with
            | none =>
                rw [hlast] at hmore
                exact fun e he => diverge_cons.mpr (.inr ⟨rfl, hmore e he⟩)
            | some rest =>
                rw [hlast] at hmore
                obtain ⟨path', affectedTree', hrest, haffected⟩ := hmore
                exact ⟨path', affectedTree', hrest, fun e he => affected_cons (haffected e he) key⟩
          · rw [if_neg (by simp [FOperation.path, hkey])]
            exact fun e _ => diverge_cons.mpr (.inl (Ne.symm hkey))

/-! ## Steps -/

section Steps

variable {tree tree' : FSyncTree} {events : Events} {server server' : Snapshot}
  {ws xs : List (List String × Snapshot)}

theorem shows_server {writesCache : FWriteTreeRef} {viewCache : FViewCache}
    (hw : writesCache.Lays ws) (h : Shows writesCache.path ws server viewCache)
    (hdata : operation.source? = some .server) (hrootless : operation.Rootless)
    (hserver : get writesCache.path server' =
      setAll operation.writes (get writesCache.path server))
    (hclear : ClearAll ws server) (hclear' : ClearAll ws server')
    (optCompleteCache : Option Snapshot) :
    Shows writesCache.path ws server'
      (process viewCache operation writesCache optCompleteCache).1 := by
  match operation, hdata with
  | .overwrite .server path snap, _ =>
      exact shows_applyServerOverwriteTo hw h hserver hclear hclear'
  | .merge .server path children, _ =>
      exact shows_applyServerMergeTo hw h (fun _ => hrootless) hserver hclear hclear'

/-- The view after an operation, from the view before. -/
theorem applyOperationToSyncPoints_cases
    (h : tree.applyOperationToSyncPoints location operation = some (tree', events)) :
    tree'.pendingWriteTree = tree.pendingWriteTree ∧
      ∀ view', tree'.view = some view' → ∃ view, tree.view = some view ∧
        view'.viewCache =
          match operationAt location operation with
          | some rest => (process view.viewCache rest (tree.writesCache location)
              view.viewCache.completeServerSnap).1
          | none => view.viewCache := by
  unfold applyOperationToSyncPoints at h
  split at h
  · rename_i view rest hview hrest
    obtain ⟨changes, valueChange, -, -, -, happly⟩ := view.applyOperation_eq rest
      (tree.writesCache location) view.viewCache.completeServerSnap
    dsimp only at h
    rw [happly] at h
    cases h
    refine ⟨rfl, fun view' hview' => ⟨view, hview, ?_⟩⟩
    rw [hrest, ← Option.some.inj hview']
  · rename_i hnone
    cases h
    refine ⟨rfl, fun view' hview' => ⟨view', hview', ?_⟩⟩
    cases hrest : operationAt location operation with
    | none => rfl
    | some rest => exact absurd hrest (hnone view' rest hview')

/-- What the server has told, one step later. -/
def told (server : Snapshot) : Act → Snapshot
  | .serverOverwrite path newData => set path newData server
  | .serverMerge path changedChildren => setAll (under path changedChildren.writes) server
  | _ => server

/-- Writes are visible, and merges of children; answers come in the order of issue. The
server merges children, and says that a listen is complete once it has told what is
there. -/
def Orderly (location : List String) (server : Snapshot) (tree : FSyncTree) : Act → Prop
  | .userOverwrite _ _ _ visible => visible = true
  | .userMerge _ changedChildren _ => ∀ e ∈ changedChildren.writes, e.1.length ≤ 1
  | .ackUserWrite writeId _ => ∃ write writes,
      tree.pendingWriteTree.allWrites = write :: writes ∧ write.writeId = writeId
  | .serverMerge _ changedChildren => changedChildren.rootWrite = none
  | .listenComplete path => path <+: location → ∀ view, tree.view = some view →
      view.viewCache.cachedServerSnap.node = get location server
  | _ => True

/-- The pending writes with their paths, in the order of issue. -/
def pending (tree : FSyncTree) : List (List String × Snapshot) :=
  FWriteTree.pending tree.pendingWriteTree.allWrites

/-- The view shows what the server has told with the pending writes made on it. -/
structure UpToDate (location : List String) (server : Snapshot) (tree : FSyncTree) : Prop where
  layered : FWriteTree.Layered tree.pendingWriteTree
  shallow : ∀ record ∈ tree.pendingWriteTree.allWrites, FWriteTree.Shallow record
  shows : ∀ view, tree.view = some view → Shows location tree.pending server view.viewCache

theorem lays (h : FWriteTree.Layered tree.pendingWriteTree) (location : List String) :
    (tree.writesCache location).Lays tree.pending := h.same

/-- A step of the user, with the write pending. -/
theorem UpToDate.write (h : UpToDate location server tree) {pendingWriteTree : FWriteTree Snapshot}
    (hlayered : FWriteTree.Layered pendingWriteTree)
    (hshallow : ∀ record ∈ pendingWriteTree.allWrites, FWriteTree.Shallow record)
    (hdata : operation.source? = some .user)
    (hpending : FWriteTree.pending pendingWriteTree.allWrites = tree.pending ++ operation.writes)
    (happly : { tree with pendingWriteTree }.applyOperationToSyncPoints location operation =
      some (tree', events)) : UpToDate location server tree' := by
  obtain ⟨hsame, hview⟩ := applyOperationToSyncPoints_cases happly
  refine ⟨hsame ▸ hlayered, hsame ▸ hshallow, fun view' hview' => ?_⟩
  obtain ⟨view, hold, hcache⟩ := hview view' hview'
  have hshows := h.shows view hold
  have hspec := operationAt_spec hdata location (setAll tree.pending server)
  have hpending' : tree'.pending = tree.pending ++ operation.writes := by
    rw [FSyncTree.pending, hsame]
    exact hpending
  rw [hpending', hcache]
  cases hrest : operationAt location operation with
  | none =>
      rw [hrest] at hspec
      refine ⟨hshows.served, fun hknown => ?_⟩
      rw [setAll_append, hspec.1]
      exact hshows.shown (hknown.imp_right fun hcovers =>
        (covers_append.mp hcovers).resolve_right hspec.2)
  | some rest =>
      rw [hrest] at hspec
      obtain ⟨hdata', -, hget, hcovers⟩ := hspec
      have hmade : get location (setAll (tree.pending ++ operation.writes) server) =
          setAll rest.writes (get location (setAll tree.pending server)) := by
        rw [setAll_append]
        exact hget
      have hshows' : Shows ({ tree with pendingWriteTree }.writesCache location).path tree.pending
          server view.viewCache := hshows
      exact shows_user hshows' hdata' _ hmade fun hall =>
        (covers_append.mp hall).imp_right hcovers

/-- A step of the server, which has told more. -/
theorem UpToDate.tell (h : UpToDate location server tree)
    (hdata : operation.source? = some .server) (hrootless : operation.Rootless)
    (hserver : server' = setAll operation.writes server) (hclear : ClearAll tree.pending server)
    (hclear' : ClearAll tree'.pending server')
    (happly : tree.applyOperationToSyncPoints location operation = some (tree', events)) :
    UpToDate location server' tree' := by
  obtain ⟨hsame, hview⟩ := applyOperationToSyncPoints_cases happly
  refine ⟨hsame ▸ h.layered, hsame ▸ h.shallow, fun view' hview' => ?_⟩
  obtain ⟨view, hold, hcache⟩ := hview view' hview'
  have hpending : tree'.pending = tree.pending := by
    rw [FSyncTree.pending, hsame]
    rfl
  have hspec := operationAt_spec hdata location server
  rw [hpending] at hclear' ⊢
  rw [hcache]
  cases hrest : operationAt location operation with
  | none =>
      rw [hrest] at hspec
      exact (h.shows view hold).congr (hserver ▸ hspec.1)
  | some rest =>
      rw [hrest] at hspec
      obtain ⟨hdata', hrootless', hget, -⟩ := hspec
      exact shows_server (lays h.layered location) (h.shows view hold) hdata'
        (hrootless' hrootless) (hserver ▸ hget) hclear hclear' _

/-! ### Answers -/

theorem keyed_affectedTree (write : FWriteRecord Snapshot) : (affectedTree write).Keyed := by
  cases write with
  | overwrite path newData writeId visible => exact keyed_empty.setValue () []
  | merge path changedChildren writeId =>
      have hfold : ∀ (es : List (List String × Snapshot)) (tree : FImmutableTree Unit),
          tree.Keyed →
            (es.foldl (fun affectedTree e => FImmutableTree.setValue () e.1 affectedTree)
              tree).Keyed := by
        intro es
        induction es with
        | nil => exact fun _ h => h
        | cons e es ih => exact fun tree h => ih _ (h.setValue () e.1)
      exact hfold _ _ keyed_empty

theorem affectedTree_writes (write : FWriteRecord Snapshot) :
    ∀ e ∈ write.writes, ∃ f ∈ (affectedTree write).forEach, e.1 = write.path ++ f.1 := by
  intro e he
  have hkeyed := keyed_affectedTree write
  cases write with
  | overwrite path newData writeId visible =>
      rw [List.mem_singleton.mp he]
      exact ⟨([], ()), (mem_forEach hkeyed).mpr rfl, (List.append_nil path).symm⟩
  | merge path changedChildren writeId =>
      obtain ⟨f, hf, rfl⟩ := List.mem_map.mp he
      have hfold : ∀ (es : List (List String × Snapshot)) (tree : FImmutableTree Unit),
          (f ∈ es ∨ valueAtPath f.1 tree = some ()) →
            valueAtPath f.1 (es.foldl
              (fun affectedTree e => FImmutableTree.setValue () e.1 affectedTree) tree) =
                some () := by
        intro es
        induction es with
        | nil => exact fun tree h => h.resolve_left List.not_mem_nil
        | cons g es ih =>
            refine fun tree h => ih _ ?_
            rw [valueAtPath_setValue]
            by_cases heq : f.1 = g.1
            · exact .inr (if_pos heq)
            · rw [if_neg heq]
              refine h.imp_left fun hmem => (List.mem_cons.mp hmem).resolve_left ?_
              rintro rfl
              exact heq rfl
      exact ⟨(f.1, ()), (mem_forEach hkeyed).mpr (hfold _ _ (.inl hf)), rfl⟩

/-- The oldest write is the one removed. -/
theorem before_eq_nil {before after writes : List (FWriteRecord Snapshot)}
    {w write : FWriteRecord Snapshot} {writeId : Int}
    (hall : write :: writes = before ++ w :: after) (hid : write.writeId = writeId)
    (hbefore : ∀ record ∈ before, record.writeId ≠ writeId) :
    before = [] ∧ w = write ∧ after = writes := by
  cases before with
  | nil =>
      cases hall
      exact ⟨rfl, rfl, rfl⟩
  | cons record before =>
      cases hall
      exact absurd hid (hbefore _ List.mem_cons_self)

/-- **An answer** to the oldest of the pending writes. -/
theorem UpToDate.answer (h : UpToDate location server tree) {writeId : Int} {revert : Bool}
    {write : FWriteRecord Snapshot} {writes : List (FWriteRecord Snapshot)}
    (hall : tree.pendingWriteTree.allWrites = write :: writes) (hid : write.writeId = writeId)
    (hclear : ClearAll tree.pending server)
    (hstep : tree.ackUserWriteWithWriteId location writeId revert = some (tree', events)) :
    UpToDate location server tree' := by
  obtain ⟨found, hfound, hstep⟩ := Option.bind_eq_some_iff.mp hstep
  obtain ⟨⟨needToReevaluate, pendingWriteTree⟩, hremove, hstep⟩ :=
    Option.bind_eq_some_iff.mp hstep
  have hfound : found = write := by
    rw [FWriteTree.writeForId, hall, List.find?_cons_of_pos (by simpa using hid)] at hfound
    exact (Option.some.inj hfound).symm
  subst hfound
  have hshallow : ∀ record ∈ writes, FWriteTree.Shallow record := fun record hrecord =>
    h.shallow record (hall ▸ List.mem_cons_of_mem _ hrecord)
  have hlayered : FWriteTree.Layered pendingWriteTree := by
    refine h.layered.removeWriteId hremove fun before w after hsplit _ hfirst => ?_
    obtain ⟨rfl, rfl, rfl⟩ := before_eq_nil (hall ▸ hsplit) hid hfirst
    exact FWriteTree.removable_oldest hshallow
  obtain ⟨before, w, after, hsplit, -, hfirst, hrest, hcases⟩ :=
    FWriteTree.removeWriteId_cases hremove
  obtain ⟨rfl, rfl, rfl⟩ := before_eq_nil (hall ▸ hsplit) hid hfirst
  rw [List.nil_append] at hrest
  have hpending : tree.pending = w.writes ++ FWriteTree.pending after := by
    rw [FSyncTree.pending, hall, FWriteTree.pending_cons]
  have hshows : ∀ view, tree.view = some view →
      Shows location (w.writes ++ FWriteTree.pending after) server view.viewCache :=
    fun view hview => hpending ▸ h.shows view hview
  rw [hpending] at hclear
  dsimp only at hstep
  split at hstep
  · rename_i hagain
    obtain ⟨hsame, hview⟩ := applyOperationToSyncPoints_cases hstep
    have hpending' : tree'.pending = FWriteTree.pending after := by
      rw [FSyncTree.pending, hsame, hrest]
    refine ⟨hsame ▸ hlayered, hsame ▸ hrest ▸ hshallow, fun view' hview' => ?_⟩
    obtain ⟨view, hold, hcache⟩ := hview view' hview'
    have hspec := operationAt_ackUserWrite (keyed_affectedTree w) location w.path revert
    rw [hpending', hcache]
    cases hat : operationAt location (.ackUserWrite w.path (affectedTree w) revert) with
    | none =>
        rw [hat] at hspec
        refine (hshows view hold).of_diverge fun e he => ?_
        obtain ⟨f, hf, heq⟩ := affectedTree_writes w e he
        exact heq ▸ hspec f hf
    | some rest =>
        rw [hat] at hspec
        obtain ⟨path, affectedTree', rfl, hspec⟩ := hspec
        have haffected : ∀ e ∈ w.writes, Affected location path affectedTree' e.1 := by
          intro e he
          obtain ⟨f, hf, heq⟩ := affectedTree_writes w e he
          exact heq ▸ hspec f hf
        have hlays : ({ tree with pendingWriteTree }.writesCache location).Lays
            (FWriteTree.pending after) := hrest ▸ hlayered.same
        cases revert with
        | true => exact shows_revertUserWriteOn hlays hclear (hshows view hold) haffected
        | false => exact shows_ackUserWriteOn hlays hclear (hshows view hold) haffected
  · rename_i hsettled
    cases hstep
    refine ⟨hlayered, hrest ▸ hshallow, fun view hview => ?_⟩
    have hcovers : Covers (FWriteTree.pending after) w.path := by
      rcases hcases with ⟨-, -, hhidden | ⟨record, hrecord, hcontains⟩⟩ | ⟨-, hagain⟩ |
        ⟨-, hagain, -⟩
      · rw [h.layered.visible w (hall ▸ List.mem_cons_self)] at hhidden
        cases hhidden
      · obtain ⟨e, he, hprefix⟩ := FWriteRecord.containsPath_iff.mp hcontains
        exact ⟨e, List.mem_flatMap.mpr ⟨record, hrecord, he⟩, hprefix⟩
      · exact absurd hagain hsettled
      · exact absurd hagain hsettled
    have hpending' : FSyncTree.pending { tree with pendingWriteTree } =
        FWriteTree.pending after := congrArg FWriteTree.pending hrest
    rw [hpending']
    exact (hshows view hview).of_covered (List.forall_mem_append.mp hclear).1
      (fun e he => FWriteRecord.path_above he) hcovers

/-- All writes are given up. -/
theorem UpToDate.giveUp (h : UpToDate location server tree) (hclear : ClearAll tree.pending server)
    (hstep : tree.removeAllWrites location = some (tree', events)) :
    UpToDate location server tree' := by
  have hlayered : FWriteTree.Layered tree.pendingWriteTree.removeAllWrites.2 :=
    ⟨fun _ he => absurd he List.not_mem_nil, fun _ => rfl⟩
  unfold FSyncTree.removeAllWrites at hstep
  dsimp only at hstep
  split at hstep
  · obtain ⟨hsame, hview⟩ := applyOperationToSyncPoints_cases hstep
    refine ⟨hsame ▸ hlayered, hsame ▸ fun _ he => absurd he List.not_mem_nil,
      fun view' hview' => ?_⟩
    obtain ⟨view, hold, hcache⟩ := hview view' hview'
    have hpending : tree'.pending = [] := by
      rw [FSyncTree.pending, hsame]
      rfl
    have hshows : Shows location (tree.pending ++ []) server view.viewCache := by
      rw [List.append_nil]
      exact h.shows view hold
    have haffected : ∀ e ∈ tree.pending, Affected location []
        (FImmutableTree.setValue () [] FImmutableTree.empty) e.1 := fun _ _ => .inl ⟨rfl, rfl⟩
    have hlays : (FSyncTree.writesCache location { tree with
        pendingWriteTree := tree.pendingWriteTree.removeAllWrites.2 }).Lays [] := hlayered.same
    rw [operationAt_ackAll rfl] at hcache
    rw [hpending, hcache]
    rw [← List.append_nil tree.pending] at hclear
    exact shows_revertUserWriteOn hlays hclear hshows haffected
  · rename_i hnone
    rw [not_ne_iff] at hnone
    cases hstep
    refine ⟨hlayered, fun _ he => absurd he List.not_mem_nil, fun view hview => ?_⟩
    have hpending : tree.pending = [] := congrArg FWriteTree.pending hnone
    have hshows := h.shows view hview
    rw [hpending] at hshows
    exact hshows

/-- The server completes a listen. -/
theorem UpToDate.complete (h : UpToDate location server tree) {path : List String}
    (horderly : Orderly location server tree (.listenComplete path))
    (hclear : ClearAll tree.pending server)
    (hstep : tree.applyListenCompleteAtPath location path = some (tree', events)) :
    UpToDate location server tree' := by
  obtain ⟨hsame, hview⟩ := applyOperationToSyncPoints_cases hstep
  refine ⟨hsame ▸ h.layered, hsame ▸ h.shallow, fun view' hview' => ?_⟩
  obtain ⟨view, hold, hcache⟩ := hview view' hview'
  have hpending : tree'.pending = tree.pending := by
    rw [FSyncTree.pending, hsame]
    rfl
  have hspec := operationAt_listenComplete location path
  rw [hpending, hcache]
  cases hrest : operationAt location (.listenComplete path) with
  | none => exact h.shows view hold
  | some rest =>
      rw [hrest] at hspec
      obtain ⟨path', rfl, habove⟩ := hspec
      exact shows_listenComplete (lays h.layered location) (h.shows view hold) hclear
        fun hnil => horderly (habove hnil) view hold

/-- Another observer; the first one makes the view. -/
theorem UpToDate.register (h : UpToDate location server tree) (registration : FEventRegistration) :
    UpToDate location server (tree.addEventRegistration location registration).1 := by
  refine ⟨h.layered, h.shallow, fun view' hview' => ?_⟩
  rw [← Option.some.inj hview']
  cases hview : tree.view with
  | some view => exact h.shows view hview
  | none =>
      refine ⟨nofun, fun hknown => ?_⟩
      have hcovers := hknown.resolve_left nofun
      have hcomplete := (lays h.layered location).calculateCompleteEventCache_covered
        hcovers server
      show (FView.initialViewCache (tree.writesCache location)
        { node := empty, isFullyInitialized := false }).cachedEventSnap = _
      unfold FView.initialViewCache
      rw [show FCacheNode.completeNode { node := empty, isFullyInitialized := false } = none from
        rfl, hcomplete]
      rfl

theorem allWrites_overwrite {writeTree writeTree' : FWriteTree Snapshot} {path : List String}
    {newData : Snapshot} {writeId : Int} {visible : Bool}
    (h : writeTree.next (.overwrite path newData writeId visible) = some writeTree') :
    writeTree'.allWrites = writeTree.allWrites ++ [.overwrite path newData writeId visible] := by
  rw [FWriteTree.next] at h
  split at h
  · cases h
    rfl
  · cases h

theorem allWrites_merge {writeTree writeTree' : FWriteTree Snapshot} {path : List String}
    {changedChildren : FCompoundWrite Snapshot} {writeId : Int}
    (h : writeTree.next (.merge path changedChildren writeId) = some writeTree') :
    writeTree'.allWrites = writeTree.allWrites ++ [.merge path changedChildren writeId] := by
  rw [FWriteTree.next] at h
  split at h
  · cases h
    rfl
  · cases h

theorem pending_snoc (records : List (FWriteRecord Snapshot)) (record : FWriteRecord Snapshot) :
    FWriteTree.pending (records ++ [record]) = FWriteTree.pending records ++ record.writes := by
  rw [FWriteTree.pending_append, FWriteTree.pending_cons]
  exact congrArg (FWriteTree.pending records ++ ·) (List.append_nil record.writes)

/-- **Every step** keeps the view up to date. -/
theorem UpToDate.next (h : UpToDate location server tree) {act : Act}
    (hstep : tree.next location act = some (tree', events))
    (horderly : Orderly location server tree act) (hclear : ClearAll tree.pending server)
    (hclear' : ClearAll tree'.pending (told server act)) :
    UpToDate location (told server act) tree' := by
  cases act with
  | userOverwrite path newData writeId visible =>
      have hvisible : visible = true := horderly
      subst hvisible
      obtain ⟨pendingWriteTree, hnext, hstep⟩ := Option.bind_eq_some_iff.mp hstep
      have hall := allWrites_overwrite hnext
      refine h.write (h.layered.next hnext rfl) ?_ rfl ?_ hstep
      · rw [hall]
        exact List.forall_mem_append.mpr ⟨h.shallow, List.forall_mem_singleton.mpr trivial⟩
      · rw [hall, pending_snoc]
        rfl
  | userMerge path changedChildren writeId =>
      obtain ⟨pendingWriteTree, hnext, hstep⟩ := Option.bind_eq_some_iff.mp hstep
      have hall := allWrites_merge hnext
      refine h.write (h.layered.next hnext trivial) ?_ rfl ?_ hstep
      · rw [hall]
        exact List.forall_mem_append.mpr ⟨h.shallow, List.forall_mem_singleton.mpr horderly⟩
      · rw [hall, pending_snoc]
        rfl
  | ackUserWrite writeId revert =>
      obtain ⟨write, writes, hall, hid⟩ := horderly
      exact h.answer hall hid hclear hstep
  | removeAllWrites => exact h.giveUp hclear hstep
  | serverOverwrite path newData =>
      have hdata : (FOperation.overwrite .server path newData).source? = some .server := rfl
      exact h.tell hdata trivial rfl hclear hclear' hstep
  | serverMerge path changedChildren =>
      have hdata : (FOperation.merge .server path changedChildren).source? = some .server := rfl
      exact h.tell hdata horderly rfl hclear hclear' hstep
  | listenComplete path => exact h.complete horderly hclear hstep
  | addEventRegistration registration =>
      cases hstep
      exact h.register registration

end Steps

/-! ## Runs -/

/-- What the server has told along a run. -/
def toldAlong (location : List String) (as : List Act) : Snapshot :=
  (syncTree location).history (fun server _ act _ => told server act) empty as

/-- Every step of a run is orderly. -/
def OrderlyRun (location : List String) (as : List Act) : Prop :=
  (syncTree location).EachStep (fun as tree act =>
    Orderly location (toldAlong location as) tree act) as

/-- No leaf stands in the way of a pending write, all along a run. -/
def ClearRun (location : List String) (as : List Act) : Prop :=
  (syncTree location).Always (fun as tree => ClearAll tree.pending (toldAlong location as)) as

section Runs

variable {location : List String} {as : List Act} {tree : FSyncTree}

theorem toldAlong_snoc {act : Act} {tree' : FSyncTree}
    (hrun : (syncTree location).run as = some tree)
    (hstep : (syncTree location).step tree act = some tree') :
    toldAlong location (as ++ [act]) = told (toldAlong location as) act :=
  (syncTree location).history_snoc _ _ hrun hstep

theorem upToDate_init (location : List String) : UpToDate location empty .init :=
  ⟨⟨fun _ he => absurd he List.not_mem_nil, fun _ => rfl⟩,
    fun _ he => absurd he List.not_mem_nil, nofun⟩

/-- After any orderly run the view is up to date. -/
theorem upToDate (horderly : OrderlyRun location as) (hclear : ClearRun location as) :
    (syncTree location).Always (fun as tree =>
      UpToDate location (toldAlong location as) tree) as := by
  have hsteps : (syncTree location).EachStep (fun as tree act =>
      Orderly location (toldAlong location as) tree act ∧
        ClearAll tree.pending (toldAlong location as) ∧
        ∀ tree', (syncTree location).step tree act = some tree' →
          ClearAll tree'.pending (told (toldAlong location as) act)) as := by
    intro pre act hpre tree tree' hrun hstep
    refine ⟨horderly pre act hpre tree tree' hrun hstep,
      hclear pre ((List.prefix_append pre [act]).trans hpre) tree hrun, fun next hnext => ?_⟩
    rw [← toldAlong_snoc hrun hnext]
    exact hclear _ hpre next ((syncTree location).run_snoc_eq_some.mpr ⟨tree, hrun, hnext⟩)
  refine TSys.always_of_eachStep (upToDate_init location) ?_ hsteps
  rintro as act tree tree' hrun h ⟨horderly, hclear, hclear'⟩ hstep
  rw [toldAlong_snoc hrun hstep]
  obtain ⟨⟨next, events⟩, hnext, rfl⟩ := Option.map_eq_some_iff.mp hstep
  exact h.next hnext horderly hclear (hclear' next hstep)

/-- A view that has been told all shows what it has been told, with the pending writes. -/
theorem UpToDate.complete_snaps {server : Snapshot} (h : UpToDate location server tree)
    {view : FView} (hview : tree.view = some view)
    (hfull : view.viewCache.cachedServerSnap.isFullyInitialized = true) :
    view.viewCache.completeServerSnap = some (get location server) ∧
      view.viewCache.completeEventSnap = some (get location (setAll tree.pending server)) := by
  have hshows := h.shows view hview
  constructor
  · rw [FViewCache.completeServerSnap, FCacheNode.completeNode, if_pos hfull, hshows.served hfull]
  · rw [FViewCache.completeEventSnap, hshows.shown (.inl hfull)]
    rfl

/-- An observer of all children, a location the server has nothing at, and a write. -/
def listening : List Act :=
  [] ++ [.addEventRegistration { handle := 1, responseTo := fun _ => true }] ++
    [.serverOverwrite ["posts"] Nested.empty] ++
    [.userOverwrite ["posts", "-Kg0"] ⟨.leaf (.string "hello"), trivial⟩ 0 true]

end Runs

end FSyncTree

end SocialTimeline
