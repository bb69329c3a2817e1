import SocialTimeline.Database.FView
import SocialTimeline.Theorems.Changes
import SocialTimeline.Theorems.PendingWrites

/-!
# What a view shows

A view shows what the server has at its location, with the pending writes made on it
(`Shows`), as long as every operation is applied to it that concerns it: what the user
writes (`shows_user`), what the server tells (`shows_applyServerOverwriteTo`,
`shows_applyServerMergeTo`, `shows_listenComplete`), and the answers to writes
(`shows_ackUserWriteOn`, `shows_revertUserWriteOn`).
-/

namespace SocialTimeline

open Lib Lib.Nested FImmutableTree FCompoundWrite

variable {writesCache : FWriteTreeRef} {ws : List (List String × Snapshot)} {server : Snapshot}

/-! ## The writes at a location -/

namespace FCompoundWrite

variable {N : Type} [Nested String N] {write : FCompoundWrite N} {path q : List String} {node : N}

theorem exposed_addWrite :
    (write.addWrite node path).Exposed q ↔ write.Exposed q ∧ ¬path <+: q := by
  cases hfound : findRootMostValueAndPath path write.writeTree with
  | some rootMost =>
      obtain ⟨rootMost, value⟩ := rootMost
      obtain ⟨hahead, hvalue, -⟩ := findRootMostValueAndPath_eq_some.mp hfound
      have hsame : ∀ r, valueAtPath r (write.addWrite node path).writeTree = none ↔
          valueAtPath r write.writeTree = none := by
        intro r
        rw [valueAtPath_addWrite, hfound]
        by_cases hr : r = rootMost
        · simp [hr, hvalue]
        · exact iff_of_eq (congrArg (· = none) (if_neg hr))
      refine ⟨fun h => ⟨fun r hr => (hsame r).mp (h r hr), fun hq => ?_⟩,
        fun h r hr => (hsame r).mpr (h.1 r hr)⟩
      rw [(hsame rootMost).mp (h rootMost (hahead.trans hq))] at hvalue
      cases hvalue
  | none =>
      have hvalue : ∀ r, valueAtPath r (write.addWrite node path).writeTree =
          if path <+: r then (if r = path then some node else none)
          else valueAtPath r write.writeTree := by
        intro r
        rw [valueAtPath_addWrite, hfound]
      constructor
      · intro h
        have hnot : ¬path <+: q := fun hq => by
          have hone := h path hq
          rw [hvalue, if_pos (List.prefix_refl path), if_pos rfl] at hone
          cases hone
        refine ⟨fun r hr => ?_, hnot⟩
        have hr' := h r hr
        rwa [hvalue, if_neg fun hpr => hnot (hpr.trans hr)] at hr'
      · rintro ⟨h, hnot⟩ r hr
        rw [hvalue, if_neg fun hpr => hnot (hpr.trans hr)]
        exact h r hr

theorem exposed_addAll {ws : List (List String × N)} :
    (addAll ws write).Exposed q ↔ write.Exposed q ∧ ¬Covers ws q := by
  induction ws generalizing write with
  | nil => simp [addAll, Covers]
  | cons e ws ih =>
      rw [addAll_cons, ih, exposed_addWrite, and_assoc, ← not_or]
      unfold Covers
      rw [List.exists_mem_cons_iff]

/-- A write that meets no other stands beside them. -/
theorem writes_addWrite_perm (h : ∀ e ∈ write.writes, Diverge path e.1) (node : N) :
    (write.addWrite node path).writes.Perm ((path, node) :: write.writes) := by
  have hnone : findRootMostValueAndPath path write.writeTree = none :=
    findRootMostValueAndPath_eq_none.mpr fun q hq => by
      by_contra hsome
      obtain ⟨value, hvalue⟩ := Option.ne_none_iff_exists'.mp hsome
      exact (h (q, value) (mem_writes.mpr hvalue)).2 hq
  have hnot : (path, node) ∉ write.writes := fun hmem =>
    (h _ hmem).1 (List.prefix_refl path)
  refine (List.perm_ext_iff_of_nodup ((write.addWrite node path).nodup_writes.of_map _)
    (List.nodup_cons.mpr ⟨hnot, write.nodup_writes.of_map _⟩)).mpr ?_
  rintro ⟨q, value⟩
  rw [mem_writes, valueAtPath_addWrite, hnone, List.mem_cons, Prod.mk.injEq]
  dsimp only
  by_cases hq : path <+: q
  · have hout : (q, value) ∉ write.writes := fun hmem => (h _ hmem).1 hq
    rw [if_pos hq, or_iff_left hout]
    by_cases heq : q = path
    · rw [if_pos heq, Option.some.injEq]
      exact ⟨fun hvalue => ⟨heq, hvalue.symm⟩, fun hvalue => hvalue.2.symm⟩
    · rw [if_neg heq]
      exact iff_of_false nofun fun hvalue => heq hvalue.1
  · rw [if_neg hq, mem_writes]
    refine (or_iff_right ?_).symm
    rintro ⟨rfl, -⟩
    exact hq (List.prefix_refl q)

/-- Writes that do not meet make a tree of just these. -/
theorem writes_addAll_perm {ws : List (List String × N)}
    (hws : ws.Pairwise fun v w => Diverge v.1 w.1)
    (h : ∀ w ∈ ws, ∀ e ∈ write.writes, Diverge w.1 e.1) :
    (addAll ws write).writes.Perm (ws ++ write.writes) := by
  induction ws generalizing write with
  | nil => exact List.Perm.refl _
  | cons w ws ih =>
      rw [List.pairwise_cons] at hws
      obtain ⟨hw, hrest⟩ := List.forall_mem_cons.mp h
      have hone := writes_addWrite_perm hw w.2
      rw [addAll_cons, List.cons_append]
      refine (ih hws.2 fun v hv e he => ?_).trans ?_
      · rcases List.mem_cons.mp (hone.mem_iff.mp he) with rfl | he
        · exact (hws.1 v hv).symm
        · exact hrest v hv e he
      · exact (hone.append_left ws).trans List.perm_middle

omit [Nested String N] in
theorem forEachChildren_eq (children : List (String × FImmutableTree N)) :
    forEachChildren children = children.flatMap fun e => under [e.1] e.2.forEach := by
  induction children with
  | nil => rfl
  | cons e children ih =>
      rw [forEachChildren, ih, List.flatMap_cons]
      rfl

/-- The writes of a tree, child by child. -/
theorem writes_eq_flatMap (hroot : write.rootWrite = none) :
    write.writes = write.childKeys.flatMap fun childKey =>
      under [childKey] (write.subtree [childKey]).writes := by
  rw [writes, forEach_eq, show write.writeTree.value = none from hroot, Option.map_none,
    Option.toList_none, List.append_nil, forEachChildren_eq, childKeys, List.flatMap_map]
  refine List.flatMap_congr fun e he => ?_
  have hlookup : write.writeTree.children.lookup e.1 = some e.2 :=
    (lookup_eq_some_iff (keyed_iff.mp write.keyed).1).mpr he
  simp only [writes, subtree, subtreeAtPath, hlookup]

end FCompoundWrite

namespace FWriteTreeRef

/-- The visible writes are what some writes come to, made one after another. -/
def Lays (writesCache : FWriteTreeRef) (ws : List (List String × Snapshot)) : Prop :=
  Same writesCache.writeTree.visibleWrites (addAll ws emptyWrite)

theorem Lays.exposed_iff (h : writesCache.Lays ws) {path : List String} :
    writesCache.writeTree.visibleWrites.Exposed path ↔ ¬Covers ws path := by
  have hempty : (emptyWrite : FCompoundWrite Snapshot).Exposed path :=
    fun q _ => valueAtPath_empty q
  have hsame : writesCache.writeTree.visibleWrites.Exposed path ↔
      (addAll ws emptyWrite).Exposed path := forall₂_congr fun q _ => by rw [h q]
  rw [hsame, exposed_addAll, and_iff_right hempty]

theorem Lays.applyToNode (h : writesCache.Lays ws) (hclear : ClearAll ws server) :
    writesCache.writeTree.visibleWrites.applyToNode server = setAll ws server := by
  rw [applyToNode_congr h, applyToNode_addAll (fun _ he => absurd he List.not_mem_nil) hclear]
  rfl

/-- A shadowed path holds what was written there. -/
theorem Lays.eq_of_completeNodeAtPath (h : writesCache.Lays ws) {path : List String}
    {node : Snapshot}
    (hcomplete : writesCache.writeTree.visibleWrites.completeNodeAtPath path = some node)
    (server : Snapshot) : Covers ws path ∧ node = get path (setAll ws server) := by
  have hcovers : Covers ws path := by
    by_contra hnot
    rw [← h.exposed_iff, FCompoundWrite.exposed_iff] at hnot
    rw [completeNodeAtPath, hnot] at hcomplete
    cases hcomplete
  refine ⟨hcovers, ?_⟩
  rw [get_setAll_covered hcovers server empty, ← h.applyToNode fun w _ => clear_empty w.1]
  exact (get_applyToNode_shadowed hcomplete empty).symm

theorem Lays.completeNodeAtPath (h : writesCache.Lays ws) {path : List String}
    (hcovers : Covers ws path) (server : Snapshot) :
    writesCache.writeTree.visibleWrites.completeNodeAtPath path =
      some (get path (setAll ws server)) := by
  cases hcomplete : writesCache.writeTree.visibleWrites.completeNodeAtPath path with
  | none => exact absurd hcovers (h.exposed_iff.mp (exposed_of_none hcomplete))
  | some node => rw [(h.eq_of_completeNodeAtPath hcomplete server).2]

theorem Lays.completeNodeAtPath_eq_none (h : writesCache.Lays ws) {path : List String}
    (hnot : ¬Covers ws path) :
    writesCache.writeTree.visibleWrites.completeNodeAtPath path = none :=
  Option.map_eq_none_iff.mpr (FCompoundWrite.exposed_iff.mp (h.exposed_iff.mpr hnot))

theorem Lays.shadowingWriteAtPath_isSome (h : writesCache.Lays ws) {path : List String} :
    (writesCache.shadowingWriteAtPath path).isSome = true ↔
      Covers ws (writesCache.path ++ path) := by
  unfold shadowingWriteAtPath FWriteTree.shadowingWriteAtPath
  by_cases hcovers : Covers ws (writesCache.path ++ path)
  · simp [h.completeNodeAtPath hcovers empty, hcovers]
  · simp [h.completeNodeAtPath_eq_none hcovers, hcovers]

/-- The writes below an exposed path, on what the server has there. -/
theorem Lays.subtree_applyToNode (h : writesCache.Lays ws) (hclear : ClearAll ws server)
    {path : List String} (hnot : ¬Covers ws path) :
    (writesCache.writeTree.visibleWrites.subtree path).applyToNode (get path server) =
      get path (setAll ws server) := by
  rw [← get_applyToNode (h.exposed_iff.mpr hnot).noneAbove, h.applyToNode hclear]

theorem Lays.calculateCompleteEventCache (h : writesCache.Lays ws)
    (hclear : ClearAll ws server) :
    writesCache.calculateCompleteEventCache (some (get writesCache.path server)) =
      some (get writesCache.path (setAll ws server)) := by
  unfold FWriteTreeRef.calculateCompleteEventCache
  rw [FWriteTree.calculateCompleteEventCacheAtPath_eq, h.applyToNode hclear]

/-- Without anything of the server a covered location is known. -/
theorem Lays.calculateCompleteEventCache_covered (h : writesCache.Lays ws)
    (hcovers : Covers ws writesCache.path) (server : Snapshot) :
    writesCache.calculateCompleteEventCache none =
      some (get writesCache.path (setAll ws server)) := by
  unfold FWriteTreeRef.calculateCompleteEventCache FWriteTree.calculateCompleteEventCacheAtPath
  rw [h.completeNodeAtPath hcovers server]
  rfl

theorem Lays.calculateEventCacheAfterServerOverwrite (h : writesCache.Lays ws)
    (hclear : ClearAll ws server) {path : List String}
    (hnot : ¬Covers ws (writesCache.path ++ path)) :
    writesCache.calculateEventCacheAfterServerOverwrite path (get writesCache.path server) =
      some (get (writesCache.path ++ path) (setAll ws server)) := by
  have hnone := h.completeNodeAtPath_eq_none hnot
  unfold FWriteTreeRef.calculateEventCacheAfterServerOverwrite
    FWriteTree.calculateEventCacheAfterServerOverwriteAtPath hasCompleteWriteAtPath
  dsimp only
  rw [hnone, childCompoundWriteAtPath_of_none hnone, ← get_append,
    h.subtree_applyToNode hclear hnot, if_neg (by simp)]
  split
  · rename_i hempty
    rw [← h.subtree_applyToNode hclear hnot, FWriteTree.applyToNode_of_isEmpty hempty]
  · rfl

theorem Lays.calculateCompleteChild (h : writesCache.Lays ws) (hclear : ClearAll ws server)
    (childKey : String) :
    writesCache.calculateCompleteChild childKey
        { node := get writesCache.path server, isFullyInitialized := true } =
      some (child (get writesCache.path (setAll ws server)) childKey) := by
  have hchild : ∀ n : Snapshot, child (get writesCache.path n) childKey =
      get (writesCache.path ++ [childKey]) n := fun n =>
      (get_append writesCache.path [childKey] n).symm
  unfold FWriteTreeRef.calculateCompleteChild
  dsimp only
  by_cases hcovers : Covers ws (writesCache.path ++ [childKey])
  · rw [h.completeNodeAtPath hcovers server, hchild (setAll ws server)]
  · have hnone := h.completeNodeAtPath_eq_none hcovers
    rw [hnone, childCompoundWriteAtPath_of_none hnone, hchild, hchild,
      h.subtree_applyToNode hclear hcovers]
    rfl

end FWriteTreeRef

/-! ## What is shown -/

/-- A view shows what the server has at the location with the writes made on it, where
there is all of it or a write covers the location. -/
structure Shows (location : List String) (ws : List (List String × Snapshot)) (server : Snapshot)
    (viewCache : FViewCache) : Prop where
  served : viewCache.cachedServerSnap.isFullyInitialized = true →
    viewCache.cachedServerSnap.node = get location server
  shown : viewCache.cachedServerSnap.isFullyInitialized = true ∨ Covers ws location →
    viewCache.cachedEventSnap =
      { node := get location (setAll ws server), isFullyInitialized := true }

namespace Shows

variable {location : List String} {viewCache viewCache' : FViewCache} {server' : Snapshot}
  {xs : List (List String × Snapshot)}

theorem congr (h : Shows location ws server viewCache)
    (hserver : get location server' = get location server) :
    Shows location ws server' viewCache := by
  refine ⟨fun hfull => (h.served hfull).trans hserver.symm, fun hfull => ?_⟩
  rw [h.shown hfull, get_setAll_congr hserver]

/-- As long as not all is there, only a covered location counts. -/
theorem of_unserved (xs : List (List String × Snapshot))
    (h : Shows location (xs ++ ws) server viewCache)
    (hfull : viewCache'.cachedServerSnap.isFullyInitialized = false)
    (hshown : Covers ws location → viewCache'.cachedEventSnap = viewCache.cachedEventSnap) :
    Shows location ws server' viewCache' := by
  refine ⟨fun htrue => ?_, fun hknown => ?_⟩
  · rw [hfull] at htrue
    cases htrue
  · have hcovers := hknown.resolve_left (by simp [hfull])
    have hall : Covers (xs ++ ws) location := covers_append.mpr (.inr hcovers)
    rw [hshown hcovers, h.shown (.inr hall), setAll_append,
      get_setAll_covered hcovers (setAll xs server) server']

/-- Writes elsewhere do not show. -/
theorem of_diverge (h : Shows location (xs ++ ws) server viewCache)
    (hxs : ∀ e ∈ xs, Diverge location e.1) : Shows location ws server viewCache := by
  refine ⟨h.served, fun hknown => ?_⟩
  have hall : Covers ws location → Covers (xs ++ ws) location := fun hcovers =>
    covers_append.mpr (.inr hcovers)
  rw [h.shown (hknown.imp_right hall), setAll_append,
    get_setAll_congr (get_setAll_diverge hxs server)]

/-- Nor do writes that later ones cover. -/
theorem of_covered (h : Shows location (xs ++ ws) server viewCache) (hclear : ClearAll xs server)
    {path : List String} (hxs : ∀ e ∈ xs, path <+: e.1) (hcovers : Covers ws path) :
    Shows location ws server viewCache := by
  have hnone : (xs.filter fun e => ¬path <+: e.1) = [] :=
    List.filter_eq_nil_iff.mpr fun e he => by simpa using hxs e he
  have hsame : setAll ws (setAll xs server) = setAll ws server := by
    rcases setAll_left_out hclear (fun e he => .inl (hxs e he)) ws with ⟨-, heq⟩ | ⟨hnot, -⟩
    · rw [heq, hnone, setAll_nil]
    · exact absurd hcovers hnot
  refine ⟨h.served, fun hknown => ?_⟩
  have hall : Covers ws location → Covers (xs ++ ws) location := fun hcovers =>
    covers_append.mpr (.inr hcovers)
  rw [h.shown (hknown.imp_right hall), setAll_append, hsame]

end Shows

namespace FOperation

/-- Whose data an operation brings. -/
def source? : FOperation → Option FOperationSource
  | overwrite source _ _ => some source
  | merge source _ _ => some source
  | ackUserWrite _ _ _ => none
  | listenComplete _ => none

/-- The data, as writes. -/
def writes : FOperation → List (List String × Snapshot)
  | overwrite _ path snap => [(path, snap)]
  | merge _ path children => under path children.writes
  | ackUserWrite _ _ _ => []
  | listenComplete _ => []

end FOperation

namespace FViewProcessor

open FIndexedFilter

variable {viewCache : FViewCache} {path : List String} {server' : Snapshot}
  {xs : List (List String × Snapshot)}

theorem pairwise_diverge_under (children : FCompoundWrite Snapshot) (path : List String) :
    (under path children.writes).Pairwise fun v w => Diverge v.1 w.1 :=
  List.pairwise_map.mpr (children.pairwise_diverge_writes.imp diverge_append_iff.mpr)

theorem updateChildIn_set (node : Snapshot) (childKey : String) (path : List String)
    (snap : Snapshot) :
    (updateChildIn node childKey (set path snap (child node childKey)) path).1 =
      set (childKey :: path) snap node := by
  by_cases hsame : get path (child node childKey) =
      get path (set path snap (child node childKey)) ∧
        (child node childKey).isEmpty = (set path snap (child node childKey)).isEmpty
  · have hsnap := hsame.1
    rw [get_set] at hsnap
    rw [updateChildIn, if_pos hsame, ← hsnap]
    exact (set_get (childKey :: path) node).symm
  · rw [updateChildIn_fst hsame]
    rfl

/-! ### After something of the server -/

theorem generateEventCacheAfterServerEvent_shadowed
    (h : (writesCache.shadowingWriteAtPath path).isSome = true) :
    generateEventCacheAfterServerEvent viewCache path writesCache = (viewCache, []) := if_pos h

theorem generateEventCacheAfterServerEvent_serverSnap (viewCache : FViewCache)
    (path : List String) (writesCache : FWriteTreeRef) :
    (generateEventCacheAfterServerEvent viewCache path writesCache).1.cachedServerSnap =
      viewCache.cachedServerSnap := by
  unfold generateEventCacheAfterServerEvent
  dsimp only
  split <;> rfl

/-- At a path that no write shadows, what is there with the writes made is shown. -/
theorem generateEventCacheAfterServerEvent_eq (hw : writesCache.Lays ws)
    (hclear : ClearAll ws server)
    (hserver : viewCache.cachedServerSnap =
      { node := get writesCache.path server, isFullyInitialized := true })
    (hfull : viewCache.cachedEventSnap.isFullyInitialized = true ∨ path = [])
    (hnot : ¬Covers ws (writesCache.path ++ path)) :
    (generateEventCacheAfterServerEvent viewCache path writesCache).1 =
      { viewCache with cachedEventSnap :=
          { node := set path (get (writesCache.path ++ path) (setAll ws server))
              viewCache.cachedEventSnap.node
            isFullyInitialized := true } } := by
  have hshadow := mt hw.shadowingWriteAtPath_isSome.mp hnot
  unfold generateEventCacheAfterServerEvent
  dsimp only
  rw [if_neg hshadow]
  cases path with
  | nil =>
      have hcomplete : viewCache.completeServerSnap = some (get writesCache.path server) := by
        rw [FViewCache.completeServerSnap, hserver]
        rfl
      rw [hcomplete, hw.calculateCompleteEventCache hclear, List.append_nil]
      simp [updateFullNode]
  | cons childKey childChangePath =>
      have hfull := hfull.resolve_right (List.cons_ne_nil _ _)
      have hcomplete : viewCache.cachedEventSnap.isCompleteForChild childKey = true := by
        rw [FCacheNode.isCompleteForChild, hfull, Bool.true_or]
      have hchild : newEventChild viewCache childKey childChangePath writesCache =
          some (set childChangePath
            (get (writesCache.path ++ childKey :: childChangePath) (setAll ws server))
            (child viewCache.cachedEventSnap.node childKey)) := by
        unfold newEventChild
        dsimp only
        rw [if_pos hcomplete, hserver, hw.calculateEventCacheAfterServerOverwrite hclear hnot]
      dsimp only
      rw [hchild]
      dsimp only
      rw [updateChildIn_set, hfull]
      rfl

theorem shows_generateEventCacheAfterServerEvent (hw : writesCache.Lays ws)
    (hclear : ClearAll ws server)
    (hserver : viewCache.cachedServerSnap =
      { node := get writesCache.path server, isFullyInitialized := true })
    (hcovered : Covers ws (writesCache.path ++ path) → viewCache.cachedEventSnap =
      { node := get writesCache.path (setAll ws server), isFullyInitialized := true })
    (hexposed : ¬Covers ws (writesCache.path ++ path) →
      (viewCache.cachedEventSnap.isFullyInitialized = true ∨ path = []) ∧
        set path (get (writesCache.path ++ path) (setAll ws server))
          viewCache.cachedEventSnap.node = get writesCache.path (setAll ws server)) :
    Shows writesCache.path ws server
      (generateEventCacheAfterServerEvent viewCache path writesCache).1 := by
  refine ⟨fun _ => ?_, fun _ => ?_⟩
  · rw [generateEventCacheAfterServerEvent_serverSnap, hserver]
  · by_cases hcovers : Covers ws (writesCache.path ++ path)
    · rw [generateEventCacheAfterServerEvent_shadowed (hw.shadowingWriteAtPath_isSome.mpr hcovers)]
      exact hcovered hcovers
    · obtain ⟨hfull, hnode⟩ := hexposed hcovers
      rw [generateEventCacheAfterServerEvent_eq hw hclear hserver hfull hcovers]
      dsimp only
      rw [hnode]

theorem applyServerOverwriteTo_eq (snap : Snapshot)
    (h : viewCache.cachedServerSnap.isFullyInitialized = true ∨ path = []) :
    applyServerOverwriteTo viewCache path snap writesCache =
      generateEventCacheAfterServerEvent { viewCache with cachedServerSnap :=
        { node := set path snap viewCache.cachedServerSnap.node, isFullyInitialized := true } }
        path writesCache := by
  unfold applyServerOverwriteTo
  dsimp only
  cases path with
  | nil => simp [updateFullNode]
  | cons childKey childChangePath =>
      have hfull := h.resolve_right (List.cons_ne_nil _ _)
      have hcomplete :
          viewCache.cachedServerSnap.isCompleteForPath (childKey :: childChangePath) = true := by
        rw [FCacheNode.isCompleteForPath, FCacheNode.isCompleteForChild, hfull, Bool.true_or]
      rw [if_neg (by simp [hcomplete]), hfull]
      dsimp only
      rw [updateChildIn_set]
      rfl

theorem applyServerOverwriteTo_unserved (snap : Snapshot) (writesCache : FWriteTreeRef)
    (hfull : viewCache.cachedServerSnap.isFullyInitialized = false) (hpath : path ≠ []) :
    (applyServerOverwriteTo viewCache path snap
      writesCache).1.cachedServerSnap.isFullyInitialized = false ∧
    ((writesCache.shadowingWriteAtPath path).isSome = true →
      (applyServerOverwriteTo viewCache path snap writesCache).1.cachedEventSnap =
        viewCache.cachedEventSnap) := by
  unfold applyServerOverwriteTo
  dsimp only
  split
  · exact ⟨hfull, fun _ => rfl⟩
  · refine ⟨?_, fun hshadow => ?_⟩
    · rw [generateEventCacheAfterServerEvent_serverSnap, hfull]
      simp [hpath]
    · rw [generateEventCacheAfterServerEvent_shadowed hshadow]

/-- **The server overwrites** something. -/
theorem shows_applyServerOverwriteTo (hw : writesCache.Lays ws)
    (h : Shows writesCache.path ws server viewCache) {snap : Snapshot}
    (hserver : get writesCache.path server' = set path snap (get writesCache.path server))
    (hclear : ClearAll ws server) (hclear' : ClearAll ws server') :
    Shows writesCache.path ws server'
      (applyServerOverwriteTo viewCache path snap writesCache).1 := by
  by_cases hknown : viewCache.cachedServerSnap.isFullyInitialized = true ∨ path = []
  · -- seen from the location, the server has made a write at the path
    have hwrite : get writesCache.path (setAll ws server') =
        get writesCache.path (setAll ws (set (writesCache.path ++ path) snap server)) :=
      get_setAll_congr (by rw [hserver, get_set_below]) ws
    have hnode : set path snap viewCache.cachedServerSnap.node = get writesCache.path server' := by
      rcases hknown with hfull | rfl
      · rw [hserver, h.served hfull]
      · rw [hserver, set_nil, set_nil]
    rw [applyServerOverwriteTo_eq snap hknown, hnode]
    refine shows_generateEventCacheAfterServerEvent hw hclear' rfl (fun hcovers => ?_)
      fun hnot => ?_
    · have hshown := h.shown (hknown.imp_right fun hnil => by
        rwa [hnil, List.append_nil] at hcovers)
      rw [hwrite, setAll_set_covered hclear hcovers]
      exact hshown
    · rcases hknown with hfull | rfl
      · rw [h.shown (.inl hfull)]
        refine ⟨.inl rfl, ?_⟩
        have hget : get (writesCache.path ++ path) (setAll ws server') =
            get (writesCache.path ++ path)
              (setAll ws (set (writesCache.path ++ path) snap server)) := by
          rw [get_append, get_append, hwrite]
        rw [hget, hwrite, ← get_set_below, ← setAll_set hclear hnot]
      · exact ⟨.inr rfl, by rw [List.append_nil, set_nil]⟩
  · obtain ⟨hfull, hpath⟩ := not_or.mp hknown
    obtain ⟨hunserved, hsame⟩ := applyServerOverwriteTo_unserved snap writesCache
      (Bool.eq_false_iff.mpr hfull) hpath
    refine Shows.of_unserved [] h hunserved fun hcovers => hsame ?_
    exact hw.shadowingWriteAtPath_isSome.mpr (hcovers.append path)

/-! ### After a merge of the server -/

theorem thenApply_unserved {α : Type} {step : FViewCache → α → FViewCache × List FChange}
    {Shadowed : Prop}
    (hstep : ∀ viewCache a, viewCache.cachedServerSnap.isFullyInitialized = false →
      (step viewCache a).1.cachedServerSnap.isFullyInitialized = false ∧
        (Shadowed → (step viewCache a).1.cachedEventSnap = viewCache.cachedEventSnap))
    (as : List α) (hfull : viewCache.cachedServerSnap.isFullyInitialized = false) :
    (thenApply step viewCache as).1.cachedServerSnap.isFullyInitialized = false ∧
      (Shadowed → (thenApply step viewCache as).1.cachedEventSnap =
        viewCache.cachedEventSnap) := by
  induction as generalizing viewCache with
  | nil => exact ⟨hfull, fun _ => rfl⟩
  | cons a as ih =>
      obtain ⟨hone, hsame⟩ := hstep viewCache a hfull
      obtain ⟨hrest, hsame'⟩ := ih hone
      exact ⟨hrest, fun hshadowed => (hsame' hshadowed).trans (hsame hshadowed)⟩

theorem applyServerMergeTo_unserved (hw : writesCache.Lays ws) (path : List String)
    (children : FCompoundWrite Snapshot)
    (hfull : viewCache.cachedServerSnap.isFullyInitialized = false) :
    (applyServerMergeTo viewCache path children
      writesCache).1.cachedServerSnap.isFullyInitialized = false ∧
    (Covers ws writesCache.path →
      (applyServerMergeTo viewCache path children writesCache).1.cachedEventSnap =
        viewCache.cachedEventSnap) := by
  unfold applyServerMergeTo
  dsimp only
  split
  · exact ⟨hfull, fun _ => rfl⟩
  · refine thenApply_unserved (fun viewCache childKey hfull => ?_) _ hfull
    have hone := fun snap => applyServerOverwriteTo_unserved snap writesCache hfull
      (List.cons_ne_nil childKey [])
    exact ⟨(hone _).1, fun hcovers =>
      (hone _).2 (hw.shadowingWriteAtPath_isSome.mpr (hcovers.append [childKey]))⟩

section Merge

variable {merge : FCompoundWrite Snapshot}

/-- The writes of a merge at some children. -/
def writesAt (merge : FCompoundWrite Snapshot) (childKeys : List String) :
    List (List String × Snapshot) :=
  childKeys.flatMap fun childKey => under [childKey] (merge.subtree [childKey]).writes

theorem setAll_writesAt_cons (merge : FCompoundWrite Snapshot) (childKey : String)
    (childKeys : List String) (node : Snapshot) :
    setAll (writesAt merge (childKey :: childKeys)) node =
      setAll (writesAt merge childKeys) (Nested.setChild node childKey
        ((merge.subtree [childKey]).applyToNode (child node childKey))) := by
  unfold writesAt
  rw [List.flatMap_cons, setAll_append, applyToNode_eq_setAll]
  refine congrArg (setAll _) ?_
  exact setAll_below (merge.subtree [childKey]).pairwise_diverge_writes [childKey] node

theorem child_setAll_writesAt {childKeys : List String} (hnodup : childKeys.Nodup)
    (node : Snapshot) (childKey : String) :
    child (setAll (writesAt merge childKeys) node) childKey =
      if childKey ∈ childKeys then (merge.subtree [childKey]).applyToNode (child node childKey)
      else child node childKey := by
  induction childKeys generalizing node with
  | nil => rfl
  | cons key childKeys ih =>
      rw [List.nodup_cons] at hnodup
      rw [setAll_writesAt_cons, ih hnodup.2]
      by_cases hkey : childKey = key
      · subst hkey
        rw [if_neg hnodup.1, child_setChild_self, if_pos List.mem_cons_self]
      · simp [child_setChild_of_ne _ _ hkey, hkey]

theorem clearAll_writesAt (hclear : ClearAll ws server) (hclear' : ClearAll ws server')
    {location : List String} {childKeys : List String} (hnodup : childKeys.Nodup)
    (hserver : ∀ childKey ∈ childKeys, child (get location server') childKey =
      (merge.subtree [childKey]).applyToNode (child (get location server) childKey)) :
    ClearAll ws
      (set location (setAll (writesAt merge childKeys) (get location server)) server) := by
  refine fun w hmem => clear_set_between (hclear w hmem) (hclear' w hmem) (fun childKey => ?_) ?_
  · rw [child_setAll_writesAt hnodup]
    split
    · rename_i hkey
      exact .inr (hserver childKey hkey).symm
    · exact .inl rfl
  · refine isLeaf_of_setAll fun e he => ?_
    obtain ⟨childKey, -, hmem⟩ := List.mem_flatMap.mp he
    obtain ⟨f, -, rfl⟩ := List.mem_map.mp hmem
    exact List.cons_ne_nil _ _

/-- The children of a merge one after another. -/
theorem shows_overwriteChildren (merge : FCompoundWrite Snapshot) (hw : writesCache.Lays ws)
    {old node : Snapshot}
    {overwriteChild : FViewCache → String → FViewCache × List FChange}
    (hoverwrite : ∀ viewCache childKey, overwriteChild viewCache childKey =
      applyServerOverwriteTo viewCache [childKey]
        ((merge.subtree [childKey]).applyToNode (child old childKey)) writesCache)
    {childKeys : List String} (hnodup : childKeys.Nodup)
    (hold : ∀ childKey ∈ childKeys, child node childKey = child old childKey)
    (hclear : ∀ done, done <+: childKeys →
      ClearAll ws (set writesCache.path (setAll (writesAt merge done) node) server))
    (h : Shows writesCache.path ws (set writesCache.path node server) viewCache) :
    Shows writesCache.path ws
      (set writesCache.path (setAll (writesAt merge childKeys) node) server)
      (thenApply overwriteChild viewCache childKeys).1 := by
  induction childKeys generalizing node viewCache with
  | nil => exact h
  | cons childKey childKeys ih =>
      rw [List.nodup_cons] at hnodup
      rw [List.forall_mem_cons] at hold
      have hfirst := hclear [childKey] (List.prefix_append [childKey] childKeys)
      rw [setAll_writesAt_cons] at hfirst ⊢
      refine ih hnodup.2 (fun key hkey => ?_) (fun done hdone => ?_) ?_
      · rw [child_setChild_of_ne _ _ (ne_of_mem_of_not_mem hkey hnodup.1), hold.2 key hkey]
      · have hmore := hclear (childKey :: done) (List.cons_prefix_cons.mpr ⟨rfl, hdone⟩)
        rwa [setAll_writesAt_cons] at hmore
      · rw [hoverwrite, ← hold.1]
        refine shows_applyServerOverwriteTo hw h ?_ (hclear [] List.nil_prefix) hfirst
        rw [get_set, get_set]
        rfl

end Merge

/-- **The server merges** something; a merge with a write to all there is comes as an
overwrite. -/
theorem shows_applyServerMergeTo (hw : writesCache.Lays ws)
    (h : Shows writesCache.path ws server viewCache) {children : FCompoundWrite Snapshot}
    (hroot : path = [] → children.rootWrite = none)
    (hserver : get writesCache.path server' =
      setAll (under path children.writes) (get writesCache.path server))
    (hclear : ClearAll ws server) (hclear' : ClearAll ws server') :
    Shows writesCache.path ws server'
      (applyServerMergeTo viewCache path children writesCache).1 := by
  cases hfull : viewCache.cachedServerSnap.isFullyInitialized with
  | false =>
      obtain ⟨hserver, hshown⟩ := applyServerMergeTo_unserved hw path children hfull
      exact Shows.of_unserved [] h hserver hshown
  | true =>
      have hapart := pairwise_diverge_under children path
      obtain ⟨merge, hmerge⟩ : ∃ merge, merge = if path = [] then children
          else FCompoundWrite.emptyWrite.addCompoundWrite children path := ⟨_, rfl⟩
      have hperm : merge.writes.Perm (under path children.writes) := by
        rw [hmerge]
        split
        · rename_i hnil
          rw [hnil, under]
          simp
        · rw [addCompoundWrite_eq_addAll]
          have hall : (addAll (under path children.writes) emptyWrite).writes.Perm
              (under path children.writes ++ (emptyWrite : FCompoundWrite Snapshot).writes) :=
            writes_addAll_perm hapart fun _ _ _ he => absurd he List.not_mem_nil
          rwa [show (emptyWrite : FCompoundWrite Snapshot).writes = [] from rfl,
            List.append_nil] at hall
      have hnone : merge.rootWrite = none := by
        by_contra hsome
        obtain ⟨node, hnode⟩ := Option.ne_none_iff_exists'.mp hsome
        have hmem := hperm.mem_iff.mp (mem_writes.mpr hnode : ([], node) ∈ merge.writes)
        obtain ⟨e, he, heq⟩ := List.mem_map.mp hmem
        rw [Prod.mk.injEq, List.append_eq_nil_iff] at heq
        have hvalue := mem_writes.mp (show ([], e.2) ∈ children.writes by
          rwa [show ([], e.2) = e from Prod.ext heq.1.2.symm rfl])
        rw [show valueAtPath [] children.writeTree = none from hroot heq.1.1] at hvalue
        cases hvalue
      have hmade : merge.applyToNode (get writesCache.path server) =
          get writesCache.path server' := by
        rw [applyToNode_eq_setAll, setAll_perm hperm merge.pairwise_diverge_writes, hserver]
      have hchild : ∀ childKey, child (get writesCache.path server') childKey =
          (merge.subtree [childKey]).applyToNode
            (child (get writesCache.path server) childKey) := by
        intro childKey
        rw [← hmade]
        show get [childKey] (merge.applyToNode _) = _
        refine get_applyToNode (fun q hq hne => ?_) _
        have hnil : q = [] := by
          by_contra hcons
          exact hne (hq.eq_of_length_le (List.length_pos_iff.mpr hcons))
        rw [hnil]
        exact hnone
      unfold applyServerMergeTo
      dsimp only
      rw [← hmerge, if_neg (by simp [hfull])]
      simp only [FCacheNode.isCompleteForChild, hfull, Bool.true_or, Bool.not_true, Bool.false_and,
        Bool.not_false, Bool.and_true]
      have hkeys := List.filter_append_perm
        (fun childKey => viewCache.cachedServerSnap.node.hasChild childKey) merge.childKeys
      revert hkeys
      generalize merge.childKeys.filter _ ++ merge.childKeys.filter _ = childKeys
      intro hkeys
      have hnodup : childKeys.Nodup := hkeys.nodup_iff.mpr merge.nodup_childKeys
      have hstart : Shows writesCache.path ws
          (set writesCache.path (get writesCache.path server) server) viewCache := by
        rwa [set_get]
      have hshows := shows_overwriteChildren merge hw (fun _ _ => rfl) hnodup
        (fun _ _ => rfl) (fun done hdone => clearAll_writesAt hclear hclear'
          (hnodup.sublist hdone.sublist) fun childKey _ => hchild childKey) hstart
      rw [h.served hfull]
      refine hshows.congr ?_
      have hall : merge.writes.Perm (writesAt merge childKeys) := by
        rw [writes_eq_flatMap hnone]
        exact hkeys.symm.flatMap_right _
      rw [get_set, ← hmade, applyToNode_eq_setAll, setAll_perm hall merge.pairwise_diverge_writes]

/-- **The server completes** a listen. -/
theorem shows_listenComplete (hw : writesCache.Lays ws)
    (h : Shows writesCache.path ws server viewCache) (hclear : ClearAll ws server)
    (hpath : path = [] → viewCache.cachedServerSnap.node = get writesCache.path server) :
    Shows writesCache.path ws server (listenComplete viewCache path writesCache).1 := by
  unfold listenComplete
  dsimp only
  by_cases hknown : viewCache.cachedServerSnap.isFullyInitialized = true ∨ path = []
  · have hnode : viewCache.cachedServerSnap.node = get writesCache.path server :=
      hknown.elim h.served hpath
    have hcomplete : (viewCache.cachedServerSnap.isFullyInitialized || path.isEmpty) = true := by
      simpa using hknown
    rw [hnode, hcomplete]
    refine shows_generateEventCacheAfterServerEvent hw hclear rfl (fun hcovers => ?_) fun _ => ?_
    · exact h.shown (hknown.imp_right fun hnil => by rwa [hnil, List.append_nil] at hcovers)
    · rcases hknown with hfull | rfl
      · rw [h.shown (.inl hfull)]
        exact ⟨.inl rfl, by rw [get_append, set_get]⟩
      · exact ⟨.inr rfl, by rw [List.append_nil, set_nil]⟩
  · obtain ⟨hfull, hpath⟩ := not_or.mp hknown
    have hfull := Bool.eq_false_iff.mpr hfull
    refine Shows.of_unserved [] h ?_ fun hcovers => ?_
    · rw [generateEventCacheAfterServerEvent_serverSnap, hfull]
      simp [hpath]
    · rw [generateEventCacheAfterServerEvent_shadowed
        (hw.shadowingWriteAtPath_isSome.mpr (hcovers.append path))]

/-! ### After a write of the user -/

theorem applyUserOverwriteTo_eq (optCompleteCache : Option Snapshot)
    {write : List String × Snapshot}
    (h : viewCache.cachedEventSnap.isFullyInitialized = true ∨ write.1 = []) :
    (applyUserOverwriteTo writesCache optCompleteCache viewCache write).1 =
      { viewCache with cachedEventSnap :=
          { node := set write.1 write.2 viewCache.cachedEventSnap.node
            isFullyInitialized := true } } := by
  obtain ⟨changePath, changedSnap⟩ := write
  unfold applyUserOverwriteTo
  cases changePath with
  | nil => rfl
  | cons childKey childChangePath =>
      have hfull := h.resolve_right (List.cons_ne_nil _ _)
      have hcomplete : viewCache.cachedEventSnap.isCompleteForChild childKey = true := by
        rw [FCacheNode.isCompleteForChild, hfull, Bool.true_or]
      have hchild : overwrittenChild writesCache optCompleteCache viewCache childKey
          childChangePath changedSnap =
            set childChangePath changedSnap (child viewCache.cachedEventSnap.node childKey) := by
        unfold overwrittenChild completeChild
        dsimp only
        rw [if_pos hcomplete]
        split
        · rename_i hnil
          rw [hnil, set_nil]
        · rfl
      dsimp only
      rw [hchild]
      split
      · dsimp only
        rw [updateChildIn_set, hfull]
      · rename_i hsame
        rw [not_ne_iff] at hsame
        rw [Nested.set, ← hsame, setChild_child, ← hfull]

theorem applyUserOverwriteTo_serverSnap (optCompleteCache : Option Snapshot)
    (viewCache : FViewCache) (write : List String × Snapshot) :
    (applyUserOverwriteTo writesCache optCompleteCache viewCache write).1.cachedServerSnap =
      viewCache.cachedServerSnap := by
  obtain ⟨changePath, changedSnap⟩ := write
  unfold applyUserOverwriteTo
  cases changePath with
  | nil => rfl
  | cons childKey childChangePath =>
      dsimp only
      split <;> rfl

theorem thenApply_applyUserOverwriteTo_eq (optCompleteCache : Option Snapshot)
    (hfull : viewCache.cachedEventSnap.isFullyInitialized = true)
    (writes : List (List String × Snapshot)) :
    (thenApply (applyUserOverwriteTo writesCache optCompleteCache) viewCache writes).1 =
      { viewCache with cachedEventSnap :=
          { node := setAll writes viewCache.cachedEventSnap.node
            isFullyInitialized := true } } := by
  induction writes generalizing viewCache with
  | nil =>
      rw [thenApply, setAll_nil, ← hfull]
  | cons write writes ih =>
      have hone : (applyUserOverwriteTo writesCache optCompleteCache viewCache write).1 = _ :=
        applyUserOverwriteTo_eq optCompleteCache (.inl hfull)
      show (thenApply _ (applyUserOverwriteTo writesCache optCompleteCache viewCache write).1
        writes).1 = _
      rw [hone, ih rfl]
      rfl

theorem thenApply_applyUserOverwriteTo_serverSnap (optCompleteCache : Option Snapshot)
    (viewCache : FViewCache) (writes : List (List String × Snapshot)) :
    (thenApply (applyUserOverwriteTo writesCache optCompleteCache) viewCache
      writes).1.cachedServerSnap = viewCache.cachedServerSnap := by
  induction writes generalizing viewCache with
  | nil => rfl
  | cons write writes ih =>
      exact (ih _).trans (applyUserOverwriteTo_serverSnap optCompleteCache viewCache write)

theorem applyUserMergeTo_serverSnap (viewCache : FViewCache) (path : List String)
    (children : FCompoundWrite Snapshot) (serverCache : Option Snapshot) :
    (applyUserMergeTo viewCache path children writesCache serverCache).1.cachedServerSnap =
      viewCache.cachedServerSnap :=
  thenApply_applyUserOverwriteTo_serverSnap serverCache viewCache _

theorem applyUserMergeTo_eq (children : FCompoundWrite Snapshot) (serverCache : Option Snapshot)
    (h : viewCache.cachedEventSnap.isFullyInitialized = true ∨
      Covers (under path children.writes) []) :
    (applyUserMergeTo viewCache path children writesCache serverCache).1 =
      { viewCache with cachedEventSnap :=
          { node := setAll (under path children.writes) viewCache.cachedEventSnap.node
            isFullyInitialized := true } } := by
  have hapart := pairwise_diverge_under children path
  unfold applyUserMergeTo
  dsimp only
  show (thenApply _ viewCache ((under path children.writes).filter _ ++
    (under path children.writes).filter _)).1 = _
  have hperm := List.filter_append_perm (fun write : List String × Snapshot =>
    viewCache.cachedEventSnap.isCompleteForPath write.1) (under path children.writes)
  rcases h with hfull | ⟨write, hwrite, hnil⟩
  · rw [thenApply_applyUserOverwriteTo_eq serverCache hfull, setAll_perm hperm.symm hapart]
  · -- a write to all there is stands alone
    have hnil := List.prefix_nil.mp hnil
    have halone : under path children.writes = [write] := by
      obtain ⟨before, after, hall⟩ := List.append_of_mem hwrite
      rw [hall, List.pairwise_append, List.pairwise_cons] at hapart
      obtain ⟨-, ⟨hafter, -⟩, hbefore⟩ := hapart
      have hnone : before = [] := List.eq_nil_iff_forall_not_mem.mpr fun v hv =>
        not_diverge_nil_right v.1 (hnil ▸ hbefore v hv write List.mem_cons_self)
      have hnone' : after = [] := List.eq_nil_iff_forall_not_mem.mpr fun v hv =>
        not_diverge_nil_left v.1 (hnil ▸ hafter v hv)
      rw [hall, hnone, hnone']
      rfl
    rw [halone] at hperm ⊢
    rw [List.perm_singleton.mp hperm]
    show (applyUserOverwriteTo writesCache serverCache viewCache write).1 = _
    rw [applyUserOverwriteTo_eq serverCache (.inr hnil)]
    rfl

/-- **The user writes** something, which is pending from now on. -/
theorem shows_user (h : Shows writesCache.path ws server viewCache) {operation : FOperation}
    (huser : operation.source? = some .user) (optCompleteCache : Option Snapshot)
    (hmade : get writesCache.path (setAll (ws ++ xs) server) =
      setAll operation.writes (get writesCache.path (setAll ws server)))
    (hcovers : Covers (ws ++ xs) writesCache.path →
      Covers ws writesCache.path ∨ Covers operation.writes []) :
    Shows writesCache.path (ws ++ xs) server
      (process viewCache operation writesCache optCompleteCache).1 := by
  have hserver : (process viewCache operation writesCache optCompleteCache).1.cachedServerSnap =
      viewCache.cachedServerSnap := by
    match operation, huser with
    | .overwrite .user path snap, _ =>
        exact applyUserOverwriteTo_serverSnap optCompleteCache viewCache (path, snap)
    | .merge .user path children, _ =>
        exact applyUserMergeTo_serverSnap viewCache path children optCompleteCache
  have hshown : viewCache.cachedEventSnap.isFullyInitialized = true ∨
      Covers operation.writes [] →
        (process viewCache operation writesCache optCompleteCache).1.cachedEventSnap =
          { node := setAll operation.writes viewCache.cachedEventSnap.node
            isFullyInitialized := true } := by
    intro hknown
    match operation, huser with
    | .overwrite .user path snap, _ =>
        have hnil : Covers [(path, snap)] [] → path = [] := by
          rintro ⟨w, hw, hnil⟩
          rw [List.mem_singleton.mp hw] at hnil
          exact List.prefix_nil.mp hnil
        exact congrArg FViewCache.cachedEventSnap (applyUserOverwriteTo_eq optCompleteCache
          (hknown.imp_right hnil))
    | .merge .user path children, _ =>
        exact congrArg FViewCache.cachedEventSnap
          (applyUserMergeTo_eq children optCompleteCache hknown)
  refine ⟨fun hfull => hserver ▸ h.served (hserver ▸ hfull), fun hknown => ?_⟩
  rw [hserver] at hknown
  rw [hmade]
  by_cases hold : viewCache.cachedServerSnap.isFullyInitialized = true ∨ Covers ws writesCache.path
  · rw [hshown (.inl (by rw [h.shown hold])), h.shown hold]
  · obtain ⟨hfull, hnot⟩ := not_or.mp hold
    have hall := (hcovers (hknown.resolve_left hfull)).resolve_left hnot
    rw [hshown (.inr hall)]
    exact congrArg (FCacheNode.mk · true) (get_setAll_covered hall _ _)

/-! ### After an answer -/

/-- **Showing a path again** once some writes at it or below are no longer pending. -/
theorem shows_again (hw : writesCache.Lays ws) (hclear : ClearAll (xs ++ ws) server)
    (h : Shows writesCache.path (xs ++ ws) server viewCache)
    (hfull : viewCache.cachedServerSnap.isFullyInitialized = true)
    (hxs : ∀ e ∈ xs, writesCache.path ++ path <+: e.1 ∨ Diverge (writesCache.path ++ path) e.1) :
    Shows writesCache.path ((xs.filter fun e => ¬writesCache.path ++ path <+: e.1) ++ ws) server
      (generateEventCacheAfterServerEvent viewCache path writesCache).1 := by
  obtain ⟨hclearXs, hclearWs⟩ := List.forall_mem_append.mp hclear
  have hshown := h.shown (.inl hfull)
  refine ⟨fun _ => ?_, fun _ => ?_⟩
  · rw [generateEventCacheAfterServerEvent_serverSnap]
    exact h.served hfull
  · rw [setAll_append] at hshown ⊢
    rcases setAll_left_out hclearXs hxs ws with ⟨hcovers, heq⟩ | ⟨hnot, heq⟩
    · rw [generateEventCacheAfterServerEvent_shadowed (hw.shadowingWriteAtPath_isSome.mpr hcovers),
        hshown, heq]
    · have hserver : viewCache.cachedServerSnap =
          { node := get writesCache.path server, isFullyInitialized := true } := by
        rw [← h.served hfull, ← hfull]
      rw [generateEventCacheAfterServerEvent_eq hw hclearWs hserver (.inl (by rw [hshown])) hnot,
        hshown]
      -- what is left of the writes is not there
      have hget : get (writesCache.path ++ path) (setAll ws server) =
          get (writesCache.path ++ path) (setAll ws
            (setAll (xs.filter fun e => ¬writesCache.path ++ path <+: e.1) server)) := by
        refine (get_setAll_congr (get_setAll_diverge (fun e he => ?_) server) ws).symm
        obtain ⟨hmem, hout⟩ := List.mem_filter.mp he
        exact (hxs e hmem).resolve_left (of_decide_eq_true hout)
      dsimp only
      rw [hget, ← get_set_below, ← heq]

/-- The children one after another. -/
theorem shows_childrenAgain (hw : writesCache.Lays ws) {serverSnap : FCacheNode}
    (hfull : serverSnap.isFullyInitialized = true)
    {overwriteChild : FViewCache → String → FViewCache × List FChange}
    (hoverwrite : ∀ viewCache childKey, viewCache.cachedServerSnap = serverSnap →
      overwriteChild viewCache childKey =
        generateEventCacheAfterServerEvent viewCache [childKey] writesCache)
    (childKeys : List String) (hclear : ClearAll (xs ++ ws) server)
    (hserver : viewCache.cachedServerSnap = serverSnap)
    (h : Shows writesCache.path (xs ++ ws) server viewCache)
    (hxs : ∀ e ∈ xs, Diverge writesCache.path e.1 ∨
      ∃ childKey ∈ childKeys, writesCache.path ++ [childKey] <+: e.1) :
    Shows writesCache.path ws server (thenApply overwriteChild viewCache childKeys).1 := by
  induction childKeys generalizing xs viewCache with
  | nil =>
      refine h.of_diverge fun e he => (hxs e he).resolve_right ?_
      rintro ⟨childKey, hmem, -⟩
      exact absurd hmem List.not_mem_nil
  | cons childKey childKeys ih =>
      have hone : Shows writesCache.path
          ((xs.filter fun e => ¬writesCache.path ++ [childKey] <+: e.1) ++ ws) server
          (overwriteChild viewCache childKey).1 := by
        rw [hoverwrite viewCache childKey hserver]
        refine shows_again hw hclear h (hserver ▸ hfull) fun e he => ?_
        rcases hxs e he with hapart | ⟨key, -, hbelow⟩
        · exact .inr (hapart.append_left [childKey])
        · by_cases hkey : key = childKey
          · exact .inl (hkey ▸ hbelow)
          · obtain ⟨r, hr⟩ := hbelow
            refine .inr ?_
            rw [← hr, List.append_assoc, diverge_append_iff]
            exact diverge_cons.mpr (.inl (Ne.symm hkey))
      refine ih ?_ ?_ hone fun e he => ?_
      · refine fun e he => hclear e ?_
        exact (List.filter_sublist.append_right ws).subset he
      · rw [hoverwrite viewCache childKey hserver, generateEventCacheAfterServerEvent_serverSnap,
          hserver]
      · obtain ⟨hmem, hout⟩ := List.mem_filter.mp he
        refine (hxs e hmem).imp_right ?_
        rintro ⟨key, hkey, hbelow⟩
        rcases List.mem_cons.mp hkey with rfl | hkey
        · exact absurd hbelow (of_decide_eq_true hout)
        · exact ⟨key, hkey, hbelow⟩

/-- A write that an answer at the path with the affected tree is about, as far as it
concerns the location. -/
def Affected (location path : List String) (affectedTree : FImmutableTree Unit)
    (writePath : List String) : Prop :=
  affectedTree.value.isSome = true ∧ path = [] ∨ Diverge location writePath ∨
    ∃ e ∈ affectedTree.forEach, writePath = location ++ (path ++ e.1)

theorem isCompleteForPath_of_full {cache : FCacheNode} (h : cache.isFullyInitialized = true)
    (path : List String) : cache.isCompleteForPath path = true := by
  cases path with
  | nil => exact h
  | cons childKey path => rw [FCacheNode.isCompleteForPath, FCacheNode.isCompleteForChild, h,
      Bool.true_or]

/-- The server's own data makes no difference to the server's side. -/
theorem applyServerOverwriteTo_get
    (hfull : viewCache.cachedServerSnap.isFullyInitialized = true) (path : List String)
    (writesCache : FWriteTreeRef) :
    applyServerOverwriteTo viewCache path (get path viewCache.cachedServerSnap.node) writesCache =
      generateEventCacheAfterServerEvent viewCache path writesCache := by
  rw [applyServerOverwriteTo_eq _ (.inl hfull), set_get, ← hfull]

/-- Every write of a tree is what is there anyway. -/
def Own (node : Snapshot) (write : FCompoundWrite Snapshot) : Prop :=
  ∀ e ∈ write.writes, e.2 = get e.1 node

theorem own_addWrite {node : Snapshot} {write : FCompoundWrite Snapshot} (h : Own node write)
    (path : List String) : Own node (write.addWrite (get path node) path) := by
  rintro ⟨q, value⟩ hmem
  have hvalue := mem_writes.mp hmem
  rw [valueAtPath_addWrite] at hvalue
  split at hvalue
  · rename_i rootMost old hfound
    obtain ⟨⟨r, hr⟩, hold, -⟩ := findRootMostValueAndPath_eq_some.mp hfound
    split at hvalue
    · rename_i hq
      have hown : old = get rootMost node := h (rootMost, old) (mem_writes.mpr hold)
      rw [Option.some.injEq, ← hr, List.drop_left, get_append, hown, set_get] at hvalue
      rw [hq, ← hvalue]
    · exact h _ (mem_writes.mpr hvalue)
  · split at hvalue
    · split at hvalue
      · rename_i hq
        rw [hq, ← Option.some.inj hvalue]
      · cases hvalue
    · exact h _ (mem_writes.mpr hvalue)

theorem own_addAll {node : Snapshot} {write : FCompoundWrite Snapshot} (h : Own node write)
    {es : List (List String × Snapshot)} (hes : ∀ e ∈ es, e.2 = get e.1 node) :
    Own node (addAll es write) := by
  induction es generalizing write with
  | nil => exact h
  | cons e es ih =>
      obtain ⟨he, hes⟩ := List.forall_mem_cons.mp hes
      rw [addAll_cons]
      refine ih ?_ hes
      rw [he]
      exact own_addWrite h e.1

theorem own_emptyWrite (node : Snapshot) : Own node emptyWrite := fun _ he =>
  absurd he List.not_mem_nil

theorem Own.subtree_applyToNode {node : Snapshot} {write : FCompoundWrite Snapshot}
    (h : Own node write) (childKey : String) :
    (write.subtree [childKey]).applyToNode (child node childKey) = child node childKey := by
  rw [applyToNode_eq_setAll]
  refine setAll_get fun e he => ?_
  exact h _ (mem_under_subtree.mp (List.mem_map_of_mem he)).1

/-- Showing all there is again, whatever is no longer pending. -/
theorem shows_allAgain (hw : writesCache.Lays ws) (hclear : ClearAll ws server)
    (h : Shows writesCache.path (xs ++ ws) server viewCache)
    (hfull : viewCache.cachedServerSnap.isFullyInitialized = true) :
    Shows writesCache.path ws server
      (generateEventCacheAfterServerEvent viewCache [] writesCache).1 := by
  refine shows_generateEventCacheAfterServerEvent hw hclear ?_ (fun hcovers => ?_) fun _ => ?_
  · rw [← h.served hfull, ← hfull]
  · rw [List.append_nil] at hcovers
    rw [h.shown (.inl hfull), setAll_append, get_setAll_covered hcovers (setAll xs server) server]
  · exact ⟨.inr rfl, by rw [List.append_nil, set_nil]⟩

theorem shows_affectedAgain (hw : writesCache.Lays ws) (hclear : ClearAll (xs ++ ws) server)
    (h : Shows writesCache.path (xs ++ ws) server viewCache)
    (hfull : viewCache.cachedServerSnap.isFullyInitialized = true)
    {affectedTree : FImmutableTree Unit}
    (haffected : ∀ e ∈ xs, Affected writesCache.path path affectedTree e.1) :
    Shows writesCache.path ws server
      (generateEventCacheAfterServerEvent viewCache path writesCache).1 := by
  by_cases hpath : path = []
  · rw [hpath]
    exact shows_allAgain hw (List.forall_mem_append.mp hclear).2 h hfull
  · have hxs : ∀ e ∈ xs, writesCache.path ++ path <+: e.1 ∨ Diverge writesCache.path e.1 := by
      intro e he
      rcases haffected e he with ⟨-, hnil⟩ | hapart | ⟨f, -, hf⟩
      · exact absurd hnil hpath
      · exact .inr hapart
      · rw [hf, ← List.append_assoc]
        exact .inl (List.prefix_append _ f.1)
    refine (shows_again hw hclear h hfull fun e he =>
      (hxs e he).imp_right (Diverge.append_left · path)).of_diverge fun e he => ?_
    obtain ⟨hmem, hout⟩ := List.mem_filter.mp he
    exact (hxs e hmem).resolve_left (of_decide_eq_true hout)

theorem ackUserWriteOn_unserved (hw : writesCache.Lays ws) (affectedTree : FImmutableTree Unit)
    (hfull : viewCache.cachedServerSnap.isFullyInitialized = false) :
    (ackUserWriteOn viewCache path affectedTree
      writesCache).1.cachedServerSnap.isFullyInitialized = false := by
  unfold ackUserWriteOn
  dsimp only
  split
  · exact hfull
  · split
    · split
      · rename_i hcomplete
        refine (applyServerOverwriteTo_unserved _ writesCache hfull ?_).1
        rintro rfl
        rw [FCacheNode.isCompleteForPath, hfull] at hcomplete
        cases hcomplete
      · split
        · exact (applyServerMergeTo_unserved hw path _ hfull).1
        · exact hfull
    · exact (applyServerMergeTo_unserved hw path _ hfull).1

theorem mem_childKeys_of_value {write : FCompoundWrite Snapshot} {childKey : String}
    {q : List String} (h : valueAtPath (childKey :: q) write.writeTree ≠ none) :
    childKey ∈ write.childKeys := by
  rw [valueAtPath] at h
  cases hlookup : write.writeTree.children.lookup childKey with
  | none =>
      rw [hlookup] at h
      exact absurd rfl h
  | some tree =>
      exact List.mem_map_of_mem ((lookup_eq_some_iff (keyed_iff.mp write.keyed).1).mp hlookup)

/-- Something is written at or above a covered path. -/
theorem exists_value_of_covers {es : List (List String × Snapshot)} {q : List String}
    (h : Covers es q) :
    ∃ r, r <+: q ∧ valueAtPath r (addAll es emptyWrite).writeTree ≠ none := by
  by_contra hnone
  have hexposed : (addAll es emptyWrite).Exposed q := fun r hr => by
    by_contra hsome
    exact hnone ⟨r, hr, hsome⟩
  exact (exposed_addAll.mp hexposed).2 h

theorem exists_childKey_of_covers {es : List (List String × Snapshot)}
    (hes : ∀ e ∈ es, e.1 ≠ []) {q : List String} (h : Covers es q) :
    ∃ childKey ∈ (addAll es emptyWrite).childKeys, [childKey] <+: q := by
  obtain ⟨r, hr, hsome⟩ := exists_value_of_covers h
  cases r with
  | nil =>
      rcases mem_or_of_valueAtPath_addAll hsome with ⟨e, he, heq⟩ | hold
      · exact absurd heq (hes e he)
      · exact absurd rfl hold
  | cons childKey r =>
      exact ⟨childKey, mem_childKeys_of_value hsome, (List.prefix_append [childKey] r).trans hr⟩

/-- What the server has at the affected paths, as a merge: all its own, and with a child
for every one of them. -/
theorem affected_merge (node : Snapshot) {affectedTree : FImmutableTree Unit}
    (hroot : affectedTree.value = none) {merge : FCompoundWrite Snapshot}
    (hmerge : merge =
      if path = [] then affectedTree.forEach.foldl (fun changedChildren e =>
        changedChildren.addWrite (get (path ++ e.1) node) e.1) emptyWrite
      else FCompoundWrite.emptyWrite.addCompoundWrite (affectedTree.forEach.foldl
        (fun changedChildren e => changedChildren.addWrite (get (path ++ e.1) node) e.1)
          emptyWrite) path) :
    Own node merge ∧
      ∀ e ∈ affectedTree.forEach, ∃ childKey ∈ merge.childKeys, [childKey] <+: path ++ e.1 := by
  obtain ⟨es, hes⟩ : ∃ es, es = affectedTree.forEach.map fun e =>
      (e.1, get e.1 (get path node)) := ⟨_, rfl⟩
  have hfold : affectedTree.forEach.foldl (fun changedChildren e =>
      changedChildren.addWrite (get (path ++ e.1) node) e.1) emptyWrite = addAll es emptyWrite := by
    rw [hes, addAll, List.foldl_map]
    simp only [get_append]
  have hown : Own (get path node) (addAll es emptyWrite) := by
    refine own_addAll (own_emptyWrite _) fun e he => ?_
    obtain ⟨f, -, rfl⟩ := List.mem_map.mp (hes ▸ he)
    rfl
  have hcovers : ∀ e ∈ affectedTree.forEach, Covers es e.1 := fun e he =>
    ⟨_, hes ▸ List.mem_map_of_mem he, List.prefix_refl _⟩
  rw [hfold] at hmerge
  by_cases hpath : path = []
  · rw [if_pos hpath] at hmerge
    rw [hmerge, hpath]
    refine ⟨by rwa [hpath] at hown, fun e he => exists_childKey_of_covers ?_ (hcovers e he)⟩
    intro f hf hnil
    obtain ⟨g, hg, rfl⟩ := List.mem_map.mp (hes ▸ hf)
    have hg' : ([], g.2) ∈ affectedTree.forEach := by
      rwa [show ([], g.2) = g from Prod.ext hnil.symm rfl]
    rw [nil_mem_forEach.mp hg'] at hroot
    cases hroot
  · rw [if_neg hpath, addCompoundWrite_eq_addAll] at hmerge
    rw [hmerge]
    refine ⟨own_addAll (own_emptyWrite _) fun e he => ?_, fun e he =>
      exists_childKey_of_covers (fun f hf hnil => ?_) ?_⟩
    · obtain ⟨f, hf, rfl⟩ := List.mem_map.mp he
      exact (hown f hf).trans (get_append _ _ _).symm
    · obtain ⟨g, -, rfl⟩ := List.mem_map.mp hf
      exact hpath (List.append_eq_nil_iff.mp hnil).1
    · obtain ⟨q, hq, hsome⟩ := exists_value_of_covers (hcovers e he)
      obtain ⟨value, hsome⟩ := Option.ne_none_iff_exists'.mp hsome
      exact ⟨_, List.mem_map_of_mem (mem_writes.mpr hsome),
        (List.prefix_append_right_inj _).mpr hq⟩

/-- **The server confirms** the oldest of the writes. -/
theorem shows_ackUserWriteOn (hw : writesCache.Lays ws) (hclear : ClearAll (xs ++ ws) server)
    (h : Shows writesCache.path (xs ++ ws) server viewCache)
    {affectedTree : FImmutableTree Unit}
    (haffected : ∀ e ∈ xs, Affected writesCache.path path affectedTree e.1) :
    Shows writesCache.path ws server
      (ackUserWriteOn viewCache path affectedTree writesCache).1 := by
  cases hfull : viewCache.cachedServerSnap.isFullyInitialized with
  | false =>
      refine Shows.of_unserved xs h (ackUserWriteOn_unserved hw affectedTree hfull)
        fun hcovers => ?_
      unfold ackUserWriteOn
      dsimp only
      rw [if_pos (hw.shadowingWriteAtPath_isSome.mpr (hcovers.append path))]
  | true =>
      have hagain := shows_affectedAgain hw hclear h hfull haffected
      unfold ackUserWriteOn
      dsimp only
      split
      · rename_i hshadow
        rwa [generateEventCacheAfterServerEvent_shadowed hshadow] at hagain
      · split
        · rw [if_pos (isCompleteForPath_of_full hfull path),
            applyServerOverwriteTo_get hfull path writesCache]
          exact hagain
        · rename_i hroot
          have hroot : affectedTree.value = none := by simpa using hroot
          simp only [isCompleteForPath_of_full hfull, if_true]
          unfold applyServerMergeTo
          dsimp only
          obtain ⟨merge, hmerge⟩ : ∃ merge, merge =
              if path = [] then affectedTree.forEach.foldl (fun changedChildren e =>
                changedChildren.addWrite
                  (get (path ++ e.1) viewCache.cachedServerSnap.node) e.1) emptyWrite
              else FCompoundWrite.emptyWrite.addCompoundWrite (affectedTree.forEach.foldl
                (fun changedChildren e => changedChildren.addWrite
                  (get (path ++ e.1) viewCache.cachedServerSnap.node) e.1) emptyWrite) path :=
            ⟨_, rfl⟩
          obtain ⟨hown, hkeys⟩ := affected_merge viewCache.cachedServerSnap.node hroot hmerge
          rw [← hmerge, if_neg (by simp [hfull])]
          refine shows_childrenAgain hw hfull (fun cur childKey hcur => ?_) _ hclear rfl h
            fun e he => ?_
          · rw [hown.subtree_applyToNode, ← hcur]
            exact applyServerOverwriteTo_get (hcur ▸ hfull) [childKey] writesCache
          · rcases haffected e he with ⟨hsome, -⟩ | hapart | ⟨f, hf, heq⟩
            · rw [hroot] at hsome
              cases hsome
            · exact .inl hapart
            · obtain ⟨childKey, hkey, hbelow⟩ := hkeys f hf
              refine .inr ⟨childKey, ?_, ?_⟩
              · rw [List.mem_append, List.mem_filter, List.mem_filter]
                by_cases hknown : viewCache.cachedServerSnap.node.hasChild childKey = true
                · exact .inl ⟨hkey, hknown⟩
                · refine .inr ⟨hkey, ?_⟩
                  simp [hknown, FCacheNode.isCompleteForChild, hfull]
              · rw [heq]
                exact (List.prefix_append_right_inj _).mpr hbelow

theorem revertUserWriteOn_serverSnap (viewCache : FViewCache) (path : List String)
    (writesCache : FWriteTreeRef) :
    (revertUserWriteOn viewCache path writesCache).1.cachedServerSnap =
      viewCache.cachedServerSnap := by
  unfold revertUserWriteOn
  dsimp only
  split <;> rfl

/-- **The server refuses** it. -/
theorem shows_revertUserWriteOn (hw : writesCache.Lays ws) (hclear : ClearAll (xs ++ ws) server)
    (h : Shows writesCache.path (xs ++ ws) server viewCache)
    {affectedTree : FImmutableTree Unit}
    (haffected : ∀ e ∈ xs, Affected writesCache.path path affectedTree e.1) :
    Shows writesCache.path ws server (revertUserWriteOn viewCache path writesCache).1 := by
  cases hfull : viewCache.cachedServerSnap.isFullyInitialized with
  | false =>
      refine Shows.of_unserved xs h (by rwa [revertUserWriteOn_serverSnap]) fun hcovers => ?_
      unfold revertUserWriteOn
      dsimp only
      rw [if_pos (hw.shadowingWriteAtPath_isSome.mpr (hcovers.append path))]
  | true =>
      have hagain := shows_affectedAgain hw hclear h hfull haffected
      have hclear := (List.forall_mem_append.mp hclear).2
      refine ⟨fun _ => ?_, fun _ => ?_⟩
      · rw [revertUserWriteOn_serverSnap]
        exact h.served hfull
      · have hserver : viewCache.cachedServerSnap =
            { node := get writesCache.path server, isFullyInitialized := true } := by
          rw [← h.served hfull, ← hfull]
        have hshown := hagain.shown (.inl (by
          rw [generateEventCacheAfterServerEvent_serverSnap, hfull]))
        have hcomplete : writesCache.calculateCompleteEventCache viewCache.completeServerSnap =
            some (get writesCache.path (setAll ws server)) := by
          rw [FViewCache.completeServerSnap, hserver]
          exact hw.calculateCompleteEventCache hclear
        unfold revertUserWriteOn
        dsimp only
        split
        · rename_i hshadow
          rwa [generateEventCacheAfterServerEvent_shadowed hshadow] at hshown
        · rename_i hshadow
          have hnot := mt hw.shadowingWriteAtPath_isSome.mpr hshadow
          rw [hcomplete, hfull]
          cases path with
          | nil => simp [updateFullNode]
          | cons childKey affectedPath =>
              rw [generateEventCacheAfterServerEvent_eq hw hclear hserver
                (.inl (by rw [h.shown (.inl hfull)])) hnot] at hshown
              have hnode := congrArg FCacheNode.node hshown
              dsimp only at hnode
              -- the child that is left is what the path again makes of it
              have hchild : revertedChild viewCache childKey writesCache =
                  some (set affectedPath (get (writesCache.path ++ childKey :: affectedPath)
                    (setAll ws server)) (child viewCache.cachedEventSnap.node childKey)) := by
                unfold revertedChild
                rw [hserver, hw.calculateCompleteChild hclear, ← hnode, Nested.set,
                  child_setChild_self]
              have hrevert : (revertChildIn viewCache childKey affectedPath writesCache).1 =
                  get writesCache.path (setAll ws server) := by
                unfold revertChildIn
                dsimp only
                rw [hchild]
                dsimp only
                rw [updateChildIn_set, hnode]
              dsimp only
              split
              · rfl
              · rw [hrevert]
                rfl

end FViewProcessor

end SocialTimeline
