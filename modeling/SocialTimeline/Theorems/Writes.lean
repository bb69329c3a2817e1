import SocialTimeline.Database.FCompoundWrite

/-!
# Laying writes over a snapshot

Applying a tree of writes is making them one after another, in the order they were
added (`applyToNode_addWrite`, `applyToNode_addAll`), as long as no leaf stands above
one of them. Below a path that has no write at or above it only the writes below count
(`get_applyToNode`); below one that has, nothing of the snapshot shows
(`get_applyToNode_shadowed`).
-/

namespace SocialTimeline

open Lib Lib.Nested FImmutableTree

variable {N : Type} [Nested String N]

/-- A list of writes, under a path. -/
def under (path : List String) (writes : List (List String × N)) : List (List String × N) :=
  writes.map fun e => (path ++ e.1, e.2)

namespace FCompoundWrite

/-- The writes of a tree with their paths. -/
def writes (write : FCompoundWrite N) : List (List String × N) := write.writeTree.forEach

theorem mem_writes {write : FCompoundWrite N} {path : List String} {node : N} :
    (path, node) ∈ write.writes ↔ valueAtPath path write.writeTree = some node :=
  mem_forEach write.keyed

theorem nodup_writes (write : FCompoundWrite N) : (write.writes.map Prod.fst).Nodup :=
  nodup_forEach write.writeTree write.keyed

/-- Two writes of a tree do not meet. -/
theorem pairwise_diverge_writes (write : FCompoundWrite N) :
    write.writes.Pairwise fun v w => Diverge v.1 w.1 := by
  have hne : write.writes.Pairwise fun v w => v.1 ≠ w.1 := List.pairwise_map.mp write.nodup_writes
  have hleaf : ∀ p q a b, (p, a) ∈ write.writes → (q, b) ∈ write.writes → p <+: q → p = q := by
    rintro p _ a b hp hq ⟨r, rfl⟩
    rw [mem_writes] at hp hq
    have hr := write.leafmost p r (by simp [hp]) (by simp [hq])
    rw [hr, List.append_nil]
  refine hne.imp_of_mem ?_
  rintro ⟨p, a⟩ ⟨q, b⟩ hp hq hpq
  exact ⟨fun h => hpq (hleaf p q a b hp hq h), fun h => hpq (hleaf q p b a hq hp h).symm⟩

/-- Trees with the same writes. -/
theorem writes_perm {v w : FCompoundWrite N}
    (h : ∀ path, valueAtPath path v.writeTree = valueAtPath path w.writeTree) :
    v.writes.Perm w.writes := by
  refine (List.perm_ext_iff_of_nodup (v.nodup_writes.of_map _) (w.nodup_writes.of_map _)).mpr ?_
  rintro ⟨path, node⟩
  rw [mem_writes, mem_writes, h]

end FCompoundWrite

/-! ## Applying is setting -/

namespace FImmutableTree

omit [Nested String N] in
theorem forEachChildren_of_value {value : N} {children : List (String × FImmutableTree N)}
    (hkeyed : (mk (some value) children).Keyed)
    (hleaf : ∀ p q, valueAtPath p (mk (some value) children) ≠ none →
      valueAtPath (p ++ q) (mk (some value) children) ≠ none → q = []) :
    forEachChildren children = [] := by
  rw [List.eq_nil_iff_forall_not_mem]
  rintro ⟨path, node⟩ hmem
  have hvalue : valueAtPath path (mk (some value) children) = some node := by
    rw [← mem_forEach hkeyed, forEach]
    exact List.mem_append_left _ hmem
  have hnil := hleaf [] path (by simp [valueAtPath, FImmutableTree.value]) (by simp [hvalue])
  obtain ⟨_, _, _, -, -, hcons⟩ := mem_forEachChildren.mp hmem
  rw [hnil] at hcons
  cases hcons

omit [Nested String N] in
theorem leafmost_child {value : Option N} {children : List (String × FImmutableTree N)}
    (hnodup : (children.map Prod.fst).Nodup)
    (hleaf : ∀ p q, valueAtPath p (mk value children) ≠ none →
      valueAtPath (p ++ q) (mk value children) ≠ none → q = [])
    {e : String × FImmutableTree N} (he : e ∈ children) (p q : List String)
    (hp : valueAtPath p e.2 ≠ none) (hq : valueAtPath (p ++ q) e.2 ≠ none) : q = [] := by
  have hlookup : children.lookup e.1 = some e.2 := (lookup_eq_some_iff hnodup).mpr he
  have hcons : ∀ path, valueAtPath (e.1 :: path) (mk value children) = valueAtPath path e.2 := by
    intro path
    rw [valueAtPath, FImmutableTree.children, hlookup]
  refine hleaf (e.1 :: p) q (by rwa [hcons]) ?_
  rw [List.cons_append, hcons]
  exact hq

mutual

theorem applySubtreeWrite_eq_setAll : (tree : FImmutableTree N) → tree.Keyed →
    (∀ p q, valueAtPath p tree ≠ none → valueAtPath (p ++ q) tree ≠ none → q = []) →
      ∀ relativePath node,
        applySubtreeWrite tree relativePath node = setAll (under relativePath tree.forEach) node
  | mk (some value) children, hkeyed, hleaf, relativePath, node => by
      rw [applySubtreeWrite, forEach, forEachChildren_of_value hkeyed hleaf]
      simp [under, setAll]
  | mk none children, hkeyed, hleaf, relativePath, node => by
      obtain ⟨hnodup, hchildren⟩ := keyed_iff.mp hkeyed
      rw [applySubtreeWrite, forEach, Option.map_none, Option.toList_none, List.append_nil]
      exact applyChildrenWrites_eq_setAll children hchildren
        (fun e he => leafmost_child hnodup hleaf he) relativePath node

theorem applyChildrenWrites_eq_setAll : (children : List (String × FImmutableTree N)) →
    (∀ e ∈ children, e.2.Keyed) →
      (∀ e ∈ children, ∀ p q, valueAtPath p e.2 ≠ none → valueAtPath (p ++ q) e.2 ≠ none →
        q = []) →
        ∀ relativePath node, applyChildrenWrites children relativePath node =
          setAll (under relativePath (forEachChildren children)) node
  | [], _, _, _, _ => rfl
  | (childKey, childTree) :: children, hkeyed, hleaf, relativePath, node => by
      rw [List.forall_mem_cons] at hkeyed hleaf
      rw [applyChildrenWrites, forEachChildren,
        applySubtreeWrite_eq_setAll childTree hkeyed.1 hleaf.1,
        applyChildrenWrites_eq_setAll children hkeyed.2 hleaf.2]
      have hunder : under (relativePath ++ [childKey]) childTree.forEach =
          under relativePath (childTree.forEach.map fun e => (childKey :: e.1, e.2)) := by
        unfold under
        rw [List.map_map]
        refine List.map_congr_left fun e _ => ?_
        simp
      rw [hunder, ← setAll_append]
      unfold under
      rw [List.map_append]

end

end FImmutableTree

namespace FCompoundWrite

variable {write : FCompoundWrite N} {node : N} {path : List String} {n : N}

/-- **Applying** a tree is making its writes one after another. -/
theorem applyToNode_eq_setAll (write : FCompoundWrite N) (n : N) :
    write.applyToNode n = setAll write.writes n := by
  unfold applyToNode
  rw [applySubtreeWrite_eq_setAll write.writeTree write.keyed write.leafmost]
  simp [under, writes]

/-- The snapshot has no leaf above a write of the tree. -/
def ClearFor (write : FCompoundWrite N) (n : N) : Prop := ClearAll write.writes n

theorem applyToNode_congr {v w : FCompoundWrite N}
    (h : ∀ path, valueAtPath path v.writeTree = valueAtPath path w.writeTree) (n : N) :
    v.applyToNode n = w.applyToNode n := by
  rw [applyToNode_eq_setAll, applyToNode_eq_setAll]
  exact setAll_perm (writes_perm h) v.pairwise_diverge_writes n

/-! ## Writes at, below and above a path -/

/-- The writes that are not at or below a path. -/
def outside (write : FCompoundWrite N) (path : List String) : List (List String × N) :=
  write.writes.filter fun e => ¬path <+: e.1

theorem mem_under_subtree {e : List String × N} :
    e ∈ under path (write.subtree path).writes ↔ e ∈ write.writes ∧ path <+: e.1 := by
  obtain ⟨q, node⟩ := e
  constructor
  · intro h
    obtain ⟨⟨r, node'⟩, hr, heq⟩ := List.mem_map.mp h
    cases heq
    rw [mem_writes, subtree, valueAtPath_subtreeAtPath] at hr
    exact ⟨mem_writes.mpr hr, List.prefix_append path r⟩
  · rintro ⟨hmem, r, rfl⟩
    refine List.mem_map.mpr ⟨(r, node), ?_, rfl⟩
    rw [mem_writes, subtree, valueAtPath_subtreeAtPath]
    exact mem_writes.mp hmem

/-- The writes outside a path and those below it are all. -/
theorem writes_perm_split (write : FCompoundWrite N) (path : List String) :
    write.writes.Perm (write.outside path ++ under path (write.subtree path).writes) := by
  have hnodup : (under path (write.subtree path).writes).Nodup :=
    ((write.subtree path).nodup_writes.of_map _).map fun a b heq => by
      simp only [Prod.mk.injEq, List.append_cancel_left_eq] at heq
      exact Prod.ext heq.1 heq.2
  refine (List.perm_ext_iff_of_nodup (write.nodup_writes.of_map _) ?_).mpr fun e => ?_
  · refine ((write.nodup_writes.of_map _).filter _).append hnodup fun e hout hunder' => ?_
    exact of_decide_eq_true (List.mem_filter.mp hout).2 (mem_under_subtree.mp hunder').2
  · rw [List.mem_append, mem_under_subtree, outside, List.mem_filter, decide_eq_true_eq]
    by_cases h : path <+: e.1 <;> simp [h]

/-- No write at or above a path. -/
def Exposed (write : FCompoundWrite N) (path : List String) : Prop :=
  ∀ q, q <+: path → valueAtPath q write.writeTree = none

theorem exposed_iff : write.Exposed path ↔ findRootMostValueAndPath path write.writeTree = none :=
  findRootMostValueAndPath_eq_none.symm

/-- Nothing is written strictly above a path. -/
def NoneAbove (write : FCompoundWrite N) (path : List String) : Prop :=
  ∀ q, q <+: path → q ≠ path → valueAtPath q write.writeTree = none

theorem Exposed.noneAbove (h : write.Exposed path) : write.NoneAbove path := fun q hq _ => h q hq

/-- What is outside a path with none above does not meet it. -/
theorem NoneAbove.diverge (h : write.NoneAbove path) :
    ∀ e ∈ write.outside path, Diverge path e.1 := by
  rintro ⟨q, node⟩ he
  obtain ⟨hmem, hnot⟩ := List.mem_filter.mp he
  have hnot := of_decide_eq_true hnot
  refine ⟨hnot, fun hq => ?_⟩
  have hvalue := mem_writes.mp hmem
  rw [h q hq fun heq => hnot (heq ▸ List.prefix_refl q)] at hvalue
  cases hvalue

/-- Applying a tree, seen from a path. -/
theorem applyToNode_eq_set (h : write.NoneAbove path) (n : N) :
    write.applyToNode n = set path ((write.subtree path).applyToNode (get path n))
      (setAll (write.outside path) n) := by
  rw [applyToNode_eq_setAll, setAll_perm (write.writes_perm_split path)
    write.pairwise_diverge_writes, setAll_append]
  unfold under
  rw [setAll_below (write.subtree path).pairwise_diverge_writes, get_setAll_diverge h.diverge,
    ← applyToNode_eq_setAll]

/-- **Below** a path with none above the writes from there on count. -/
theorem get_applyToNode (h : write.NoneAbove path) (n : N) :
    get path (write.applyToNode n) = (write.subtree path).applyToNode (get path n) := by
  rw [applyToNode_eq_set h, get_set]

/-- Trees that agree outside a path. -/
theorem outside_perm {v w : FCompoundWrite N}
    (h : ∀ q, ¬path <+: q → valueAtPath q v.writeTree = valueAtPath q w.writeTree) :
    (v.outside path).Perm (w.outside path) := by
  refine (List.perm_ext_iff_of_nodup ((v.nodup_writes.of_map _).filter _)
    ((w.nodup_writes.of_map _).filter _)).mpr ?_
  rintro ⟨q, node⟩
  simp only [List.mem_filter, decide_eq_true_eq, mem_writes]
  exact and_congr_left fun hnot => by rw [h q hnot]

/-- A write stands alone at its path, -/
theorem writes_perm_cons {value : N} (hvalue : valueAtPath path write.writeTree = some value) :
    write.writes.Perm ((path, value) :: write.outside path) := by
  have hnot : (path, value) ∉ write.outside path := fun hmem =>
    of_decide_eq_true (List.mem_filter.mp hmem).2 (List.prefix_refl path)
  refine (List.perm_ext_iff_of_nodup (write.nodup_writes.of_map _)
    (List.nodup_cons.mpr ⟨hnot, (write.nodup_writes.of_map _).filter _⟩)).mpr ?_
  rintro ⟨q, node⟩
  rw [List.mem_cons, outside, List.mem_filter, decide_eq_true_eq, mem_writes, Prod.mk.injEq]
  constructor
  · intro hq
    by_cases hbelow : path <+: q
    · obtain ⟨r, rfl⟩ := hbelow
      have hnil := write.leafmost path r (by simp [hvalue]) (by simp [hq])
      subst hnil
      rw [List.append_nil, hvalue, Option.some.injEq] at hq
      exact .inl ⟨List.append_nil path, hq.symm⟩
    · exact .inr ⟨hq, hbelow⟩
  · rintro (⟨rfl, rfl⟩ | ⟨hq, -⟩)
    · exact hvalue
    · exact hq

/-- with all others apart from it. -/
theorem diverge_of_value {value : N} (hvalue : valueAtPath path write.writeTree = some value) :
    ∀ e ∈ write.outside path, Diverge path e.1 := by
  rintro ⟨q, node⟩ he
  obtain ⟨hmem, hnot⟩ := List.mem_filter.mp he
  refine ⟨of_decide_eq_true hnot, ?_⟩
  rintro ⟨r, rfl⟩
  have hnil := write.leafmost q r (by simp [mem_writes.mp hmem]) (by simp [hvalue])
  subst hnil
  exact of_decide_eq_true hnot (by rw [List.append_nil])

/-- Applying a tree, seen from one of its writes. -/
theorem applyToNode_eq_set_of_value {value : N}
    (hvalue : valueAtPath path write.writeTree = some value) (n : N) :
    write.applyToNode n = set path value (setAll (write.outside path) n) := by
  rw [applyToNode_eq_setAll, setAll_perm (writes_perm_cons hvalue) write.pairwise_diverge_writes,
    setAll_cons, set_setAll_diverge (diverge_of_value hvalue)]

/-- **A shadowed path**: what is there is what was written. -/
theorem get_applyToNode_shadowed (hcomplete : write.completeNodeAtPath path = some node) (n : N) :
    get path (write.applyToNode n) = node := by
  obtain ⟨⟨q, value⟩, hfound, rfl⟩ := Option.map_eq_some_iff.mp hcomplete
  obtain ⟨⟨r, rfl⟩, hvalue, -⟩ := findRootMostValueAndPath_eq_some.mp hfound
  rw [applyToNode_eq_set_of_value hvalue, get_append, get_set, List.drop_left]

theorem exposed_of_none (h : write.completeNodeAtPath path = none) : write.Exposed path :=
  exposed_iff.mpr (Option.map_eq_none_iff.mp h)

theorem childCompoundWriteAtPath_of_none (h : write.completeNodeAtPath path = none) :
    write.childCompoundWriteAtPath path = write.subtree path := by
  rw [childCompoundWriteAtPath, h]
  split
  · rename_i hnil
    rw [hnil]
    rfl
  · rfl

/-! ## Adding a write -/

theorem writeTree_addWrite (write : FCompoundWrite N) (node : N) (path : List String) :
    (write.addWrite node path).writeTree =
      if path = [] then single node else writeValue node path write.writeTree := rfl

/-- What is at a path after a write: it goes into the write that shadows it, or replaces
those below it. -/
theorem valueAtPath_addWrite (write : FCompoundWrite N) (node : N) (path q : List String) :
    valueAtPath q (write.addWrite node path).writeTree =
      match findRootMostValueAndPath path write.writeTree with
      | some (rootMost, value) =>
          if q = rootMost then some (set (path.drop rootMost.length) node value)
          else valueAtPath q write.writeTree
      | none =>
          if path <+: q then (if q = path then some node else none)
          else valueAtPath q write.writeTree := by
  by_cases hnil : path = []
  · subst hnil
    rw [writeTree_addWrite, if_pos rfl, valueAtPath_single]
    cases hfound : findRootMostValueAndPath [] write.writeTree with
    | none => rw [if_pos List.nil_prefix]
    | some rootMost =>
        obtain ⟨root, value⟩ := rootMost
        obtain ⟨hahead, hvalue, -⟩ := findRootMostValueAndPath_eq_some.mp hfound
        have hroot := List.prefix_nil.mp hahead
        subst hroot
        by_cases hq : q = []
        · rw [if_pos hq]
          exact (if_pos hq).symm
        · rw [if_neg hq]
          refine Eq.trans ?_ (if_neg hq).symm
          by_contra hsome
          exact hq (write.leafmost [] q (by simp [hvalue]) (Ne.symm hsome))
  · rw [writeTree_addWrite, if_neg hnil]
    exact valueAtPath_writeValue node path q write.writeTree

/-- Nothing is written elsewhere. -/
theorem eq_or_of_valueAtPath_addWrite {q : List String}
    (h : valueAtPath q (write.addWrite node path).writeTree ≠ none) :
    q = path ∨ valueAtPath q write.writeTree ≠ none := by
  rw [valueAtPath_addWrite] at h
  split at h
  · rename_i rootMost value hfound
    by_cases hq : q = rootMost
    · rw [hq, (findRootMostValueAndPath_eq_some.mp hfound).2.1]
      exact .inr (Option.some_ne_none value)
    · rw [if_neg hq] at h
      exact .inr h
  · split at h
    · exact .inl (by by_contra hq; exact h (if_neg hq))
    · exact .inr h

theorem clearFor_addWrite (hclear : write.ClearFor n) (hpath : Clear path n) (node : N) :
    (write.addWrite node path).ClearFor n := by
  rintro ⟨q, value⟩ hmem
  rcases eq_or_of_valueAtPath_addWrite (by rw [mem_writes.mp hmem]; exact Option.some_ne_none value)
    with rfl | hold
  · exact hpath
  · obtain ⟨old, hold⟩ := Option.ne_none_iff_exists'.mp hold
    exact hclear (q, old) (mem_writes.mpr hold)

/-- **Adding a write** is making it after those that are there. -/
theorem applyToNode_addWrite (hclear : write.ClearFor n) (hpath : Clear path n) (node : N) :
    (write.addWrite node path).applyToNode n = set path node (write.applyToNode n) := by
  have hnew := clearFor_addWrite hclear hpath node
  cases hfound : findRootMostValueAndPath path write.writeTree with
  | some rootMost =>
      -- the write goes into an earlier one
      obtain ⟨q, value⟩ := rootMost
      obtain ⟨⟨r, rfl⟩, hvalue, -⟩ := findRootMostValueAndPath_eq_some.mp hfound
      have hwritten : ∀ p, valueAtPath p (write.addWrite node (q ++ r)).writeTree =
          if p = q then some (set r node value) else valueAtPath p write.writeTree := by
        intro p
        rw [valueAtPath_addWrite, hfound]
        simp only [List.drop_left]
      have hvalue' := (hwritten q).trans (if_pos rfl)
      have houtside : ((write.addWrite node (q ++ r)).outside q).Perm (write.outside q) :=
        outside_perm fun p hp => by
          rw [hwritten, if_neg (by rintro rfl; exact hp (List.prefix_refl p))]
      have hq : Clear q (setAll (write.outside q) n) :=
        clear_setAll_diverge (diverge_of_value hvalue) (hpath.above (List.prefix_append q r))
      rw [applyToNode_eq_set_of_value hvalue', applyToNode_eq_set_of_value hvalue,
        set_append, get_set, set_set hq]
      exact congrArg _ (setAll_perm houtside
        ((write.addWrite node (q ++ r)).pairwise_diverge_writes.filter _) n)
  | none =>
      -- the write replaces those below it
      have hexposed := exposed_iff.mpr hfound
      have hwritten : ∀ p, valueAtPath p (write.addWrite node path).writeTree =
          if path <+: p then (if p = path then some node else none)
          else valueAtPath p write.writeTree := by
        intro p
        rw [valueAtPath_addWrite, hfound]
      have hvalue' : valueAtPath path (write.addWrite node path).writeTree = some node := by
        rw [hwritten, if_pos (List.prefix_refl path), if_pos rfl]
      have houtside : ((write.addWrite node path).outside path).Perm (write.outside path) :=
        outside_perm fun p hp => by rw [hwritten, if_neg hp]
      have hclear' : Clear path (setAll (write.outside path) n) :=
        clear_setAll_diverge hexposed.noneAbove.diverge hpath
      rw [applyToNode_eq_set_of_value hvalue', applyToNode_eq_set hexposed.noneAbove,
        set_set hclear']
      exact congrArg _ (setAll_perm houtside
        ((write.addWrite node path).pairwise_diverge_writes.filter _) n)

/-- Writes added one after another. -/
def addAll (ws : List (List String × N)) (write : FCompoundWrite N) : FCompoundWrite N :=
  ws.foldl (fun write e => write.addWrite e.2 e.1) write

theorem addAll_cons (e : List String × N) (ws : List (List String × N))
    (write : FCompoundWrite N) : addAll (e :: ws) write = addAll ws (write.addWrite e.2 e.1) := rfl

theorem addAll_append (ws ws' : List (List String × N)) (write : FCompoundWrite N) :
    addAll (ws ++ ws') write = addAll ws' (addAll ws write) := List.foldl_append

theorem addCompoundWrite_eq_addAll (write compoundWrite : FCompoundWrite N) (path : List String) :
    write.addCompoundWrite compoundWrite path = addAll (under path compoundWrite.writes) write := by
  unfold addCompoundWrite addAll under
  rw [List.foldl_map]
  rfl

/-- **Adding writes** is making them after those that are there. -/
theorem applyToNode_addAll {ws : List (List String × N)} (hclear : write.ClearFor n)
    (hws : ClearAll ws n) : (addAll ws write).applyToNode n = setAll ws (write.applyToNode n) := by
  induction ws generalizing write with
  | nil => rfl
  | cons e ws ih =>
      obtain ⟨he, hws⟩ := List.forall_mem_cons.mp hws
      rw [addAll_cons, ih (clearFor_addWrite hclear he e.2) hws, applyToNode_addWrite hclear he]
      rfl

end FCompoundWrite

end SocialTimeline
