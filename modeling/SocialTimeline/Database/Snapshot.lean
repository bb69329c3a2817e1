import SocialTimeline.App.Node
import SocialTimeline.Database.FImmutableTree
import SocialTimeline.Lib.Nested
import Mathlib.Data.String.Basic

/-!
# Snapshots

`FLeafNode`, `FChildrenNode` and `FEmptyNode`, behind `id<FNode>`. A snapshot keeps its
children in one order of their keys and holds no empty child, so that two snapshots are
the same if and only if `isEqual:` says so. Nodes carry no priority.

The order is that of the strings, in place of the comparator of the dictionary. Nothing
here depends on which it is, and events are put in the order of the comparator
(`FEventGenerator.ordered`). The paths of the source are those of `Lib.Nested`
(`val_get`, `val_set`).
-/

namespace SocialTimeline

open Lib

namespace FNode

/-! ## Nodes -/

/-- `FEmptyNode`. -/
def emptyNode : Node := .children []

def getImmediateChild (node : Node) (childName : String) : Node :=
  match node with
  | .leaf _ => emptyNode
  | .children children => (children.lookup childName).getD emptyNode

/-- `setObject:forKey:` of the dictionary of children, which is in order. -/
def setObject (key : String) (child : Node) : List (String × Node) → List (String × Node)
  | [] => [(key, child)]
  | (k, n) :: children =>
      if key < k then (key, child) :: (k, n) :: children
      else if k = key then (key, child) :: children
      else (k, n) :: setObject key child children

def updateImmediateChild (node : Node) (childName : String) (newChild : Node) : Node :=
  match node with
  | .leaf value =>
      if newChild = emptyNode then .leaf value else .children [(childName, newChild)]
  | .children children =>
      if newChild = emptyNode then .children (removeKey childName children)
      else .children (setObject childName newChild children)

def getChild : List String → Node → Node
  | [], node => node
  | front :: path, node => getChild path (getImmediateChild node front)

def updateChild : List String → Node → Node → Node
  | [], newChild, _ => newChild
  | front :: path, newChild, .leaf value =>
      if newChild = emptyNode then .leaf value
      else updateImmediateChild (.leaf value) front (updateChild path newChild emptyNode)
  | front :: path, newChild, .children children =>
      updateImmediateChild (.children children) front
        (updateChild path newChild (getImmediateChild (.children children) front))

/-! ## Order -/

mutual

/-- Children in order and none of them empty, at every node. -/
def Canonical : Node → Prop
  | .leaf _ => True
  | .children children =>
      (children.map Prod.fst).Pairwise (· < ·) ∧ CanonicalChildren children

def CanonicalChildren : List (String × Node) → Prop
  | [] => True
  | (_, child) :: children =>
      (child ≠ emptyNode ∧ Canonical child) ∧ CanonicalChildren children

end

theorem canonicalChildren_iff {children : List (String × Node)} :
    CanonicalChildren children ↔ ∀ e ∈ children, e.2 ≠ emptyNode ∧ Canonical e.2 := by
  induction children with
  | nil => simp [CanonicalChildren]
  | cons e children ih => rw [CanonicalChildren, ih, List.forall_mem_cons]

theorem canonical_children {children : List (String × Node)} :
    Canonical (.children children) ↔ (children.map Prod.fst).Pairwise (· < ·) ∧
      ∀ e ∈ children, e.2 ≠ emptyNode ∧ Canonical e.2 := by
  rw [Canonical, canonicalChildren_iff]

theorem canonical_emptyNode : Canonical emptyNode :=
  canonical_children.mpr ⟨List.Pairwise.nil, fun _ he => absurd he List.not_mem_nil⟩

theorem nodup_of_sorted {children : List (String × Node)}
    (h : (children.map Prod.fst).Pairwise (· < ·)) : (children.map Prod.fst).Nodup :=
  h.imp ne_of_lt

theorem canonical_getImmediateChild {node : Node} (h : Canonical node) (childName : String) :
    Canonical (getImmediateChild node childName) := by
  cases node with
  | leaf value => exact canonical_emptyNode
  | children children =>
      obtain ⟨hsorted, hchildren⟩ := canonical_children.mp h
      rw [getImmediateChild]
      cases hlookup : children.lookup childName with
      | none => exact canonical_emptyNode
      | some child =>
          exact (hchildren _ ((lookup_eq_some_iff (nodup_of_sorted hsorted)).mp hlookup)).2

theorem updateImmediateChild_leaf (value : Leaf) (childName : String) :
    updateImmediateChild (.leaf value) childName emptyNode = .leaf value := by
  rw [updateImmediateChild, if_pos rfl]

theorem updateImmediateChild_children (children : List (String × Node)) (childName : String)
    (newChild : Node) :
    ∃ ds, updateImmediateChild (.children children) childName newChild = .children ds := by
  rw [updateImmediateChild]
  split
  · exact ⟨_, rfl⟩
  · exact ⟨_, rfl⟩

theorem mem_setObject {key : String} {child : Node} {children : List (String × Node)}
    {e : String × Node} (h : e ∈ setObject key child children) :
    e = (key, child) ∨ e ∈ children := by
  induction children with
  | nil => exact .inl (List.mem_singleton.mp h)
  | cons f children ih =>
      rw [setObject] at h
      split at h
      · exact List.mem_cons.mp h
      · split at h
        · exact (List.mem_cons.mp h).imp_right (List.mem_cons_of_mem f)
        · rcases List.mem_cons.mp h with rfl | hmem
          · exact .inr List.mem_cons_self
          · exact (ih hmem).imp_right (List.mem_cons_of_mem f)

theorem sorted_setObject {key : String} {child : Node} {children : List (String × Node)}
    (h : (children.map Prod.fst).Pairwise (· < ·)) :
    ((setObject key child children).map Prod.fst).Pairwise (· < ·) := by
  induction children with
  | nil => simp [setObject]
  | cons f children ih =>
      have hall := h
      rw [List.map_cons, List.pairwise_cons] at h
      rw [setObject]
      split
      · rename_i hlt
        rw [List.map_cons, List.pairwise_cons]
        refine ⟨?_, hall⟩
        intro k hk
        rcases List.mem_cons.mp hk with rfl | hk
        · exact hlt
        · exact hlt.trans (h.1 k hk)
      · rename_i hnot
        split
        · rename_i heq
          rw [List.map_cons, List.pairwise_cons]
          exact ⟨fun k hk => heq ▸ h.1 k hk, h.2⟩
        · rename_i hne
          rw [List.map_cons, List.pairwise_cons]
          refine ⟨?_, ih h.2⟩
          intro k hk
          obtain ⟨e, he, rfl⟩ := List.mem_map.mp hk
          rcases mem_setObject he with rfl | hmem
          · exact lt_of_le_of_ne (not_lt.mp hnot) hne
          · exact h.1 _ (List.mem_map_of_mem hmem)

theorem lookup_setObject (key : String) (child : Node) (children : List (String × Node))
    (h : (children.map Prod.fst).Pairwise (· < ·)) (k : String) :
    (setObject key child children).lookup k =
      if k = key then some child else children.lookup k := by
  induction children with
  | nil => exact lookup_cons_eq_ite (key, child) [] k
  | cons f children ih =>
      rw [List.map_cons, List.pairwise_cons] at h
      rw [setObject]
      split
      · rw [lookup_cons_eq_ite]
      · split
        · rename_i heq
          rw [lookup_cons_eq_ite, lookup_cons_eq_ite, heq]
          split <;> rfl
        · rename_i hne
          rw [lookup_cons_eq_ite, lookup_cons_eq_ite, ih h.2]
          by_cases hk : k = f.1
          · rw [if_pos hk, if_pos hk, if_neg (hk ▸ hne)]
          · rw [if_neg hk, if_neg hk]

theorem canonical_updateImmediateChild {node newChild : Node} (h : Canonical node)
    (hnew : Canonical newChild) (childName : String) :
    Canonical (updateImmediateChild node childName newChild) := by
  cases node with
  | leaf value =>
      rw [updateImmediateChild]
      split
      · exact h
      · rename_i hne
        refine canonical_children.mpr ⟨List.pairwise_singleton _ _, ?_⟩
        intro e he
        rw [List.mem_singleton.mp he]
        exact ⟨hne, hnew⟩
  | children children =>
      obtain ⟨hsorted, hchildren⟩ := canonical_children.mp h
      rw [updateImmediateChild]
      split
      · refine canonical_children.mpr ⟨?_, fun e he => hchildren e (List.mem_filter.mp he).1⟩
        exact hsorted.sublist (List.filter_sublist.map Prod.fst)
      · rename_i hne
        refine canonical_children.mpr ⟨sorted_setObject hsorted, ?_⟩
        intro e he
        rcases mem_setObject he with rfl | hmem
        · exact ⟨hne, hnew⟩
        · exact hchildren e hmem

/-- Children in order are determined by what is looked up. -/
theorem eq_of_getImmediateChild {cs ds : List (String × Node)} (hcs : Canonical (.children cs))
    (hds : Canonical (.children ds))
    (h : ∀ key, getImmediateChild (.children cs) key = getImmediateChild (.children ds) key) :
    cs = ds := by
  have hmem : ∀ {as bs : List (String × Node)}, Canonical (.children as) →
      Canonical (.children bs) →
      (∀ key, getImmediateChild (.children as) key = getImmediateChild (.children bs) key) →
      ∀ e ∈ as, e ∈ bs := by
    intro as bs has hbs hsame e he
    obtain ⟨hsorted, hchildren⟩ := canonical_children.mp has
    have hlookup : as.lookup e.1 = some e.2 :=
      (lookup_eq_some_iff (nodup_of_sorted hsorted)).mpr he
    have hkey := hsame e.1
    rw [getImmediateChild, getImmediateChild, hlookup, Option.getD_some] at hkey
    cases hb : bs.lookup e.1 with
    | none =>
        rw [hb, Option.getD_none] at hkey
        exact absurd hkey (hchildren e he).1
    | some child =>
        rw [hb, Option.getD_some] at hkey
        rw [← hkey] at hb
        exact (lookup_eq_some_iff (nodup_of_sorted (canonical_children.mp hbs).1)).mp hb
  have hsorted := (canonical_children.mp hcs).1
  have hsorted' := (canonical_children.mp hds).1
  rw [List.pairwise_map] at hsorted hsorted'
  have hperm : cs.Perm ds := (List.perm_ext_iff_of_nodup
    (hsorted.imp fun hlt heq => ne_of_lt hlt (congrArg Prod.fst heq))
    (hsorted'.imp fun hlt heq => ne_of_lt hlt (congrArg Prod.fst heq))).mpr fun e =>
      ⟨hmem hcs hds h e, hmem hds hcs (fun key => (h key).symm) e⟩
  exact hperm.eq_of_pairwise (fun _ _ _ _ hlt hgt => absurd hgt (lt_asymm hlt)) hsorted hsorted'

end FNode

/-! ## Snapshots -/

abbrev Snapshot := { node : Node // FNode.Canonical node }

namespace Snapshot

open FNode

def isLeafNode (node : Snapshot) : Bool :=
  match node.val with
  | .leaf _ => true
  | .children _ => false

instance : Nested String Snapshot where
  empty := ⟨emptyNode, canonical_emptyNode⟩
  IsLeaf node := node.isLeafNode = true
  child node childName :=
    ⟨getImmediateChild node.val childName, canonical_getImmediateChild node.property childName⟩
  setChild node childName newChild :=
    ⟨updateImmediateChild node.val childName newChild.val,
      canonical_updateImmediateChild node.property newChild.property childName⟩
  not_isLeaf_empty := by decide
  child_empty _ := rfl
  child_of_isLeaf := by
    rintro ⟨node, hnode⟩ h key
    cases node with
    | leaf value => rfl
    | children children => cases h
  child_setChild_self := by
    rintro ⟨node, hnode⟩ key ⟨newChild, hnew⟩
    refine Subtype.ext ?_
    show getImmediateChild (updateImmediateChild node key newChild) key = newChild
    cases node with
    | leaf value =>
        rw [updateImmediateChild]
        split
        · rename_i hempty
          rw [hempty]
          rfl
        · rw [getImmediateChild, lookup_cons_eq_ite, if_pos rfl]
          rfl
    | children children =>
        rw [updateImmediateChild]
        split
        · rename_i hempty
          rw [getImmediateChild, lookup_removeKey, if_pos rfl, hempty]
          rfl
        · rw [getImmediateChild, lookup_setObject _ _ _ (canonical_children.mp hnode).1, if_pos rfl]
          rfl
  child_setChild_of_ne := by
    rintro ⟨node, hnode⟩ j key ⟨newChild, hnew⟩ hne
    refine Subtype.ext ?_
    show getImmediateChild (updateImmediateChild node key newChild) j = getImmediateChild node j
    cases node with
    | leaf value =>
        rw [updateImmediateChild]
        split
        · rfl
        · show ([(key, newChild)].lookup j).getD emptyNode = emptyNode
          rw [lookup_cons_eq_ite, if_neg hne]
          rfl
    | children children =>
        rw [updateImmediateChild]
        split
        · rw [getImmediateChild, lookup_removeKey, if_neg hne]
          rfl
        · rw [getImmediateChild, lookup_setObject _ _ _ (canonical_children.mp hnode).1,
            if_neg hne]
          rfl
  setChild_of_isLeaf := by
    rintro ⟨node, hnode⟩ h key
    refine Subtype.ext ?_
    show updateImmediateChild node key emptyNode = node
    cases node with
    | leaf value => exact updateImmediateChild_leaf value key
    | children children => cases h
  isLeaf_of_setChild := by
    rintro ⟨node, hnode⟩ key ⟨newChild, hnew⟩ h
    cases node with
    | leaf value => rfl
    | children children =>
        obtain ⟨ds, hds⟩ := updateImmediateChild_children children key newChild
        have hnot : ∀ node hnode, node = Node.children ds →
            isLeafNode ⟨node, hnode⟩ = false := by
          rintro _ _ rfl
          rfl
        cases (hnot _ _ hds).symm.trans h
  ext := by
    rintro ⟨m, hm⟩ ⟨n, hn⟩ hmleaf hnleaf h
    refine Subtype.ext ?_
    cases m with
    | leaf value => exact absurd rfl hmleaf
    | children cs =>
        cases n with
        | leaf value => exact absurd rfl hnleaf
        | children ds =>
            exact congrArg Node.children
              (eq_of_getImmediateChild hm hn fun key => congrArg Subtype.val (h key))

theorem val_get (path : List String) (node : Snapshot) :
    (Nested.get path node).val = getChild path node.val := by
  induction path generalizing node with
  | nil => rfl
  | cons front path ih => exact ih (Nested.child node front)

/-- `updateChild:withNewChild:` sets the end of a path. -/
theorem val_set (path : List String) (newChild node : Snapshot) :
    (Nested.set path newChild node).val = updateChild path newChild.val node.val := by
  induction path generalizing node with
  | nil => rfl
  | cons front path ih =>
      show updateImmediateChild node.val front
        (Nested.set path newChild (Nested.child node front)).val = _
      rw [ih]
      rcases node with ⟨node, hnode⟩
      cases node with
      | children children => rfl
      | leaf value =>
          rw [updateChild]
          split
          · rename_i hempty
            have hnew : newChild = Nested.empty := Subtype.ext hempty
            have hset := ih Nested.empty
            rw [hnew, Nested.set_empty] at hset
            show updateImmediateChild (.leaf value) front
              (updateChild path newChild.val emptyNode) = _
            rw [hnew]
            show updateImmediateChild (.leaf value) front (updateChild path _ emptyNode) = _
            rw [← show emptyNode = updateChild path _ emptyNode from hset]
            exact updateImmediateChild_leaf value front
          · rfl

end Snapshot

end SocialTimeline
