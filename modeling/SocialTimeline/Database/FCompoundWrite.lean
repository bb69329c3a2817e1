import SocialTimeline.Database.FImmutableTree
import SocialTimeline.Lib.Nested

/-!
# `FCompoundWrite`

Writes laid over each other, as a tree of snapshots: "a write there is always a leaf",
which the structure keeps with it. A write at or below an earlier one goes into its
snapshot, and one above earlier writes replaces them.

Snapshots are those of any type with children (`Nested`); there are no writes to
`.priority`.
-/

namespace SocialTimeline

open Lib Lib.Nested FImmutableTree

variable {N : Type} [Nested String N]

structure FCompoundWrite (N : Type) [Nested String N] where
  writeTree : FImmutableTree N
  keyed : writeTree.Keyed
  leafmost : ∀ p q, valueAtPath p writeTree ≠ none → valueAtPath (p ++ q) writeTree ≠ none → q = []

namespace FImmutableTree

/-- `initWithValue:`. -/
def single (node : N) : FImmutableTree N := mk (some node) []

omit [Nested String N] in
theorem valueAtPath_single (node : N) (path : List String) :
    valueAtPath path (single node) = if path = [] then some node else none := by
  cases path <;> rfl

omit [Nested String N] in
theorem keyed_single (node : N) : (single node).Keyed :=
  keyed_iff.mpr ⟨List.nodup_nil, fun _ he => absurd he List.not_mem_nil⟩

/-- What is at a path after a write there. -/
def writeValue (node : N) (path : List String) (tree : FImmutableTree N) : FImmutableTree N :=
  match findRootMostValueAndPath path tree with
  | some (rootMost, value) => setValue (set (path.drop rootMost.length) node value) rootMost tree
  | none => setTree (single node) path tree

mutual

def applySubtreeWrite : FImmutableTree N → List String → N → N
  | mk (some value) _, relativePath, node => set relativePath value node
  | mk none children, relativePath, node => applyChildrenWrites children relativePath node

def applyChildrenWrites : List (String × FImmutableTree N) → List String → N → N
  | [], _, node => node
  | (childKey, childTree) :: children, relativePath, node =>
      applyChildrenWrites children relativePath
        (applySubtreeWrite childTree (relativePath ++ [childKey]) node)

end

end FImmutableTree

namespace FCompoundWrite

/-! ## What is at a path -/

theorem valueAtPath_writeValue (node : N) (path q : List String) (tree : FImmutableTree N) :
    valueAtPath q (writeValue node path tree) =
      match findRootMostValueAndPath path tree with
      | some (rootMost, value) =>
          if q = rootMost then some (set (path.drop rootMost.length) node value)
          else valueAtPath q tree
      | none =>
          if path <+: q then (if q = path then some node else none) else valueAtPath q tree := by
  unfold writeValue
  split
  · rw [valueAtPath_setValue]
  · rw [valueAtPath_setTree, valueAtPath_single]
    by_cases h : path <+: q
    · obtain ⟨r, rfl⟩ := h
      simp
    · rw [if_neg h, if_neg h]

omit [Nested String N] in
theorem leafmost_setTree {tree newTree : FImmutableTree N}
    (h : ∀ p q, valueAtPath p tree ≠ none → valueAtPath (p ++ q) tree ≠ none → q = [])
    (hnew : ∀ p q, valueAtPath p newTree ≠ none → valueAtPath (p ++ q) newTree ≠ none → q = [])
    {path : List String} (habove : ∀ q, q <+: path → valueAtPath q tree = none ∨
      ∀ r, valueAtPath r newTree = none) (p q : List String)
    (hp : valueAtPath p (setTree newTree path tree) ≠ none)
    (hq : valueAtPath (p ++ q) (setTree newTree path tree) ≠ none) : q = [] := by
  rw [valueAtPath_setTree] at hp hq
  by_cases hbelow : path <+: p
  · obtain ⟨r, rfl⟩ := hbelow
    rw [if_pos (List.prefix_append path r), List.drop_left] at hp
    rw [List.append_assoc, if_pos (List.prefix_append path _), List.drop_left] at hq
    exact hnew r q hp hq
  · rw [if_neg hbelow] at hp
    by_cases hend : path <+: p ++ q
    · rw [if_pos hend] at hq
      -- the path ends between the two
      have hle : p.length ≤ path.length := by
        by_contra hlt
        exact hbelow (List.prefix_of_prefix_length_le hend (List.prefix_append p q) (by omega))
      have habove' := habove p (List.prefix_of_prefix_length_le (List.prefix_append p q) hend hle)
      rcases habove' with hnone | hnone
      · exact absurd hnone hp
      · exact absurd (hnone _) hq
    · rw [if_neg hend] at hq
      exact h p q hp hq

/-! ## Operations -/

def emptyWrite : FCompoundWrite N where
  writeTree := FImmutableTree.empty
  keyed := keyed_empty
  leafmost p _ hp _ := absurd (valueAtPath_empty p) hp

/-- A single snapshot for everything. -/
def root (node : N) : FCompoundWrite N where
  writeTree := single node
  keyed := keyed_single node
  leafmost p q hp hq := by
    rw [valueAtPath_single] at hp hq
    by_cases hnil : p ++ q = []
    · exact (List.append_eq_nil_iff.mp hnil).2
    · rw [if_neg hnil] at hq
      exact absurd rfl hq

def addWrite (write : FCompoundWrite N) (node : N) (path : List String) : FCompoundWrite N where
  writeTree := if path = [] then single node else writeValue node path write.writeTree
  keyed := by
    split
    · exact keyed_single node
    · unfold writeValue
      split
      · exact write.keyed.setValue _ _
      · exact write.keyed.setTree (keyed_single node) _
  leafmost := by
    split
    · exact (root node).leafmost
    · unfold writeValue
      split
      · rename_i rootMost value hfound
        have hvalue := (findRootMostValueAndPath_eq_some.mp hfound).2.1
        have hnone : ∀ q, valueAtPath q (setValue (set (path.drop rootMost.length) node value)
            rootMost write.writeTree) ≠ none → valueAtPath q write.writeTree ≠ none := by
          intro q hq
          rw [valueAtPath_setValue] at hq
          by_cases heq : q = rootMost
          · rw [heq, hvalue]
            exact Option.some_ne_none value
          · rwa [if_neg heq] at hq
        exact fun p q hp hq => write.leafmost p q (hnone p hp) (hnone _ hq)
      · rename_i hfound
        exact leafmost_setTree write.leafmost (root node).leafmost fun q hq =>
          .inl (findRootMostValueAndPath_eq_none.mp hfound q hq)

def addCompoundWrite (write compoundWrite : FCompoundWrite N) (path : List String) :
    FCompoundWrite N :=
  compoundWrite.writeTree.forEach.foldl
    (fun newWrite e => newWrite.addWrite e.2 (path ++ e.1)) write

/-- "Will remove a write at the given path and deeper paths." -/
def removeWriteAtPath (write : FCompoundWrite N) (path : List String) : FCompoundWrite N where
  writeTree := setTree FImmutableTree.empty path write.writeTree
  keyed := write.keyed.setTree keyed_empty path
  leafmost := leafmost_setTree write.leafmost emptyWrite.leafmost
    fun _ _ => .inr valueAtPath_empty

def completeNodeAtPath (write : FCompoundWrite N) (path : List String) : Option N :=
  (findRootMostValueAndPath path write.writeTree).map fun rootMost =>
    get (path.drop rootMost.1.length) rootMost.2

def hasCompleteWriteAtPath (write : FCompoundWrite N) (path : List String) : Bool :=
  (write.completeNodeAtPath path).isSome

/-- The writes below a path. -/
def subtree (write : FCompoundWrite N) (path : List String) : FCompoundWrite N where
  writeTree := subtreeAtPath path write.writeTree
  keyed := write.keyed.subtreeAtPath path
  leafmost p q hp hq := by
    rw [valueAtPath_subtreeAtPath] at hp hq
    rw [← List.append_assoc] at hq
    exact write.leafmost _ q hp hq

def childCompoundWriteAtPath (write : FCompoundWrite N) (path : List String) : FCompoundWrite N :=
  if path = [] then write
  else
    match write.completeNodeAtPath path with
    | some shadowingNode => root shadowingNode
    | none => write.subtree path

/-- The keys that there are writes at or below. -/
def childKeys (write : FCompoundWrite N) : List String :=
  write.writeTree.children.map Prod.fst

theorem nodup_childKeys (write : FCompoundWrite N) : write.childKeys.Nodup :=
  (keyed_iff.mp write.keyed).1

def applyToNode (write : FCompoundWrite N) (node : N) : N :=
  applySubtreeWrite write.writeTree [] node

def isEmpty (write : FCompoundWrite N) : Bool := write.writeTree.isEmpty

def rootWrite (write : FCompoundWrite N) : Option N := write.writeTree.value

end FCompoundWrite

end SocialTimeline
