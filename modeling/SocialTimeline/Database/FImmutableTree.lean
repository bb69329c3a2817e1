import Mathlib.Data.List.Infix
import Mathlib.Data.List.Nodup

/-!
# `FImmutableTree`

A tree with values at some of its nodes, addressed by the path of keys that leads
there. The dictionary of a node's children is a list here, as a node's children are:
its order carries no meaning.

* what is at a path after each operation (`valueAtPath_setValue`,
  `valueAtPath_setTree`, `valueAtPath_subtreeAtPath`);
* `findRootMostValueAndPath` finds the first value on the way down a path
  (`findRootMostValueAndPath_eq_some`);
* `forEach` comes by each value once, with its path (`mem_forEach`,
  `nodup_forEach`), in trees with one child a key (`Keyed`).
-/

namespace SocialTimeline

/-! ## The dictionary of children -/

section Dictionary

variable {α : Type}

def insertKey (key : String) (value : α) : List (String × α) → List (String × α)
  | [] => [(key, value)]
  | (k, v) :: entries =>
      if k = key then (k, value) :: entries else (k, v) :: insertKey key value entries

def removeKey (key : String) (entries : List (String × α)) : List (String × α) :=
  entries.filter fun e => e.1 ≠ key

theorem lookup_cons_eq_ite (e : String × α) (entries : List (String × α)) (k : String) :
    (e :: entries).lookup k = if k = e.1 then some e.2 else entries.lookup k := by
  rw [List.lookup_cons]
  by_cases h : k = e.1
  · rw [h, beq_self_eq_true, if_pos rfl]
  · rw [beq_eq_false_iff_ne.mpr h, if_neg h]

theorem lookup_insertKey (key : String) (value : α) (entries : List (String × α)) (k : String) :
    (insertKey key value entries).lookup k = if k = key then some value else entries.lookup k := by
  induction entries with
  | nil => exact lookup_cons_eq_ite (key, value) [] k
  | cons e entries ih =>
      rw [insertKey]
      split
      · rename_i hkey
        rw [lookup_cons_eq_ite, lookup_cons_eq_ite, hkey]
        split <;> rfl
      · rename_i hkey
        rw [lookup_cons_eq_ite, lookup_cons_eq_ite, ih]
        by_cases h : k = e.1
        · rw [if_pos h, if_pos h, if_neg (h ▸ hkey)]
        · rw [if_neg h, if_neg h]

theorem lookup_removeKey (key : String) (entries : List (String × α)) (k : String) :
    (removeKey key entries).lookup k = if k = key then none else entries.lookup k := by
  unfold removeKey
  induction entries with
  | nil => simp
  | cons e entries ih =>
      rw [lookup_cons_eq_ite]
      by_cases hkey : e.1 = key
      · rw [List.filter_cons_of_neg (by simp [hkey]), ih, hkey]
        split <;> rfl
      · rw [List.filter_cons_of_pos (by simp [hkey]), lookup_cons_eq_ite, ih]
        by_cases h : k = e.1
        · rw [if_pos h, if_pos h, if_neg (h ▸ hkey)]
        · rw [if_neg h, if_neg h]

theorem mem_keys_insertKey {key k : String} {value : α} {entries : List (String × α)} :
    k ∈ (insertKey key value entries).map Prod.fst ↔ k = key ∨ k ∈ entries.map Prod.fst := by
  induction entries with
  | nil => simp [insertKey]
  | cons e entries ih =>
      rw [insertKey]
      split
      · rename_i hkey
        simp [← hkey]
      · rw [List.map_cons, List.mem_cons, ih, List.map_cons, List.mem_cons]
        exact or_left_comm

theorem nodup_insertKey {key : String} {value : α} {entries : List (String × α)}
    (h : (entries.map Prod.fst).Nodup) : ((insertKey key value entries).map Prod.fst).Nodup := by
  induction entries with
  | nil => simp [insertKey]
  | cons e entries ih =>
      rw [List.map_cons, List.nodup_cons] at h
      rw [insertKey]
      split
      · exact List.nodup_cons.mpr h
      · rename_i hkey
        rw [List.map_cons, List.nodup_cons, mem_keys_insertKey]
        refine ⟨?_, ih h.2⟩
        rintro (heq | hmem)
        · exact hkey heq
        · exact h.1 hmem

theorem nodup_removeKey {key : String} {entries : List (String × α)}
    (h : (entries.map Prod.fst).Nodup) : ((removeKey key entries).map Prod.fst).Nodup :=
  h.sublist ((List.filter_sublist).map Prod.fst)

theorem mem_of_mem_insertKey {key : String} {value : α} {entries : List (String × α)}
    {e : String × α} (h : e ∈ insertKey key value entries) : e.2 = value ∨ e ∈ entries := by
  induction entries with
  | nil =>
      rw [insertKey, List.mem_singleton] at h
      exact .inl (congrArg Prod.snd h)
  | cons f entries ih =>
      rw [insertKey] at h
      split at h
      · rcases List.mem_cons.mp h with rfl | hmem
        · exact .inl rfl
        · exact .inr (List.mem_cons_of_mem f hmem)
      · rcases List.mem_cons.mp h with rfl | hmem
        · exact .inr List.mem_cons_self
        · exact (ih hmem).imp_right (List.mem_cons_of_mem f)

/-- A key is looked up where it stands. -/
theorem lookup_eq_some_iff {entries : List (String × α)} (h : (entries.map Prod.fst).Nodup)
    {key : String} {value : α} : entries.lookup key = some value ↔ (key, value) ∈ entries := by
  induction entries with
  | nil => simp
  | cons e entries ih =>
      rw [List.map_cons, List.nodup_cons] at h
      rw [lookup_cons_eq_ite, List.mem_cons]
      split
      · rename_i hkey
        subst hkey
        have hnot : (e.1, value) ∉ entries := fun hmem => h.1 (List.mem_map.mpr ⟨_, hmem, rfl⟩)
        rw [Option.some.injEq, or_iff_left hnot]
        exact ⟨fun hv => hv ▸ rfl, fun hv => (congrArg Prod.snd hv).symm⟩
      · rename_i hkey
        rw [ih h.2]
        exact ⟨.inr, fun hor => hor.resolve_left fun hv => hkey (congrArg Prod.fst hv)⟩

/-- A new key is looked up in vain, and put last. -/
theorem lookup_eq_none_of_not_mem {key : String} {entries : List (String × α)}
    (h : key ∉ entries.map Prod.fst) : entries.lookup key = none := by
  refine List.lookup_eq_none_iff.mpr fun e he => ?_
  rw [bne_iff_ne]
  rintro rfl
  exact h (List.mem_map_of_mem he)

theorem insertKey_of_not_mem {key : String} {value : α} {entries : List (String × α)}
    (h : key ∉ entries.map Prod.fst) : insertKey key value entries = entries ++ [(key, value)] := by
  induction entries with
  | nil => rfl
  | cons e entries ih =>
      rw [List.map_cons, List.mem_cons, not_or] at h
      rw [insertKey, if_neg (Ne.symm h.1), ih h.2]
      rfl

end Dictionary

/-! ## The tree -/

inductive FImmutableTree (V : Type)
  | mk (value : Option V) (children : List (String × FImmutableTree V))

namespace FImmutableTree

variable {V : Type}

def value : FImmutableTree V → Option V
  | mk value _ => value

def children : FImmutableTree V → List (String × FImmutableTree V)
  | mk _ children => children

def empty : FImmutableTree V := mk none []

def isEmpty (tree : FImmutableTree V) : Bool := tree.value.isNone && tree.children.isEmpty

def findRootMostValueAndPath : List String → FImmutableTree V → Option (List String × V)
  | [], tree => tree.value.map fun value => ([], value)
  | front :: path, tree =>
      match tree.value with
      | some value => some ([], value)
      | none =>
          match tree.children.lookup front with
          | none => none
          | some child =>
              (findRootMostValueAndPath path child).map fun found => (front :: found.1, found.2)

def subtreeAtPath : List String → FImmutableTree V → FImmutableTree V
  | [], tree => tree
  | front :: path, tree =>
      match tree.children.lookup front with
      | none => empty
      | some child => subtreeAtPath path child

def setValue (newValue : V) : List String → FImmutableTree V → FImmutableTree V
  | [], tree => mk (some newValue) tree.children
  | front :: path, tree =>
      let child := (tree.children.lookup front).getD empty
      mk tree.value (insertKey front (setValue newValue path child) tree.children)

def valueAtPath : List String → FImmutableTree V → Option V
  | [], tree => tree.value
  | front :: path, tree =>
      match tree.children.lookup front with
      | none => none
      | some child => valueAtPath path child

def setTree (newTree : FImmutableTree V) : List String → FImmutableTree V → FImmutableTree V
  | [], _ => newTree
  | front :: path, tree =>
      let child := (tree.children.lookup front).getD empty
      let newChild := setTree newTree path child
      mk tree.value
        (if newChild.isEmpty then removeKey front tree.children
        else insertKey front newChild tree.children)

mutual

/-- The calls of the block, in depth-first order. -/
def forEach : FImmutableTree V → List (List String × V)
  | mk value children => forEachChildren children ++ (value.map fun value => ([], value)).toList

def forEachChildren : List (String × FImmutableTree V) → List (List String × V)
  | [] => []
  | (key, child) :: children =>
      (child.forEach.map fun e => (key :: e.1, e.2)) ++ forEachChildren children

end

/-! ## What is at a path -/

@[simp] theorem valueAtPath_empty (path : List String) :
    valueAtPath path (empty : FImmutableTree V) = none := by
  cases path <;> rfl

theorem valueAtPath_cons (front : String) (path : List String) (tree : FImmutableTree V) :
    valueAtPath (front :: path) tree =
      valueAtPath path ((tree.children.lookup front).getD empty) := by
  rw [valueAtPath]
  cases tree.children.lookup front with
  | none => exact (valueAtPath_empty path).symm
  | some child => rfl

theorem valueAtPath_of_isEmpty {tree : FImmutableTree V} (h : tree.isEmpty = true)
    (path : List String) : valueAtPath path tree = none := by
  rcases tree with ⟨value, children⟩
  simp only [isEmpty, FImmutableTree.value, FImmutableTree.children, Bool.and_eq_true,
    Option.isNone_iff_eq_none, List.isEmpty_iff] at h
  obtain ⟨rfl, rfl⟩ := h
  exact valueAtPath_empty path

theorem valueAtPath_subtreeAtPath (p q : List String) (tree : FImmutableTree V) :
    valueAtPath q (subtreeAtPath p tree) = valueAtPath (p ++ q) tree := by
  induction p generalizing tree with
  | nil => rfl
  | cons front p ih =>
      rw [List.cons_append, subtreeAtPath, valueAtPath]
      cases tree.children.lookup front with
      | none => exact valueAtPath_empty q
      | some child => exact ih child

theorem valueAtPath_setValue (newValue : V) (p q : List String) (tree : FImmutableTree V) :
    valueAtPath q (setValue newValue p tree) =
      if q = p then some newValue else valueAtPath q tree := by
  induction p generalizing q tree with
  | nil =>
      rw [setValue]
      cases q with
      | nil => rfl
      | cons k q => rfl
  | cons front p ih =>
      rw [setValue]
      cases q with
      | nil => rfl
      | cons k q =>
          rw [valueAtPath_cons, children, lookup_insertKey, valueAtPath_cons]
          by_cases hk : k = front
          · subst hk
            rw [if_pos rfl, Option.getD_some, ih]
            simp
          · simp [hk]

theorem valueAtPath_setTree (newTree : FImmutableTree V) (p q : List String)
    (tree : FImmutableTree V) :
    valueAtPath q (setTree newTree p tree) =
      if p <+: q then valueAtPath (q.drop p.length) newTree else valueAtPath q tree := by
  induction p generalizing q tree with
  | nil => simp [setTree]
  | cons front p ih =>
      cases q with
      | nil => simp [setTree, valueAtPath, value]
      | cons k q =>
          have hchild : ((setTree newTree (front :: p) tree).children.lookup k).getD empty =
              if k = front then
                ((setTree newTree (front :: p) tree).children.lookup front).getD empty
              else (tree.children.lookup k).getD empty := by
            split
            · rename_i hk
              rw [hk]
            · rename_i hk
              rw [setTree, children]
              split
              · rw [lookup_removeKey, if_neg hk]
              · rw [lookup_insertKey, if_neg hk]
          have hfront : ∀ q, valueAtPath q
              (((setTree newTree (front :: p) tree).children.lookup front).getD empty) =
                valueAtPath q (setTree newTree p ((tree.children.lookup front).getD empty)) := by
            intro q
            rw [setTree, children]
            split
            · rename_i hempty
              rw [lookup_removeKey, if_pos rfl, valueAtPath_of_isEmpty hempty]
              exact valueAtPath_empty q
            · rw [lookup_insertKey, if_pos rfl]
              rfl
          rw [valueAtPath_cons, hchild, valueAtPath_cons]
          by_cases hk : k = front
          · subst hk
            rw [if_pos rfl, hfront, ih]
            simp
          · simp [hk, Ne.symm hk]

/-! ## The first value on the way -/

theorem findRootMostValueAndPath_cons (front : String) (path : List String)
    (tree : FImmutableTree V) :
    findRootMostValueAndPath (front :: path) tree =
      match tree.value with
      | some value => some ([], value)
      | none => (findRootMostValueAndPath path ((tree.children.lookup front).getD empty)).map
          fun found => (front :: found.1, found.2) := by
  rw [findRootMostValueAndPath]
  cases tree.value with
  | some value => rfl
  | none =>
      cases tree.children.lookup front with
      | some child => rfl
      | none => cases path <;> rfl

/-- **The first value** on the way down a path. -/
theorem findRootMostValueAndPath_eq_some {path q : List String} {tree : FImmutableTree V} {v : V} :
    findRootMostValueAndPath path tree = some (q, v) ↔
      q <+: path ∧ valueAtPath q tree = some v ∧
        ∀ r, r <+: q → r ≠ q → valueAtPath r tree = none := by
  induction path generalizing q tree with
  | nil =>
      rw [findRootMostValueAndPath, List.prefix_nil]
      constructor
      · intro h
        obtain ⟨value, hvalue, heq⟩ := Option.map_eq_some_iff.mp h
        cases heq
        exact ⟨rfl, hvalue, fun r hr hne => absurd (List.prefix_nil.mp hr) hne⟩
      · rintro ⟨rfl, hvalue, -⟩
        exact Option.map_eq_some_iff.mpr ⟨v, hvalue, rfl⟩
  | cons front path ih =>
      rw [findRootMostValueAndPath_cons]
      cases hvalue : tree.value with
      | some value =>
          constructor
          · intro h
            cases h
            exact ⟨List.nil_prefix, hvalue, fun r hr hne => absurd (List.prefix_nil.mp hr) hne⟩
          · rintro ⟨-, hq, hfirst⟩
            by_cases hnil : q = []
            · subst hnil
              rw [valueAtPath, hvalue] at hq
              cases hq
              rfl
            · have hroot := hfirst [] List.nil_prefix (Ne.symm hnil)
              rw [valueAtPath, hvalue] at hroot
              cases hroot
      | none =>
          constructor
          · intro h
            obtain ⟨⟨q', v'⟩, hfound, heq⟩ := Option.map_eq_some_iff.mp h
            cases heq
            obtain ⟨hahead, hq, hfirst⟩ := ih.mp hfound
            refine ⟨List.cons_prefix_cons.mpr ⟨rfl, hahead⟩, ?_, ?_⟩
            · rw [valueAtPath_cons]
              exact hq
            · intro r hr hne
              cases r with
              | nil => exact hvalue
              | cons k r =>
                  obtain ⟨rfl, htail⟩ := List.cons_prefix_cons.mp hr
                  rw [valueAtPath_cons]
                  exact hfirst r htail fun heq => hne (congrArg _ heq)
          · rintro ⟨hahead, hq, hfirst⟩
            cases q with
            | nil =>
                rw [valueAtPath, hvalue] at hq
                cases hq
            | cons k q =>
                obtain ⟨rfl, htail⟩ := List.cons_prefix_cons.mp hahead
                rw [valueAtPath_cons] at hq
                refine Option.map_eq_some_iff.mpr ⟨(q, v), ih.mpr ⟨htail, hq, ?_⟩, rfl⟩
                intro r hr hne
                rw [← valueAtPath_cons]
                exact hfirst (k :: r) (List.cons_prefix_cons.mpr ⟨rfl, hr⟩)
                  fun heq => hne (List.cons.inj heq).2

theorem findRootMostValueAndPath_eq_none {path : List String} {tree : FImmutableTree V} :
    findRootMostValueAndPath path tree = none ↔
      ∀ q, q <+: path → valueAtPath q tree = none := by
  induction path generalizing tree with
  | nil =>
      rw [findRootMostValueAndPath, Option.map_eq_none_iff]
      constructor
      · intro h q hq
        rw [List.prefix_nil.mp hq]
        exact h
      · exact fun h => h [] List.nil_prefix
  | cons front path ih =>
      rw [findRootMostValueAndPath_cons]
      cases hvalue : tree.value with
      | some value =>
          refine iff_of_false nofun fun h => ?_
          have hroot := h [] List.nil_prefix
          rw [valueAtPath, hvalue] at hroot
          cases hroot
      | none =>
          rw [Option.map_eq_none_iff, ih]
          constructor
          · intro h q hq
            cases q with
            | nil => exact hvalue
            | cons k q =>
                obtain ⟨rfl, htail⟩ := List.cons_prefix_cons.mp hq
                rw [valueAtPath_cons]
                exact h q htail
          · intro h q hq
            rw [← valueAtPath_cons]
            exact h (front :: q) (List.cons_prefix_cons.mpr ⟨rfl, hq⟩)

/-- Only the values on the way count. -/
theorem findRootMostValueAndPath_congr {path : List String} {tree tree' : FImmutableTree V}
    (h : ∀ q, q <+: path → valueAtPath q tree = valueAtPath q tree') :
    findRootMostValueAndPath path tree = findRootMostValueAndPath path tree' := by
  cases hfound : findRootMostValueAndPath path tree with
  | none =>
      refine (findRootMostValueAndPath_eq_none.mpr fun q hq => ?_).symm
      rw [← h q hq]
      exact findRootMostValueAndPath_eq_none.mp hfound q hq
  | some found =>
      obtain ⟨hahead, hvalue, hfirst⟩ := findRootMostValueAndPath_eq_some.mp hfound
      refine (findRootMostValueAndPath_eq_some.mpr ⟨hahead, ?_, fun r hr hne => ?_⟩).symm
      · rw [← h _ hahead, hvalue]
      · rw [← h r (hr.trans hahead)]
        exact hfirst r hr hne

/-! ## All values -/

mutual

/-- One child a key, at every node. -/
def Keyed : FImmutableTree V → Prop
  | mk _ children => (children.map Prod.fst).Nodup ∧ KeyedChildren children

def KeyedChildren : List (String × FImmutableTree V) → Prop
  | [] => True
  | (_, child) :: children => child.Keyed ∧ KeyedChildren children

end

theorem keyedChildren_iff {children : List (String × FImmutableTree V)} :
    KeyedChildren children ↔ ∀ e ∈ children, e.2.Keyed := by
  induction children with
  | nil => simp [KeyedChildren]
  | cons e children ih => rw [KeyedChildren, ih, List.forall_mem_cons]

theorem keyed_iff {tree : FImmutableTree V} :
    tree.Keyed ↔ (tree.children.map Prod.fst).Nodup ∧ ∀ e ∈ tree.children, e.2.Keyed := by
  rcases tree with ⟨value, children⟩
  rw [Keyed, keyedChildren_iff]
  rfl

theorem keyed_empty : (empty : FImmutableTree V).Keyed :=
  keyed_iff.mpr ⟨List.nodup_nil, fun _ he => absurd he List.not_mem_nil⟩

theorem Keyed.child {tree : FImmutableTree V} (h : tree.Keyed) (front : String) :
    ((tree.children.lookup front).getD empty).Keyed := by
  obtain ⟨hnodup, hchildren⟩ := keyed_iff.mp h
  cases hlookup : tree.children.lookup front with
  | none => exact keyed_empty
  | some child => exact hchildren _ ((lookup_eq_some_iff hnodup).mp hlookup)

theorem Keyed.setValue {tree : FImmutableTree V} (h : tree.Keyed) (newValue : V)
    (path : List String) : (setValue newValue path tree).Keyed := by
  induction path generalizing tree with
  | nil => exact keyed_iff.mpr ⟨(keyed_iff.mp h).1, (keyed_iff.mp h).2⟩
  | cons front path ih =>
      obtain ⟨hnodup, hchildren⟩ := keyed_iff.mp h
      refine keyed_iff.mpr ⟨nodup_insertKey hnodup, ?_⟩
      intro e he
      rcases mem_of_mem_insertKey he with hnew | hold
      · rw [hnew]
        exact ih (h.child front)
      · exact hchildren e hold

theorem Keyed.setTree {tree newTree : FImmutableTree V} (h : tree.Keyed) (hnew : newTree.Keyed)
    (path : List String) : (setTree newTree path tree).Keyed := by
  induction path generalizing tree with
  | nil => exact hnew
  | cons front path ih =>
      obtain ⟨hnodup, hchildren⟩ := keyed_iff.mp h
      have hnewChild : (FImmutableTree.setTree newTree path
          ((tree.children.lookup front).getD empty)).Keyed := ih (h.child front)
      rw [FImmutableTree.setTree, keyed_iff, children]
      split
      · exact ⟨nodup_removeKey hnodup, fun e he => hchildren e (List.mem_filter.mp he).1⟩
      · refine ⟨nodup_insertKey hnodup, ?_⟩
        intro e he
        rcases mem_of_mem_insertKey he with heq | hold
        · rw [heq]
          exact hnewChild
        · exact hchildren e hold

theorem Keyed.subtreeAtPath {tree : FImmutableTree V} (h : tree.Keyed) (path : List String) :
    (subtreeAtPath path tree).Keyed := by
  induction path generalizing tree with
  | nil => exact h
  | cons front path ih =>
      rw [FImmutableTree.subtreeAtPath]
      have hchild := h.child front
      cases hlookup : tree.children.lookup front with
      | none => exact keyed_empty
      | some child =>
          rw [hlookup] at hchild
          exact ih hchild

theorem mem_forEachChildren {children : List (String × FImmutableTree V)} {path : List String}
    {v : V} : (path, v) ∈ forEachChildren children ↔
      ∃ key child q, (key, child) ∈ children ∧ (q, v) ∈ child.forEach ∧ path = key :: q := by
  induction children with
  | nil => simp [forEachChildren]
  | cons e children ih =>
      rcases e with ⟨key, child⟩
      rw [forEachChildren, List.mem_append, ih]
      constructor
      · rintro (hhead | ⟨key', child', q, hmem, hq, rfl⟩)
        · obtain ⟨⟨q, v'⟩, hq, heq⟩ := List.mem_map.mp hhead
          cases heq
          exact ⟨key, child, q, List.mem_cons_self, hq, rfl⟩
        · exact ⟨key', child', q, List.mem_cons_of_mem _ hmem, hq, rfl⟩
      · rintro ⟨key', child', q, hmem, hq, rfl⟩
        rcases List.mem_cons.mp hmem with heq | hmem
        · cases heq
          exact .inl (List.mem_map.mpr ⟨(q, v), hq, rfl⟩)
        · exact .inr ⟨key', child', q, hmem, hq, rfl⟩

theorem forEach_eq (tree : FImmutableTree V) :
    tree.forEach =
      forEachChildren tree.children ++ (tree.value.map fun value => ([], value)).toList := by
  rcases tree with ⟨value, children⟩
  rw [forEach]
  rfl

theorem nil_mem_forEach {tree : FImmutableTree V} {v : V} :
    ([], v) ∈ tree.forEach ↔ tree.value = some v := by
  rw [forEach_eq, List.mem_append, mem_forEachChildren, Option.mem_toList, Option.map_eq_some_iff]
  constructor
  · rintro (⟨_, _, _, -, -, heq⟩ | ⟨value, hvalue, heq⟩)
    · cases heq
    · cases heq
      exact hvalue
  · exact fun h => .inr ⟨v, h, rfl⟩

theorem cons_mem_forEach {tree : FImmutableTree V} (h : tree.Keyed) {front : String}
    {path : List String} {v : V} : (front :: path, v) ∈ tree.forEach ↔
      (path, v) ∈ ((tree.children.lookup front).getD empty).forEach := by
  have hnodup := (keyed_iff.mp h).1
  rw [forEach_eq, List.mem_append, mem_forEachChildren, Option.mem_toList, Option.map_eq_some_iff]
  constructor
  · rintro (⟨key, child, q, hmem, hq, heq⟩ | ⟨_, -, heq⟩)
    · cases heq
      rw [(lookup_eq_some_iff hnodup).mpr hmem]
      exact hq
    · cases heq
  · intro hmem
    cases hlookup : tree.children.lookup front with
    | none =>
        rw [hlookup] at hmem
        exact absurd hmem List.not_mem_nil
    | some child =>
        rw [hlookup] at hmem
        exact .inl ⟨front, child, path, (lookup_eq_some_iff hnodup).mp hlookup, hmem, rfl⟩

/-- **Each value** is come by with its path, -/
theorem mem_forEach {tree : FImmutableTree V} (h : tree.Keyed) {path : List String} {v : V} :
    (path, v) ∈ tree.forEach ↔ valueAtPath path tree = some v := by
  induction path generalizing tree with
  | nil => exact nil_mem_forEach
  | cons front path ih =>
      rw [cons_mem_forEach h, ih (h.child front), valueAtPath_cons]

mutual

/-- and once. -/
theorem nodup_forEach : (tree : FImmutableTree V) → tree.Keyed → (tree.forEach.map Prod.fst).Nodup
  | mk value children, h => by
      obtain ⟨hnodup, hchildren⟩ := keyed_iff.mp h
      rw [forEach, List.map_append]
      refine List.Nodup.append
        (nodup_forEachChildren children hnodup (keyedChildren_iff.mpr hchildren)) ?_ ?_
      · cases value <;> simp
      · intro path hpath hnil
        obtain ⟨⟨q, v⟩, hq, rfl⟩ := List.mem_map.mp hpath
        obtain ⟨key, child, q', -, -, rfl⟩ := mem_forEachChildren.mp hq
        cases value <;> simp at hnil

theorem nodup_forEachChildren : (children : List (String × FImmutableTree V)) →
    (children.map Prod.fst).Nodup → KeyedChildren children →
      ((forEachChildren children).map Prod.fst).Nodup
  | [], _, _ => List.nodup_nil
  | (key, child) :: children, hnodup, hkeyed => by
      rw [List.map_cons, List.nodup_cons] at hnodup
      rw [forEachChildren, List.map_append, List.map_map]
      refine List.Nodup.append ?_ (nodup_forEachChildren children hnodup.2 hkeyed.2) ?_
      · have hinj := (nodup_forEach child hkeyed.1).map (List.cons_injective (a := key))
        rw [List.map_map] at hinj
        exact hinj
      · intro path hleft hright
        obtain ⟨⟨q, v⟩, -, rfl⟩ := List.mem_map.mp hleft
        obtain ⟨⟨q', v'⟩, hq', heq⟩ := List.mem_map.mp hright
        obtain ⟨key', child', q'', hmem, -, hpath⟩ := mem_forEachChildren.mp hq'
        simp only [Function.comp] at heq
        rw [heq] at hpath
        cases hpath
        exact hnodup.1 (List.mem_map.mpr ⟨_, hmem, rfl⟩)

end

end FImmutableTree

end SocialTimeline
