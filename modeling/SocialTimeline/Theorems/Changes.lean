import SocialTimeline.Database.Changes
import SocialTimeline.System.Client

/-!
# Net changes

A view that has come from one snapshot to another, by any updates, has tracked exactly
the net change of every child (`track_of_leadsTo`), and a listener who makes the changes
of the events it gets on a copy of the children has the children of the new snapshot
(`hear_events`). Where each child is changed once, what is tracked is the changes
themselves (`track_of_nodup`).
-/

namespace SocialTimeline

open FirebaseTimelineService Lib Lib.Nested

namespace Snapshot

theorem isEmpty_iff {node : Snapshot} : node.isEmpty = true ↔ node = Nested.empty :=
  decide_eq_true_iff

theorem hasChild_iff {node : Snapshot} {childKey : String} :
    node.hasChild childKey = true ↔ child node childKey ≠ Nested.empty := by
  simp [hasChild, isEmpty]

theorem mem_childKeys {node : Snapshot} {childKey : String} :
    childKey ∈ node.childKeys ↔ child node childKey ≠ Nested.empty := by
  rcases node with ⟨node, hnode⟩
  cases node with
  | leaf value => exact iff_of_false List.not_mem_nil fun h => h rfl
  | children children =>
      obtain ⟨hsorted, hchildren⟩ := FNode.canonical_children.mp hnode
      show childKey ∈ children.map Prod.fst ↔ _
      rw [Ne, ← Subtype.val_inj]
      show _ ↔ (children.lookup childKey).getD FNode.emptyNode ≠ FNode.emptyNode
      constructor
      · intro hmem
        obtain ⟨e, he, rfl⟩ := List.mem_map.mp hmem
        rw [(lookup_eq_some_iff (FNode.nodup_of_sorted hsorted)).mpr he]
        exact (hchildren e he).1
      · intro hne
        cases hlookup : children.lookup childKey with
        | none => rw [hlookup] at hne; exact absurd rfl hne
        | some child =>
            exact List.mem_map.mpr
              ⟨_, (lookup_eq_some_iff (FNode.nodup_of_sorted hsorted)).mp hlookup, rfl⟩

theorem childKeys_of_isLeafNode {node : Snapshot} (h : node.isLeafNode = true) :
    node.childKeys = [] := by
  rcases node with ⟨node, hnode⟩
  cases node with
  | leaf value => rfl
  | children children => cases h

theorem nodup_childKeys (node : Snapshot) : node.childKeys.Nodup := by
  rcases node with ⟨node, hnode⟩
  cases node with
  | leaf value => exact List.nodup_nil
  | children children => exact FNode.nodup_of_sorted (FNode.canonical_children.mp hnode).1

end Snapshot

/-! ## What a change leads from and to -/

/-- The children of a snapshot. -/
abbrev Children := String → Snapshot

namespace FChange

/-- A change leads from one value of its child to another. -/
def Leads (change : FChange) (old new : Snapshot) : Prop :=
  match change with
  | childAdded _ indexedNode => old = Nested.empty ∧ indexedNode = new ∧ new ≠ Nested.empty
  | childRemoved _ indexedNode => indexedNode = old ∧ old ≠ Nested.empty ∧ new = Nested.empty
  | childChanged _ indexedNode oldIndexedNode =>
      indexedNode = new ∧ oldIndexedNode = old ∧ old ≠ Nested.empty ∧ new ≠ Nested.empty

/-- What a child is after a change. -/
def result : FChange → Snapshot
  | childAdded _ indexedNode => indexedNode
  | childRemoved _ _ => Nested.empty
  | childChanged _ indexedNode _ => indexedNode

theorem Leads.result {change : FChange} {old new : Snapshot} (h : change.Leads old new) :
    change.result = new := by
  cases change with
  | childAdded childKey indexedNode => exact h.2.1
  | childRemoved childKey indexedNode => exact h.2.2.symm
  | childChanged childKey indexedNode oldIndexedNode => exact h.1

/-- A change to another value. -/
def Strict : FChange → Prop
  | childChanged _ indexedNode oldIndexedNode => indexedNode ≠ oldIndexedNode
  | _ => True

theorem Leads.ne {change : FChange} {old new : Snapshot} (h : change.Leads old new)
    (hstrict : change.Strict) : old ≠ new := by
  cases change with
  | childAdded childKey indexedNode => exact h.1 ▸ Ne.symm h.2.2
  | childRemoved childKey indexedNode => exact h.2.2 ▸ h.2.1
  | childChanged childKey indexedNode oldIndexedNode =>
      exact h.1 ▸ h.2.1 ▸ Ne.symm hstrict

/-- Make a change. -/
def apply (change : FChange) (children : Children) : Children :=
  Function.update children change.childKey change.result

end FChange

/-- What has become of a child, if anything. -/
def NetChange (childKey : String) (old new : Snapshot) : Option FChange → Prop
  | none => old = new
  | some change => change.childKey = childKey ∧ change.Leads old new

/-- Of changes of different children, each is the net change of its child. -/
theorem leads_of_net {changes : List FChange} (hnodup : (changes.map FChange.childKey).Nodup)
    {old new : Children}
    (hnet : ∀ childKey, NetChange childKey (old childKey) (new childKey)
      (changes.find? fun change => change.childKey = childKey))
    {change : FChange} (hchange : change ∈ changes) :
    change.Leads (old change.childKey) (new change.childKey) := by
  have hfind : changes.find? (fun other => other.childKey = change.childKey) = some change := by
    obtain ⟨before, after, rfl⟩ := List.append_of_mem hchange
    refine List.find?_eq_some_iff_append.mpr ⟨by simp, before, after, rfl, fun other hother => ?_⟩
    rw [List.map_append, List.map_cons] at hnodup
    have hnot := (List.nodup_cons.mp (List.nodup_middle.mp hnodup)).1
    simp only [Bool.not_eq_true', decide_eq_false_iff_not]
    exact fun heq => hnot (List.mem_append_left _ (heq ▸ List.mem_map_of_mem hother))
  have hone := hnet change.childKey
  rw [hfind] at hone
  exact hone.2

/-- Changes of different children, each to another value. -/
structure Proper (changes : List FChange) : Prop where
  nodup : (changes.map FChange.childKey).Nodup
  strict : ∀ change ∈ changes, change.Strict

theorem proper_nil : Proper [] := ⟨List.nodup_nil, fun _ h => absurd h List.not_mem_nil⟩

theorem Proper.one {change : FChange} (h : change.Strict) : Proper [change] :=
  ⟨List.nodup_singleton _, List.forall_mem_singleton.mpr h⟩

theorem Proper.append {changes changes' : List FChange} (h : Proper changes)
    (h' : Proper changes')
    (hapart : (changes.map FChange.childKey).Disjoint (changes'.map FChange.childKey)) :
    Proper (changes ++ changes') := by
  refine ⟨?_, List.forall_mem_append.mpr ⟨h.strict, h'.strict⟩⟩
  rw [List.map_append]
  exact h.nodup.append h'.nodup hapart

/-- Changes that lead from some children to others, one after another. -/
inductive LeadsTo : Children → List FChange → Children → Prop
  | nil (children : Children) : LeadsTo children [] children
  | cons {children children' : Children} {change : FChange} {changes : List FChange} :
      change.Leads (children change.childKey) change.result →
      LeadsTo (change.apply children) changes children' →
      LeadsTo children (change :: changes) children'

namespace LeadsTo

variable {children children' children'' : Children} {changes changes' : List FChange}

theorem append (h : LeadsTo children changes children')
    (h' : LeadsTo children' changes' children'') :
    LeadsTo children (changes ++ changes') children'' := by
  induction h with
  | nil => exact h'
  | cons hleads _ ih => exact .cons hleads (ih h')

theorem one {change : FChange} {childKey : String} {new : Snapshot}
    (hkey : change.childKey = childKey) (hleads : change.Leads (children childKey) new)
    (hnew : children' = Function.update children childKey new) :
    LeadsTo children [change] children' := by
  have hresult := hleads.result
  subst hkey
  refine .cons (hresult ▸ hleads) ?_
  rw [hnew, ← hresult]
  exact .nil _

end LeadsTo

namespace FChildChangeAccumulator

/-- A map holds the net change of every child. -/
structure Nets (changeMap : ChangeMap) (old new : Children) : Prop where
  nodup : (changeMap.map Prod.fst).Nodup
  net : ∀ childKey, NetChange childKey (old childKey) (new childKey) (changeMap.lookup childKey)

/-- **Tracking** one more change never throws and keeps the changes net. -/
theorem Nets.track {changeMap : ChangeMap} {old mid : Children} (h : Nets changeMap old mid)
    {change : FChange} (hchange : change.Leads (mid change.childKey) change.result) :
    ∃ changeMap', trackChildChange changeMap change = .ok changeMap' ∧
      Nets changeMap' old (change.apply mid) := by
  have hone := h.net change.childKey
  -- a map that differs at the key of the change
  have hnets : ∀ changeMap' : ChangeMap, (changeMap'.map Prod.fst).Nodup →
      (∀ childKey, childKey ≠ change.childKey →
        changeMap'.lookup childKey = changeMap.lookup childKey) →
      NetChange change.childKey (old change.childKey) change.result
        (changeMap'.lookup change.childKey) → Nets changeMap' old (change.apply mid) := by
    intro changeMap' hnodup hsame hnet
    refine ⟨hnodup, fun childKey => ?_⟩
    by_cases hkey : childKey = change.childKey
    · subst hkey
      rw [FChange.apply, Function.update_self]
      exact hnet
    · rw [FChange.apply, Function.update_of_ne hkey, hsame childKey hkey]
      exact h.net childKey
  have hinsert : ∀ newChange : FChange, newChange.childKey = change.childKey →
      newChange.Leads (old change.childKey) change.result →
      Nets (insertKey change.childKey newChange changeMap) old (change.apply mid) := by
    intro newChange hkey hleads
    refine hnets _ (nodup_insertKey h.nodup)
      (fun childKey hne => by rw [lookup_insertKey, if_neg hne]) ?_
    rw [lookup_insertKey, if_pos rfl]
    exact ⟨hkey, hleads⟩
  unfold trackChildChange
  cases hlookup : changeMap.lookup change.childKey with
  | none =>
      rw [hlookup] at hone
      exact ⟨_, rfl, hinsert change rfl (hone ▸ hchange)⟩
  | some oldChange =>
      rw [hlookup] at hone
      obtain ⟨-, hold⟩ := hone
      cases change with
      | childAdded childKey indexedNode =>
          cases oldChange with
          | childAdded oldKey oldNode => exact absurd hchange.1 hold.2.2
          | childChanged oldKey oldNode olderNode => exact absurd hchange.1 hold.2.2.2
          | childRemoved oldKey oldNode =>
              exact ⟨_, rfl, hinsert (.childChanged childKey indexedNode oldNode) rfl
                ⟨rfl, hold.1, hold.2.1, hchange.2.2⟩⟩
      | childRemoved childKey indexedNode =>
          cases oldChange with
          | childRemoved oldKey oldNode => exact absurd hold.2.2 hchange.2.1
          | childAdded oldKey oldNode =>
              refine ⟨_, rfl, hnets _ (nodup_removeKey h.nodup)
                (fun k hne => (lookup_removeKey _ _ k).trans (if_neg hne)) ?_⟩
              rw [FChange.childKey, lookup_removeKey, if_pos rfl]
              exact hold.1
          | childChanged oldKey oldNode olderNode =>
              exact ⟨_, rfl, hinsert (.childRemoved childKey olderNode) rfl
                ⟨hold.2.1, hold.2.2.1, rfl⟩⟩
      | childChanged childKey indexedNode oldIndexedNode =>
          cases oldChange with
          | childRemoved oldKey oldNode => exact absurd hold.2.2 hchange.2.2.1
          | childAdded oldKey oldNode =>
              exact ⟨_, rfl, hinsert (.childAdded childKey indexedNode) rfl
                ⟨hold.1, rfl, hchange.2.2.2⟩⟩
          | childChanged oldKey oldNode olderNode =>
              exact ⟨_, rfl, hinsert (.childChanged childKey indexedNode olderNode) rfl
                ⟨rfl, hold.2.1, hold.2.2.1, hchange.2.2.2⟩⟩

/-- **Changes that follow each other** are tracked to the net changes. -/
theorem track_of_leadsTo {old new : Children} {changes : List FChange}
    (h : LeadsTo old changes new) :
    ∃ changeMap, track changes = .ok changeMap ∧ Nets changeMap old new := by
  have hfold : ∀ (mid new : Children) (changeMap : ChangeMap), Nets changeMap old mid →
      ∀ changes, LeadsTo mid changes new →
        ∃ changeMap', changes.foldlM trackChildChange changeMap = .ok changeMap' ∧
          Nets changeMap' old new := by
    intro mid new changeMap hnets changes hleadsTo
    induction hleadsTo generalizing changeMap with
    | nil => exact ⟨changeMap, rfl, hnets⟩
    | cons hleads _ ih =>
        obtain ⟨changeMap', htrack, hnets'⟩ := hnets.track hleads
        obtain ⟨changeMap'', hrest, hnets''⟩ := ih changeMap' hnets'
        refine ⟨changeMap'', ?_, hnets''⟩
        rw [List.foldlM_cons, htrack]
        exact hrest
  exact hfold old new [] ⟨List.nodup_nil, fun _ => rfl⟩ changes h

theorem Nets.childKey_eq {changeMap : ChangeMap} {old new : Children} (h : Nets changeMap old new)
    {e : String × FChange} (he : e ∈ changeMap) : e.2.childKey = e.1 := by
  have hnet := h.net e.1
  rw [(lookup_eq_some_iff h.nodup).mpr he] at hnet
  exact hnet.1

theorem Nets.childKey_changes {changeMap : ChangeMap} {old new : Children}
    (h : Nets changeMap old new) :
    (changes changeMap).map FChange.childKey = changeMap.map Prod.fst := by
  unfold changes
  rw [List.map_map]
  exact List.map_congr_left fun e he => h.childKey_eq he

/-- Changes of different children are tracked as they are. -/
theorem track_of_nodup {tracked : List FChange} (h : (tracked.map FChange.childKey).Nodup) :
    ∃ changeMap, track tracked = .ok changeMap ∧ changes changeMap = tracked := by
  have hfold : ∀ (tracked : List FChange) (changeMap : ChangeMap),
      (changeMap.map Prod.fst ++ tracked.map FChange.childKey).Nodup →
        tracked.foldlM trackChildChange changeMap =
          .ok (changeMap ++ tracked.map fun change => (change.childKey, change)) := by
    intro tracked
    induction tracked with
    | nil =>
        intro changeMap _
        rw [List.map_nil, List.append_nil]
        rfl
    | cons change tracked ih =>
        intro changeMap hnodup
        have hnot : change.childKey ∉ changeMap.map Prod.fst := fun hmem =>
          (List.disjoint_of_nodup_append hnodup) hmem List.mem_cons_self
        have hstep : trackChildChange changeMap change =
            .ok (changeMap ++ [(change.childKey, change)]) := by
          unfold trackChildChange
          rw [lookup_eq_none_of_not_mem hnot, insertKey_of_not_mem hnot]
        rw [List.foldlM_cons, hstep]
        show tracked.foldlM trackChildChange (changeMap ++ [(change.childKey, change)]) = _
        rw [ih, List.append_assoc]
        · rfl
        · rw [List.map_append, List.append_assoc]
          exact hnodup
  refine ⟨_, hfold tracked [] h, ?_⟩
  rw [changes, List.nil_append, List.map_map]
  exact List.map_id tracked

/-- The change of a child among all. -/
theorem find_changes {changeMap : ChangeMap} (hkeys : ∀ e ∈ changeMap, e.2.childKey = e.1)
    (childKey : String) :
    (changes changeMap).find? (fun change => change.childKey = childKey) =
      changeMap.lookup childKey := by
  induction changeMap with
  | nil => rfl
  | cons e changeMap ih =>
      obtain ⟨he, hrest⟩ := List.forall_mem_cons.mp hkeys
      rw [lookup_cons_eq_ite, ← ih hrest, changes, List.map_cons]
      by_cases hkey : childKey = e.1
      · rw [if_pos hkey, List.find?_cons_of_pos (by simp [he, hkey])]
      · rw [if_neg hkey, List.find?_cons_of_neg (by simp [he, Ne.symm hkey])]
        rfl

end FChildChangeAccumulator

/-! ## What an update tracks -/

namespace FIndexedFilter

/-- The snapshot after an update of a child. -/
theorem updateChildIn_fst {node newChildSnap : Snapshot} {childKey : String}
    {affectedPath : List String}
    (h : ¬(get affectedPath (child node childKey) = get affectedPath newChildSnap ∧
      (child node childKey).isEmpty = newChildSnap.isEmpty)) :
    (updateChildIn node childKey newChildSnap affectedPath).1 =
      Nested.setChild node childKey newChildSnap := by
  unfold updateChildIn
  simp only [if_neg h]
  split
  · rename_i hleaf
    rw [Snapshot.isEmpty_iff.mp hleaf.2]
    exact (setChild_of_isLeaf hleaf.1 childKey).symm
  · rfl

/-- What an update of a child tracks. -/
theorem updateChildIn_snd {node newChildSnap : Snapshot} {childKey : String}
    {affectedPath : List String}
    (h : ¬(get affectedPath (child node childKey) = get affectedPath newChildSnap ∧
      (child node childKey).isEmpty = newChildSnap.isEmpty)) :
    (updateChildIn node childKey newChildSnap affectedPath).2 =
      if newChildSnap.isEmpty then
        if node.hasChild childKey then [.childRemoved childKey (child node childKey)] else []
      else if (child node childKey).isEmpty then [.childAdded childKey newChildSnap]
      else [.childChanged childKey newChildSnap (child node childKey)] := by
  unfold updateChildIn
  simp only [if_neg h]
  split <;> rfl

/-- **One child** is updated: what is tracked leads from the old children to the
new ones. -/
theorem updateChildIn_leadsTo (node : Snapshot) (childKey : String) (newChildSnap : Snapshot)
    (affectedPath : List String) :
    LeadsTo (child node) (updateChildIn node childKey newChildSnap affectedPath).2
      (child (updateChildIn node childKey newChildSnap affectedPath).1) := by
  by_cases hsame : get affectedPath (child node childKey) = get affectedPath newChildSnap ∧
      (child node childKey).isEmpty = newChildSnap.isEmpty
  · have hnone : updateChildIn node childKey newChildSnap affectedPath = (node, []) := if_pos hsame
    rw [hnone]
    exact .nil _
  · have hchildren : child (updateChildIn node childKey newChildSnap affectedPath).1 =
        Function.update (child node) childKey newChildSnap := by
      rw [updateChildIn_fst hsame]
      funext key
      by_cases hkey : key = childKey
      · rw [hkey, child_setChild_self, Function.update_self]
      · rw [child_setChild_of_ne _ _ hkey, Function.update_of_ne hkey]
    rw [hchildren]
    rw [updateChildIn_snd hsame]
    split
    · rename_i hempty
      have hnew := Snapshot.isEmpty_iff.mp hempty
      split
      · rename_i hchild
        exact LeadsTo.one rfl ⟨rfl, Snapshot.hasChild_iff.mp hchild, hnew⟩ rfl
      · rename_i hchild
        -- both are empty, so there is nothing to do
        have hold : child node childKey = Nested.empty := by
          by_contra hne
          exact hchild (Snapshot.hasChild_iff.mpr hne)
        rw [hnew, ← hold, Function.update_eq_self]
        exact .nil _
    · rename_i hnew
      have hnew' : newChildSnap ≠ Nested.empty := fun h => hnew (Snapshot.isEmpty_iff.mpr h)
      split
      · rename_i hold
        exact LeadsTo.one rfl ⟨Snapshot.isEmpty_iff.mp hold, rfl, hnew'⟩ rfl
      · rename_i hold
        exact LeadsTo.one rfl
          ⟨rfl, rfl, fun h => hold (Snapshot.isEmpty_iff.mpr h), hnew'⟩ rfl

/-- Nothing is tracked of other children, and no change to the same value. -/
theorem updateChildIn_proper (node : Snapshot) (childKey : String) (newChildSnap : Snapshot)
    (affectedPath : List String) :
    Proper (updateChildIn node childKey newChildSnap affectedPath).2 ∧
      ∀ change ∈ (updateChildIn node childKey newChildSnap affectedPath).2,
        change.childKey = childKey := by
  by_cases hsame : get affectedPath (child node childKey) = get affectedPath newChildSnap ∧
      (child node childKey).isEmpty = newChildSnap.isEmpty
  · rw [show updateChildIn node childKey newChildSnap affectedPath = (node, []) from if_pos hsame]
    exact ⟨proper_nil, fun _ h => absurd h List.not_mem_nil⟩
  · have hone : ∀ change : FChange, change.Strict → change.childKey = childKey →
        Proper [change] ∧ ∀ other ∈ [change], other.childKey = childKey :=
      fun change hstrict hkey => ⟨.one hstrict, List.forall_mem_singleton.mpr hkey⟩
    rw [updateChildIn_snd hsame]
    split
    · split
      · exact hone _ trivial rfl
      · exact ⟨proper_nil, fun _ h => absurd h List.not_mem_nil⟩
    · split
      · exact hone _ trivial rfl
      · refine hone _ (fun heq => hsame ?_) rfl
        rw [heq]
        exact ⟨rfl, rfl⟩

/-- Changes of different children lead to where each of them leads. -/
theorem leadsTo_of_nodup {children children' : Children} {changes : List FChange}
    (hnodup : (changes.map FChange.childKey).Nodup)
    (hleads : ∀ change ∈ changes,
      change.Leads (children change.childKey) (children' change.childKey))
    (hsame : ∀ childKey, childKey ∉ changes.map FChange.childKey →
      children childKey = children' childKey) : LeadsTo children changes children' := by
  induction changes generalizing children with
  | nil =>
      have heq : children = children' := funext fun childKey => hsame childKey List.not_mem_nil
      rw [heq]
      exact .nil _
  | cons change changes ih =>
      rw [List.map_cons, List.nodup_cons] at hnodup
      obtain ⟨hone, hleads⟩ := List.forall_mem_cons.mp hleads
      refine .cons (hone.result.symm ▸ hone) (ih hnodup.2 (fun other hother => ?_) ?_)
      · have hne : other.childKey ≠ change.childKey := fun heq =>
          hnodup.1 (heq ▸ List.mem_map_of_mem hother)
        rw [FChange.apply, Function.update_of_ne hne]
        exact hleads other hother
      · intro childKey hnot
        by_cases hkey : childKey = change.childKey
        · rw [hkey, FChange.apply, Function.update_self, hone.result]
        · rw [FChange.apply, Function.update_of_ne hkey]
          refine hsame childKey ?_
          rw [List.map_cons, List.mem_cons]
          exact not_or.mpr ⟨hkey, hnot⟩

theorem childKey_removed (oldSnap : Snapshot) (keys : List String) :
    (keys.map fun childKey => FChange.childRemoved childKey (child oldSnap childKey)).map
      FChange.childKey = keys := by
  rw [List.map_map]
  exact List.map_id keys

/-- The change of a child that is there afterwards. -/
def updatedChange (oldSnap newSnap : Snapshot) (childKey : String) : Option FChange :=
  if oldSnap.hasChild childKey then
    if child oldSnap childKey = child newSnap childKey then none
    else some (.childChanged childKey (child newSnap childKey) (child oldSnap childKey))
  else some (.childAdded childKey (child newSnap childKey))

theorem updatedChange_spec (oldSnap : Snapshot) {newSnap : Snapshot} {childKey : String}
    (h : child newSnap childKey ≠ Nested.empty) :
    NetChange childKey (child oldSnap childKey) (child newSnap childKey)
      (updatedChange oldSnap newSnap childKey) := by
  unfold updatedChange
  split
  · rename_i hold
    split
    · rename_i heq
      exact heq
    · exact ⟨rfl, rfl, rfl, Snapshot.hasChild_iff.mp hold, h⟩
  · rename_i hold
    refine ⟨rfl, ?_, rfl, h⟩
    by_contra hne
    exact hold (Snapshot.hasChild_iff.mpr hne)

theorem updateFullNode_snd (oldSnap newSnap : Snapshot) :
    (updateFullNode oldSnap newSnap).2 =
      (oldSnap.childKeys.filter fun childKey => !newSnap.hasChild childKey).map
          (fun childKey => FChange.childRemoved childKey (child oldSnap childKey)) ++
        newSnap.childKeys.filterMap (updatedChange oldSnap newSnap) := by
  unfold updateFullNode
  rw [List.filterMap_eq_flatMap_toList]
  refine congrArg _ (List.flatMap_congr fun childKey _ => ?_)
  unfold updatedChange
  split
  · by_cases heq : child oldSnap childKey = child newSnap childKey
    · rw [if_pos heq, if_pos heq]
      rfl
    · rw [if_neg heq, if_neg heq]
      rfl
  · rfl

theorem childKey_updatedChange {oldSnap newSnap : Snapshot} {childKey : String} {change : FChange}
    (h : updatedChange oldSnap newSnap childKey = some change) : change.childKey = childKey := by
  unfold updatedChange at h
  split at h
  · split at h
    · cases h
    · cases h
      rfl
  · cases h
    rfl

theorem childKey_updated (oldSnap newSnap : Snapshot) (keys : List String) :
    (keys.filterMap (updatedChange oldSnap newSnap)).map FChange.childKey =
      keys.filter fun childKey => (updatedChange oldSnap newSnap childKey).isSome := by
  induction keys with
  | nil => rfl
  | cons childKey keys ih =>
      cases hchange : updatedChange oldSnap newSnap childKey with
      | none =>
          rw [List.filterMap_cons_none hchange, List.filter_cons_of_neg (by simp [hchange]), ih]
      | some change =>
          rw [List.filterMap_cons_some hchange, List.filter_cons_of_pos (by simp [hchange]),
            List.map_cons, ih, childKey_updatedChange hchange]

theorem mem_removed {oldSnap newSnap : Snapshot} {childKey : String} :
    childKey ∈ (oldSnap.childKeys.filter fun childKey => !newSnap.hasChild childKey) ↔
      child oldSnap childKey ≠ Nested.empty ∧ child newSnap childKey = Nested.empty := by
  rw [List.mem_filter, Snapshot.mem_childKeys, Bool.not_eq_true', ← Bool.not_eq_true,
    Snapshot.hasChild_iff, not_not]

/-- Each child is tracked once, with a change to another value. -/
theorem updateFullNode_proper (oldSnap newSnap : Snapshot) :
    Proper (updateFullNode oldSnap newSnap).2 := by
  rw [updateFullNode_snd]
  refine ⟨?_, List.forall_mem_append.mpr ⟨?_, ?_⟩⟩
  · rw [List.map_append, childKey_removed, childKey_updated]
    refine (oldSnap.nodup_childKeys.filter _).append (newSnap.nodup_childKeys.filter _) ?_
    intro childKey hold hnew
    exact Snapshot.mem_childKeys.mp (List.mem_filter.mp hnew).1 (mem_removed.mp hold).2
  · intro change hchange
    obtain ⟨childKey, -, rfl⟩ := List.mem_map.mp hchange
    trivial
  · intro change hchange
    obtain ⟨childKey, -, hsome⟩ := List.mem_filterMap.mp hchange
    unfold updatedChange at hsome
    split at hsome
    · split at hsome
      · cases hsome
      · rename_i hne
        cases hsome
        exact Ne.symm hne
    · cases hsome
      trivial

/-- **Everything** is updated: each child is tracked once. -/
theorem updateFullNode_leadsTo (oldSnap newSnap : Snapshot) :
    LeadsTo (child oldSnap) (updateFullNode oldSnap newSnap).2 (child newSnap) := by
  have hnodup := (updateFullNode_proper oldSnap newSnap).nodup
  rw [updateFullNode_snd] at hnodup ⊢
  refine leadsTo_of_nodup hnodup ?_ ?_
  · intro change hchange
    rcases List.mem_append.mp hchange with hold | hnew
    · obtain ⟨childKey, hmem, rfl⟩ := List.mem_map.mp hold
      exact ⟨rfl, mem_removed.mp hmem⟩
    · obtain ⟨childKey, hmem, hsome⟩ := List.mem_filterMap.mp hnew
      have hspec := updatedChange_spec oldSnap (Snapshot.mem_childKeys.mp hmem)
      rw [hsome] at hspec
      rw [hspec.1]
      exact hspec.2
  · intro childKey hnot
    rw [List.map_append, childKey_removed, childKey_updated, List.mem_append, not_or] at hnot
    by_cases hempty : child newSnap childKey = Nested.empty
    · rw [hempty]
      by_contra hne
      exact hnot.1 (mem_removed.mpr ⟨hne, hempty⟩)
    · have hspec := updatedChange_spec oldSnap hempty
      cases hchange : updatedChange oldSnap newSnap childKey with
      | none =>
          rw [hchange] at hspec
          exact hspec
      | some change =>
          refine absurd (List.mem_filter.mpr ⟨Snapshot.mem_childKeys.mpr hempty, ?_⟩) hnot.2
          rw [hchange]
          rfl

end FIndexedFilter

/-! ## What an observer makes of the events -/

/-- A child as an observer is handed it: none where it is empty. -/
def Snapshot.toOption (node : Snapshot) : Option Node :=
  if node.isEmpty then none else some node.val

theorem Snapshot.toOption_of_ne {node : Snapshot} (h : node ≠ Nested.empty) :
    node.toOption = some node.val := if_neg fun hempty => h (Snapshot.isEmpty_iff.mp hempty)

/-- A copy of the children, kept from events: a child removed is dropped, any other is
put in its place. -/
def hear (copy : String → Option Node) (event : DataEvent) : String → Option Node :=
  match event.type with
  | .childRemoved => Function.update copy event.key none
  | .childAdded => Function.update copy event.key (some event.node)
  | .childChanged => Function.update copy event.key (some event.node)

/-- A copy of some children. -/
def copyOf (children : Children) : String → Option Node := fun childKey =>
  (children childKey).toOption

namespace FEventGenerator

theorem hear_dataEvent {change : FChange} {children : Children}
    (h : change.Leads (children change.childKey) change.result) :
    hear (copyOf children) (dataEvent change) = copyOf (change.apply children) := by
  have hupdate : copyOf (change.apply children) =
      Function.update (copyOf children) change.childKey change.result.toOption := by
    funext childKey
    by_cases hkey : childKey = change.childKey
    · rw [hkey, Function.update_self, copyOf, FChange.apply, Function.update_self]
    · rw [Function.update_of_ne hkey, copyOf, FChange.apply, Function.update_of_ne hkey]
      rfl
  rw [hupdate]
  cases change with
  | childAdded childKey indexedNode =>
      rw [FChange.result, Snapshot.toOption_of_ne (h.2.1 ▸ h.2.2)]
      rfl
  | childRemoved childKey indexedNode => rfl
  | childChanged childKey indexedNode oldIndexedNode =>
      rw [FChange.result, Snapshot.toOption_of_ne (h.1 ▸ h.2.2.2)]
      rfl

theorem hear_of_leadsTo {children children' : Children} {changes : List FChange}
    (h : LeadsTo children changes children') :
    (changes.map dataEvent).foldl hear (copyOf children) = copyOf children' := by
  induction h with
  | nil => rfl
  | cons hleads _ ih => rw [List.map_cons, List.foldl_cons, hear_dataEvent hleads, ih]

/-- The child events for one observer. -/
def heard (handle : Nat) (events : List (FEventRegistration × FDataEvent)) : List DataEvent :=
  events.filterMap fun e =>
    match e.2 with
    | .child event => if e.1.handle = handle then some event else none
    | .value _ => none

theorem heard_append (handle : Nat) (events events' : List (FEventRegistration × FDataEvent)) :
    heard handle (events ++ events') = heard handle events ++ heard handle events' :=
  List.filterMap_append

theorem heard_value (handle : Nat) (valueChange : Option Snapshot)
    (registrations : List FEventRegistration) :
    heard handle (valueChange.toList.flatMap fun node =>
      (registrations.filter fun registration => registration.responseTo .value).map
        fun registration => (registration, .value node)) = [] := by
  refine List.filterMap_eq_nil_iff.mpr fun e he => ?_
  obtain ⟨node, -, he⟩ := List.mem_flatMap.mp he
  obtain ⟨other, -, rfl⟩ := List.mem_map.mp he
  rfl

/-- The events are for those who are registered. -/
theorem heard_of_not_mem {handle : Nat} {registrations : List FEventRegistration}
    (h : handle ∉ registrations.map FEventRegistration.handle) (changes : List FChange)
    (valueChange : Option Snapshot) :
    heard handle (generateEventsForChanges changes valueChange registrations) = [] := by
  have hkind : ∀ eventType, heard handle (generateEvents eventType changes registrations) = [] := by
    intro eventType
    refine List.filterMap_eq_nil_iff.mpr fun e he => ?_
    obtain ⟨change, -, he⟩ := List.mem_flatMap.mp he
    obtain ⟨registration, hmem, rfl⟩ := List.mem_map.mp he
    refine if_neg fun heq => h ?_
    exact heq ▸ List.mem_map_of_mem (List.mem_filter.mp hmem).1
  rw [generateEventsForChanges, heard_append, heard_append, heard_append, heard_value, hkind,
    hkind, hkind]
  rfl

/-- The events come kind by kind, and within each kind in the order of the children. -/
def raised (changes : List FChange) : List FChange :=
  (changes.filter fun change => change.type = .childRemoved).mergeSort ordered ++
    (changes.filter fun change => change.type = .childAdded).mergeSort ordered ++
    (changes.filter fun change => change.type = .childChanged).mergeSort ordered

theorem raised_perm (changes : List FChange) : (raised changes).Perm changes := by
  have hsorted : (raised changes).Perm
      ((changes.filter fun change => change.type = .childRemoved) ++
        (changes.filter fun change => change.type = .childAdded) ++
        (changes.filter fun change => change.type = .childChanged)) :=
    ((List.mergeSort_perm _ _).append (List.mergeSort_perm _ _)).append (List.mergeSort_perm _ _)
  refine hsorted.trans ?_
  clear hsorted
  induction changes with
  | nil => exact List.Perm.nil
  | cons change changes ih =>
      cases change with
      | childRemoved childKey indexedNode => exact ih.cons _
      | childAdded childKey indexedNode =>
          exact ((List.perm_middle).append_right _).trans (ih.cons _)
      | childChanged childKey indexedNode oldIndexedNode =>
          exact List.perm_middle.trans (ih.cons _)

section Observer

variable {registrations : List FEventRegistration} {registration : FEventRegistration}
  (hmem : registration ∈ registrations)
  (hhandles : (registrations.map FEventRegistration.handle).Nodup)

include hmem hhandles

/-- Of the observers that respond, one has the handle. -/
theorem heard_registrations {eventType : DataEventType}
    (hresponse : registration.responseTo (.child eventType) = true) (event : DataEvent) :
    heard registration.handle
      ((registrations.filter fun registration => registration.responseTo (.child eventType)).map
        fun registration => (registration, .child event)) = [event] := by
  obtain ⟨before, after, rfl⟩ := List.append_of_mem hmem
  have hothers : ∀ other ∈ before ++ after, other.handle ≠ registration.handle := by
    rw [List.map_append, List.map_cons] at hhandles
    have hnot := (List.nodup_middle.mp hhandles).notMem
    rw [← List.map_append] at hnot
    exact fun other hother heq => hnot (heq ▸ List.mem_map_of_mem hother)
  have hnone : ∀ others : List FEventRegistration, (∀ other ∈ others, other ∈ before ++ after) →
      heard registration.handle
        ((others.filter fun other => other.responseTo (.child eventType)).map fun other =>
          (other, .child event)) = [] := by
    intro others hsub
    refine List.filterMap_eq_nil_iff.mpr fun e he => ?_
    obtain ⟨other, hother, rfl⟩ := List.mem_map.mp he
    exact if_neg (hothers other (hsub other (List.mem_filter.mp hother).1))
  have hfilter : (registration :: after).filter
      (fun other => other.responseTo (.child eventType)) = registration ::
        after.filter fun other => other.responseTo (.child eventType) :=
    List.filter_cons_of_pos hresponse
  rw [List.filter_append, hfilter, List.map_append, List.map_cons,
    heard_append, hnone before fun _ h => List.mem_append_left _ h]
  have hself : heard registration.handle [(registration, .child event)] = [event] := by
    simp [heard]
  have hcons : heard registration.handle ((registration, .child event) ::
      (after.filter fun other => other.responseTo (.child eventType)).map fun other =>
        (other, .child event)) = [event] := by
    rw [← List.singleton_append, heard_append, hself, hnone after fun _ h =>
      List.mem_append_right _ h]
    rfl
  exact hcons

/-- The events of one kind, in the order of the children. -/
theorem heard_generateEvents {eventType : DataEventType}
    (hresponse : registration.responseTo (.child eventType) = true) (changes : List FChange) :
    heard registration.handle (generateEvents eventType changes registrations) =
      ((changes.filter fun change => change.type = eventType).mergeSort ordered).map dataEvent := by
  unfold generateEvents
  simp only
  generalize (changes.filter fun change => change.type = eventType).mergeSort ordered = sorted
  induction sorted with
  | nil => rfl
  | cons change sorted ih =>
      rw [List.flatMap_cons, heard_append, ih, heard_registrations hmem hhandles hresponse]
      rfl

/-- **An observer** of all the children makes the changes on its copy. -/
theorem hear_events (hresponse : ∀ type, registration.responseTo (.child type) = true)
    {old new : Children} {changes : List FChange}
    (hnodup : (changes.map FChange.childKey).Nodup)
    (hnet : ∀ childKey, NetChange childKey (old childKey) (new childKey)
      (changes.find? fun change => change.childKey = childKey))
    (valueChange : Option Snapshot) :
    (heard registration.handle
      (generateEventsForChanges changes valueChange registrations)).foldl hear (copyOf old) =
        copyOf new := by
  have hevents : heard registration.handle
      (generateEventsForChanges changes valueChange registrations) =
        (raised changes).map dataEvent := by
    rw [generateEventsForChanges, heard_append, heard_append, heard_append, heard_value,
      heard_generateEvents hmem hhandles (hresponse _),
      heard_generateEvents hmem hhandles (hresponse _),
      heard_generateEvents hmem hhandles (hresponse _), List.append_nil, raised, List.map_append,
      List.map_append]
  have hperm := raised_perm changes
  rw [hevents]
  refine hear_of_leadsTo (FIndexedFilter.leadsTo_of_nodup ?_ (fun change hchange => ?_) ?_)
  · exact (hperm.map FChange.childKey).nodup_iff.mpr hnodup
  · exact leads_of_net hnodup hnet (hperm.mem_iff.mp hchange)
  · intro childKey hnot
    have hone := hnet childKey
    have hnone : changes.find? (fun change => change.childKey = childKey) = none := by
      rw [List.find?_eq_none]
      intro change hchange heq
      refine hnot (List.mem_map.mpr ⟨change, hperm.mem_iff.mpr hchange, ?_⟩)
      exact of_decide_eq_true heq
    rw [hnone] at hone
    exact hone

end Observer

end FEventGenerator

end SocialTimeline
