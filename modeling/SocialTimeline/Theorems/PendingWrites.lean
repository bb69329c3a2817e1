import SocialTimeline.Database.FWriteTree
import SocialTimeline.Database.Snapshot
import SocialTimeline.Theorems.Writes
import SocialTimeline.System.State

/-!
# Pending writes

Whatever was issued and answered before, `visibleWrites` is what the pending writes come
to, made one after another in the order of issue. So what is shown at any path of
anything the server has is what would be there if it had taken the pending writes
(`pending_writes_shown`).

An answer takes a write out of the middle of the others. That rests on two things about
them (`Orderly`): no older write is still pending strictly above the path of the
answered one, and no merge reaches from outside into that path. The first holds
whenever the server answers in the order of issue.
-/

namespace SocialTimeline

open Lib Lib.Nested FImmutableTree

variable {N : Type} [Nested String N]

namespace FCompoundWrite

variable {v w : FCompoundWrite N} {path q r : List String} {node : N}

/-! ## Trees that agree -/

/-- The same writes at the same paths. -/
def Same (v w : FCompoundWrite N) : Prop :=
  ∀ q, valueAtPath q v.writeTree = valueAtPath q w.writeTree

theorem Same.addWrite (h : Same v w) (node : N) (path : List String) :
    Same (v.addWrite node path) (w.addWrite node path) := by
  intro q
  rw [valueAtPath_addWrite, valueAtPath_addWrite, findRootMostValueAndPath_congr fun q _ => h q,
    h q]

theorem Same.addAll (h : Same v w) (ws : List (List String × N)) :
    Same (addAll ws v) (addAll ws w) := by
  induction ws generalizing v w with
  | nil => exact h
  | cons e ws ih => exact ih (h.addWrite e.2 e.1)

theorem NoneAbove.addWrite (h : v.NoneAbove path) (hq : path <+: q ∨ Diverge path q) :
    (v.addWrite node q).NoneAbove path := by
  intro r hr hne
  by_contra hsome
  rcases eq_or_of_valueAtPath_addWrite hsome with rfl | hold
  · rcases hq with hbelow | hapart
    · exact hne (hr.eq_of_length_le hbelow.length_le)
    · exact hapart.2 hr
  · exact hold (h r hr hne)

/-- A write at or below the path does not show outside. -/
theorem NoneAbove.valueAtPath_addWrite_below (h : v.NoneAbove path) (hq : path <+: q)
    (hr : ¬path <+: r) :
    valueAtPath r (v.addWrite node q).writeTree = valueAtPath r v.writeTree := by
  rw [valueAtPath_addWrite]
  cases hfound : findRootMostValueAndPath q v.writeTree with
  | none => exact if_neg fun hqr => hr (hq.trans hqr)
  | some rootMost =>
      obtain ⟨rootMost, value⟩ := rootMost
      obtain ⟨hahead, hvalue, -⟩ := findRootMostValueAndPath_eq_some.mp hfound
      refine if_neg ?_
      rintro rfl
      rcases List.prefix_or_prefix_of_prefix hq hahead with hbelow | habove
      · exact hr hbelow
      · have hnone := h r habove fun heq => hr (heq ▸ List.prefix_refl r)
        rw [hnone] at hvalue
        cases hvalue

/-- A write at or above the path takes the place of everything below. -/
theorem NoneAbove.valueAtPath_addWrite_above (h : v.NoneAbove path) (hq : q <+: path) :
    valueAtPath r (v.addWrite node q).writeTree =
      if q <+: r then (if r = q then some node else none) else valueAtPath r v.writeTree := by
  rw [valueAtPath_addWrite]
  cases hfound : findRootMostValueAndPath q v.writeTree with
  | none => rfl
  | some rootMost =>
      obtain ⟨rootMost, value⟩ := rootMost
      obtain ⟨hahead, hvalue, -⟩ := findRootMostValueAndPath_eq_some.mp hfound
      -- a write that was there already was at the path itself
      have hroot : rootMost = path := by
        by_contra hne
        rw [h rootMost (hahead.trans hq) hne] at hvalue
        cases hvalue
      have heq : rootMost = q := hahead.eq_of_length_le (hroot ▸ hq.length_le)
      subst heq
      by_cases hr : r = rootMost
      · rw [if_pos (hr ▸ List.prefix_refl r), if_pos hr]
        simp [hr]
      · refine (if_neg hr).trans ?_
        rw [if_neg hr]
        split
        · rename_i hbelow
          obtain ⟨s, rfl⟩ := hbelow
          by_contra hsome
          refine hr ?_
          rw [v.leafmost rootMost s (by simp [hvalue]) hsome, List.append_nil]
        · rfl

/-- The same but for what is at a path and below, with nothing above it. -/
structure AgreeOutside (path : List String) (v w : FCompoundWrite N) : Prop where
  left : v.NoneAbove path
  right : w.NoneAbove path
  outside : ∀ q, ¬path <+: q → valueAtPath q v.writeTree = valueAtPath q w.writeTree

theorem AgreeOutside.addWrite (h : AgreeOutside path v w) (hq : path <+: q ∨ Diverge path q) :
    AgreeOutside path (v.addWrite node q) (w.addWrite node q) where
  left := h.left.addWrite hq
  right := h.right.addWrite hq
  outside r hr := by
    rcases hq with hbelow | hapart
    · rw [h.left.valueAtPath_addWrite_below hbelow hr, h.right.valueAtPath_addWrite_below hbelow hr,
        h.outside r hr]
    · rw [valueAtPath_addWrite, valueAtPath_addWrite, h.outside r hr,
        findRootMostValueAndPath_congr fun s hs => h.outside s fun hp => hapart.1 (hp.trans hs)]

theorem AgreeOutside.same_of_above (h : AgreeOutside path v w) (hq : q <+: path) :
    Same (v.addWrite node q) (w.addWrite node q) := by
  intro r
  rw [h.left.valueAtPath_addWrite_above hq, h.right.valueAtPath_addWrite_above hq]
  by_cases hr : q <+: r
  · rw [if_pos hr, if_pos hr]
  · rw [if_neg hr, if_neg hr, h.outside r fun hp => hr (hq.trans hp)]

/-- **Writing on**: a write at or above the path makes the trees the same, any other
keeps them as they agree. -/
theorem AgreeOutside.addAll (h : AgreeOutside path v w) (ws : List (List String × N)) :
    Same (addAll ws v) (addAll ws w) ∨
      (∀ e ∈ ws, ¬e.1 <+: path) ∧ AgreeOutside path (addAll ws v) (addAll ws w) := by
  induction ws generalizing v w with
  | nil => exact .inr ⟨fun _ he => absurd he List.not_mem_nil, h⟩
  | cons e ws ih =>
      by_cases habove : e.1 <+: path
      · exact .inl ((h.same_of_above habove).addAll ws)
      · have hq : path <+: e.1 ∨ Diverge path e.1 :=
          (em (path <+: e.1)).imp_right fun hbelow => ⟨hbelow, habove⟩
        exact (ih (h.addWrite hq)).imp_right fun hrest =>
          ⟨List.forall_mem_cons.mpr ⟨habove, hrest.1⟩, hrest.2⟩

theorem noneAbove_addAll (h : v.NoneAbove path) {ws : List (List String × N)}
    (hws : ∀ e ∈ ws, e.1 <+: path → e.1 = path) : (addAll ws v).NoneAbove path := by
  induction ws generalizing v with
  | nil => exact h
  | cons e ws ih =>
      obtain ⟨he, hws⟩ := List.forall_mem_cons.mp hws
      refine ih (h.addWrite ?_) hws
      by_cases hbelow : path <+: e.1
      · exact .inl hbelow
      · exact .inr ⟨hbelow, fun habove => hbelow (he habove ▸ List.prefix_refl e.1)⟩

/-- Writes only at or below the path. -/
theorem agreeOutside_addAll (h : v.NoneAbove path) {ws : List (List String × N)}
    (hws : ∀ e ∈ ws, path <+: e.1) : AgreeOutside path (addAll ws v) v := by
  refine ⟨noneAbove_addAll h fun e he habove => ?_, h, ?_⟩
  · exact habove.eq_of_length_le (hws e he).length_le
  · intro r hr
    induction ws generalizing v with
    | nil => rfl
    | cons e ws ih =>
        obtain ⟨he, hws⟩ := List.forall_mem_cons.mp hws
        rw [addAll_cons, ih (h.addWrite (.inl he)) hws, h.valueAtPath_addWrite_below he hr]

/-- Nothing is written elsewhere. -/
theorem mem_or_of_valueAtPath_addAll {ws : List (List String × N)}
    (h : valueAtPath q (addAll ws v).writeTree ≠ none) :
    (∃ e ∈ ws, e.1 = q) ∨ valueAtPath q v.writeTree ≠ none := by
  induction ws generalizing v with
  | nil => exact .inr h
  | cons e ws ih =>
      rcases ih h with ⟨f, hf, hq⟩ | hone
      · exact .inl ⟨f, List.mem_cons_of_mem e hf, hq⟩
      · rcases eq_or_of_valueAtPath_addWrite hone with hq | hold
        · exact .inl ⟨e, List.mem_cons_self, hq.symm⟩
        · exact .inr hold

theorem valueAtPath_removeWriteAtPath (write : FCompoundWrite N) (path q : List String) :
    valueAtPath q (write.removeWriteAtPath path).writeTree =
      if path <+: q then none else valueAtPath q write.writeTree := by
  rw [removeWriteAtPath, valueAtPath_setTree, valueAtPath_empty]

end FCompoundWrite

/-! ## Records -/

namespace FWriteRecord

/-- The writes of a record with their paths. -/
def writes : FWriteRecord N → List (List String × N)
  | overwrite path newData _ _ => [(path, newData)]
  | merge path changedChildren _ => under path changedChildren.writes

theorem path_above {record : FWriteRecord N} {e : List String × N} (he : e ∈ record.writes) :
    record.path <+: e.1 := by
  cases record with
  | overwrite path newData writeId visible =>
      rw [List.mem_singleton.mp he]
      exact List.prefix_refl path
  | merge path changedChildren writeId =>
      obtain ⟨f, -, rfl⟩ := List.mem_map.mp he
      exact List.prefix_append path f.1

theorem containsPath_iff {record : FWriteRecord N} {path : List String} :
    record.containsPath path = true ↔ ∃ e ∈ record.writes, e.1 <+: path := by
  cases record with
  | overwrite recordPath newData writeId visible => simp [containsPath, writes]
  | merge recordPath changedChildren writeId =>
      rw [containsPath, List.any_eq_true]
      constructor
      · rintro ⟨e, he, habove⟩
        exact ⟨_, List.mem_map_of_mem he, List.isPrefixOf_iff_prefix.mp habove⟩
      · rintro ⟨_, he, habove⟩
        obtain ⟨e, hmem, rfl⟩ := List.mem_map.mp he
        exact ⟨e, hmem, List.isPrefixOf_iff_prefix.mpr habove⟩

end FWriteRecord

namespace FWriteTree

open FCompoundWrite

variable {tree tree' : FWriteTree N} {w : FWriteRecord N} {writeId : Int}

/-- The pending writes with their paths, in the order of issue. -/
def pending (records : List (FWriteRecord N)) : List (List String × N) :=
  records.flatMap FWriteRecord.writes

theorem pending_cons (record : FWriteRecord N) (records : List (FWriteRecord N)) :
    pending (record :: records) = record.writes ++ pending records := List.flatMap_cons

theorem pending_append (records records' : List (FWriteRecord N)) :
    pending (records ++ records') = pending records ++ pending records' := List.flatMap_append

/-- Pending writes laid over each other. -/
def layered (records : List (FWriteRecord N)) : FCompoundWrite N :=
  addAll (pending records) emptyWrite

theorem layered_append (records records' : List (FWriteRecord N)) :
    layered (records ++ records') = addAll (pending records') (layered records) := by
  unfold layered
  rw [pending_append, addAll_append]

theorem layerWrite_root (write : FCompoundWrite N) (record : FWriteRecord N) :
    layerWrite [] write record = addAll record.writes write := by
  cases record with
  | overwrite path newData writeId visible => simp [layerWrite, FWriteRecord.writes, addAll]
  | merge path changedChildren writeId =>
      simp [layerWrite, FWriteRecord.writes, addCompoundWrite_eq_addAll]

theorem layerTreeFromWrites_root (records : List (FWriteRecord N)) :
    layerTreeFromWrites records defaultFilter [] = layered records := by
  have hfold : ∀ write : FCompoundWrite N,
      records.foldl (layerWrite []) write = addAll (pending records) write := by
    induction records with
    | nil => exact fun _ => rfl
    | cons record records ih =>
        intro write
        rw [List.foldl_cons, ih, layerWrite_root, pending_cons, addAll_append]
  have hall : records.filter defaultFilter = records := List.filter_eq_self.mpr fun _ _ => rfl
  rw [layerTreeFromWrites, hall, hfold]
  rfl

/-! ## What a removal does -/

theorem overlapping_fst {index : Nat} {ws : List (FWriteRecord N × Nat)} {visible overlaps : Bool} :
    (overlapping index w ws visible overlaps).1 = true ↔ visible = true ∧
      ∀ e ∈ ws, e.1.visible = true → index ≤ e.2 → e.1.containsPath w.path = false := by
  induction ws generalizing visible overlaps with
  | nil => simp [overlapping]
  | cons e ws ih =>
      cases visible with
      | false => simp [overlapping]
      | true =>
          rw [overlapping, if_pos rfl, List.forall_mem_cons]
          by_cases hvisible : e.1.visible = true
          · rw [if_pos hvisible]
            by_cases hshadow : index ≤ e.2 ∧ e.1.containsPath w.path = true
            · rw [if_pos hshadow, ih]
              simp [hvisible, hshadow]
            · rw [if_neg hshadow]
              have hnot : index ≤ e.2 → e.1.containsPath w.path = false := fun hle =>
                Bool.eq_false_iff.mpr fun h => hshadow ⟨hle, h⟩
              split <;> rw [ih] <;>
                exact and_congr_right fun _ => ⟨fun hall => ⟨fun _ => hnot, hall⟩, And.right⟩
          · rw [if_neg hvisible, ih]
            simp [hvisible]

theorem overlapping_snd {index : Nat} {ws : List (FWriteRecord N × Nat)} {overlaps : Bool}
    (h : (overlapping index w ws true overlaps).1 = true) :
    (overlapping index w ws true overlaps).2 = true ↔
      overlaps = true ∨ ∃ e ∈ ws, e.1.visible = true ∧ w.path <+: e.1.path := by
  induction ws generalizing overlaps with
  | nil => simp [overlapping]
  | cons e ws ih =>
      rw [overlapping, if_pos rfl] at h ⊢
      by_cases hvisible : e.1.visible = true
      · rw [if_pos hvisible] at h ⊢
        by_cases hshadow : index ≤ e.2 ∧ e.1.containsPath w.path = true
        · rw [if_pos hshadow, overlapping_fst] at h
          cases h.1
        · rw [if_neg hshadow] at h ⊢
          by_cases hcover : w.path <+: e.1.path
          · rw [if_pos hcover] at h ⊢
            rw [ih h]
            simp [hvisible, hcover]
          · rw [if_neg hcover] at h ⊢
            rw [ih h]
            simp [hcover]
      · rw [if_neg hvisible] at h ⊢
        rw [ih h]
        simp [hvisible]

theorem mem_zipIdx_append {before after : List (FWriteRecord N)} {record : FWriteRecord N} :
    (∃ i, before.length ≤ i ∧ (record, i) ∈ (before ++ after).zipIdx) ↔ record ∈ after := by
  simp only [List.mem_zipIdx_iff_getElem?]
  constructor
  · rintro ⟨i, hle, hget⟩
    rw [List.getElem?_append_right hle] at hget
    exact List.mem_of_getElem? hget
  · intro hmem
    obtain ⟨j, hget⟩ := List.getElem?_of_mem hmem
    refine ⟨before.length + j, Nat.le_add_right _ _, ?_⟩
    rw [List.getElem?_append_right (Nat.le_add_right _ _), Nat.add_sub_cancel_left, hget]

/-- **What a removal does**: nothing to the visible writes where a younger write covers
the removed one, a new start where another lies at or below it, and otherwise it takes
the writes out. -/
theorem removeWriteId_cases {needToReevaluate : Bool}
    (h : tree.removeWriteId writeId = some (needToReevaluate, tree')) :
    ∃ before w after, tree.allWrites = before ++ w :: after ∧ w.writeId = writeId ∧
      (∀ record ∈ before, record.writeId ≠ writeId) ∧ tree'.allWrites = before ++ after ∧
      (tree'.visibleWrites = tree.visibleWrites ∧ needToReevaluate = false ∧
          (w.visible = false ∨ ∃ record ∈ after, record.containsPath w.path = true) ∨
        tree'.visibleWrites = layered (before ++ after) ∧ needToReevaluate = true ∨
        tree'.visibleWrites = removeWrite tree.visibleWrites w ∧ needToReevaluate = true ∧
          (∀ record ∈ after, record.visible = true → record.containsPath w.path = false) ∧
          ∀ record ∈ before ++ after, record.visible = true → ¬w.path <+: record.path) := by
  rw [removeWriteId, Option.bind_eq_bind, Option.bind_eq_some_iff] at h
  obtain ⟨index, hindex, h⟩ := h
  rw [Option.bind_eq_bind, Option.bind_eq_some_iff] at h
  obtain ⟨w, hw, h⟩ := h
  obtain ⟨hlt, hid, hfirst⟩ := List.findIdx?_eq_some_iff_getElem.mp hindex
  rw [List.getElem?_eq_getElem hlt, Option.some.injEq] at hw
  rw [hw, decide_eq_true_eq] at hid
  obtain ⟨before, after, hall, hlength⟩ :
      ∃ before after, tree.allWrites = before ++ w :: after ∧ before.length = index := by
    refine ⟨tree.allWrites.take index, tree.allWrites.drop (index + 1), ?_, ?_⟩
    · rw [← hw, List.getElem_cons_drop, List.take_append_drop]
    · exact List.length_take_of_le hlt.le
  have hrest : tree.allWrites.eraseIdx index = before ++ after := by
    rw [hall, ← hlength, List.eraseIdx_append_of_length_le (le_refl _), Nat.sub_self]
    rfl
  have hbefore : ∀ record ∈ before, record.writeId ≠ writeId := by
    intro record hrecord
    obtain ⟨i, hi, rfl⟩ := List.mem_iff_getElem.mp hrecord
    have hnot := hfirst i (hlength ▸ hi)
    simp only [hall, List.getElem_append_left hi, decide_eq_true_eq] at hnot
    exact hnot
  refine ⟨before, w, after, hall, hid, hbefore, ?_⟩
  rw [hrest] at h
  simp only at h
  have hmem : ∀ record ∈ after, ∃ i, index ≤ i ∧ (record, i) ∈ (before ++ after).zipIdx :=
    fun record hafter => hlength ▸ mem_zipIdx_append.mpr hafter
  cases hfst : (overlapping index w (before ++ after).zipIdx.reverse w.visible false).1 with
  | false =>
      rw [hfst] at h
      cases h
      refine ⟨rfl, .inl ⟨rfl, rfl, ?_⟩⟩
      by_contra hnone
      rw [not_or, Bool.not_eq_false] at hnone
      refine absurd (overlapping_fst.mpr ⟨hnone.1, fun e he _ hle => ?_⟩)
        (Bool.eq_false_iff.mp hfst)
      refine Bool.eq_false_iff.mpr fun hcontains => hnone.2 ⟨e.1, ?_, hcontains⟩
      exact mem_zipIdx_append.mp ⟨e.2, hlength ▸ hle, List.mem_reverse.mp he⟩
  | true =>
      rw [hfst] at h
      obtain ⟨hvisible, hafter⟩ := overlapping_fst.mp hfst
      rw [hvisible] at h hfst
      cases hsnd : (overlapping index w (before ++ after).zipIdx.reverse true false).2 with
      | true =>
          rw [hsnd] at h
          cases h
          exact ⟨rfl, .inr (.inl ⟨layerTreeFromWrites_root _, rfl⟩)⟩
      | false =>
          rw [hsnd] at h
          cases h
          refine ⟨rfl, .inr (.inr ⟨rfl, rfl, ?_, ?_⟩)⟩
          · intro record hrecord hshown
            obtain ⟨i, hle, hi⟩ := hmem record hrecord
            exact hafter (record, i) (List.mem_reverse.mpr hi) hshown hle
          · intro record hrecord hshown habove
            obtain ⟨i, hget⟩ := List.getElem?_of_mem hrecord
            have hi : (record, i) ∈ (before ++ after).zipIdx.reverse :=
              List.mem_reverse.mpr (List.mem_zipIdx_iff_getElem?.mpr hget)
            have hoverlaps := (overlapping_snd hfst).mpr (.inr ⟨_, hi, hshown, habove⟩)
            rw [hsnd] at hoverlaps
            cases hoverlaps

theorem removeWrite_eq_foldl (visibleWrites : FCompoundWrite N) (w : FWriteRecord N) :
    removeWrite visibleWrites w =
      w.writes.foldl (fun visibleWrites e => visibleWrites.removeWriteAtPath e.1)
        visibleWrites := by
  cases w with
  | overwrite path newData writeId visible => rfl
  | merge path changedChildren writeId =>
      rw [removeWrite, FWriteRecord.writes, under, List.foldl_map]
      rfl

/-- Only what was written at the paths of the record, and below them, is taken out. -/
theorem valueAtPath_removeWrite (visibleWrites : FCompoundWrite N) (w : FWriteRecord N)
    (q : List String) :
    valueAtPath q (removeWrite visibleWrites w).writeTree =
      if ∃ e ∈ w.writes, e.1 <+: q then none else valueAtPath q visibleWrites.writeTree := by
  rw [removeWrite_eq_foldl]
  induction w.writes generalizing visibleWrites with
  | nil => simp
  | cons e ws ih =>
      rw [List.foldl_cons, ih, valueAtPath_removeWriteAtPath]
      by_cases hrest : ∃ f ∈ ws, f.1 <+: q
      · have hall : ∃ f ∈ e :: ws, f.1 <+: q :=
          hrest.imp fun f hf => ⟨List.mem_cons_of_mem e hf.1, hf.2⟩
        rw [if_pos hrest, if_pos hall]
      · rw [if_neg hrest]
        simp only [List.exists_mem_cons_iff, hrest, or_false]

/-! ## Runs -/

/-- A record between the older and the younger ones can be taken out: nothing older is
written strictly above its path, and nothing from outside reaches below it. -/
structure Removable (before : List (FWriteRecord N)) (w : FWriteRecord N)
    (after : List (FWriteRecord N)) : Prop where
  above : ∀ record ∈ before, ∀ e ∈ record.writes, e.1 <+: w.path → e.1 = w.path
  older : ∀ record ∈ before, ∀ e ∈ record.writes, w.path <+: e.1 → w.path <+: record.path
  younger : ∀ record ∈ after, ∀ e ∈ record.writes, w.path <+: e.1 →
    w.path <+: record.path ∨ e.1 = w.path

/-- The changes of a merge are to children themselves. -/
def Shallow : FWriteRecord N → Prop
  | .overwrite _ _ _ _ => True
  | .merge _ changedChildren _ => ∀ e ∈ changedChildren.writes, e.1.length ≤ 1

/-- **In the order of issue** a record can always be taken out. -/
theorem removable_oldest {after : List (FWriteRecord N)} (h : ∀ record ∈ after, Shallow record) :
    Removable [] w after where
  above _ hrecord := absurd hrecord List.not_mem_nil
  older _ hrecord := absurd hrecord List.not_mem_nil
  younger record hrecord e he hbelow := by
    have hshallow := h record hrecord
    cases record with
    | overwrite path newData writeId visible =>
        rw [List.mem_singleton.mp he] at hbelow
        exact .inl hbelow
    | merge path changedChildren writeId =>
        obtain ⟨f, hf, rfl⟩ := List.mem_map.mp he
        have hlength := hshallow f hf
        rcases Nat.lt_or_ge path.length w.path.length with hlt | hle
        · refine .inr (hbelow.eq_of_length_le ?_).symm
          rw [List.length_append]
          omega
        · exact .inl (List.prefix_of_prefix_length_le hbelow (List.prefix_append path f.1) hle)

/-- The writes issued are visible, those answered removable. -/
def Orderly (tree : FWriteTree N) : Act N → Prop
  | .overwrite _ _ _ visible => visible = true
  | .merge _ _ _ => True
  | .remove writeId => ∀ before w after, tree.allWrites = before ++ w :: after →
      w.writeId = writeId → (∀ record ∈ before, record.writeId ≠ writeId) →
        Removable before w after
  | .removeAll => True

/-- `visibleWrites` is what the pending writes come to. -/
structure Layered (tree : FWriteTree N) : Prop where
  visible : ∀ record ∈ tree.allWrites, record.visible = true
  same : Same tree.visibleWrites (layered tree.allWrites)

/-- Taking a record out of the list changes nothing outside its path. -/
theorem Removable.outside {before after : List (FWriteRecord N)} (h : Removable before w after) :
    Same (layered (before ++ w :: after)) (layered (before ++ after)) ∨
      (∀ record ∈ after, record.containsPath w.path = false) ∧
        AgreeOutside w.path (layered (before ++ w :: after)) (layered (before ++ after)) := by
  have hbefore : (layered before).NoneAbove w.path :=
    noneAbove_addAll (fun q _ _ => valueAtPath_empty q) fun e he habove => by
      obtain ⟨record, hrecord, hmem⟩ := List.mem_flatMap.mp he
      exact h.above record hrecord e hmem habove
  have hagree : AgreeOutside w.path (addAll w.writes (layered before)) (layered before) :=
    agreeOutside_addAll hbefore fun _ he => FWriteRecord.path_above he
  rw [layered_append, layered_append, pending_cons, addAll_append]
  refine (hagree.addAll (pending after)).imp_right fun hrest => ⟨fun record hrecord => ?_, hrest.2⟩
  refine Bool.eq_false_iff.mpr fun hcontains => ?_
  obtain ⟨e, he, habove⟩ := FWriteRecord.containsPath_iff.mp hcontains
  exact hrest.1 e (List.mem_flatMap.mpr ⟨record, hrecord, he⟩) habove

theorem Layered.removeWriteId {needToReevaluate : Bool} (h : Layered tree)
    (hremove : tree.removeWriteId writeId = some (needToReevaluate, tree'))
    (horderly : tree.Orderly (.remove writeId)) : Layered tree' := by
  obtain ⟨before, w, after, hall, hid, hfirst, hall', hcases⟩ := removeWriteId_cases hremove
  have hremovable := horderly before w after hall hid hfirst
  have hvisible : ∀ record ∈ before ++ w :: after, record.visible = true := hall ▸ h.visible
  have hsame : Same tree.visibleWrites (layered (before ++ w :: after)) := hall ▸ h.same
  have hrest : ∀ record ∈ before ++ after, record.visible = true := fun record hrecord =>
    hvisible record (((List.sublist_cons_self w after).append_left before).subset hrecord)
  refine ⟨hall' ▸ hrest, ?_⟩
  rw [hall']
  rcases hcases with ⟨hsame', -, hwhy⟩ | ⟨hreset, -⟩ | ⟨hremoved, -, hnot, hnone⟩
  · -- a younger write covers the removed one
    rw [hsame']
    rcases hwhy with hhidden | ⟨record, hrecord, hcontains⟩
    · rw [hvisible w (List.mem_append_right _ List.mem_cons_self)] at hhidden
      cases hhidden
    · rcases hremovable.outside with hover | ⟨hnot, -⟩
      · exact fun q => (hsame q).trans (hover q)
      · rw [hnot record hrecord] at hcontains
        cases hcontains
  · rw [hreset]
    exact fun _ => rfl
  · -- nothing else is written at or below the path
    have hothers : ∀ q, w.path <+: q → ∀ e ∈ pending (before ++ after), e.1 ≠ q := by
      rintro q hq e he rfl
      obtain ⟨record, hrecord, hmem⟩ := List.mem_flatMap.mp he
      refine hnone record hrecord (hrest record hrecord) ?_
      rcases List.mem_append.mp hrecord with hbefore | hafter
      · exact hremovable.older record hbefore e hmem hq
      · refine (hremovable.younger record hafter e hmem hq).resolve_right fun heq => ?_
        have hcontains := FWriteRecord.containsPath_iff.mpr ⟨e, hmem, by rw [heq]⟩
        rw [hnot record hafter (hrest record hrecord)] at hcontains
        cases hcontains
    have hempty : ∀ q, w.path <+: q →
        valueAtPath q (layered (before ++ after)).writeTree = none := by
      intro q hq
      by_contra hsome
      rcases mem_or_of_valueAtPath_addAll hsome with ⟨e, he, heq⟩ | hold
      · exact hothers q hq e he heq
      · exact hold (valueAtPath_empty q)
    intro q
    rw [hremoved, valueAtPath_removeWrite]
    split
    · rename_i hwritten
      obtain ⟨e, he, heq⟩ := hwritten
      exact (hempty q ((FWriteRecord.path_above he).trans heq)).symm
    · rename_i hunwritten
      rw [hsame q]
      by_cases hq : w.path <+: q
      · rw [hempty q hq]
        by_contra hsome
        rcases mem_or_of_valueAtPath_addAll hsome with ⟨e, he, rfl⟩ | hold
        · obtain ⟨record, hrecord, hmem⟩ := List.mem_flatMap.mp he
          rcases List.mem_append.mp hrecord with hbefore | hafter
          · exact hothers e.1 hq e (List.mem_flatMap.mpr
              ⟨record, List.mem_append_left _ hbefore, hmem⟩) rfl
          · rcases List.mem_cons.mp hafter with rfl | hafter
            · exact hunwritten ⟨e, hmem, List.prefix_refl e.1⟩
            · exact hothers e.1 hq e (List.mem_flatMap.mpr
                ⟨record, List.mem_append_right _ hafter, hmem⟩) rfl
        · exact hold (valueAtPath_empty q)
      · rcases hremovable.outside with hover | ⟨-, hagree⟩
        · exact hover q
        · exact hagree.outside q hq

theorem layered_addRecord (records : List (FWriteRecord N)) (record : FWriteRecord N) :
    layered (records ++ [record]) = addAll record.writes (layered records) := by
  rw [layered_append, pending_cons]
  exact congrArg (fun ws => addAll ws (layered records)) (List.append_nil record.writes)

theorem Layered.next {act : Act N} (h : Layered tree) (hstep : tree.next act = some tree')
    (horderly : tree.Orderly act) : Layered tree' := by
  cases act with
  | overwrite path newData writeId visible =>
      have hvisible : visible = true := horderly
      subst hvisible
      rw [FWriteTree.next] at hstep
      split at hstep
      · cases hstep
        refine ⟨List.forall_mem_append.mpr ⟨h.visible, List.forall_mem_singleton.mpr rfl⟩, ?_⟩
        rw [addOverwriteAtPath, layered_addRecord]
        exact h.same.addWrite newData path
      · cases hstep
  | merge path changedChildren writeId =>
      rw [FWriteTree.next] at hstep
      split at hstep
      · cases hstep
        refine ⟨List.forall_mem_append.mpr ⟨h.visible, List.forall_mem_singleton.mpr rfl⟩, ?_⟩
        rw [addMergeAtPath, layered_addRecord, addCompoundWrite_eq_addAll]
        exact h.same.addAll _
      · cases hstep
  | remove writeId =>
      obtain ⟨⟨needToReevaluate, newTree⟩, hremove, rfl⟩ := Option.map_eq_some_iff.mp hstep
      exact h.removeWriteId hremove horderly
  | removeAll =>
      cases hstep
      exact ⟨fun _ he => absurd he List.not_mem_nil, fun _ => rfl⟩

/-! ## What is shown -/

theorem applyToNode_of_isEmpty {write : FCompoundWrite N} (h : write.isEmpty = true) (n : N) :
    write.applyToNode n = n := by
  rcases write with ⟨⟨value, children⟩, keyed, leafmost⟩
  simp only [FCompoundWrite.isEmpty, FImmutableTree.isEmpty, FImmutableTree.value,
    FImmutableTree.children, Bool.and_eq_true, Option.isNone_iff_eq_none,
    List.isEmpty_iff] at h
  obtain ⟨rfl, rfl⟩ := h
  rfl

/-- What is shown at a path of a known snapshot is there once the visible writes are
applied. -/
theorem calculateCompleteEventCacheAtPath_eq (tree : FWriteTree N) (path : List String) (n : N) :
    tree.calculateCompleteEventCacheAtPath path (some (get path n)) none false =
      some (get path (tree.visibleWrites.applyToNode n)) := by
  rw [calculateCompleteEventCacheAtPath]
  simp only [and_self, if_true]
  cases hcomplete : tree.visibleWrites.completeNodeAtPath path with
  | some shadowingNode => rw [get_applyToNode_shadowed hcomplete]
  | none =>
      rw [get_applyToNode (exposed_of_none hcomplete).noneAbove,
        childCompoundWriteAtPath_of_none hcomplete]
      by_cases hempty : (tree.visibleWrites.subtree path).isEmpty = true
      · rw [if_pos hempty, applyToNode_of_isEmpty hempty]
      · rw [if_neg hempty, if_neg (by simp)]
        rfl

theorem Layered.applyToNode (h : Layered tree) {n : N}
    (hclear : ClearAll (pending tree.allWrites) n) :
    tree.visibleWrites.applyToNode n = setAll (pending tree.allWrites) n := by
  have hempty : (emptyWrite : FCompoundWrite N).ClearFor n := fun _ he =>
    absurd he List.not_mem_nil
  rw [applyToNode_congr h.same, layered, applyToNode_addAll hempty hclear]
  rfl

end FWriteTree

end SocialTimeline
