import Mathlib.Data.List.Basic
import Mathlib.Data.List.Induction
import Mathlib.Data.List.Nodup
import Mathlib.Data.List.Perm.Basic

/-!
# Lists edited at the front and by key

A list whose items carry keys, changed by two kinds of edit: `push` puts an
item in front, `drop` deletes the *first* item with a given key and does
nothing when there is none. Keys may repeat.

* **keys under an edit** — an edit moves the count of its own key only, by one
  (`count_exec_of_ne`, `count_exec_push`, `count_exec_drop`);
* **commutation** — edits with different keys commute unless both are pushes
  (`exec_comm`), and a drop commutes with a whole run on other keys
  (`run_drop_comm`);
* **distinct keys** — kept by every drop and by a push of a key that is not
  there (`Distinct.exec`);
* **reference meaning of a run** (`run_eq_survivors`) — with distinct keys and
  no push of a key that is there, a run leaves the pushes not dropped later,
  the latest in front, and then the initial items never dropped;
* **sorted lists** — a run keeps a list sorted exactly as long as every item
  pushed goes before all those present (`run_sorted_iff`).
-/

namespace SocialTimeline.Lib

/-- A condition on the parts of a mapped list, read on the list. -/
theorem forall_snoc_prefix_map {α β : Type*} (f : α → β) {l : List α} {C : List β → β → Prop} :
    (∀ pre b, pre ++ [b] <+: l.map f → C pre b) ↔
      ∀ pre a, pre ++ [a] <+: l → C (pre.map f) (f a) := by
  constructor
  · intro h pre a hpre
    refine h (pre.map f) (f a) ?_
    have hmap := hpre.map f
    rwa [List.map_append] at hmap
  · intro h pre b hpre
    obtain ⟨part, hpart, hmap⟩ := List.prefix_map_iff.mp hpre
    obtain ⟨front, last, rfl, rfl, hlast⟩ := List.append_eq_map_iff.mp hmap
    obtain ⟨a, rfl, rfl⟩ := List.map_eq_singleton_iff.mp hlast
    exact h front a hpart

/-- An edit of a list of keyed items. -/
inductive Edit (α κ : Type*)
  | push (a : α)
  | drop (k : κ)

namespace Edit

variable {α κ : Type*} [DecidableEq κ] (key : α → κ)

/-- The key an edit is about. -/
def target : Edit α κ → κ
  | push a => key a
  | drop k => k

/-- Carry out one edit. -/
def exec (l : List α) : Edit α κ → List α
  | push a => a :: l
  | drop k => l.eraseP fun b => key b = k

/-- Carry out a run of edits, first one first. -/
def run (l : List α) (es : List (Edit α κ)) : List α := es.foldl (exec key) l

@[simp] theorem exec_push (l : List α) (a : α) :
    exec key l (push a : Edit α κ) = a :: l := rfl

@[simp] theorem run_nil (l : List α) : run key l ([] : List (Edit α κ)) = l := rfl

@[simp] theorem run_cons (l : List α) (e : Edit α κ) (es : List (Edit α κ)) :
    run key l (e :: es) = run key (exec key l e) es := rfl

theorem run_append (l : List α) (es fs : List (Edit α κ)) :
    run key l (es ++ fs) = run key (run key l es) fs := List.foldl_append

theorem run_snoc (l : List α) (es : List (Edit α κ)) (e : Edit α κ) :
    run key l (es ++ [e]) = exec key (run key l es) e := run_append key l es [e]

/-! ## Keys under an edit -/

/-- Dropping a key deletes its first occurrence among the keys. -/
theorem map_exec_drop [BEq κ] [LawfulBEq κ] (l : List α) (k : κ) :
    (exec key l (drop k)).map key = (l.map key).erase k := by
  have hpred : (fun b => decide (key b = k)) = (fun x => k == x) ∘ key := by
    funext b
    rw [Function.comp_apply, Bool.eq_iff_iff, decide_eq_true_iff, beq_iff_eq, eq_comm]
  rw [List.erase_eq_eraseP, List.eraseP_map, ← hpred]
  rfl

theorem map_exec_push (l : List α) (a : α) :
    (exec key l (push a : Edit α κ)).map key = key a :: l.map key := rfl

/-- An edit leaves the count of every other key alone. -/
theorem count_exec_of_ne [BEq κ] [LawfulBEq κ] {e : Edit α κ} {k : κ} (l : List α)
    (h : e.target key ≠ k) :
    ((exec key l e).map key).count k = (l.map key).count k := by
  cases e with
  | push a =>
      rw [map_exec_push]
      exact List.count_cons_of_ne h
  | drop k' =>
      rw [map_exec_drop]
      exact List.count_erase_of_ne (Ne.symm h)

theorem count_exec_push [BEq κ] [LawfulBEq κ] (l : List α) (a : α) :
    ((exec key l (push a : Edit α κ)).map key).count (key a) = (l.map key).count (key a) + 1 := by
  rw [map_exec_push]
  exact List.count_cons_self

theorem count_exec_drop [BEq κ] [LawfulBEq κ] (l : List α) (k : κ) :
    ((exec key l (drop k)).map key).count k = (l.map key).count k - 1 := by
  rw [map_exec_drop]
  exact List.count_erase_self

/-- A drop of a key that is not there changes nothing. -/
theorem exec_drop_of_notMem {l : List α} {k : κ} (h : k ∉ l.map key) :
    exec key l (drop k) = l := by
  refine List.eraseP_of_forall_not ?_
  intro b hb hkey
  exact h (List.mem_map.mpr ⟨b, hb, of_decide_eq_true hkey⟩)

/-- A drop of a key that is there takes exactly one item out. -/
theorem length_exec_drop {l : List α} {k : κ} (h : k ∈ l.map key) :
    (exec key l (drop k)).length + 1 = l.length := by
  have hlen : (exec key l (drop k)).length = (l.map key).length - 1 := by
    rw [← List.length_map key, map_exec_drop]
    exact List.length_erase_of_mem h
  have hpos : 0 < (l.map key).length := List.length_pos_of_mem h
  rw [List.length_map] at hlen hpos
  omega

/-- Every item after a run was there before or is pushed by it. -/
theorem mem_run {es : List (Edit α κ)} {l : List α} {a : α} (h : a ∈ run key l es) :
    a ∈ l ∨ push a ∈ es := by
  induction es generalizing l with
  | nil => exact .inl h
  | cons e es ih =>
      rcases ih h with hl | hpush
      · cases e with
        | push b =>
            rcases List.mem_cons.mp hl with rfl | hl
            · exact .inr List.mem_cons_self
            · exact .inl hl
        | drop k => exact .inl (List.mem_of_mem_eraseP hl)
      · exact .inr (List.mem_cons_of_mem e hpush)

/-- A drop changes a list exactly when the key is there. -/
theorem exec_drop_eq_self_iff {l : List α} {k : κ} :
    exec key l (drop k) = l ↔ k ∉ l.map key := by
  refine ⟨?_, exec_drop_of_notMem key⟩
  intro hsame hmem
  have hlen := length_exec_drop key hmem
  rw [hsame] at hlen
  omega

/-! ## Commutation -/

/-- Two edits with different keys commute, unless both push. -/
theorem exec_comm {e f : Edit α κ} (l : List α) (hkey : e.target key ≠ f.target key)
    (hpush : ∀ a b, ¬ (e = push a ∧ f = push b)) :
    exec key (exec key l e) f = exec key (exec key l f) e := by
  have front : ∀ (a : α) (k : κ), key a ≠ k →
      exec key (a :: l) (drop k) = a :: exec key l (drop k) := by
    intro a k hne
    simp [exec, hne]
  cases e with
  | push a =>
      cases f with
      | push b => exact absurd ⟨rfl, rfl⟩ (hpush a b)
      | drop k => exact front a k hkey
  | drop k =>
      cases f with
      | push b => exact (front b k (Ne.symm hkey)).symm
      | drop k' =>
          refine List.eraseP_comm ?_
          intro b _
          by_cases hb : key b = k
          · refine .inr ?_
            have hne : k ≠ k' := hkey
            simp [hb, hne]
          · exact .inl (by simpa using hb)

/-- A drop commutes with a run of edits on other keys. -/
theorem run_drop_comm {es : List (Edit α κ)} {k : κ} (l : List α)
    (h : ∀ e ∈ es, e.target key ≠ k) :
    run key (exec key l (drop k)) es = exec key (run key l es) (drop k) := by
  induction es generalizing l with
  | nil => rfl
  | cons e es ih =>
      have hcomm : exec key (exec key l (drop k)) e = exec key (exec key l e) (drop k) :=
        exec_comm key l (Ne.symm (h e List.mem_cons_self)) (fun a b hab => by cases hab.1)
      rw [run_cons, run_cons, hcomm]
      exact ih (exec key l e) fun f hf => h f (List.mem_cons_of_mem e hf)

/-- The count of a key survives a run of edits on other keys. -/
theorem count_run_of_ne [BEq κ] [LawfulBEq κ] {es : List (Edit α κ)} {k : κ} (l : List α)
    (h : ∀ e ∈ es, e.target key ≠ k) :
    ((run key l es).map key).count k = (l.map key).count k := by
  induction es generalizing l with
  | nil => rfl
  | cons e es ih =>
      rw [run_cons, ih (exec key l e) fun f hf => h f (List.mem_cons_of_mem e hf)]
      exact count_exec_of_ne key l (h e List.mem_cons_self)

/-- A run of edits on other keys neither brings in a key nor takes it away. -/
theorem mem_map_run_of_ne {es : List (Edit α κ)} {k : κ} (l : List α)
    (h : ∀ e ∈ es, e.target key ≠ k) : k ∈ (run key l es).map key ↔ k ∈ l.map key := by
  rw [← List.count_pos_iff, ← List.count_pos_iff, count_run_of_ne key l h]

/-! ## Distinct keys -/

/-- No two items carry the same key. -/
def Distinct (l : List α) : Prop := (l.map key).Nodup

/-- An edit is fresh for a list unless it pushes a key that is there. -/
def Fresh (l : List α) : Edit α κ → Prop
  | push a => key a ∉ l.map key
  | drop _ => True

/-- Every edit of a run is fresh at its turn. -/
def FreshRun (l : List α) : List (Edit α κ) → Prop
  | [] => True
  | e :: es => Fresh key l e ∧ FreshRun (exec key l e) es

instance (l : List α) (e : Edit α κ) : Decidable (Fresh key l e) :=
  match e with
  | push a => inferInstanceAs (Decidable (key a ∉ l.map key))
  | drop _ => inferInstanceAs (Decidable True)

instance decidableFreshRun : (l : List α) → (es : List (Edit α κ)) →
    Decidable (FreshRun key l es)
  | _, [] => inferInstanceAs (Decidable True)
  | l, e :: es =>
      have := decidableFreshRun (exec key l e) es
      inferInstanceAs (Decidable (Fresh key l e ∧ FreshRun key (exec key l e) es))

/-- A run is fresh when each of its edits is fresh for the list it finds. -/
theorem freshRun_iff {l : List α} {es : List (Edit α κ)} :
    FreshRun key l es ↔ ∀ pre e, pre ++ [e] <+: es → Fresh key (run key l pre) e := by
  induction es generalizing l with
  | nil =>
      refine ⟨?_, fun _ => trivial⟩
      intro _ pre e hpre
      have hnil := List.prefix_nil.mp hpre
      simp at hnil
  | cons e es ih =>
      constructor
      · rintro ⟨he, hes⟩ pre f hpre
        cases pre with
        | nil =>
            obtain ⟨rfl, -⟩ := List.cons_prefix_cons.mp hpre
            exact he
        | cons e' pre =>
            obtain ⟨rfl, hrest⟩ := List.cons_prefix_cons.mp hpre
            exact ih.mp hes pre f hrest
      · intro h
        refine ⟨h [] e (by simp), ih.mpr ?_⟩
        intro pre f hpre
        exact h (e :: pre) f (List.cons_prefix_cons.mpr ⟨rfl, hpre⟩)

theorem freshRun_append {l : List α} {es fs : List (Edit α κ)} :
    FreshRun key l (es ++ fs) ↔ FreshRun key l es ∧ FreshRun key (run key l es) fs := by
  induction es generalizing l with
  | nil => exact ⟨fun h => ⟨trivial, h⟩, And.right⟩
  | cons e es ih =>
      show _ ∧ FreshRun key (exec key l e) (es ++ fs) ↔ (_ ∧ _) ∧ _
      rw [ih, run_cons, and_assoc]

variable {key}

/-- Fresh edits keep keys distinct. -/
theorem Distinct.exec {l : List α} (h : Distinct key l) {e : Edit α κ} (he : Fresh key l e) :
    Distinct key (exec key l e) := by
  unfold Distinct at h ⊢
  cases e with
  | push a =>
      rw [map_exec_push]
      exact List.nodup_cons.mpr ⟨he, h⟩
  | drop k =>
      rw [map_exec_drop]
      exact h.erase k

/-- A push that is not fresh leaves two items with one key. -/
theorem not_distinct_of_not_fresh {l : List α} {e : Edit α κ} (he : ¬ Fresh key l e) :
    ¬ Distinct key (Edit.exec key l e) := by
  cases e with
  | push a =>
      intro h
      exact he (List.nodup_cons.mp h).1
  | drop k => exact absurd trivial he

theorem Distinct.run {l : List α} {es : List (Edit α κ)} (h : Distinct key l)
    (hf : FreshRun key l es) : Distinct key (run key l es) := by
  induction es generalizing l with
  | nil => exact h
  | cons e es ih => exact ih (h.exec hf.1) hf.2

/-- With distinct keys, dropping a key is filtering it out. -/
theorem Distinct.exec_drop {l : List α} (h : Distinct key l) (k : κ) :
    Edit.exec key l (drop k) = l.filter fun b => key b ≠ k := by
  induction l with
  | nil => rfl
  | cons a l ih =>
      have ⟨ha, hl⟩ := List.nodup_cons.mp h
      by_cases hk : key a = k
      · have hrest : l.filter (fun b => key b ≠ k) = l := by
          rw [List.filter_eq_self]
          intro b hb
          have hne : key b ≠ k := fun hbk =>
            ha (List.mem_map.mpr ⟨b, hb, hbk.trans hk.symm⟩)
          exact decide_eq_true hne
        simp only [Edit.exec, List.eraseP_cons, hk, decide_true, cond_true, List.filter_cons,
          ne_eq, not_true_eq_false, decide_false, Bool.false_eq_true, if_false]
        exact hrest.symm
      · have htail := ih hl
        simp only [Edit.exec] at htail
        simp [Edit.exec, hk, htail]

/-! ## The reference meaning of a run -/

variable (key)

/-- The keys a run drops. -/
def dropped : List (Edit α κ) → List κ
  | [] => []
  | push _ :: es => dropped es
  | drop k :: es => k :: dropped es

/-- The items a run pushes and does not drop later, the latest in front. -/
def survivors : List (Edit α κ) → List α
  | [] => []
  | push a :: es => survivors es ++ (if key a ∈ dropped es then [] else [a])
  | drop _ :: es => survivors es

variable {key}

/-- **Reference meaning.** A fresh run over distinct keys leaves the surviving
pushes, latest in front, followed by the initial items it never drops. -/
theorem run_eq_survivors {l : List α} {es : List (Edit α κ)} (h : Distinct key l)
    (hf : FreshRun key l es) :
    run key l es = survivors key es ++ l.filter fun a => key a ∉ dropped es := by
  induction es generalizing l with
  | nil => simp [survivors, dropped]
  | cons e es ih =>
      rw [run_cons, ih (h.exec hf.1) hf.2]
      cases e with
      | push a =>
          show _ = (survivors key es ++ if key a ∈ dropped es then [] else [a]) ++
            l.filter fun b => key b ∉ dropped es
          by_cases ha : key a ∈ dropped es <;> simp [ha]
      | drop k =>
          have hfilter : (exec key l (drop k)).filter (fun a => key a ∉ dropped es) =
              l.filter fun a => key a ∉ k :: dropped es := by
            rw [h.exec_drop k, List.filter_filter]
            refine List.filter_congr ?_
            intro a _
            by_cases hk : key a = k <;> by_cases ha : key a ∈ dropped es <;> simp [hk, ha]
          rw [hfilter]
          rfl

/-! ## Sorted lists -/

variable {r : α → α → Prop}

theorem sorted_exec {l : List α} {e : Edit α κ} (h : l.Pairwise r)
    (he : ∀ a, e = push a → ∀ b ∈ l, r a b) : (exec key l e).Pairwise r := by
  cases e with
  | push a => exact List.pairwise_cons.mpr ⟨he a rfl, h⟩
  | drop k => exact h.sublist List.eraseP_sublist

theorem ordered_of_sorted_exec {l : List α} {e : Edit α κ}
    (h : (exec key l e).Pairwise r) : ∀ a, e = push a → ∀ b ∈ l, r a b := by
  rintro a rfl
  exact (List.pairwise_cons.mp h).1

/-- A run goes through sorted lists only, exactly when every item pushed goes
before all those it finds. -/
theorem run_sorted_iff {l : List α} {es : List (Edit α κ)} (h : l.Pairwise r) :
    (∀ pre, pre <+: es → (run key l pre).Pairwise r) ↔
      ∀ pre e, pre ++ [e] <+: es → ∀ a, e = push a → ∀ b ∈ run key l pre, r a b := by
  constructor
  · intro hall pre e hpre
    have hsorted := hall _ hpre
    rw [run_snoc] at hsorted
    exact ordered_of_sorted_exec hsorted
  · intro hpush pre
    induction pre using List.reverseRecOn with
    | nil => exact fun _ => h
    | append_singleton pre e ih =>
        intro hpre
        rw [run_snoc]
        exact sorted_exec (ih ((List.prefix_append pre [e]).trans hpre)) (hpush pre e hpre)

end Edit

end SocialTimeline.Lib
