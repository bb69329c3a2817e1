import Mathlib.Data.List.Infix
import Mathlib.Data.List.Perm.Basic
import Mathlib.Order.Basic

/-!
# Values nested under keys

A value is empty, a leaf, or a collection of children under keys (`Nested`). A path of
keys leads to a value inside another: `get` reads it and `set` replaces it, and where a
leaf stands in the way of something to be set, it gives way.

* **one path** — `get_set`, `set_set`, `set_get`, and both along a path made of two
  (`get_append`, `set_append`);
* **two paths** — neither leading on from the other, they do not meet (`get_set_diverge`,
  `set_comm`);
* **many paths** — `setAll` sets one after another. Paths apart from each other can be
  set in any order (`setAll_perm`), and what is set below a path can be set inside it
  (`setAll_below`);
* **two values** — values with the same at a path keep it so (`get_setAll_congr`), and
  values that differ at a path only (`DifferAt`) stay like that, or become the same where
  something is set at the path or above it (`DifferAt.setAll`).

Some of this needs that no leaf stands in the way, which is `Clear`.
-/

namespace SocialTimeline.Lib

/-- Values with a child under each key, empty for all but some. A leaf has none. -/
class Nested (K : outParam Type*) (N : Type*) where
  empty : N
  IsLeaf : N → Prop
  child : N → K → N
  setChild : N → K → N → N
  not_isLeaf_empty : ¬IsLeaf empty
  child_empty (k : K) : child empty k = empty
  child_of_isLeaf {n : N} (h : IsLeaf n) (k : K) : child n k = empty
  child_setChild_self (n : N) (k : K) (m : N) : child (setChild n k m) k = m
  child_setChild_of_ne (n : N) {j k : K} (m : N) (h : j ≠ k) :
    child (setChild n k m) j = child n j
  setChild_of_isLeaf {n : N} (h : IsLeaf n) (k : K) : setChild n k empty = n
  isLeaf_of_setChild {n : N} {k : K} {m : N} (h : IsLeaf (setChild n k m)) : IsLeaf n
  ext {m n : N} (hm : ¬IsLeaf m) (hn : ¬IsLeaf n) (h : ∀ k, child m k = child n k) : m = n

namespace Nested

variable {K N : Type*} [Nested K N] {m n : N} {j k : K} {p q r : List K}

attribute [simp] child_empty child_setChild_self

theorem setChild_child (n : N) (k : K) : setChild n k (child n k) = n := by
  by_cases hleaf : IsLeaf n
  · rw [child_of_isLeaf hleaf, setChild_of_isLeaf hleaf]
  · refine Nested.ext (mt isLeaf_of_setChild hleaf) hleaf fun j => ?_
    by_cases hj : j = k
    · rw [hj, child_setChild_self]
    · rw [child_setChild_of_ne _ _ hj]

theorem eq_empty_of_isLeaf_setChild (h : IsLeaf (setChild n k m)) : m = empty := by
  rw [← child_setChild_self n k m]
  exact child_of_isLeaf h k

/-- The later of two changes of a child counts; a leaf that has given way is gone. -/
theorem setChild_setChild {m' : N} (h : IsLeaf n → m' = empty → m = empty) :
    setChild (setChild n k m) k m' = setChild n k m' := by
  by_cases hm : IsLeaf n ∧ m = empty
  · rw [hm.2, setChild_of_isLeaf hm.1]
  · have hnew : ¬IsLeaf (setChild n k m') := fun hleaf =>
      hm ⟨isLeaf_of_setChild hleaf,
        h (isLeaf_of_setChild hleaf) (eq_empty_of_isLeaf_setChild hleaf)⟩
    have hold : ¬IsLeaf (setChild (setChild n k m) k m') := fun hleaf =>
      hm ⟨isLeaf_of_setChild (isLeaf_of_setChild hleaf),
        eq_empty_of_isLeaf_setChild (isLeaf_of_setChild hleaf)⟩
    refine Nested.ext hold hnew fun j => ?_
    by_cases hj : j = k
    · rw [hj, child_setChild_self, child_setChild_self]
    · simp only [child_setChild_of_ne _ _ hj]

theorem setChild_comm (n : N) (h : j ≠ k) (m m' : N) :
    setChild (setChild n j m) k m' = setChild (setChild n k m') j m := by
  by_cases hnone : IsLeaf n ∧ m = empty ∧ m' = empty
  · obtain ⟨hn, rfl, rfl⟩ := hnone
    simp only [setChild_of_isLeaf hn]
  · have hleft : ¬IsLeaf (setChild (setChild n j m) k m') := fun hleaf =>
      hnone ⟨isLeaf_of_setChild (isLeaf_of_setChild hleaf),
        eq_empty_of_isLeaf_setChild (isLeaf_of_setChild hleaf), eq_empty_of_isLeaf_setChild hleaf⟩
    have hright : ¬IsLeaf (setChild (setChild n k m') j m) := fun hleaf =>
      hnone ⟨isLeaf_of_setChild (isLeaf_of_setChild hleaf), eq_empty_of_isLeaf_setChild hleaf,
        eq_empty_of_isLeaf_setChild (isLeaf_of_setChild hleaf)⟩
    refine Nested.ext hleft hright fun i => ?_
    by_cases hj : i = j
    · subst hj
      rw [child_setChild_of_ne _ _ h, child_setChild_self, child_setChild_self]
    · rw [child_setChild_of_ne _ _ hj]
      by_cases hk : i = k
      · rw [hk, child_setChild_self, child_setChild_self]
      · rw [child_setChild_of_ne _ _ hk, child_setChild_of_ne _ _ hk, child_setChild_of_ne _ _ hj]

/-! ## One path -/

/-- The value at the end of a path. -/
def get : List K → N → N
  | [], n => n
  | k :: p, n => get p (child n k)

/-- Replace the value at the end of a path. -/
def set : List K → N → N → N
  | [], m, _ => m
  | k :: p, m, n => setChild n k (set p m (child n k))

/-- No leaf on the way to the end of a path. -/
def Clear : List K → N → Prop
  | [], _ => True
  | k :: p, n => ¬IsLeaf n ∧ Clear p (child n k)

@[simp] theorem get_nil (n : N) : get [] n = n := rfl

@[simp] theorem set_nil (m n : N) : set [] m n = m := rfl

theorem get_append (p q : List K) (n : N) : get (p ++ q) n = get q (get p n) := by
  induction p generalizing n with
  | nil => rfl
  | cons k p ih => exact ih (child n k)

theorem get_set (p : List K) (m n : N) : get p (set p m n) = m := by
  induction p generalizing n with
  | nil => rfl
  | cons k p ih =>
      rw [set, get, child_setChild_self]
      exact ih (child n k)

theorem set_get (p : List K) (n : N) : set p (get p n) n = n := by
  induction p generalizing n with
  | nil => rfl
  | cons k p ih =>
      rw [get, set, ih]
      exact setChild_child n k

theorem set_append (p q : List K) (m n : N) :
    set (p ++ q) m n = set p (set q m (get p n)) n := by
  induction p generalizing n with
  | nil => rfl
  | cons k p ih =>
      rw [List.cons_append, set, ih]
      rfl

theorem get_empty (p : List K) : get p (empty : N) = empty := by
  induction p with
  | nil => rfl
  | cons k p ih => rw [get, child_empty, ih]

theorem set_empty (p : List K) : set p (empty : N) empty = empty := by
  have h := set_get p (empty : N)
  rwa [get_empty] at h

/-- The later of two values counts; where a leaf stands in the way, it must not be empty
if it was not before. -/
theorem set_set_of {a b : N} (h : ¬Clear p n → a = empty → b = empty) :
    set p a (set p b n) = set p a n := by
  induction p generalizing n with
  | nil => rfl
  | cons k p ih =>
      have hchild : ¬Clear p (child n k) → a = empty → b = empty := fun hnot =>
        h fun hclear => hnot hclear.2
      rw [set, set, child_setChild_self, ih hchild]
      refine setChild_setChild fun hleaf hnone => ?_
      rw [child_of_isLeaf hleaf] at hnone ⊢
      have ha := get_set p a empty
      rw [hnone, get_empty] at ha
      rw [h (fun hclear => hclear.1 hleaf) ha.symm, set_empty]

theorem set_set (hclear : Clear p n) (a b : N) : set p a (set p b n) = set p a n :=
  set_set_of fun hnot => absurd hclear hnot

theorem clear_append : Clear (p ++ q) n ↔ Clear p n ∧ Clear q (get p n) := by
  induction p generalizing n with
  | nil => exact (iff_of_eq (true_and _)).symm
  | cons k p ih =>
      rw [List.cons_append, Clear, ih, Clear, get, and_assoc]

theorem Clear.above (h : Clear q n) (hpq : p <+: q) : Clear p n := by
  obtain ⟨r, rfl⟩ := hpq
  exact (clear_append.mp h).1

theorem clear_empty (p : List K) : Clear p (empty : N) := by
  induction p with
  | nil => trivial
  | cons k p ih => exact ⟨not_isLeaf_empty, by rwa [child_empty]⟩

theorem get_eq_empty_of_not_clear (h : ¬Clear p n) : get p n = empty := by
  induction p generalizing n with
  | nil => exact absurd trivial h
  | cons k p ih =>
      by_cases hleaf : IsLeaf n
      · rw [get, child_of_isLeaf hleaf, get_empty]
      · exact ih fun hclear => h ⟨hleaf, hclear⟩

theorem clear_set (m : N) (h : Clear p n) : Clear p (set p m n) := by
  induction p generalizing n with
  | nil => trivial
  | cons k p ih =>
      refine ⟨mt isLeaf_of_setChild h.1, ?_⟩
      show Clear p (child (setChild n k _) k)
      rw [child_setChild_self]
      exact ih h.2

/-- Setting something further down keeps the way clear. -/
theorem clear_set_append (m : N) (h : Clear p n) (q : List K) : Clear p (set (p ++ q) m n) := by
  rw [set_append]
  exact clear_set _ h

/-! ## Two paths -/

/-- Neither path leads on from the other. -/
def Diverge (p q : List K) : Prop := ¬p <+: q ∧ ¬q <+: p

theorem Diverge.symm (h : Diverge p q) : Diverge q p := ⟨h.2, h.1⟩

theorem not_diverge_nil_left (q : List K) : ¬Diverge [] q := fun h => h.1 List.nil_prefix

theorem not_diverge_nil_right (p : List K) : ¬Diverge p [] := fun h => h.2 List.nil_prefix

theorem diverge_cons : Diverge (j :: p) (k :: q) ↔ j ≠ k ∨ j = k ∧ Diverge p q := by
  unfold Diverge
  rw [List.cons_prefix_cons, List.cons_prefix_cons]
  by_cases h : j = k
  · simp [h]
  · simp [h, Ne.symm h]

theorem Diverge.append_right (h : Diverge p q) (r : List K) : Diverge p (q ++ r) := by
  refine ⟨?_, fun hqp => h.2 ((List.prefix_append q r).trans hqp)⟩
  intro hpq
  rcases Nat.le_total p.length q.length with hle | hle
  · exact h.1 (List.prefix_of_prefix_length_le hpq (List.prefix_append q r) hle)
  · exact h.2 (List.prefix_of_prefix_length_le (List.prefix_append q r) hpq hle)

theorem Diverge.append_left (h : Diverge p q) (r : List K) : Diverge (p ++ r) q :=
  (h.symm.append_right r).symm

theorem diverge_append_iff : Diverge (p ++ q) (p ++ r) ↔ Diverge q r := by
  unfold Diverge
  rw [List.prefix_append_right_inj, List.prefix_append_right_inj]

theorem get_set_diverge (h : Diverge p q) (m n : N) : get p (set q m n) = get p n := by
  induction p generalizing q n with
  | nil => exact absurd h (not_diverge_nil_left q)
  | cons j p ih =>
      cases q with
      | nil => exact absurd h (not_diverge_nil_right _)
      | cons k q =>
          rw [get, get, set]
          rcases diverge_cons.mp h with hne | ⟨rfl, htail⟩
          · rw [child_setChild_of_ne _ _ hne]
          · rw [child_setChild_self, ih htail]

theorem clear_set_diverge (h : Diverge p q) (m : N) (hclear : Clear p n) : Clear p (set q m n) := by
  induction p generalizing q n with
  | nil => trivial
  | cons j p ih =>
      cases q with
      | nil => exact absurd h (not_diverge_nil_right _)
      | cons k q =>
          refine ⟨mt isLeaf_of_setChild hclear.1, ?_⟩
          show Clear p (child (setChild n k _) j)
          rcases diverge_cons.mp h with hne | ⟨rfl, htail⟩
          · rw [child_setChild_of_ne _ _ hne]
            exact hclear.2
          · rw [child_setChild_self]
            exact ih htail hclear.2

/-- Where neither leads on from the other, the order does not count. -/
theorem set_comm (h : Diverge p q) (a b n : N) : set p a (set q b n) = set q b (set p a n) := by
  induction p generalizing q n with
  | nil => exact absurd h (not_diverge_nil_left q)
  | cons j p ih =>
      cases q with
      | nil => exact absurd h (not_diverge_nil_right _)
      | cons k q =>
          rw [set, set, set, set]
          rcases diverge_cons.mp h with hne | ⟨rfl, htail⟩
          · rw [child_setChild_of_ne _ _ hne, child_setChild_of_ne _ _ hne.symm,
              setChild_comm n hne.symm]
          · rw [child_setChild_self, child_setChild_self, ih htail]
            -- what is empty with both set is empty with one of them
            have hboth : IsLeaf n → set q b (set p a (child n j)) = empty →
                a = empty ∧ b = empty ∧ child n j = empty := by
              intro hleaf hnone
              have ha := get_set_diverge htail b (set p a (child n j))
              have hb := get_set q b (set p a (child n j))
              rw [hnone, get_empty] at ha hb
              rw [get_set] at ha
              exact ⟨ha.symm, hb.symm, child_of_isLeaf hleaf j⟩
            rw [setChild_setChild, setChild_setChild]
            · intro hleaf hnone
              obtain ⟨ha, -, hchild⟩ := hboth hleaf hnone
              rw [ha, hchild, set_empty]
            · intro hleaf hnone
              obtain ⟨-, hb, hchild⟩ := hboth hleaf hnone
              rw [hb, hchild, set_empty]

/-! ## Many paths -/

/-- Set one path after another. -/
def setAll (ws : List (List K × N)) (n : N) : N := ws.foldl (fun n w => set w.1 w.2 n) n

/-- No leaf on the way to any of the paths. -/
def ClearAll (ws : List (List K × N)) (n : N) : Prop := ∀ w ∈ ws, Clear w.1 n

variable {ws ws' : List (List K × N)}

@[simp] theorem setAll_nil (n : N) : setAll [] n = n := rfl

theorem setAll_cons (w : List K × N) (ws : List (List K × N)) (n : N) :
    setAll (w :: ws) n = setAll ws (set w.1 w.2 n) := rfl

theorem setAll_append (ws ws' : List (List K × N)) (n : N) :
    setAll (ws ++ ws') n = setAll ws' (setAll ws n) := List.foldl_append

theorem get_setAll_diverge (h : ∀ w ∈ ws, Diverge p w.1) (n : N) :
    get p (setAll ws n) = get p n := by
  induction ws generalizing n with
  | nil => rfl
  | cons w ws ih =>
      rw [List.forall_mem_cons] at h
      rw [setAll_cons, ih h.2, get_set_diverge h.1]

theorem clear_setAll_diverge (h : ∀ w ∈ ws, Diverge p w.1) (hclear : Clear p n) :
    Clear p (setAll ws n) := by
  induction ws generalizing n with
  | nil => exact hclear
  | cons w ws ih =>
      rw [List.forall_mem_cons] at h
      exact ih h.2 (clear_set_diverge h.1 w.2 hclear)

theorem set_setAll_diverge (h : ∀ w ∈ ws, Diverge p w.1) (a n : N) :
    set p a (setAll ws n) = setAll ws (set p a n) := by
  induction ws generalizing n with
  | nil => rfl
  | cons w ws ih =>
      rw [List.forall_mem_cons] at h
      rw [setAll_cons, ih h.2, set_comm h.1]
      rfl

/-- **Any order.** Paths apart from each other are set to the same effect in any
order. -/
theorem setAll_perm (hperm : ws.Perm ws') (hapart : ws.Pairwise fun v w => Diverge v.1 w.1)
    (n : N) : setAll ws n = setAll ws' n := by
  induction hperm generalizing n with
  | nil => rfl
  | cons w hperm ih =>
      rw [List.pairwise_cons] at hapart
      exact ih hapart.2 _
  | swap v w ws =>
      have hvw : Diverge w.1 v.1 := (List.pairwise_cons.mp hapart).1 v List.mem_cons_self
      rw [setAll_cons, setAll_cons, setAll_cons, setAll_cons, set_comm hvw.symm]
  | trans h₁ h₂ ih₁ ih₂ =>
      exact (ih₁ hapart n).trans (ih₂ (h₁.pairwise hapart Diverge.symm) n)

theorem get_setAll_of_mem (hapart : ws.Pairwise fun v w => Diverge v.1 w.1) {w : List K × N}
    (hw : w ∈ ws) (n : N) : get w.1 (setAll ws n) = w.2 := by
  induction ws generalizing n with
  | nil => exact absurd hw List.not_mem_nil
  | cons v ws ih =>
      rw [List.pairwise_cons] at hapart
      rcases List.mem_cons.mp hw with rfl | hmem
      · rw [setAll_cons, get_setAll_diverge hapart.1, get_set]
      · exact ih hapart.2 hmem _

/-- What is set below a path, at places that do not meet, is set inside what is there. -/
theorem setAll_below (hapart : ws.Pairwise fun v w => Diverge v.1 w.1) (p : List K) (n : N) :
    setAll (ws.map fun w => (p ++ w.1, w.2)) n = set p (setAll ws (get p n)) n := by
  induction ws generalizing n with
  | nil => exact (set_get p n).symm
  | cons w ws ih =>
      have hget := get_setAll_of_mem hapart List.mem_cons_self (get p n)
      rw [List.pairwise_cons] at hapart
      rw [List.map_cons, setAll_cons, ih hapart.2, set_append, get_set]
      refine set_set_of fun hnot hnone => ?_
      -- below a leaf all is empty
      rw [setAll_cons, hnone, get_empty] at hget
      rw [← hget, get_eq_empty_of_not_clear hnot, set_empty]

/-- Setting what is there changes nothing. -/
theorem setAll_get (hws : ∀ w ∈ ws, w.2 = get w.1 n) : setAll ws n = n := by
  induction ws with
  | nil => rfl
  | cons w ws ih =>
      obtain ⟨hw, hrest⟩ := List.forall_mem_cons.mp hws
      rw [setAll_cons, hw, set_get, ih hrest]

theorem isLeaf_of_setAll (hws : ∀ w ∈ ws, w.1 ≠ []) (h : IsLeaf (setAll ws n)) : IsLeaf n := by
  induction ws generalizing n with
  | nil => exact h
  | cons w ws ih =>
      rw [List.forall_mem_cons] at hws
      obtain ⟨p, a⟩ := w
      cases p with
      | nil => exact absurd rfl hws.1
      | cons k p => exact isLeaf_of_setChild (ih hws.2 h)

/-! ## Two values -/

theorem get_set_below (p q : List K) (m n : N) : get p (set (p ++ q) m n) = set q m (get p n) := by
  rw [set_append, get_set]

theorem get_set_above (p q : List K) (m n : N) : get (p ++ q) (set p m n) = get q m := by
  rw [get_append, get_set]

theorem prefix_or_diverge (p q : List K) : p <+: q ∨ q <+: p ∨ Diverge p q := by
  by_cases hpq : p <+: q
  · exact .inl hpq
  · by_cases hqp : q <+: p
    · exact .inr (.inl hqp)
    · exact .inr (.inr ⟨hpq, hqp⟩)

theorem get_set_congr (h : get p m = get p n) (q : List K) (a : N) :
    get p (set q a m) = get p (set q a n) := by
  rcases prefix_or_diverge p q with ⟨r, rfl⟩ | ⟨r, rfl⟩ | hapart
  · rw [get_set_below, get_set_below, h]
  · rw [get_set_above, get_set_above]
  · rw [get_set_diverge hapart, get_set_diverge hapart, h]

/-- What is the same at a path stays the same there. -/
theorem get_setAll_congr (h : get p m = get p n) (ws : List (List K × N)) :
    get p (setAll ws m) = get p (setAll ws n) := by
  induction ws generalizing m n with
  | nil => exact h
  | cons w ws ih => exact ih (get_set_congr h w.1 w.2)

theorem get_setAll_below (p : List K) (ws : List (List K × N)) (n : N) :
    get p (setAll (ws.map fun w => (p ++ w.1, w.2)) n) = setAll ws (get p n) := by
  induction ws generalizing n with
  | nil => rfl
  | cons w ws ih =>
      rw [List.map_cons, setAll_cons, ih, get_set_below]
      rfl

/-- Something is set at a path or above it. -/
def Covers (ws : List (List K × N)) (p : List K) : Prop := ∃ w ∈ ws, w.1 <+: p

omit [Nested K N] in
theorem covers_append {xs : List (List K × N)} :
    Covers (xs ++ ws) p ↔ Covers xs p ∨ Covers ws p := by
  simp only [Covers, List.mem_append, or_and_right, exists_or]

omit [Nested K N] in
theorem Covers.append (h : Covers ws p) (q : List K) : Covers ws (p ++ q) :=
  h.imp fun _ hw => ⟨hw.1, hw.2.trans (List.prefix_append p q)⟩

/-- Nothing from before is left at a covered path. -/
theorem get_setAll_covered (h : Covers ws p) (m n : N) :
    get p (setAll ws m) = get p (setAll ws n) := by
  induction ws generalizing m n with
  | nil =>
      obtain ⟨w, hw, -⟩ := h
      exact absurd hw List.not_mem_nil
  | cons w ws ih =>
      by_cases hw : w.1 <+: p
      · obtain ⟨r, rfl⟩ := hw
        refine get_setAll_congr ?_ ws
        rw [get_set_above, get_set_above]
      · obtain ⟨v, hv, hvp⟩ := h
        rcases List.mem_cons.mp hv with rfl | hv
        · exact absurd hvp hw
        · exact ih ⟨v, hv, hvp⟩ _ _

/-- A path clear in two values is so in one made of their children. -/
theorem clear_between {m m' : N} (h : Clear p m) (h' : Clear p m')
    (hchild : ∀ k, child n k = child m k ∨ child n k = child m' k) (hleaf : IsLeaf n → IsLeaf m) :
    Clear p n := by
  cases p with
  | nil => trivial
  | cons k p =>
      refine ⟨mt hleaf h.1, ?_⟩
      rcases hchild k with heq | heq
      · exact heq ▸ h.2
      · exact heq ▸ h'.2

/-- A path clear in two values is so where one of them, or what is made of both, stands at
another path. -/
theorem clear_set_between {m' : N} (h : Clear q n) (h' : Clear q m')
    (hchild : ∀ k, child m k = child (get p n) k ∨ child m k = child (get p m') k)
    (hleaf : IsLeaf m → IsLeaf (get p n)) : Clear q (set p m n) := by
  rcases prefix_or_diverge p q with ⟨r, rfl⟩ | ⟨r, rfl⟩ | hapart
  · rw [clear_append] at h h' ⊢
    refine ⟨clear_set m h.1, ?_⟩
    rw [get_set]
    exact clear_between h.2 h'.2 hchild hleaf
  · exact clear_set_append m h r
  · exact clear_set_diverge hapart.symm m h

/-- The same but for what is at a path, with no leaf above it. -/
def DifferAt (p : List K) (m n : N) : Prop := Clear p m ∧ n = set p (get p n) m

namespace DifferAt

theorem refl (h : Clear p n) : DifferAt p n n := ⟨h, (set_get p n).symm⟩

theorem set (h : Clear p n) (a : N) : DifferAt p n (set p a n) := by
  refine ⟨h, ?_⟩
  rw [get_set]

theorem set_above (h : DifferAt p m n) (hq : q <+: p) (a : N) :
    Nested.set q a m = Nested.set q a n := by
  obtain ⟨r, rfl⟩ := hq
  rw [h.2, set_append, set_set (clear_append.mp h.1).1]

theorem set_below (h : DifferAt p m n) (r : List K) (a b : N) :
    DifferAt p (Nested.set (p ++ r) a m) (Nested.set (p ++ r) b n) := by
  refine ⟨clear_set_append a h.1 r, ?_⟩
  rw [get_set_below, set_append, set_append, set_set h.1]
  nth_rewrite 2 [h.2]
  rw [set_set h.1]

theorem set_left (h : DifferAt p m n) (r : List K) (a : N) :
    DifferAt p (Nested.set (p ++ r) a m) n := by
  refine ⟨clear_set_append a h.1 r, ?_⟩
  rw [set_append, set_set h.1]
  exact h.2

theorem set_diverge (h : DifferAt p m n) (hq : Diverge p q) (a : N) :
    DifferAt p (Nested.set q a m) (Nested.set q a n) := by
  refine ⟨clear_set_diverge hq a h.1, ?_⟩
  rw [get_set_diverge hq, set_comm hq, ← h.2]

/-- **Setting on** makes the values the same if the path is covered, and keeps them as they
differ if it is not. -/
theorem setAll (h : DifferAt p m n) (ws : List (List K × N)) :
    Covers ws p ∧ Nested.setAll ws m = Nested.setAll ws n ∨
      ¬Covers ws p ∧ DifferAt p (Nested.setAll ws m) (Nested.setAll ws n) := by
  induction ws generalizing m n with
  | nil => exact .inr ⟨fun ⟨_, hw, _⟩ => absurd hw List.not_mem_nil, h⟩
  | cons w ws ih =>
      by_cases habove : w.1 <+: p
      · refine .inl ⟨⟨w, List.mem_cons_self, habove⟩, ?_⟩
        rw [setAll_cons, setAll_cons, h.set_above habove]
      · have hnext : DifferAt p (Nested.set w.1 w.2 m) (Nested.set w.1 w.2 n) := by
          rcases prefix_or_diverge p w.1 with ⟨r, hr⟩ | hw | hapart
          · rw [← hr]
            exact h.set_below r w.2 w.2
          · exact absurd hw habove
          · exact h.set_diverge hapart w.2
        have hcovers : Covers (w :: ws) p ↔ Covers ws p := by
          unfold Covers
          rw [List.exists_mem_cons_iff, or_iff_right habove]
        rw [hcovers]
        exact ih hnext

/-- Leaving out what is set below the path. -/
theorem setAll_filter [DecidableEq K] (h : DifferAt p m n)
    (hws : ∀ w ∈ ws, p <+: w.1 ∨ Diverge p w.1) :
    DifferAt p (Nested.setAll ws m) (Nested.setAll (ws.filter fun w => ¬p <+: w.1) n) := by
  induction ws generalizing m n with
  | nil => exact h
  | cons w ws ih =>
      obtain ⟨hw, hws⟩ := List.forall_mem_cons.mp hws
      rcases hw with hbelow | hapart
      · rw [List.filter_cons_of_neg (by simpa using hbelow), setAll_cons]
        obtain ⟨r, hr⟩ := hbelow
        rw [← hr]
        exact ih (h.set_left r w.2) hws
      · rw [List.filter_cons_of_pos (by simpa using hapart.1), setAll_cons, setAll_cons]
        exact ih (h.set_diverge hapart w.2) hws

end DifferAt

/-- **Leaving out** what is set below a path, before some more is set. -/
theorem setAll_left_out [DecidableEq K] (hclear : ClearAll ws n)
    (hws : ∀ w ∈ ws, p <+: w.1 ∨ Diverge p w.1) (ws' : List (List K × N)) :
    Covers ws' p ∧
        setAll ws' (setAll ws n) = setAll ws' (setAll (ws.filter fun w => ¬p <+: w.1) n) ∨
      ¬Covers ws' p ∧ setAll ws' (setAll (ws.filter fun w => ¬p <+: w.1) n) =
        set p (get p (setAll ws' (setAll (ws.filter fun w => ¬p <+: w.1) n)))
          (setAll ws' (setAll ws n)) := by
  by_cases hp : Clear p n
  · exact (((DifferAt.refl hp).setAll_filter hws).setAll ws').imp_right fun h => ⟨h.1, h.2.2⟩
  · -- nothing is left out
    have hall : (ws.filter fun w => ¬p <+: w.1) = ws := List.filter_eq_self.mpr fun w hw =>
      decide_eq_true fun hbelow => hp ((hclear w hw).above hbelow)
    rw [hall]
    by_cases hcovers : Covers ws' p
    · exact .inl ⟨hcovers, rfl⟩
    · exact .inr ⟨hcovers, (set_get p _).symm⟩

/-- What is set before at a covered path does not count, -/
theorem setAll_set_covered (hclear : ClearAll ws n) (h : Covers ws p) (a : N) :
    setAll ws (set p a n) = setAll ws n := by
  obtain ⟨w, hw, r, rfl⟩ := h
  have hdiffer : DifferAt w.1 n (set (w.1 ++ r) a n) := by
    rw [set_append]
    exact .set (hclear w hw) _
  rcases hdiffer.setAll ws with ⟨-, heq⟩ | ⟨hnot, -⟩
  · exact heq.symm
  · exact absurd ⟨w, hw, List.prefix_refl w.1⟩ hnot

/-- and what is set before at any other changes only what is there in the end. -/
theorem setAll_set (hclear : ClearAll ws n) (h : ¬Covers ws p) (a : N) :
    setAll ws (set p a n) = set p (get p (setAll ws (set p a n))) (setAll ws n) := by
  by_cases hp : Clear p n
  · rcases (DifferAt.set hp a).setAll ws with ⟨hcovers, -⟩ | ⟨-, hdiffer⟩
    · exact absurd hcovers h
    · exact hdiffer.2
  · -- a leaf above the path is above nothing that is set
    have hapart : ∀ w ∈ ws, Diverge p w.1 := fun w hw =>
      ⟨fun hbelow => hp ((hclear w hw).above hbelow), fun habove => h ⟨w, hw, habove⟩⟩
    rw [← set_setAll_diverge hapart, get_set]

end Nested

end SocialTimeline.Lib
