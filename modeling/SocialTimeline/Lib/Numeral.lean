import Mathlib.Algebra.Order.Ring.Nat
import Mathlib.Data.List.Lex
import Mathlib.Order.Compare
import Mathlib.Order.Fin.Basic
import Mathlib.Tactic.Ring

/-!
# Numerals of a fixed width

Rows of digits, the most significant first.

* `valueOf` — the number a row stands for; it is below the power of its length,
  and rows of one length are ordered as their numbers are (`lt_iff_valueOf_lt`);
* `ofNat` — the last digits of a number, taken off from the right
  (`valueOf_ofNat`);
* `increment` — one more, with a carry from the right, around to zero after the
  greatest row (`valueOf_increment`, `valueOf_eq_max`).
-/

namespace SocialTimeline.Lib.Numeral

variable {base : Nat}

/-- The number a row of digits stands for. -/
def valueOf : List (Fin base) → Nat
  | [] => 0
  | d :: ds => d * base ^ ds.length + valueOf ds

theorem valueOf_lt (ds : List (Fin base)) : valueOf ds < base ^ ds.length := by
  induction ds with
  | nil => simp [valueOf]
  | cons d ds ih =>
      have hdigit : (d.val + 1) * base ^ ds.length ≤ base * base ^ ds.length :=
        Nat.mul_le_mul_right _ d.isLt
      rw [Nat.add_mul, Nat.one_mul] at hdigit
      rw [valueOf, List.length_cons, Nat.pow_succ']
      omega

theorem valueOf_append (ds es : List (Fin base)) :
    valueOf (ds ++ es) = valueOf ds * base ^ es.length + valueOf es := by
  induction ds with
  | nil => simp [valueOf]
  | cons d ds ih =>
      rw [List.cons_append, valueOf, ih, valueOf, List.length_append, Nat.pow_add]
      ring

theorem valueOf_snoc (ds : List (Fin base)) (d : Fin base) :
    valueOf (ds ++ [d]) = base * valueOf ds + d := by
  rw [valueOf_append]
  simp [valueOf, Nat.mul_comm]

/-- A greater leading part outweighs all that follows. -/
theorem mul_add_lt {m n b v w : Nat} (h : m < n) (hv : v < b) : m * b + v < n * b + w := by
  have hmul : (m + 1) * b ≤ n * b := Nat.mul_le_mul_right b h
  rw [Nat.add_mul, Nat.one_mul] at hmul
  omega

/-- **Rows of one length** are ordered as the numbers they stand for. -/
theorem lt_iff_valueOf_lt {ds es : List (Fin base)} (hlength : ds.length = es.length) :
    ds < es ↔ valueOf ds < valueOf es := by
  induction ds generalizing es with
  | nil =>
      obtain rfl := List.length_eq_zero_iff.mp hlength.symm
      simp [valueOf]
  | cons d ds ih =>
      cases es with
      | nil => cases hlength
      | cons e es =>
          have htail : ds.length = es.length := Nat.succ.inj hlength
          have hds := valueOf_lt ds
          have hes := valueOf_lt es
          rw [List.cons_lt_cons_iff, ih htail, valueOf, valueOf, ← htail]
          rw [← htail] at hes
          rcases Nat.lt_trichotomy d.val e.val with hlt | heq | hgt
          · exact iff_of_true (.inl hlt) (mul_add_lt hlt hds)
          · have hde : d = e := Fin.ext heq
            subst hde
            simp
          · refine iff_of_false ?_ (Nat.not_lt.mpr (mul_add_lt hgt hes).le)
            rintro (hlt | ⟨rfl, -⟩)
            · exact Nat.lt_asymm hgt hlt
            · exact Nat.lt_irrefl _ hgt

/-- Rows of one length that stand for the same number are the same. -/
theorem valueOf_inj {ds es : List (Fin base)} (hlength : ds.length = es.length)
    (hvalue : valueOf ds = valueOf es) : ds = es := by
  rcases lt_trichotomy ds es with hlt | heq | hgt
  · have := (lt_iff_valueOf_lt hlength).mp hlt
    omega
  · exact heq
  · have := (lt_iff_valueOf_lt hlength.symm).mp hgt
    omega

theorem valueOf_replicate_zero [NeZero base] (n : Nat) :
    valueOf (List.replicate n (0 : Fin base)) = 0 := by
  induction n with
  | zero => rfl
  | succ n ih => simp [List.replicate_succ, valueOf, ih]

/-! ## The last digits of a number -/

/-- Digits taken off from the right, the least significant first. -/
def takeOff [NeZero base] : (width n : Nat) → List (Fin base)
  | 0, _ => []
  | width + 1, n => Fin.ofNat base n :: takeOff width (n / base)

/-- The last digits of a number. -/
def ofNat [NeZero base] (width n : Nat) : List (Fin base) := (takeOff width n).reverse

@[simp] theorem length_ofNat [NeZero base] (width n : Nat) :
    (ofNat width n : List (Fin base)).length = width := by
  unfold ofNat
  rw [List.length_reverse]
  induction width generalizing n with
  | zero => rfl
  | succ width ih => rw [takeOff, List.length_cons, ih]

theorem valueOf_ofNat [NeZero base] (width n : Nat) :
    valueOf (ofNat width n : List (Fin base)) = n % base ^ width := by
  unfold ofNat
  induction width generalizing n with
  | zero => simp [takeOff, valueOf, Nat.mod_one]
  | succ width ih =>
      rw [takeOff, List.reverse_cons, valueOf_snoc, ih, Nat.pow_succ', Nat.mod_mul]
      show base * _ + n % base = _
      omega

/-! ## One more -/

/-- One more, on digits with the least significant first; the last carry is lost. -/
def carry : List (Fin base) → List (Fin base)
  | [] => []
  | d :: ds => if h : d.val + 1 < base then ⟨d.val + 1, h⟩ :: ds else ⟨0, d.pos⟩ :: carry ds

/-- One more; all zero after the greatest row. -/
def increment (ds : List (Fin base)) : List (Fin base) := (carry ds.reverse).reverse

theorem length_carry (ds : List (Fin base)) : (carry ds).length = ds.length := by
  induction ds with
  | nil => rfl
  | cons d ds ih =>
      rw [carry]
      split
      · rfl
      · rw [List.length_cons, List.length_cons, ih]

@[simp] theorem length_increment (ds : List (Fin base)) :
    (increment ds).length = ds.length := by
  rw [increment, List.length_reverse, length_carry, List.length_reverse]

theorem valueOf_carry (ds : List (Fin base)) :
    valueOf (carry ds).reverse = (valueOf ds.reverse + 1) % base ^ ds.length := by
  induction ds with
  | nil => simp [carry, valueOf]
  | cons d ds ih =>
      have hvalue := valueOf_lt ds.reverse
      rw [List.length_reverse] at hvalue
      rw [carry, List.reverse_cons, valueOf_snoc, List.length_cons, Nat.pow_succ']
      split
      · rename_i hlt
        -- no carry, and the row stays below the next power
        have hmul : base * (valueOf ds.reverse + 1) ≤ base * base ^ ds.length :=
          Nat.mul_le_mul_left base hvalue
        rw [Nat.mul_add, Nat.mul_one] at hmul
        rw [List.reverse_cons, valueOf_snoc, Nat.mod_eq_of_lt (by omega)]
        rfl
      · rename_i hmax
        have hd := d.isLt
        have hcarry : base * valueOf ds.reverse + d.val + 1 = base * (valueOf ds.reverse + 1) := by
          rw [Nat.mul_add]
          omega
        rw [List.reverse_cons, valueOf_snoc, ih, hcarry, Nat.mul_mod_mul_left]
        rfl

/-- **One more** is a row of the same length that stands for the next number. -/
theorem valueOf_increment (ds : List (Fin base)) :
    valueOf (increment ds) = (valueOf ds + 1) % base ^ ds.length := by
  rw [increment, valueOf_carry, List.reverse_reverse, List.length_reverse]

/-- The row of greatest digits stands for the greatest number. -/
theorem valueOf_eq_max {ds : List (Fin base)} :
    valueOf ds + 1 = base ^ ds.length ↔ ∀ d ∈ ds, d.val + 1 = base := by
  induction ds with
  | nil => simp [valueOf]
  | cons d ds ih =>
      have hd := d.isLt
      have hds := valueOf_lt ds
      rw [List.forall_mem_cons, ← ih, valueOf, List.length_cons, Nat.pow_succ']
      constructor
      · intro h
        have hmax : d.val + 1 = base := by
          by_contra hne
          have hmul : (d.val + 2) * base ^ ds.length ≤ base * base ^ ds.length :=
            Nat.mul_le_mul_right _ (by omega)
          rw [Nat.add_mul] at hmul
          omega
        have hmul : (d.val + 1) * base ^ ds.length = base * base ^ ds.length :=
          congrArg (· * base ^ ds.length) hmax
        rw [Nat.add_mul, Nat.one_mul] at hmul
        exact ⟨hmax, by omega⟩
      · rintro ⟨hmax, hvalue⟩
        rw [Nat.add_assoc, hvalue, ← Nat.succ_mul]
        exact congrArg (· * base ^ ds.length) hmax

/-- Below the greatest row there is no wrapping around. -/
theorem valueOf_increment_of_lt {ds : List (Fin base)} (h : ¬ ∀ d ∈ ds, d.val + 1 = base) :
    valueOf (increment ds) = valueOf ds + 1 := by
  have hlt := valueOf_lt ds
  have hne : valueOf ds + 1 ≠ base ^ ds.length := fun heq => h (valueOf_eq_max.mp heq)
  rw [valueOf_increment, Nat.mod_eq_of_lt (by omega)]

end SocialTimeline.Lib.Numeral
