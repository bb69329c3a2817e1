import SocialTimeline.Database.Keys
import Mathlib.Data.Prod.Lex
import Mathlib.Data.Sum.Order

/-!
# The order of keys

* `compareKey_preorder` — comparing keys is comparing their ranks in a linear order
  (`compareKey_eq_cmp`), so children have an order. Two keys may share a rank: a zero
  with a sign and one without, of one length, are one key to the database;
* `pushIds_ordered` — keys made one after another are in this order, and never the same,
  as long as the clock does not go back and the digits of a millisecond last.
-/

namespace SocialTimeline

open Lib

/-! ## Code units -/

theorem char_toNat_cases (c : Char) :
    c.toNat < 0xD800 ∨ (0xDFFF < c.toNat ∧ c.toNat < 0x110000) := by
  have hvalid := c.valid
  show c.val.toNat < _ ∨ _
  unfold UInt32.isValidChar Nat.isValidChar at hvalid
  exact hvalid

/-- A text starts with one character only. -/
theorem utf16_append_inj {c d : Char} {x y : List Nat} (h : utf16 c ++ x = utf16 d ++ y) :
    c = d ∧ x = y := by
  have hc := char_toNat_cases c
  have hd := char_toNat_cases d
  have hchar : c.toNat = d.toNat → c = d := fun heq => Char.toNat_inj.mp heq
  unfold utf16 at h
  split at h <;> split at h <;> simp only [List.cons_append, List.nil_append, List.cons.injEq] at h
  · exact ⟨hchar h.1, h.2⟩
  · -- a unit by itself is not the first of a pair
    omega
  · omega
  · refine ⟨hchar ?_, h.2.2⟩
    omega

theorem units_injective : Function.Injective units := by
  intro a b h
  unfold units at h
  refine String.toList_inj.mp ?_
  generalize a.toList = cs at h ⊢
  generalize b.toList = ds at h ⊢
  have hne : ∀ c, utf16 c ≠ [] := by
    intro c
    unfold utf16
    split <;> simp
  induction cs generalizing ds with
  | nil =>
      cases ds with
      | nil => rfl
      | cons d ds =>
          rw [List.flatMap_nil, List.flatMap_cons] at h
          exact absurd (List.append_eq_nil_iff.mp h.symm).1 (hne d)
  | cons c cs ih =>
      cases ds with
      | nil =>
          rw [List.flatMap_nil, List.flatMap_cons] at h
          exact absurd (List.append_eq_nil_iff.mp h).1 (hne c)
      | cons d ds =>
          rw [List.flatMap_cons, List.flatMap_cons] at h
          obtain ⟨rfl, hrest⟩ := utf16_append_inj h
          rw [ih ds hrest]

/-- Characters of one unit. -/
theorem units_ofList {cs : List Char} (h : ∀ c ∈ cs, c.toNat < 0x10000) :
    units (String.ofList cs) = cs.map Char.toNat := by
  unfold units
  rw [String.toList_ofList]
  induction cs with
  | nil => rfl
  | cons c cs ih =>
      have hc : utf16 c = [c.toNat] := if_pos (h c List.mem_cons_self)
      rw [List.flatMap_cons, hc, ih fun d hd => h d (List.mem_cons_of_mem c hd)]
      rfl

namespace FUtilities

/-! ## Integers in keys -/

/-- What is read into a value is a row of digits. -/
theorem parseDigits_eq_some {value result : Nat} {str : List Nat}
    (h : parseDigits value str = some result) : ∃ ds : List (Fin 10),
      str = ds.map (fun d => 48 + d.val) ∧
        result = value * 10 ^ ds.length + Numeral.valueOf ds := by
  induction str generalizing value with
  | nil =>
      cases h
      exact ⟨[], rfl, by simp [Numeral.valueOf]⟩
  | cons c str ih =>
      rw [parseDigits] at h
      split at h
      · cases h
      · rename_i hdigit
        obtain ⟨ds, rfl, rfl⟩ := ih h
        refine ⟨⟨c - 48, by omega⟩ :: ds, ?_, ?_⟩
        · simp only [List.map_cons, List.cons.injEq, and_true]
          omega
        · simp only [Numeral.valueOf, List.length_cons, Nat.pow_succ', Nat.add_mul]
          ring

/-- A key that spells an integer: digits, or a sign and digits. -/
theorem tryParseStringToInt_eq_some {str : List Nat} {n : Int}
    (h : tryParseStringToInt str = some n) : str.length ≤ 11 ∧ ∃ ds : List (Fin 10), ds ≠ [] ∧
      ((str = ds.map (fun d => 48 + d.val) ∧ n = Numeral.valueOf ds) ∨
        (str = 45 :: ds.map (fun d => 48 + d.val) ∧ n = -Numeral.valueOf ds)) := by
  have hrange : ∀ {v m : Int}, inRange v = some m → m = v := by
    intro v m hm
    unfold inRange at hm
    split at hm
    · cases hm
    · exact (Option.some.inj hm).symm
  unfold tryParseStringToInt at h
  split at h
  · cases h
  · rename_i hlength
    refine ⟨by omega, ?_⟩
    split at h
    · split at h
      · cases h
      · rename_i digits hne
        obtain ⟨value, hvalue, hin⟩ := Option.bind_eq_some_iff.mp h
        obtain ⟨ds, rfl, rfl⟩ := parseDigits_eq_some hvalue
        refine ⟨ds, ?_, .inr ⟨rfl, ?_⟩⟩
        · rintro rfl
          exact hne rfl
        · rw [hrange hin]
          simp
    · obtain ⟨value, hvalue, hin⟩ := Option.bind_eq_some_iff.mp h
      obtain ⟨ds, rfl, rfl⟩ := parseDigits_eq_some hvalue
      refine ⟨ds, ?_, .inl ⟨rfl, ?_⟩⟩
      · rintro rfl
        exact hlength (.inr rfl)
      · rw [hrange hin]
        simp

/-! ## Ranks -/

/-- Where a name stands: between the bounds, integers before other keys, integers by
number and length, other keys by their units. -/
abbrev Rank := Nat ×ₗ ((Int ×ₗ Nat) ⊕ₗ List Nat)

/-- The rank of a text. -/
def rankOf (str : List Nat) : (Int ×ₗ Nat) ⊕ₗ List Nat :=
  match tryParseStringToInt str with
  | some n => toLex (.inl (toLex (n, str.length)))
  | none => toLex (.inr str)

def rank : Name → Rank
  | .minName => toLex (0, toLex (.inr []))
  | .key key => toLex (1, rankOf (units key))
  | .maxName => toLex (2, toLex (.inr []))

theorem rank_key_lt_rank_key {a b : String} :
    rank (.key a) < rank (.key b) ↔ rankOf (units a) < rankOf (units b) := by
  show toLex (1, rankOf (units a)) < toLex (1, rankOf (units b)) ↔ _
  rw [Prod.Lex.toLex_lt_toLex]
  simp

theorem cmp_rankOf (a b : List Nat) :
    cmp (rankOf a) (rankOf b) =
      match tryParseStringToInt a, tryParseStringToInt b with
      | some aAsInt, some bAsInt =>
          if aAsInt > bAsInt then .gt
          else if aAsInt < bAsInt then .lt
          else if a.length > b.length then .gt
          else if a.length < b.length then .lt
          else .eq
      | some _, none => .lt
      | none, some _ => .gt
      | none, none => cmp a b := by
  have hinl : StrictMono fun x : Int ×ₗ Nat => (toLex (.inl x) : (Int ×ₗ Nat) ⊕ₗ List Nat) :=
    Sum.Lex.inl_strictMono
  have hinr : StrictMono fun x : List Nat => (toLex (.inr x) : (Int ×ₗ Nat) ⊕ₗ List Nat) :=
    Sum.Lex.inr_strictMono
  unfold rankOf
  cases tryParseStringToInt a with
  | none =>
      cases tryParseStringToInt b with
      | none =>
          -- the comparison that is executed and the one of the linear order
          convert hinr.cmp_map_eq a b
          rfl
      | some n => exact (cmp_eq_gt_iff _ _).mpr (Sum.Lex.inl_lt_inr _ _)
  | some m =>
      cases tryParseStringToInt b with
      | none => exact (cmp_eq_lt_iff _ _).mpr (Sum.Lex.inl_lt_inr _ _)
      | some n =>
          refine (hinl.cmp_map_eq _ _).trans ?_
          show _ = if m > n then Ordering.gt else if m < n then .lt else _
          rcases lt_trichotomy m n with hlt | rfl | hgt
          · rw [if_neg (not_lt.mpr hlt.le), if_pos hlt]
            exact (cmp_eq_lt_iff _ _).mpr (Prod.Lex.toLex_lt_toLex.mpr (.inl hlt))
          · rw [if_neg (lt_irrefl m), if_neg (lt_irrefl m)]
            rcases Nat.lt_trichotomy a.length b.length with hlt | heq | hgt
            · rw [if_neg (Nat.lt_asymm hlt), if_pos hlt]
              exact (cmp_eq_lt_iff _ _).mpr (Prod.Lex.toLex_lt_toLex.mpr (.inr ⟨rfl, hlt⟩))
            · rw [heq, if_neg (Nat.lt_irrefl _), if_neg (Nat.lt_irrefl _), cmp_self_eq_eq]
            · rw [if_pos hgt]
              exact (cmp_eq_gt_iff _ _).mpr (Prod.Lex.toLex_lt_toLex.mpr (.inr ⟨rfl, hgt⟩))
          · rw [if_pos hgt]
            exact (cmp_eq_gt_iff _ _).mpr (Prod.Lex.toLex_lt_toLex.mpr (.inl hgt))

/-- **Comparing keys** is comparing ranks. -/
theorem compareKey_eq_cmp (a b : Name) : compareKey a b = cmp (rank a) (rank b) := by
  have hlt : ∀ {m n : Nat} {x y : (Int ×ₗ Nat) ⊕ₗ List Nat}, m < n →
      cmp (toLex (m, x) : Rank) (toLex (n, y)) = .lt :=
    fun h => (cmp_eq_lt_iff _ _).mpr (Prod.Lex.toLex_lt_toLex.mpr (.inl h))
  have hgt : ∀ {m n : Nat} {x y : (Int ×ₗ Nat) ⊕ₗ List Nat}, n < m →
      cmp (toLex (m, x) : Rank) (toLex (n, y)) = .gt :=
    fun h => (cmp_eq_gt_iff _ _).mpr (Prod.Lex.toLex_lt_toLex.mpr (.inl h))
  by_cases heq : a = b
  · subst heq
    rw [cmp_self_eq_eq]
    exact if_pos rfl
  · unfold compareKey
    rw [if_neg heq]
    cases a with
    | minName =>
        rw [if_pos (.inl rfl)]
        cases b with
        | minName => exact absurd rfl heq
        | key b => exact (hlt (by decide)).symm
        | maxName => exact (hlt (by decide)).symm
    | maxName =>
        cases b with
        | maxName => exact absurd rfl heq
        | minName =>
            rw [if_neg (by simp)]
            exact (hgt (by decide)).symm
        | key b =>
            rw [if_neg (by simp)]
            exact (hgt (by decide)).symm
    | key a =>
        cases b with
        | minName =>
            rw [if_neg (by simp)]
            exact (hgt (by decide)).symm
        | maxName =>
            rw [if_pos (.inr rfl)]
            exact (hlt (by decide)).symm
        | key b =>
            rw [if_neg (by simp)]
            have hmono : StrictMono fun x : (Int ×ₗ Nat) ⊕ₗ List Nat => (toLex (1, x) : Rank) :=
              fun _ _ h => Prod.Lex.toLex_lt_toLex.mpr (.inr ⟨rfl, h⟩)
            exact (cmp_rankOf _ _).symm.trans (hmono.cmp_map_eq _ _).symm

/-! ## Keys of one rank -/

/-- The zero of some digits, and with a sign. -/
def zeros (k : Nat) : String := String.ofList (List.replicate (k + 1) '0')

def signedZeros (k : Nat) : String := String.ofList ('-' :: List.replicate k '0')

theorem units_zeros (k : Nat) : units (zeros k) = List.replicate (k + 1) 48 := by
  unfold zeros
  rw [units_ofList fun c hc => by rw [List.eq_of_mem_replicate hc]; decide, List.map_replicate]
  rfl

theorem units_signedZeros (k : Nat) : units (signedZeros k) = 45 :: List.replicate k 48 := by
  unfold signedZeros
  rw [units_ofList, List.map_cons, List.map_replicate]
  · rfl
  · intro c hc
    rcases List.mem_cons.mp hc with rfl | hc
    · decide
    · rw [List.eq_of_mem_replicate hc]
      decide

/-- Digits that stand for nothing are zeros. -/
theorem map_digits_of_zero {ds : List (Fin 10)} (h : Numeral.valueOf ds = 0) :
    ds.map (fun d => 48 + d.val) = List.replicate ds.length 48 := by
  have hzero : ds = List.replicate ds.length 0 :=
    Numeral.valueOf_inj (by simp) (h.trans (Numeral.valueOf_replicate_zero _).symm)
  rw [hzero, List.map_replicate, List.length_replicate]
  rfl

/-- Texts that spell the same integer at the same length are the same, but for the
sign of a zero. -/
theorem units_of_same_integer {a b : List Nat} {n : Int} (ha : tryParseStringToInt a = some n)
    (hb : tryParseStringToInt b = some n) (hlength : a.length = b.length) :
    a = b ∨ ∃ k, 1 ≤ k ∧ k ≤ 10 ∧
      ((a = List.replicate (k + 1) 48 ∧ b = 45 :: List.replicate k 48) ∨
        (a = 45 :: List.replicate k 48 ∧ b = List.replicate (k + 1) 48)) := by
  obtain ⟨hle, ds, hds, ha⟩ := tryParseStringToInt_eq_some ha
  obtain ⟨-, es, hes, hb⟩ := tryParseStringToInt_eq_some hb
  have hpos : ∀ fs : List (Fin 10), fs ≠ [] → 1 ≤ fs.length :=
    fun fs h => List.length_pos_iff.mpr h
  rcases ha with ⟨rfl, hm⟩ | ⟨rfl, hm⟩ <;> rcases hb with ⟨rfl, hn⟩ | ⟨rfl, hn⟩ <;>
    simp only [List.length_map, List.length_cons] at hlength hle
  · left
    rw [Numeral.valueOf_inj hlength (by omega)]
  · right
    have hzero : Numeral.valueOf ds = 0 ∧ Numeral.valueOf es = 0 := by omega
    refine ⟨es.length, hpos es hes, by omega, .inl ⟨?_, ?_⟩⟩
    · rw [map_digits_of_zero hzero.1, hlength]
    · rw [map_digits_of_zero hzero.2]
  · right
    have hzero : Numeral.valueOf ds = 0 ∧ Numeral.valueOf es = 0 := by omega
    refine ⟨ds.length, hpos ds hds, by omega, .inr ⟨?_, ?_⟩⟩
    · rw [map_digits_of_zero hzero.1]
    · rw [map_digits_of_zero hzero.2, hlength]
  · left
    rw [Numeral.valueOf_inj (Nat.succ.inj hlength) (by omega)]

theorem parseDigits_zeros (k : Nat) : parseDigits 0 (List.replicate k 48) = some 0 := by
  induction k with
  | zero => rfl
  | succ k ih => exact ih

/-- The two zeros of one length share a rank. -/
theorem rankOf_zeros {k : Nat} (hpos : 1 ≤ k) (hle : k ≤ 10) :
    rankOf (units (zeros k)) = rankOf (units (signedZeros k)) := by
  have hplain : tryParseStringToInt (units (zeros k)) = some 0 := by
    rw [units_zeros]
    unfold tryParseStringToInt
    rw [if_neg (by simp; omega), List.replicate_succ]
    show (parseDigits 0 (List.replicate (k + 1) 48)).bind _ = _
    rw [parseDigits_zeros]
    rfl
  have hsigned : tryParseStringToInt (units (signedZeros k)) = some 0 := by
    rw [units_signedZeros]
    unfold tryParseStringToInt
    rw [if_neg (by simp; omega)]
    simp only [List.length_replicate]
    rw [if_neg (by omega), parseDigits_zeros]
    rfl
  unfold rankOf
  rw [hplain, hsigned, units_zeros, units_signedZeros]
  simp

theorem rank_eq_iff {a b : Name} :
    rank a = rank b ↔ a = b ∨ ∃ k, 1 ≤ k ∧ k ≤ 10 ∧
      ((a = .key (zeros k) ∧ b = .key (signedZeros k)) ∨
        (a = .key (signedZeros k) ∧ b = .key (zeros k))) := by
  constructor
  · intro h
    cases a with
    | minName => cases b with
      | minName => exact .inl rfl
      | key b => cases congrArg (fun r : Rank => (ofLex r).1) h
      | maxName => cases congrArg (fun r : Rank => (ofLex r).1) h
    | maxName => cases b with
      | minName => cases congrArg (fun r : Rank => (ofLex r).1) h
      | key b => cases congrArg (fun r : Rank => (ofLex r).1) h
      | maxName => exact .inl rfl
    | key a => cases b with
      | minName => cases congrArg (fun r : Rank => (ofLex r).1) h
      | maxName => cases congrArg (fun r : Rank => (ofLex r).1) h
      | key b =>
          have hrank : rankOf (units a) = rankOf (units b) :=
            congrArg (fun r : Rank => (ofLex r).2) h
          unfold rankOf at hrank
          cases ha : tryParseStringToInt (units a) with
          | none =>
              cases hb : tryParseStringToInt (units b) with
              | none =>
                  rw [ha, hb] at hrank
                  exact .inl (congrArg Name.key (units_injective (Sum.inr.inj hrank)))
              | some n =>
                  rw [ha, hb] at hrank
                  cases hrank
          | some m =>
              cases hb : tryParseStringToInt (units b) with
              | none =>
                  rw [ha, hb] at hrank
                  cases hrank
              | some n =>
                  rw [ha, hb] at hrank
                  obtain ⟨rfl, hlength⟩ := Prod.mk.inj (Sum.inl.inj hrank)
                  rcases units_of_same_integer ha hb hlength with heq | ⟨k, hpos, hle, hzeros⟩
                  · exact .inl (congrArg Name.key (units_injective heq))
                  · refine .inr ⟨k, hpos, hle, ?_⟩
                    simp only [← units_zeros, ← units_signedZeros] at hzeros
                    rcases hzeros with ⟨ha, hb⟩ | ⟨ha, hb⟩
                    · exact .inl ⟨congrArg _ (units_injective ha), congrArg _ (units_injective hb)⟩
                    · exact .inr ⟨congrArg _ (units_injective ha), congrArg _ (units_injective hb)⟩
  · rintro (rfl | ⟨k, hpos, hle, ⟨rfl, rfl⟩ | ⟨rfl, rfl⟩⟩)
    · rfl
    · exact congrArg (fun r => (toLex (1, r) : Rank)) (rankOf_zeros hpos hle)
    · exact congrArg (fun r => (toLex (1, r) : Rank)) (rankOf_zeros hpos hle).symm

/-- **The order of keys.** Comparing is antisymmetric and transitive, so that children
can be kept in order; and names compare as the same only if they are, or if they are
keys that spell a zero at one length, with a sign and without. -/
theorem compareKey_preorder :
    (∀ a b, compareKey b a = (compareKey a b).swap) ∧
      (∀ a b c, compareKey a b ≠ .gt → compareKey b c ≠ .gt → compareKey a c ≠ .gt) ∧
      ∀ a b, compareKey a b = .eq ↔ a = b ∨ ∃ k, 1 ≤ k ∧ k ≤ 10 ∧
        ((a = .key (zeros k) ∧ b = .key (signedZeros k)) ∨
          (a = .key (signedZeros k) ∧ b = .key (zeros k))) := by
  have hle : ∀ a b, compareKey a b ≠ .gt ↔ rank a ≤ rank b := by
    intro a b
    rw [compareKey_eq_cmp, Ne, cmp_eq_gt_iff, not_lt]
  refine ⟨?_, ?_, ?_⟩
  · intro a b
    rw [compareKey_eq_cmp, compareKey_eq_cmp, cmp_swap]
  · intro a b c hab hbc
    rw [hle] at hab hbc ⊢
    exact hab.trans hbc
  · intro a b
    rw [compareKey_eq_cmp, cmp_eq_eq_iff, rank_eq_iff]

end FUtilities

/-! ## Keys made one after another -/

namespace FNextPushId

open FUtilities

/-- `PUSH_CHARS` is in the order of its code units. -/
theorem pushChar_strictMono : StrictMono fun digit => (pushChar digit).toNat := by
  have hsorted : (pushChars.map Char.toNat).Pairwise (· < ·) := by decide
  intro i j hij
  rw [List.pairwise_map, List.pairwise_iff_getElem] at hsorted
  exact hsorted i.val j.val i.isLt j.isLt hij

theorem pushChar_mem (digit : Fin 64) : pushChar digit ∈ pushChars := List.get_mem _ _

theorem units_pushId (stampChars randChars : List (Fin 64)) :
    units (pushId stampChars randChars) =
      (stampChars ++ randChars).map fun digit => (pushChar digit).toNat := by
  have hsmall : (pushChars.all fun c => c.toNat < 0x10000) = true := by rfl
  rw [List.all_eq_true] at hsmall
  unfold pushId
  rw [units_ofList, List.map_map]
  · rfl
  · intro c hc
    obtain ⟨digit, -, rfl⟩ := List.mem_map.mp hc
    exact of_decide_eq_true (hsmall _ (pushChar_mem digit))

@[simp] theorem length_timeStampChars (now : Nat) : (timeStampChars now).length = 8 :=
  Numeral.length_ofNat 8 now

theorem valueOf_timeStampChars (now : Nat) :
    Numeral.valueOf (timeStampChars now) = now % 64 ^ 8 :=
  Numeral.valueOf_ofNat 8 now

/-- The number of a key: its millisecond, and its random digits. -/
def serial (now : Nat) (randChars : List (Fin 64)) : Nat :=
  now * 64 ^ 12 + Numeral.valueOf randChars

theorem valueOf_serial {now : Nat} {chars : List (Fin 64)} (hlength : chars.length = 12)
    (hnow : now < 64 ^ 8) :
    Numeral.valueOf (timeStampChars now ++ chars) = serial now chars := by
  rw [Numeral.valueOf_append, valueOf_timeStampChars, hlength, Nat.mod_eq_of_lt hnow, serial]

/-- A key with twelve random digits is too long to spell an integer. -/
theorem rankOf_pushId {now : Nat} {chars : List (Fin 64)} (hlength : chars.length = 12) :
    rankOf (units (pushId (timeStampChars now) chars)) =
      toLex (.inr ((timeStampChars now ++ chars).map fun digit => (pushChar digit).toNat)) := by
  have hunits : (units (pushId (timeStampChars now) chars)).length = 20 := by
    rw [units_pushId, List.length_map, List.length_append, length_timeStampChars, hlength]
  have hlong : tryParseStringToInt (units (pushId (timeStampChars now) chars)) = none := by
    unfold tryParseStringToInt
    rw [hunits]
    rfl
  unfold rankOf
  rw [hlong, units_pushId]

/-- A key with its number above another's comes after it. -/
theorem compareKey_pushId {now now' : Nat} {chars chars' : List (Fin 64)}
    (hlength : chars.length = 12) (hlength' : chars'.length = 12) (hnow : now < 64 ^ 8)
    (hnow' : now' < 64 ^ 8) (h : serial now chars < serial now' chars') :
    compareKey (.key (pushId (timeStampChars now) chars))
      (.key (pushId (timeStampChars now') chars')) = .lt := by
  have hdigits : timeStampChars now ++ chars < timeStampChars now' ++ chars' := by
    rw [Numeral.lt_iff_valueOf_lt (by simp [hlength, hlength']), valueOf_serial hlength hnow,
      valueOf_serial hlength' hnow']
    exact h
  rw [compareKey_eq_cmp, cmp_eq_lt_iff, rank_key_lt_rank_key, rankOf_pushId hlength,
    rankOf_pushId hlength']
  exact Sum.Lex.inr_strictMono (List.map_lt (fun _ _ hlt => pushChar_strictMono hlt) hdigits)

/-- Until 2109 a key has the form that the rest of the development asks of it. -/
theorem isPushId_pushId {now : Nat} {chars : List (Fin 64)} (hlength : chars.length = 12)
    (hnow : now < 64 ^ 7) : isPushId (pushId (timeStampChars now) chars) = true := by
  have hvalue : Numeral.valueOf (timeStampChars now) = now := by
    rw [valueOf_timeStampChars]
    omega
  have height := length_timeStampChars now
  unfold isPushId pushId
  rw [String.toList_ofList]
  cases hstamp : timeStampChars now with
  | nil =>
      rw [hstamp] at height
      cases height
  | cons digit digits =>
      rw [hstamp] at height hvalue
      have hdigits : digits.length = 7 := Nat.succ.inj height
      -- the leading digit would weigh more than the clock reads
      have hzero : digit = 0 := by
        rw [Numeral.valueOf, hdigits] at hvalue
        refine Fin.ext ?_
        show digit.val = 0
        by_contra hne
        have hmul : 1 * 64 ^ 7 ≤ digit.val * 64 ^ 7 := Nat.mul_le_mul_right _ (by omega)
        omega
      subst hzero
      simp only [List.cons_append, List.map_cons, List.length_cons, List.length_map,
        List.length_append, hdigits, hlength, List.head?_cons, Bool.and_eq_true, decide_eq_true_eq,
        List.all_eq_true, List.contains_iff_mem]
      refine ⟨⟨trivial, by decide⟩, ?_⟩
      intro c hc
      rcases List.mem_cons.mp hc with rfl | hc
      · exact pushChar_mem 0
      · obtain ⟨d, -, rfl⟩ := List.mem_map.mp hc
        exact pushChar_mem d

theorem lastRandChars_same {generator : FNextPushId} {now : Nat} {random : RandomChars}
    (h : now = generator.lastPushTime) :
    (generator.get now random).2.lastRandChars = generator.lastRandChars.countUp := if_pos h

theorem lastRandChars_later {generator : FNextPushId} {now : Nat} {random : RandomChars}
    (h : now ≠ generator.lastPushTime) :
    (generator.get now random).2.lastRandChars = random := if_neg h

/-- **One key.** Its number is greater than the last one's, unless the clock has gone back
or the digits are used up. -/
theorem serial_get {generator : FNextPushId} {now : Nat} (random : RandomChars)
    (hclock : generator.lastPushTime ≤ now) (hsupply : ¬ generator.UsedUp now) :
    serial generator.lastPushTime generator.lastRandChars.chars <
      serial now (generator.get now random).2.lastRandChars.chars := by
  have hlast := Numeral.valueOf_lt generator.lastRandChars.chars
  rw [generator.lastRandChars.length_eq] at hlast
  unfold serial
  by_cases hsame : now = generator.lastPushTime
  · rw [lastRandChars_same hsame]
    have hbelow : ¬ ∀ digit ∈ generator.lastRandChars.chars, digit.val + 1 = 64 := by
      intro hall
      refine hsupply ⟨hsame, fun digit hdigit => Fin.ext ?_⟩
      exact Nat.succ.inj (hall digit hdigit)
    have hvalue := Numeral.valueOf_increment_of_lt hbelow
    simp only [RandomChars.countUp, hvalue]
    omega
  · rw [lastRandChars_later hsame]
    exact Numeral.mul_add_lt (by omega) hlast

/-- When the digits are used up the number goes back to that of the millisecond. -/
theorem serial_get_of_usedUp {generator : FNextPushId} {now : Nat} (random : RandomChars)
    (h : generator.UsedUp now) :
    serial now (generator.get now random).2.lastRandChars.chars <
      serial generator.lastPushTime generator.lastRandChars.chars := by
  obtain ⟨hsame, hall⟩ := h
  have hmax : Numeral.valueOf generator.lastRandChars.chars + 1 = 64 ^ 12 := by
    rw [← generator.lastRandChars.length_eq]
    refine Numeral.valueOf_eq_max.mpr fun digit hdigit => ?_
    rw [hall digit hdigit]
    rfl
  have hzero : Numeral.valueOf (generator.lastRandChars.countUp).chars = 0 := by
    rw [RandomChars.countUp, Numeral.valueOf_increment, hmax,
      generator.lastRandChars.length_eq, Nat.mod_self]
  unfold serial
  rw [lastRandChars_same hsame, hzero, hsame]
  omega

/-- A key whose number is above another number. -/
def Above (n : Nat) (key : String) : Prop :=
  ∃ (now : Nat) (chars : List (Fin 64)), chars.length = 12 ∧ now < 64 ^ 7 ∧
    key = pushId (timeStampChars now) chars ∧ n < serial now chars

section

variable {generator : FNextPushId} {calls : List (Nat × RandomChars)}

/-- Every key has the form of a push id, used up or not. -/
theorem isPushId_generate (htime : ∀ call ∈ calls, call.1 < 64 ^ 7) :
    ∀ key ∈ generator.generate calls, isPushId key = true := by
  induction calls generalizing generator with
  | nil => exact fun _ hkey => absurd hkey List.not_mem_nil
  | cons call calls ih =>
      intro key hkey
      rcases List.mem_cons.mp hkey with rfl | hkey
      · exact isPushId_pushId (RandomChars.length_eq _) (htime call List.mem_cons_self)
      · exact ih (fun call hcall => htime call (List.mem_cons_of_mem _ hcall)) key hkey

/-- The keys of some calls come one after another, and all after the last key made, as
long as the digits last. -/
theorem generate_spec (hlast : ∀ call ∈ calls, generator.lastPushTime ≤ call.1)
    (hclock : (calls.map Prod.fst).Pairwise (· ≤ ·)) (htime : ∀ call ∈ calls, call.1 < 64 ^ 7)
    (hsupply : generator.Supplied calls) :
    (∀ key ∈ generator.generate calls,
        Above (serial generator.lastPushTime generator.lastRandChars.chars) key) ∧
      (generator.generate calls).Pairwise fun a b => compareKey (.key a) (.key b) = .lt := by
  induction calls generalizing generator with
  | nil => exact ⟨fun _ hkey => absurd hkey List.not_mem_nil, List.Pairwise.nil⟩
  | cons call calls ih =>
      rcases call with ⟨now, random⟩
      obtain ⟨hnot, hrest⟩ := hsupply
      have hserial := serial_get random (hlast _ List.mem_cons_self) hnot
      have hnow : now < 64 ^ 7 := htime _ List.mem_cons_self
      rw [List.map_cons, List.pairwise_cons] at hclock
      obtain ⟨habove, hpairwise⟩ := ih
        (fun call hcall => hclock.1 call.1 (List.mem_map_of_mem hcall)) hclock.2
        (fun call hcall => htime call (List.mem_cons_of_mem _ hcall)) hrest
      refine ⟨?_, List.pairwise_cons.mpr ⟨?_, hpairwise⟩⟩
      · intro key hkey
        rcases List.mem_cons.mp hkey with rfl | hkey
        · exact ⟨now, _, RandomChars.length_eq _, hnow, rfl, hserial⟩
        · obtain ⟨later, chars, hlength, hlater, rfl, hlt⟩ := habove key hkey
          exact ⟨later, chars, hlength, hlater, rfl, hserial.trans hlt⟩
      · intro key hkey
        obtain ⟨later, chars, hlength, hlater, rfl, hlt⟩ := habove key hkey
        exact compareKey_pushId (RandomChars.length_eq _) hlength (by omega) (by omega) hlt

/-- Where the keys are in order, with the last key made in front of them, the digits have
lasted. -/
theorem supplied_of_pairwise (hlast : generator.lastPushTime < 64 ^ 7)
    (htime : ∀ call ∈ calls, call.1 < 64 ^ 7)
    (hpairwise : (pushId (timeStampChars generator.lastPushTime) generator.lastRandChars.chars ::
      generator.generate calls).Pairwise fun a b => compareKey (.key a) (.key b) = .lt) :
    generator.Supplied calls := by
  induction calls generalizing generator with
  | nil => trivial
  | cons call calls ih =>
      rcases call with ⟨now, random⟩
      have hnow : now < 64 ^ 7 := htime _ List.mem_cons_self
      obtain ⟨hfirst, hrest⟩ := List.pairwise_cons.mp hpairwise
      refine ⟨?_, ih hnow (fun call hcall => htime call (List.mem_cons_of_mem _ hcall)) hrest⟩
      intro husedUp
      -- the key made then would come both before and after the last one
      have hbefore := compareKey_pushId (RandomChars.length_eq _) (RandomChars.length_eq _)
        (by omega) (by omega) (serial_get_of_usedUp random husedUp)
      have hafter := hfirst _ List.mem_cons_self
      rw [compareKey_eq_cmp, cmp_eq_lt_iff] at hbefore hafter
      exact lt_asymm hbefore hafter

end

/-- The generator starts with digits that can be counted up. -/
theorem not_usedUp_initial (now : Nat) : ¬ UsedUp {} now := by
  rintro ⟨-, hall⟩
  exact absurd (hall 0 (List.mem_replicate.mpr ⟨by decide, rfl⟩)) (by decide)

/-- **Keys in the order of their making.** In every run of `childByAutoId` calls on a
clock that does not go back, until 2109: each key has the form of a push id; each comes
after all keys made before it exactly if no call finds the digits of its millisecond used
up, and then no key is made twice. -/
theorem pushIds_ordered {calls : List (Nat × RandomChars)}
    (hclock : (calls.map Prod.fst).Pairwise (· ≤ ·)) (htime : ∀ call ∈ calls, call.1 < 64 ^ 7) :
    (∀ key ∈ generate {} calls, isPushId key = true) ∧
      ((generate {} calls).Pairwise (fun a b => compareKey (.key a) (.key b) = .lt) ↔
        Supplied {} calls) ∧
      (Supplied {} calls → (generate {} calls).Nodup) := by
  have hordered : Supplied {} calls →
      (generate {} calls).Pairwise fun a b => compareKey (.key a) (.key b) = .lt :=
    fun hsupply => (generate_spec (fun _ _ => Nat.zero_le _) hclock htime hsupply).2
  refine ⟨isPushId_generate htime, ⟨?_, hordered⟩, ?_⟩
  · intro hpairwise
    cases calls with
    | nil => trivial
    | cons call calls =>
        refine ⟨not_usedUp_initial call.1, ?_⟩
        exact supplied_of_pairwise (htime call List.mem_cons_self)
          (fun call hcall => htime call (List.mem_cons_of_mem _ hcall)) hpairwise
  · intro hsupply
    refine (hordered hsupply).imp ?_
    rintro a b hlt rfl
    have hsame : compareKey (.key a) (.key a) = .eq := if_pos rfl
    cases hsame.symm.trans hlt

/-- Two keys of one millisecond and a later one. -/
theorem pushIds_ordered_three :
    ∃ keys, keys = generate {} [(7, ⟨List.replicate 12 5, rfl⟩), (7, ⟨List.replicate 12 5, rfl⟩),
        (8, ⟨List.replicate 12 0, rfl⟩)] ∧ keys.length = 3 ∧
      keys.Pairwise fun a b => compareKey (.key a) (.key b) = .lt := by
  refine ⟨_, rfl, rfl, (pushIds_ordered (by decide) (by decide)).2.1.mpr ?_⟩
  refine ⟨not_usedUp_initial 7, ?_, ?_, trivial⟩ <;> decide

end FNextPushId

end SocialTimeline
