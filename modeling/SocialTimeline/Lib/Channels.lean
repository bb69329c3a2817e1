import Mathlib.Data.List.Basic

/-!
# Folds that depend on the order within each channel only

Events travel on channels, several channels possibly carrying one event. When
events that share no channel commute, the result of folding a word of events is
determined by what each channel carried (`foldl_eq_of_channels`): the order
between different channels does not matter. Two events that may not be swapped
are put on a common channel, so that its order is part of what is fixed.

`Interleave xs ys zs` says that `zs` is a merge of `xs` and `ys`, as produced by
merging two event streams; a filter that tells the streams apart recovers the
first (`Interleave.filter_left`).
-/

namespace SocialTimeline.Lib

section Channels

variable {σ ε ι : Type*} {step : σ → ε → σ} {chan : ι → ε → Bool}

/-- No channel carries both events. -/
def Unrelated (chan : ι → ε → Bool) (e f : ε) : Prop :=
  ∀ i, chan i e = true → chan i f = false

/-- An event moves to the front over a word unrelated to it. -/
theorem foldl_move_front
    (comm : ∀ e f, Unrelated chan e f → ∀ s, step (step s e) f = step (step s f) e)
    {e : ε} {xs : List ε} (h : ∀ x ∈ xs, Unrelated chan e x) (ys : List ε) (s : σ) :
    (xs ++ e :: ys).foldl step s = (e :: (xs ++ ys)).foldl step s := by
  induction xs generalizing s with
  | nil => rfl
  | cons x xs ih =>
      have hx : step (step s e) x = step (step s x) e := comm e x (h x List.mem_cons_self) s
      have htail := ih (fun y hy => h y (List.mem_cons_of_mem x hy)) (step s x)
      simp only [List.cons_append, List.foldl_cons] at htail ⊢
      rw [htail, hx]

/-- **Channels determine the fold.** Words that carry the same events on every
channel, in the same order there, fold to the same result. -/
theorem foldl_eq_of_channels (covered : ∀ e, ∃ i, chan i e = true)
    (comm : ∀ e f, Unrelated chan e f → ∀ s, step (step s e) f = step (step s f) e)
    {u v : List ε} (h : ∀ i, u.filter (chan i) = v.filter (chan i)) (s : σ) :
    u.foldl step s = v.foldl step s := by
  induction u generalizing v s with
  | nil =>
      have hnil : v = [] := by
        refine List.eq_nil_iff_forall_not_mem.mpr ?_
        intro e he
        obtain ⟨i, hi⟩ := covered e
        have hmem : e ∈ v.filter (chan i) := List.mem_filter.mpr ⟨he, hi⟩
        rw [← h i] at hmem
        exact List.not_mem_nil hmem
      rw [hnil]
  | cons e u ih =>
      -- split `v` at the first event on one of `e`'s channels: it is `e`
      obtain ⟨i₀, hi₀⟩ := covered e
      have hfront : v.filter (chan i₀) = e :: u.filter (chan i₀) := by
        rw [← h i₀, List.filter_cons_of_pos hi₀]
      obtain ⟨xs, ys, rfl, hxs, -, -⟩ := List.filter_eq_cons_iff.mp hfront
      -- what comes before it travels on none of `e`'s channels
      have hskip : ∀ i, chan i e = true → xs.filter (chan i) = [] := by
        intro i hi
        cases hf : xs.filter (chan i) with
        | nil => rfl
        | cons x rest =>
            have hhead := h i
            rw [List.filter_cons_of_pos hi, List.filter_append, hf, List.cons_append] at hhead
            obtain ⟨rfl, -⟩ := List.cons.inj hhead
            have hmem : e ∈ xs.filter (chan i) := hf ▸ List.mem_cons_self
            exact absurd hi₀ (hxs e (List.mem_filter.mp hmem).1)
      have hunrel : ∀ x ∈ xs, Unrelated chan e x := by
        intro x hx i hi
        cases hc : chan i x with
        | false => rfl
        | true =>
            have hmem : x ∈ xs.filter (chan i) := List.mem_filter.mpr ⟨hx, hc⟩
            rw [hskip i hi] at hmem
            exact absurd hmem List.not_mem_nil
      have hrest : ∀ i, u.filter (chan i) = (xs ++ ys).filter (chan i) := by
        intro i
        have hi := h i
        rw [List.filter_append] at hi ⊢
        cases hc : chan i e with
        | true =>
            rw [List.filter_cons_of_pos hc, List.filter_cons_of_pos hc, hskip i hc,
              List.nil_append] at hi
            rw [hskip i hc, List.nil_append]
            exact (List.cons.inj hi).2
        | false =>
            have hnot : ¬ chan i e = true := by simp [hc]
            rw [List.filter_cons_of_neg hnot, List.filter_cons_of_neg hnot] at hi
            exact hi
      rw [foldl_move_front comm hunrel ys s, List.foldl_cons, List.foldl_cons]
      exact ih hrest (step s e)

end Channels

/-! ## Merges of two streams -/

variable {α : Type*}

/-- `Interleave xs ys zs`: the stream `zs` merges `xs` and `ys`, keeping the
order within each. -/
inductive Interleave : List α → List α → List α → Prop
  | nil : Interleave [] [] []
  | left {x xs ys zs} : Interleave xs ys zs → Interleave (x :: xs) ys (x :: zs)
  | right {y xs ys zs} : Interleave xs ys zs → Interleave xs (y :: ys) (y :: zs)

/-- A filter that keeps all of the left stream and none of the right one gets
the left stream back. -/
theorem Interleave.filter_left {xs ys zs : List α} (h : Interleave xs ys zs) {p : α → Bool}
    (hx : ∀ x ∈ xs, p x = true) (hy : ∀ y ∈ ys, p y = false) : zs.filter p = xs := by
  induction h with
  | nil => rfl
  | left _ ih =>
      rw [List.filter_cons_of_pos (hx _ List.mem_cons_self),
        ih (fun x hmem => hx x (List.mem_cons_of_mem _ hmem)) hy]
  | right _ ih =>
      rw [List.filter_cons_of_neg (by simp [hy _ List.mem_cons_self])]
      exact ih hx fun y hmem => hy y (List.mem_cons_of_mem _ hmem)

end SocialTimeline.Lib
