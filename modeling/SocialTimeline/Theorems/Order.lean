import SocialTimeline.System.State

/-!
# Live order and reload order

A reload sorts by the timestamps that the posting devices wrote; the live path
puts each arrival on top. `live_order_iff` says for which runs of live events the
list stays as a reload would show it.
-/

namespace SocialTimeline

open FirebaseTimelineService Lib TimelineViewModel

/-- Timestamps do not increase from the top. -/
def NewestFirst (posts : List Post) : Prop :=
  posts.Pairwise fun a b => b.timestamp ≤ a.timestamp

/-- The same posts in the same order, up to the order of equal timestamps. -/
def SameOrder (posts again : List Post) : Prop :=
  again.Perm posts ∧ again.map Post.timestamp = posts.map Post.timestamp

/-- Every added event of a run is at least as new as all that is listed when it
arrives. -/
def ArrivesNewest (vm : TimelineViewModel) (events : List LiveEvent) : Prop :=
  ∀ pre post vm₁, pre ++ [⟨post, .added⟩] <+: events → vm.process pre = .ok vm₁ →
    ∀ listed ∈ vm₁.posts, listed.timestamp ≤ post.timestamp

/-- Lists of the same posts, both newest first, are in the same order. -/
theorem NewestFirst.sameOrder {posts again : List Post} (h : NewestFirst posts)
    (h' : NewestFirst again) (hperm : again.Perm posts) : SameOrder posts again := by
  have hstamps : (again.map Post.timestamp).Pairwise fun a b => b ≤ a := List.pairwise_map.mpr h'
  have hstamps' : (posts.map Post.timestamp).Pairwise fun a b => b ≤ a := List.pairwise_map.mpr h
  exact ⟨hperm, List.Perm.eq_of_pairwise (fun a b _ _ hba hab => le_antisymm hab hba) hstamps
    hstamps' (hperm.map Post.timestamp)⟩

/-- **When live order is reload order.** After a retrieval, the list is newest
first in every state of a run of live events, and a fresh retrieval of the same
posts, in whatever order the dictionary gives them, would show them in the same
order, if and only if every addition is at least as new as all that is listed
when it arrives. -/
theorem live_order_iff (vm : TimelineViewModel) (posts : List Post) (events : List LiveEvent) :
    (∀ pre, pre <+: events → ∀ vm₁, (vm.retrieveAllPosts posts).process pre = .ok vm₁ →
      NewestFirst vm₁.posts ∧ ∀ again, again.Perm vm₁.posts →
        SameOrder vm₁.posts (vm₁.retrieveAllPosts again).posts) ↔
      ArrivesNewest (vm.retrieveAllPosts posts) events := by
  have hlists : (∀ pre, pre <+: events → ∀ vm₁,
      (vm.retrieveAllPosts posts).process pre = .ok vm₁ → NewestFirst vm₁.posts) ↔
        ∀ edits, edits <+: events.map LiveEvent.edit →
          NewestFirst (editedBy (sorted posts) edits) := by
    constructor
    · intro h edits hedits
      obtain ⟨pre, hpre, rfl⟩ := List.prefix_map_iff.mp hedits
      exact h pre hpre _ (process_eq _ pre)
    · intro h pre hpre vm₁ hrun
      rw [process_eq] at hrun
      cases hrun
      exact h _ (hpre.map LiveEvent.edit)
  have harrivals : ArrivesNewest (vm.retrieveAllPosts posts) events ↔
      ∀ pre edit, pre ++ [edit] <+: events.map LiveEvent.edit → ∀ post, edit = .push post →
        ∀ listed ∈ editedBy (sorted posts) pre, listed.timestamp ≤ post.timestamp := by
    rw [forall_snoc_prefix_map]
    constructor
    · rintro h pre ⟨post, type⟩ hpre _ hedit
      cases type with
      | added =>
          cases hedit
          exact h pre post _ hpre (process_eq _ pre)
      | removed => cases hedit
    · intro h pre post vm₁ hpre hrun
      rw [process_eq] at hrun
      cases hrun
      exact h pre ⟨post, .added⟩ hpre post rfl
  rw [harrivals, ← Edit.run_sorted_iff (sorted_pairwise posts)]
  refine Iff.trans ?_ hlists
  constructor
  · exact fun h pre hpre vm₁ hrun => (h pre hpre vm₁ hrun).1
  · intro h pre hpre vm₁ hrun
    have hfirst := h pre hpre vm₁ hrun
    refine ⟨hfirst, ?_⟩
    intro again hperm
    exact hfirst.sameOrder (sorted_pairwise again) ((sorted_perm again).trans hperm)

/-- A third device posts with a clock behind that of the first one. -/
def postingBehind : List Act :=
  [.move (.createPost 2 otherKey "late" 0),
    .move (.commit 2 (.setValue otherKey ⟨"late", "mia", 0, none⟩)),
    .move (.createdPost 2 otherKey 1), .move (.commit 2 (.updateChildValues otherKey 1)),
    .turn 1 .deliver, .turn 1 .deliver]

/-- Its post is shown on top, and a reload would show it below. -/
theorem slow_clock_on_top :
    ∃ s, (timeline (devices .committed)).run (opening ++ posting ++ postingBehind) = some s ∧
      (s.clients 1).screen.posts.map Post.timestamp = [1, 2] ∧
      (sorted (s.clients 1).screen.posts).map Post.timestamp = [2, 1] ∧
      ¬ NewestFirst (s.clients 1).screen.posts := by
  have hrun : ((timeline (devices .committed)).run (opening ++ posting ++ postingBehind)).map
      (fun s => (s.clients 1).screen.posts) =
        some [⟨"late", "mia", 1, some otherKey⟩, ⟨"hello", "mia", 2, some pushKey⟩] := rfl
  obtain ⟨s, hs, hposts⟩ := Option.map_eq_some_iff.mp hrun
  refine ⟨s, hs, ?_⟩
  rw [hposts]
  refine ⟨rfl, rfl, ?_⟩
  intro hfirst
  have hle : (2 : Double) ≤ 1 := (List.pairwise_cons.mp hfirst).1 _ (List.mem_singleton_self _)
  exact absurd hle (by decide)

end SocialTimeline
