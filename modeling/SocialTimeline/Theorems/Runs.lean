import SocialTimeline.App.TimelineViewModel
import SocialTimeline.Lib.Channels

/-!
# Whole runs of live events

What a finite stream of live events makes of the retrieved posts.

* `run_reference` — the list after a run in closed form, and the operation each
  event emits on the way;
* `interleaving_irrelevant` — the two merged observers may be interleaved in any
  way that keeps the order of the events of each key.
-/

namespace SocialTimeline

open FirebaseTimelineService Lib TimelineViewModel

/-! ## Reference meaning -/

/-- The keys that removed events of a run name. -/
def removedKeys : List LiveEvent → List (Option String)
  | [] => []
  | ⟨_, .added⟩ :: events => removedKeys events
  | ⟨post, .removed⟩ :: events => post.databaseKey :: removedKeys events

/-- The posts added by a run and not removed later in it, latest arrival
first. -/
def standing : List LiveEvent → List Post
  | [] => []
  | ⟨post, .added⟩ :: events =>
      standing events ++ if post.databaseKey ∈ removedKeys events then [] else [post]
  | ⟨_, .removed⟩ :: events => standing events

/-- No added event of the run carries a key listed at that moment. -/
def AddsUnlisted (vm : TimelineViewModel) (events : List LiveEvent) : Prop :=
  ∀ pre post vm₁, pre ++ [⟨post, .added⟩] <+: events → vm.process pre = .ok vm₁ →
    post.databaseKey ∉ vm₁.posts.map Post.databaseKey

/-- What `newPosts` hands on for an event: the top for an added one, the
position of the only entry with the key for a removed one that is listed, and
nothing otherwise. -/
def Emits (vm : TimelineViewModel) (event : LiveEvent) : Prop :=
  match event.type with
  | .added => ∃ vm', vm.newPosts event = .ok (vm', some ⟨event.post, .added, 0⟩)
  | .removed =>
      if event.post.databaseKey ∈ vm.posts.map Post.databaseKey then
        ∃ vm' index, vm.newPosts event = .ok (vm', some ⟨event.post, .removed, index⟩) ∧
          ∀ j, (vm.posts.map Post.databaseKey)[j]? = some event.post.databaseKey ↔ j = index
      else vm.newPosts event = .ok (vm, none)

theorem dropped_edits (events : List LiveEvent) :
    Edit.dropped (events.map LiveEvent.edit) = removedKeys events := by
  induction events with
  | nil => rfl
  | cons event events ih =>
      rcases event with ⟨post, type⟩
      cases type with
      | added => exact ih
      | removed => exact congrArg (post.databaseKey :: ·) ih

theorem survivors_edits (events : List LiveEvent) :
    Edit.survivors Post.databaseKey (events.map LiveEvent.edit) = standing events := by
  induction events with
  | nil => rfl
  | cons event events ih =>
      rcases event with ⟨post, type⟩
      cases type with
      | added =>
          simp only [List.map_cons, LiveEvent.edit, Edit.survivors, ih, dropped_edits, standing]
      | removed => exact ih

/-- Added events that find their key unlisted are fresh pushes. -/
theorem addsUnlisted_iff {vm : TimelineViewModel} {events : List LiveEvent} :
    AddsUnlisted vm events ↔
      Edit.FreshRun Post.databaseKey vm.posts (events.map LiveEvent.edit) := by
  rw [Edit.freshRun_iff, forall_snoc_prefix_map]
  constructor
  · rintro h pre ⟨post, type⟩ hpre
    cases type with
    | added => exact h pre post _ hpre (process_eq vm pre)
    | removed => trivial
  · intro h pre post vm₁ hpre hrun
    rw [process_eq] at hrun
    cases hrun
    exact h pre ⟨post, .added⟩ hpre

/-- Over distinct keys each event emits its one operation. -/
theorem emits {vm : TimelineViewModel} (h : (vm.posts.map Post.databaseKey).Nodup)
    (event : LiveEvent) : Emits vm event := by
  rcases event with ⟨post, type⟩
  cases type with
  | added => exact ⟨_, newPosts_eq vm ⟨post, .added⟩⟩
  | removed =>
      have heq := newPosts_eq vm ⟨post, .removed⟩
      unfold Emits
      simp only
      cases hop : vm.postOperation post .removed with
      | none =>
          obtain ⟨-, hunlisted⟩ := postOperation_eq_none.mp hop
          rw [if_neg hunlisted]
          simp only [newPosts, hop]
      | some operation =>
          obtain ⟨hpost, htype, hlt, -⟩ := postOperation_removed hop
          have hindex := postOperation_key hop
          rw [if_pos (List.mem_of_getElem? hindex)]
          refine ⟨vm.after ⟨post, .removed⟩, operation.index, ?_, ?_⟩
          · rw [heq, hop]
            rcases operation with ⟨post', type', index⟩
            cases hpost
            cases htype
            rfl
          · intro j
            constructor
            · intro hj
              have hlen : operation.index < (vm.posts.map Post.databaseKey).length := by
                rwa [List.length_map]
              exact ((List.getElem?_inj hlen h).mp (hindex.trans hj.symm)).symm
            · rintro rfl
              exact hindex

/-- **Reference meaning of a run.** Let the retrieved list have distinct keys and
no added event carry a key listed at that moment. Then the run leaves the added
posts not removed later, latest arrival first, and behind them the retrieved
posts whose keys it never removes, newest first. On the way keys stay distinct,
and every event emits the one operation it should. -/
theorem run_reference (vm : TimelineViewModel) (posts : List Post) (events : List LiveEvent)
    (hdistinct : (posts.map Post.databaseKey).Nodup)
    (hadds : AddsUnlisted (vm.retrieveAllPosts posts) events) :
    (vm.retrieveAllPosts posts).process events =
        .ok { vm with posts := standing events ++
          (sorted posts).filter fun post => post.databaseKey ∉ removedKeys events } ∧
      (sorted posts).Perm posts ∧
      ((sorted posts).Pairwise fun a b => b.timestamp ≤ a.timestamp) ∧
      ∀ pre, pre <+: events → ∃ vm₁, (vm.retrieveAllPosts posts).process pre = .ok vm₁ ∧
        (vm₁.posts.map Post.databaseKey).Nodup ∧
        ∀ event, pre ++ [event] <+: events → Emits vm₁ event := by
  have hsorted : Edit.Distinct Post.databaseKey (sorted posts) := by
    have hperm := (sorted_perm posts).map Post.databaseKey
    exact hperm.nodup_iff.mpr hdistinct
  have hfresh : Edit.FreshRun Post.databaseKey (sorted posts) (events.map LiveEvent.edit) :=
    addsUnlisted_iff.mp hadds
  refine ⟨?_, sorted_perm posts, sorted_pairwise posts, ?_⟩
  · have hrun := Edit.run_eq_survivors hsorted hfresh
    simp only [survivors_edits, dropped_edits] at hrun
    rw [process_eq]
    exact congrArg (fun posts => Except.ok { vm with posts }) hrun
  · rintro pre ⟨suf, rfl⟩
    rw [List.map_append, Edit.freshRun_append] at hfresh
    have hpre : (((editedBy (sorted posts) (pre.map LiveEvent.edit))).map
        Post.databaseKey).Nodup := hsorted.run hfresh.1
    exact ⟨_, process_eq _ pre, hpre, fun event _ => emits hpre event⟩

/-! ### The service of the tests

`TimelineServiceMock`: five retrieved posts, the oldest first, and three live
events. -/

namespace TimelineServiceMock

def post (value : Nat) : Post where
  message := "message " ++ toString value
  user := "user " ++ toString (value % 2)
  timestamp := value
  databaseKey := some ("key" ++ toString value)

def retrievePosts : List Post := [post 1, post 2, post 3, post 4, post 5]

def postOne : Post := ⟨"message", "user1", 1, some "key"⟩

def postTwo : Post := ⟨"message", "user2", 2, some "key2"⟩

def startLiveUpdating : List LiveEvent :=
  [⟨postOne, .added⟩, ⟨postTwo, .added⟩, ⟨postOne, .removed⟩]

end TimelineServiceMock

/-- The mock's events, once the retrieved post whose key they repeat is gone,
and then one more removal, of a key no longer listed, and one more addition. -/
theorem run_reference_mock :
    (({ user := ⟨"user", "id"⟩ } : TimelineViewModel).retrieveAllPosts
        TimelineServiceMock.retrievePosts).process
          (⟨TimelineServiceMock.post 2, .removed⟩ :: TimelineServiceMock.startLiveUpdating ++
            [⟨TimelineServiceMock.postOne, .removed⟩, ⟨TimelineServiceMock.postOne, .added⟩]) =
      .ok
        { user := ⟨"user", "id"⟩
          posts := [TimelineServiceMock.postOne, TimelineServiceMock.postTwo,
            TimelineServiceMock.post 5, TimelineServiceMock.post 4, TimelineServiceMock.post 3,
            TimelineServiceMock.post 1] } := by
  refine (run_reference _ _ _ (by decide) (addsUnlisted_iff.mpr ?_)).1.trans ?_
  · decide
  · decide

/-! ## Order independence -/

/-- The channels of live events: one for all added events, and one for each
key. -/
def channel : Option (Option String) → LiveEvent → Bool
  | none, event => event.type = .added
  | some key, event => event.post.databaseKey = key

/-- Events on different keys, not both added, commute. -/
theorem edited_comm {e f : LiveEvent} (h : Unrelated channel e f) (posts : List Post) :
    edited (edited posts e.edit) f.edit = edited (edited posts f.edit) e.edit := by
  refine Edit.exec_comm Post.databaseKey posts ?_ ?_
  · rw [target_edit, target_edit]
    intro hkey
    have hfalse := h (some e.post.databaseKey) (by simp [channel])
    simp [channel, hkey] at hfalse
  · rintro a b ⟨he, hf⟩
    have added : ∀ {event : LiveEvent} {post : Post}, event.edit = .push post →
        event.type = .added := by
      rintro ⟨post, type⟩ _ hedit
      cases type with
      | added => rfl
      | removed => cases hedit
    have hfalse := h none (by simp [channel, added he])
    simp [channel, added hf] at hfalse

/-- **Order independence of the merged observers.** Two interleavings of the same
added and removed events that agree on the order of the events of each key both go
through and leave the same view model. -/
theorem interleaving_irrelevant (vm : TimelineViewModel)
    {added removed merged merged' : List LiveEvent}
    (hadded : ∀ event ∈ added, event.type = .added)
    (hremoved : ∀ event ∈ removed, event.type = .removed)
    (hmerged : Interleave added removed merged) (hmerged' : Interleave added removed merged')
    (hkeys : ∀ key, merged.filter (fun event => event.post.databaseKey = key) =
      merged'.filter fun event => event.post.databaseKey = key) :
    ∃ vm', vm.process merged = .ok vm' ∧ vm.process merged' = .ok vm' := by
  have hleft : ∀ event ∈ added, channel none event = true :=
    fun event h => decide_eq_true (hadded event h)
  have hright : ∀ event ∈ removed, channel none event = false := by
    intro event h
    simp [channel, hremoved event h]
  have hchannels : ∀ i, merged.filter (channel i) = merged'.filter (channel i) := by
    intro i
    cases i with
    | none =>
        rw [hmerged.filter_left hleft hright, hmerged'.filter_left hleft hright]
    | some key => exact hkeys key
  have hfold : merged.foldl (fun posts event => edited posts event.edit) vm.posts =
      merged'.foldl (fun posts event => edited posts event.edit) vm.posts :=
    foldl_eq_of_channels (fun event => ⟨some event.post.databaseKey, by simp [channel]⟩)
      (fun e f h posts => edited_comm h posts) hchannels vm.posts
  have hposts : ∀ events : List LiveEvent, editedBy vm.posts (events.map LiveEvent.edit) =
      events.foldl (fun posts event => edited posts event.edit) vm.posts :=
    fun events => List.foldl_map
  refine ⟨_, process_eq vm merged, ?_⟩
  rw [process_eq, hposts, hposts, hfold]

/-- The mock's first addition and a removal, in either order, on a list that has
the removed key twice. -/
theorem interleaving_irrelevant_mock :
    let vm : TimelineViewModel :=
      ⟨⟨"user", "id"⟩, [TimelineServiceMock.postTwo, TimelineServiceMock.postTwo]⟩
    ∃ vm', vm.process
        [⟨TimelineServiceMock.postOne, .added⟩, ⟨TimelineServiceMock.postTwo, .removed⟩] =
          .ok vm' ∧
      vm.process
        [⟨TimelineServiceMock.postTwo, .removed⟩, ⟨TimelineServiceMock.postOne, .added⟩] =
          .ok vm' := by
  have hadded : ∀ event ∈ [LiveEvent.mk TimelineServiceMock.postOne .added],
      event.type = .added := by decide
  have hremoved : ∀ event ∈ [LiveEvent.mk TimelineServiceMock.postTwo .removed],
      event.type = .removed := by decide
  refine interleaving_irrelevant _ hadded hremoved (.left (.right .nil)) (.right (.left .nil)) ?_
  intro key
  by_cases hkey : TimelineServiceMock.postOne.databaseKey = key
  · subst hkey
    decide
  · simp [List.filter_cons, hkey]

end SocialTimeline
