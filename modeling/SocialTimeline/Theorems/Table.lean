import SocialTimeline.Logic.TableInStep
import SocialTimeline.Logic.BulkRead

/-!
# The table on screen

Over every retrieved list and every run of events: no table update can make
UIKit abort, because each call fits the data source at the moment it is made
(`table_follows_posts`); and a delete confirmed on a row, however many events
after the swipe, removes the post that was swiped, which is the user's own
(`swiped_post_removed`).
-/

namespace SocialTimeline

open FirebaseTimelineService Lib TimelineViewController

/-- What an event comes to at the table. Without an operation nothing changes.
Otherwise the data source is updated without a trap, the one call made on the
table has an index in range of the rows it has, the data source reports one row
more or less than these, and afterwards the rows show the posts again. -/
def TimelineViewController.CallFits (c : TimelineViewController) (event : LiveEvent) : Prop :=
  match c.viewModel.postOperation event.post event.type with
  | none => c.receive event = .ok c
  | some operation =>
      ∃ viewModel c', c.viewModel.updateDataSource operation = .ok viewModel ∧
        onNext { c with viewModel } operation = .ok c' ∧ c.receive event = .ok c' ∧
        c'.viewModel = viewModel ∧ c'.table.rows.map Row.post = viewModel.posts ∧
        match operation.type with
        | .added =>
            operation.index ≤ c.table.rows.length ∧
              viewModel.numberOfPosts = c.table.rows.length + 1
        | .removed =>
            operation.index < c.table.rows.length ∧
              viewModel.numberOfPosts + 1 = c.table.rows.length

/-- A table in step takes every event. -/
theorem TimelineViewController.InStep.callFits {c : TimelineViewController} (h : InStep c)
    (event : LiveEvent) : CallFits c event := by
  have hlen : c.table.rows.length = c.viewModel.posts.length := h.length
  unfold CallFits
  rcases event with ⟨post, type⟩
  cases type with
  | added =>
      have hin := h.withTopRow post
      refine ⟨{ c.viewModel with posts := post :: c.viewModel.posts }, c.withTopRow post, rfl,
        receive_added h post, receive_added h post, rfl, hin.shows, Nat.zero_le _, ?_⟩
      show c.viewModel.posts.length + 1 = c.table.rows.length + 1
      omega
  | removed =>
      cases hop : c.viewModel.postOperation post .removed with
      | none => exact receive_ignored hop
      | some operation =>
          obtain ⟨-, htype, hlt, -⟩ := TimelineViewModel.postOperation_removed hop
          have hupdate : c.viewModel.updateDataSource operation =
              .ok { c.viewModel with posts := c.viewModel.posts.eraseIdx operation.index } := by
            simp only [TimelineViewModel.updateDataSource, htype, if_pos hlt]
          have hreceive := receive_removed h hop
          have hcall : onNext { c with
              viewModel := { c.viewModel with
                posts := c.viewModel.posts.eraseIdx operation.index } } operation =
              .ok (c.withoutRow operation.index) := by
            have hunfold := hreceive
            simp only [receive, TimelineViewModel.newPosts, hop, hupdate] at hunfold
            exact hunfold
          refine ⟨_, c.withoutRow operation.index, hupdate, hcall, hreceive, rfl,
            (h.withoutRow operation.index).shows, ?_⟩
          have herase := List.length_eraseIdx_of_lt hlt
          simp only [htype]
          show operation.index < c.table.rows.length ∧
            (c.viewModel.posts.eraseIdx operation.index).length + 1 = c.table.rows.length
          omega

/-- **Table and data source never disagree.** From any retrieved list, every run
of live events goes through without a crash, event by event, and leaves rows that
read as the posts; each event of it finds its call fitting, and so does every
further one. -/
theorem table_follows_posts (user : User) (posts : List Post) (events : List LiveEvent) :
    ∃ c, ((opened user).retrieved posts).receiveAll events = .ok c ∧
      c.table.rows.map Row.post = c.viewModel.posts ∧ (∀ event, CallFits c event) ∧
      ∀ pre event, pre ++ [event] <+: events →
        ∃ c₁ c₂, ((opened user).retrieved posts).receiveAll pre = .ok c₁ ∧ CallFits c₁ event ∧
          c₁.receive event = .ok c₂ ∧
          ((opened user).retrieved posts).receiveAll (pre ++ [event]) = .ok c₂ := by
  have hopened := retrieved_inStep (opened user) posts
  obtain ⟨c, hrun, -, hin, -⟩ := receiveAll_inStep hopened events
  refine ⟨c, hrun, hin.shows, hin.callFits, ?_⟩
  intro pre event _
  obtain ⟨c₁, hpre, -, hin₁, -⟩ := receiveAll_inStep hopened pre
  obtain ⟨c₂, hevent, -⟩ := receive_inStep hin₁ event
  refine ⟨c₁, c₂, hpre, hin₁.callFits event, hevent, ?_⟩
  rw [receiveAll_append, hpre]
  exact (receiveAll_singleton c₁ event).trans hevent

/-! ## Swipe to delete -/

/-- Rows of a later table with the identity of an earlier row show its post. -/
theorem TimelineViewController.Follows.same_post {c c' : TimelineViewController}
    (hin : InStep c) (h : Follows c c') {row row' : Row} (hrow : row ∈ c.table.rows)
    (hrow' : row' ∈ c'.table.rows) (hid : row'.id = row.id) : row'.post = row.post := by
  rcases h.rows row' hrow' with hold | hnew
  · have heq : row' = row := List.inj_on_of_nodup_map hin.ids hold hrow hid
    rw [heq]
  · have hlt := hin.below row hrow
    omega

/-- In step, the post at a row's index is the post the row shows. -/
theorem TimelineViewController.InStep.postAt {c : TimelineViewController} (h : InStep c)
    {index : Nat} {row : Row} (hrow : c.table.rows[index]? = some row) :
    c.viewModel.posts[index]? = some row.post := by
  rw [← h.shows, List.getElem?_map, hrow]
  rfl

/-- Every listed post carries a database key. -/
def Keyed (posts : List Post) : Prop := ∀ post ∈ posts, ∃ key, post.databaseKey = some key

theorem retrieveAll_keyed {foundation : Foundation} {dict : NSDictionary} {keys : List String}
    {posts : List Post} (h : retrieveAll foundation dict keys = .ok posts) : Keyed posts := by
  obtain ⟨-, rfl⟩ := retrieveAll_eq_ok.mp h
  intro post hpost
  obtain ⟨key, -, hfound⟩ := List.mem_filterMap.mp hpost
  exact ⟨key, foundPost_databaseKey hfound⟩

/-- The service lists only posts with a key. -/
theorem retrievePosts_keyed {foundation : Foundation} {event : ValueEvent} {posts : List Post}
    (h : retrievePosts foundation event = .ok posts) : Keyed posts := by
  cases event with
  | cancelled => cases h
  | value snapshot =>
      simp only [retrievePosts] at h
      split at h
      · cases h
        exact fun _ hpost => absurd hpost List.not_mem_nil
      · split at h
        · rename_i hall
          cases h
          exact retrieveAll_keyed hall
        · cases h

/-- Events from the live observers keep every listed post keyed. -/
theorem Keyed.editedBy {posts : List Post} (h : Keyed posts) (events : List DataEvent) :
    Keyed (editedBy posts ((events.filterMap startLiveUpdating).map LiveEvent.edit)) := by
  intro post hpost
  rcases Edit.mem_run Post.databaseKey hpost with hold | hnew
  · exact h post hold
  · obtain ⟨live, hlive, hedit⟩ := List.mem_map.mp hnew
    obtain ⟨event, -, hdecode⟩ := List.mem_filterMap.mp hlive
    have hkey := startLiveUpdating_databaseKey hdecode
    rcases live with ⟨livePost, type⟩
    cases type with
    | added =>
        cases hedit
        exact ⟨event.key, hkey⟩
    | removed => cases hedit

/-- A decoded run of events on a screen in step with keyed posts. -/
theorem observeAll_inStep {c : TimelineViewController} (h : InStep c)
    (hkeyed : Keyed c.viewModel.posts) (events : List DataEvent) :
    ∃ c', c.observeAll events = .ok c' ∧ InStep c' ∧ Follows c c' ∧
      Keyed c'.viewModel.posts := by
  obtain ⟨c', hrun, hposts, hin, hfollows⟩ :=
    receiveAll_inStep h (events.filterMap startLiveUpdating)
  refine ⟨c', (observeAll_eq c events).trans hrun, hin, hfollows, ?_⟩
  rw [hposts]
  exact hkeyed.editedBy events

/-- **Only one's own post, and the post one swiped, is deleted.** A row is swiped
after some events and, allowing it, confirmed after some more, at the index it
has then. The one removal issued is at the key of the post the row showed when
it was swiped, and that post is the user's. -/
theorem swiped_post_removed (foundation : Foundation) (snapshot : Node) (user : User)
    (posts : List Post) (before between : List DataEvent)
    (hread : retrievePosts foundation (.value snapshot) = .ok posts) :
    ∃ c₁ c₂, ((opened user).retrieved posts).observeAll before = .ok c₁ ∧
      c₁.observeAll between = .ok c₂ ∧
      ∀ (swiped confirmed : Nat) (row row' : Row),
        c₁.table.rows[swiped]? = some row → c₁.canEditRowAt swiped = .ok true →
        c₂.table.rows[confirmed]? = some row' → row'.id = row.id →
        ∃ key, row.post.databaseKey = some key ∧ row.post.user = user.username ∧
          confirmed < c₂.viewModel.posts.length ∧
          c₂.commit .delete confirmed = .ok [.removeValue key] ∧
          removePostReference row.post = some ⟨"posts/" ++ key, key⟩ := by
  have hkeyed : Keyed ((opened user).retrieved posts).viewModel.posts := by
    intro post hpost
    exact retrievePosts_keyed hread post (TimelineViewModel.mem_sorted.mp hpost)
  obtain ⟨c₁, hrun₁, hin₁, hfollows₁, hkeyed₁⟩ :=
    observeAll_inStep (retrieved_inStep (opened user) posts) hkeyed before
  obtain ⟨c₂, hrun₂, hin₂, hfollows₂, -⟩ := observeAll_inStep hin₁ hkeyed₁ between
  refine ⟨c₁, c₂, hrun₁, hrun₂, ?_⟩
  intro swiped confirmed row row' hrow hedit hrow' hid
  have hmem : row ∈ c₁.table.rows := List.mem_of_getElem? hrow
  have hsame : row'.post = row.post :=
    hfollows₂.same_post hin₁ hmem (List.mem_of_getElem? hrow') hid
  -- at the swipe: the row's post is listed, keyed and the user's own
  have hswiped := hin₁.postAt hrow
  obtain ⟨key, hkey⟩ := hkeyed₁ row.post (List.mem_of_getElem? hswiped)
  have hown : row.post.user = user.username := by
    have hallowed : (row.post.user == c₁.viewModel.user.username) = true := by
      simp only [canEditRowAt, TimelineViewModel.canErasePostAt, TimelineViewModel.postAt,
        hswiped, bind, Except.bind, pure, Except.pure, Except.ok.injEq] at hedit
      exact hedit
    have huser : c₁.viewModel.user = user := hfollows₁.user
    rw [huser] at hallowed
    exact eq_of_beq hallowed
  -- at the confirmation: the same post is at the row's index
  have hconfirmed := hin₂.postAt hrow'
  rw [hsame] at hconfirmed
  have hreference : removePostReference row.post = some ⟨"posts/" ++ key, key⟩ := by
    rw [removePostReference, hkey]
    rfl
  refine ⟨key, hkey, hown, (List.getElem?_eq_some_iff.mp hconfirmed).1, ?_, hreference⟩
  simp only [commit, if_pos, TimelineViewModel.removePostAt, TimelineViewModel.postAt, hconfirmed,
    removePost, hreference, bind, Except.bind, pure, Except.pure, Option.map_some,
    Option.toList_some]

/-- A post swiped in the second row, and deleted from the third one after another
post has come in. -/
theorem swiped_post_removed_below :
    ∃ c₁ c₂, ((opened ⟨"mia", "uid"⟩).retrieved [⟨"hello", "mia", 1, some "-M0a"⟩]).observeAll
        [⟨.childChanged, "-M0b",
          ({ message := "b", user := "leo", timestamp := 2 } : Post).toNode⟩] = .ok c₁ ∧
      c₁.canEditRowAt 1 = .ok true ∧
      c₁.observeAll
        [⟨.childChanged, "-M0c",
          ({ message := "c", user := "leo", timestamp := 3 } : Post).toNode⟩] = .ok c₂ ∧
      c₂.commit .delete 2 = .ok [.removeValue "-M0a"] := by
  obtain ⟨c₁, c₂, h₁, h₂, hall⟩ := swiped_post_removed .ascii
    (.children [("-M0a", ({ message := "hello", user := "mia", timestamp := 1 } : Post).toNode)])
    ⟨"mia", "uid"⟩ [⟨"hello", "mia", 1, some "-M0a"⟩]
    [⟨.childChanged, "-M0b", ({ message := "b", user := "leo", timestamp := 2 } : Post).toNode⟩]
    [⟨.childChanged, "-M0c", ({ message := "c", user := "leo", timestamp := 3 } : Post).toNode⟩] rfl
  refine ⟨c₁, c₂, h₁, ?_, h₂, ?_⟩
  · obtain rfl := Except.ok.inj (h₁ : Except.ok _ = Except.ok c₁)
    rfl
  · obtain rfl := Except.ok.inj (h₁ : Except.ok _ = Except.ok c₁)
    obtain rfl := Except.ok.inj (h₂ : Except.ok _ = Except.ok c₂)
    obtain ⟨key, hkey, -, -, hcommit, -⟩ := hall 1 2 _ _ rfl rfl rfl rfl
    cases hkey
    exact hcommit

end SocialTimeline
