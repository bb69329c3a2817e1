import SocialTimeline.App.TimelineViewController

/-!
# The table stays in step with the data source

The index of an operation is computed on the list of posts, the list is changed
by one operator and the table by the subscriber behind it.

* `InStep` — the rows show exactly the posts of the data source, in order, and
  row identities are distinct;
* `receive_inStep` — one live event brought through `newPosts` and the
  subscriber never aborts and keeps the two in step;
* `Follows` — no row changes the post it shows, across any run of events;
* `Screen` — a controller in step by construction, with total operations.
-/

namespace SocialTimeline

open FirebaseTimelineService Lib

namespace TimelineViewController

/-- The rows show the posts of the data source, and are told apart by their
identities. -/
structure InStep (c : TimelineViewController) : Prop where
  shows : c.table.rows.map Row.post = c.viewModel.posts
  ids : (c.table.rows.map Row.id).Nodup
  below : ∀ row ∈ c.table.rows, row.id < c.table.nextRow

/-- `c'` comes later than `c` on the same screen: its rows are rows of `c`, with
the posts they showed there, or were made since. -/
structure Follows (c c' : TimelineViewController) : Prop where
  user : c'.viewModel.user = c.viewModel.user
  rows : ∀ row ∈ c'.table.rows, row ∈ c.table.rows ∨ c.table.nextRow ≤ row.id
  next : c.table.nextRow ≤ c'.table.nextRow

theorem Follows.refl (c : TimelineViewController) : Follows c c :=
  ⟨rfl, fun _ h => .inl h, Nat.le_refl _⟩

theorem Follows.trans {c₁ c₂ c₃ : TimelineViewController} (h : Follows c₁ c₂)
    (h' : Follows c₂ c₃) : Follows c₁ c₃ := by
  refine ⟨h'.user.trans h.user, ?_, h.next.trans h'.next⟩
  intro row hrow
  rcases h'.rows row hrow with hmem | hnew
  · exact h.rows row hmem
  · exact .inr (h.next.trans hnew)

theorem InStep.length {c : TimelineViewController} (h : InStep c) :
    c.table.rows.length = c.viewModel.numberOfPosts := by
  have hlen := congrArg List.length h.shows
  rwa [List.length_map] at hlen

/-! ## Reloading -/

theorem freshRows_post (start : Nat) (posts : List Post) :
    (freshRows start posts).map Row.post = posts := by
  induction posts generalizing start with
  | nil => rfl
  | cons post posts ih => rw [freshRows, List.map_cons, ih]

theorem freshRows_id (start : Nat) (posts : List Post) :
    (freshRows start posts).map Row.id = List.range' start posts.length := by
  induction posts generalizing start with
  | nil => rfl
  | cons post posts ih => rw [freshRows, List.map_cons, ih, List.length_cons, List.range'_succ]

/-- A reload puts the table in step, whatever it showed before. -/
theorem reloadData_inStep (c : TimelineViewController) : InStep c.reloadData := by
  refine ⟨freshRows_post _ _, ?_, ?_⟩
  · show ((freshRows _ _).map Row.id).Nodup
    rw [freshRows_id]
    exact List.nodup_range'
  · intro row hrow
    have hid : row.id ∈ (freshRows c.table.nextRow c.viewModel.posts).map Row.id :=
      List.mem_map_of_mem hrow
    rw [freshRows_id, List.mem_range'_1] at hid
    exact hid.2

theorem retrieved_inStep (c : TimelineViewController) (posts : List Post) :
    InStep (c.retrieved posts) :=
  reloadData_inStep _

/-! ## One live event -/

/-- The controller with a new row on top. -/
def withTopRow (c : TimelineViewController) (post : Post) : TimelineViewController where
  viewModel := { c.viewModel with posts := post :: c.viewModel.posts }
  table :=
    { rows := { id := c.table.nextRow, post } :: c.table.rows
      nextRow := c.table.nextRow + 1 }

/-- The controller without the row at an index. -/
def withoutRow (c : TimelineViewController) (index : Nat) : TimelineViewController where
  viewModel := { c.viewModel with posts := c.viewModel.posts.eraseIdx index }
  table := { c.table with rows := c.table.rows.eraseIdx index }

theorem InStep.withTopRow {c : TimelineViewController} (h : InStep c) (post : Post) :
    InStep (c.withTopRow post) := by
  refine ⟨congrArg (post :: ·) h.shows, ?_, ?_⟩
  · refine List.nodup_cons.mpr ⟨?_, h.ids⟩
    intro hmem
    obtain ⟨row, hrow, hid⟩ := List.mem_map.mp hmem
    have hlt := h.below row hrow
    have heq : row.id = c.table.nextRow := hid
    omega
  · intro row hrow
    show row.id < c.table.nextRow + 1
    rcases List.mem_cons.mp hrow with rfl | hrow
    · exact Nat.lt_succ_self _
    · exact Nat.lt_succ_of_lt (h.below row hrow)

theorem follows_withTopRow (c : TimelineViewController) (post : Post) :
    Follows c (c.withTopRow post) := by
  refine ⟨rfl, ?_, Nat.le_succ _⟩
  intro row hrow
  rcases List.mem_cons.mp hrow with rfl | hrow
  · exact .inr (Nat.le_refl _)
  · exact .inl hrow

theorem InStep.withoutRow {c : TimelineViewController} (h : InStep c) (index : Nat) :
    InStep (c.withoutRow index) := by
  refine ⟨?_, ?_, ?_⟩
  · show (c.table.rows.eraseIdx index).map Row.post = c.viewModel.posts.eraseIdx index
    rw [← List.eraseIdx_map, h.shows]
  · show ((c.table.rows.eraseIdx index).map Row.id).Nodup
    rw [← List.eraseIdx_map]
    exact h.ids.sublist (List.eraseIdx_sublist _ _)
  · exact fun row hrow => h.below row (List.mem_of_mem_eraseIdx hrow)

theorem follows_withoutRow (c : TimelineViewController) (index : Nat) :
    Follows c (c.withoutRow index) :=
  ⟨rfl, fun _ hrow => .inl (List.mem_of_mem_eraseIdx hrow), Nat.le_refl _⟩

/-- An event without an operation changes neither the posts nor the table. -/
theorem receive_ignored {c : TimelineViewController} {event : LiveEvent}
    (hop : c.viewModel.postOperation event.post event.type = none) : c.receive event = .ok c := by
  simp only [receive, TimelineViewModel.newPosts, hop]
  rfl

/-- An added event: `insertRows` at the top fits. -/
theorem receive_added {c : TimelineViewController} (h : InStep c) (post : Post) :
    c.receive ⟨post, .added⟩ = .ok (c.withTopRow post) := by
  have hlen := h.length
  have hfits : 0 ≤ c.table.rows.length ∧
      (post :: c.viewModel.posts).length = c.table.rows.length + 1 :=
    ⟨Nat.zero_le _, by rw [hlen]; rfl⟩
  show insertRows { c with
    viewModel := { c.viewModel with posts := post :: c.viewModel.posts } } 0 = _
  exact if_pos hfits

/-- A removed event of a listed key: `deleteRows` at the index of the operation
fits. -/
theorem receive_removed {c : TimelineViewController} (h : InStep c) {post : Post}
    {operation : PostOperation}
    (hop : c.viewModel.postOperation post .removed = some operation) :
    c.receive ⟨post, .removed⟩ = .ok (c.withoutRow operation.index) := by
  obtain ⟨-, htype, hlt, -⟩ := TimelineViewModel.postOperation_removed hop
  have hlen : c.table.rows.length = c.viewModel.posts.length := h.length
  have herase := List.length_eraseIdx_of_lt hlt
  have hupdate : c.viewModel.updateDataSource operation =
      .ok { c.viewModel with posts := c.viewModel.posts.eraseIdx operation.index } := by
    simp only [TimelineViewModel.updateDataSource, htype, if_pos hlt]
  have hfits : operation.index < c.table.rows.length ∧
      (c.viewModel.posts.eraseIdx operation.index).length + 1 = c.table.rows.length := by
    omega
  have hdelete : deleteRows { c with
      viewModel := { c.viewModel with posts := c.viewModel.posts.eraseIdx operation.index } }
        operation.index = .ok (c.withoutRow operation.index) := by
    exact if_pos hfits
  simp only [receive, TimelineViewModel.newPosts, hop, hupdate]
  show onNext _ operation = _
  simp only [onNext, htype]
  exact hdelete

/-- **One event.** Brought through `newPosts` and the subscriber it never aborts;
the posts are edited, the table stays in step, and no row changes its post. -/
theorem receive_inStep {c : TimelineViewController} (h : InStep c) (event : LiveEvent) :
    ∃ c', c.receive event = .ok c' ∧ c'.viewModel = c.viewModel.after event ∧
      InStep c' ∧ Follows c c' := by
  cases hop : c.viewModel.postOperation event.post event.type with
  | none =>
      have hafter : c.viewModel.after event = c.viewModel :=
        TimelineViewModel.after_of_ignored hop
      exact ⟨c, receive_ignored hop, hafter.symm, h, Follows.refl c⟩
  | some operation =>
      rcases event with ⟨post, type⟩
      cases type with
      | added =>
          exact ⟨c.withTopRow post, receive_added h post, rfl, h.withTopRow post,
            follows_withTopRow c post⟩
      | removed =>
          obtain ⟨-, -, -, herase⟩ := TimelineViewModel.postOperation_removed hop
          refine ⟨c.withoutRow operation.index, receive_removed h hop, ?_, h.withoutRow _,
            follows_withoutRow c _⟩
          show ({ c.viewModel with posts := c.viewModel.posts.eraseIdx operation.index } :
            TimelineViewModel) = _
          rw [herase]
          rfl

theorem receiveAll_append (c : TimelineViewController) (events events' : List LiveEvent) :
    c.receiveAll (events ++ events') = c.receiveAll events >>= fun c => c.receiveAll events' := by
  induction events generalizing c with
  | nil => rfl
  | cons event events ih =>
      show (c.receive event >>= fun c => c.receiveAll (events ++ events')) =
        (c.receive event >>= fun c => c.receiveAll events) >>= fun c => c.receiveAll events'
      cases c.receive event with
      | error crash => rfl
      | ok c' => exact ih c'

theorem receiveAll_singleton (c : TimelineViewController) (event : LiveEvent) :
    c.receiveAll [event] = c.receive event := by
  show (c.receive event >>= fun c => .ok c) = _
  cases c.receive event <;> rfl

/-- A run of live events. -/
theorem receiveAll_inStep {c : TimelineViewController} (h : InStep c) (events : List LiveEvent) :
    ∃ c', c.receiveAll events = .ok c' ∧
      c'.viewModel.posts = editedBy c.viewModel.posts (events.map LiveEvent.edit) ∧
      InStep c' ∧ Follows c c' := by
  induction events generalizing c with
  | nil => exact ⟨c, rfl, rfl, h, Follows.refl c⟩
  | cons event events ih =>
      obtain ⟨c₁, hstep, hvm, hin, hfollows⟩ := receive_inStep h event
      obtain ⟨c₂, hrest, hposts, hin', hfollows'⟩ := ih hin
      refine ⟨c₂, ?_, ?_, hin', hfollows.trans hfollows'⟩
      · show (c.receive event >>= fun c => c.receiveAll events) = _
        rw [hstep]
        exact hrest
      · rw [hposts, hvm]
        rfl

/-- A run of child events is the run of the live events they decode to. -/
theorem observeAll_eq (c : TimelineViewController) (events : List DataEvent) :
    c.observeAll events = c.receiveAll (events.filterMap startLiveUpdating) := by
  induction events generalizing c with
  | nil => rfl
  | cons event events ih =>
      show (c.observe event >>= fun c => c.observeAll events) = _
      unfold observe
      cases hlive : startLiveUpdating event with
      | none =>
          rw [List.filterMap_cons_none hlive]
          exact ih c
      | some live =>
          rw [List.filterMap_cons_some hlive]
          show (c.receive live >>= fun c => c.observeAll events) = _
          simp only [ih]
          rfl

end TimelineViewController

/-! ## Screens -/

open TimelineViewController

/-- A timeline screen whose table is in step with its posts. -/
structure Screen where
  controller : TimelineViewController
  inStep : controller.InStep

namespace Screen

def posts (screen : Screen) : List Post := screen.controller.viewModel.posts

/-- What the rows of the table show, from the top. -/
def shown (screen : Screen) : List Post := screen.controller.table.rows.map Row.post

theorem shown_eq (screen : Screen) : screen.shown = screen.posts := screen.inStep.shows

/-- A screen just opened. -/
def opened (user : User) : Screen where
  controller := TimelineViewController.opened user
  inStep := ⟨rfl, List.nodup_nil, nofun⟩

/-- The screen once the posts are retrieved. -/
def retrieved (screen : Screen) (posts : List Post) : Screen where
  controller := screen.controller.retrieved posts
  inStep := retrieved_inStep _ _

theorem receive_ok {c c' : TimelineViewController} (h : InStep c) {event : LiveEvent}
    (hreceive : c.receive event = .ok c') : InStep c' := by
  obtain ⟨c₁, hok, -, hin, -⟩ := receive_inStep h event
  rw [hok] at hreceive
  cases hreceive
  exact hin

/-- A live event on a screen; the failure branch is never taken
(`receive_eq`). -/
def receive (screen : Screen) (event : LiveEvent) : Screen :=
  match h : screen.controller.receive event with
  | .ok controller => { controller, inStep := receive_ok screen.inStep h }
  | .error _ => screen

/-- The controller of a screen receives without aborting. -/
theorem receive_eq (screen : Screen) (event : LiveEvent) :
    screen.controller.receive event = .ok (screen.receive event).controller := by
  obtain ⟨c', hok, -⟩ := receive_inStep screen.inStep event
  unfold receive
  split
  · assumption
  · rename_i crash herror
    rw [hok] at herror
    cases herror

@[simp] theorem posts_retrieved (screen : Screen) (posts : List Post) :
    (screen.retrieved posts).posts = TimelineViewModel.sorted posts := rfl

/-- A live event edits the posts of a screen. -/
@[simp] theorem posts_receive (screen : Screen) (event : LiveEvent) :
    (screen.receive event).posts = edited screen.posts event.edit := by
  obtain ⟨c', hok, hvm, -⟩ := receive_inStep screen.inStep event
  have heq := receive_eq screen event
  rw [hok] at heq
  cases heq
  unfold posts
  rw [hvm]
  rfl

end Screen

end SocialTimeline
