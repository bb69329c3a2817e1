import SocialTimeline.App.FirebaseTimelineService
import SocialTimeline.Lib.KeyedEdits
import Mathlib.Data.List.Sort
import Mathlib.Algebra.Order.Ring.Rat

/-!
# `TimelineViewModel`

The list of posts behind the table, and the operator chain `newPosts`: each
live event is turned into an operation with an index (`postOperation`), events
without one are dropped, and the operation is carried out on the list
(`updateDataSource`) before the subscriber sees it.

The list is a list edited at the front and by key: an added event is a `push`
of its post and a removed event a `drop` of its post's `databaseKey`
(`LiveEvent.edit`). `newPosts_eq` says that the chain never traps and does to
the list what the edit does; everything about runs of events is proved of
edits and carried over by it.
-/

namespace SocialTimeline

open FirebaseTimelineService Lib

structure PostOperation where
  post : Post
  type : PostUpdateType
  index : Nat
  deriving DecidableEq

structure TimelineViewModel where
  user : User
  posts : List Post := []
  deriving DecidableEq

namespace TimelineViewModel

def insertIndex : Nat := 0

def numberOfPosts (vm : TimelineViewModel) : Nat := vm.posts.length

/-- `posts[index]`, which traps out of range. -/
def postAt (vm : TimelineViewModel) (index : Nat) : Except Crash Post :=
  match vm.posts[index]? with
  | some post => .ok post
  | none => .error .indexOutOfRange

def canErasePostAt (vm : TimelineViewModel) (index : Nat) : Except Crash Bool := do
  let post ← vm.postAt index
  return post.user == vm.user.username

def removePostAt (vm : TimelineViewModel) (index : Nat) : Except Crash (Option Write) := do
  let post ← vm.postAt index
  return removePost post

/-- `posts.sorted(by: { $0.timestamp > $1.timestamp })`, a stable sort. -/
def sorted (posts : List Post) : List Post :=
  posts.insertionSort fun a b => b.timestamp ≤ a.timestamp

/-- `retrieveAllPosts` on success: the service's list, sorted, becomes the data
source. -/
def retrieveAllPosts (vm : TimelineViewModel) (posts : List Post) : TimelineViewModel :=
  { vm with posts := sorted posts }

def postOperation (vm : TimelineViewModel) (post : Post) (type : PostUpdateType) :
    Option PostOperation :=
  match type with
  | .added => some { post, type, index := insertIndex }
  | .removed =>
      match vm.posts.findIdx? fun p => p.databaseKey = post.databaseKey with
      | none => none
      | some index => some { post, type, index }

/-- `posts.insert(_, at: 0)` or `posts.remove(at:)`, which traps out of range. -/
def updateDataSource (vm : TimelineViewModel) (operation : PostOperation) :
    Except Crash TimelineViewModel :=
  match operation.type with
  | .added => .ok { vm with posts := operation.post :: vm.posts }
  | .removed =>
      if operation.index < vm.posts.length then
        .ok { vm with posts := vm.posts.eraseIdx operation.index }
      else .error .indexOutOfRange

/-- One element through `newPosts`: the operation the subscriber gets, if any,
and the view model it then sees. -/
def newPosts (vm : TimelineViewModel) (event : LiveEvent) :
    Except Crash (TimelineViewModel × Option PostOperation) :=
  match vm.postOperation event.post event.type with
  | none => .ok (vm, none)
  | some operation => do
      let vm ← vm.updateDataSource operation
      return (vm, some operation)

/-- A finite stream of live events through `newPosts`. -/
def process (vm : TimelineViewModel) : List LiveEvent → Except Crash TimelineViewModel
  | [] => .ok vm
  | event :: events => do
      let (vm, _) ← vm.newPosts event
      process vm events

end TimelineViewModel

/-! ## The list under live events -/

/-- What a live event does to a list of posts. -/
def FirebaseTimelineService.LiveEvent.edit (event : LiveEvent) : Edit Post (Option String) :=
  match event.type with
  | .added => .push event.post
  | .removed => .drop event.post.databaseKey

/-- A list of posts under an edit. -/
abbrev edited (posts : List Post) (edit : Edit Post (Option String)) : List Post :=
  edit.exec Post.databaseKey posts

/-- A list of posts under a run of edits. -/
abbrev editedBy (posts : List Post) (edits : List (Edit Post (Option String))) : List Post :=
  Edit.run Post.databaseKey posts edits

theorem target_edit (event : LiveEvent) :
    event.edit.target Post.databaseKey = event.post.databaseKey := by
  rcases event with ⟨post, type⟩
  cases type <;> rfl

namespace TimelineViewModel

/-- The index of a removal is in range, and taking it out is dropping the key. -/
theorem postOperation_removed {vm : TimelineViewModel} {post : Post} {operation : PostOperation}
    (h : vm.postOperation post .removed = some operation) :
    operation.post = post ∧ operation.type = .removed ∧ operation.index < vm.posts.length ∧
      vm.posts.eraseIdx operation.index = edited vm.posts (.drop post.databaseKey) := by
  simp only [postOperation] at h
  split at h
  · cases h
  · rename_i index hindex
    cases h
    have hlt : index < vm.posts.length := (List.findIdx?_eq_some_iff_findIdx_eq.mp hindex).1
    have herase : edited vm.posts (.drop post.databaseKey) = vm.posts.eraseIdx index := by
      show vm.posts.eraseP _ = _
      rw [List.eraseP_eq_eraseIdx, hindex]
    exact ⟨rfl, rfl, hlt, herase.symm⟩

/-- The entry at the index of a removal carries the key. -/
theorem postOperation_key {vm : TimelineViewModel} {post : Post} {operation : PostOperation}
    (h : vm.postOperation post .removed = some operation) :
    (vm.posts.map Post.databaseKey)[operation.index]? = some post.databaseKey := by
  simp only [postOperation] at h
  split at h
  · cases h
  · rename_i index hindex
    cases h
    obtain ⟨hlt, hkey, -⟩ := List.findIdx?_eq_some_iff_getElem.mp hindex
    rw [List.getElem?_map, List.getElem?_eq_getElem hlt]
    exact congrArg some (of_decide_eq_true hkey)

/-- A removal without an operation is one of a key that is not listed. -/
theorem postOperation_eq_none {vm : TimelineViewModel} {post : Post} {type : PostUpdateType} :
    vm.postOperation post type = none ↔
      type = .removed ∧ post.databaseKey ∉ vm.posts.map Post.databaseKey := by
  cases type with
  | added => simp [postOperation]
  | removed =>
      have hnone : vm.postOperation post .removed = none ↔
          vm.posts.findIdx? (fun p => p.databaseKey = post.databaseKey) = none := by
        simp only [postOperation]
        split <;> simp_all
      rw [hnone, List.findIdx?_eq_none_iff]
      simp

/-- The view model after a live event. -/
def after (vm : TimelineViewModel) (event : LiveEvent) : TimelineViewModel :=
  { vm with posts := edited vm.posts event.edit }

/-- An event without an operation leaves the list as it is. -/
theorem after_of_ignored {vm : TimelineViewModel} {event : LiveEvent}
    (h : vm.postOperation event.post event.type = none) : vm.after event = vm := by
  obtain ⟨htype, hkey⟩ := postOperation_eq_none.mp h
  have hedit : edited vm.posts event.edit = vm.posts := by
    unfold LiveEvent.edit
    rw [htype]
    exact Edit.exec_drop_of_notMem Post.databaseKey hkey
  rw [after, hedit]

/-- **`newPosts` refines the edit.** It never traps, hands on the operation of
`postOperation`, and edits the list. -/
theorem newPosts_eq (vm : TimelineViewModel) (event : LiveEvent) :
    vm.newPosts event = .ok (vm.after event, vm.postOperation event.post event.type) := by
  rcases event with ⟨post, type⟩
  cases type with
  | added => rfl
  | removed =>
      cases hop : vm.postOperation post .removed with
      | none =>
          have hsame : vm.after ⟨post, .removed⟩ = vm := after_of_ignored hop
          simp only [newPosts, hop, hsame]
      | some operation =>
          obtain ⟨-, htype, hlt, herase⟩ := postOperation_removed hop
          have hupdate : vm.updateDataSource operation = .ok (vm.after ⟨post, .removed⟩) := by
            simp only [updateDataSource, htype, if_pos hlt, herase]
            rfl
          simp only [newPosts, hop, hupdate]
          rfl

/-- A stream of live events edits the list by the run of their edits. -/
theorem process_eq (vm : TimelineViewModel) (events : List LiveEvent) :
    vm.process events =
      .ok { vm with posts := editedBy vm.posts (events.map LiveEvent.edit) } := by
  induction events generalizing vm with
  | nil => rfl
  | cons event events ih =>
      show (vm.newPosts event >>= fun r => r.1.process events) = _
      rw [newPosts_eq]
      exact ih (vm.after event)

/-! ## The retrieved list -/

theorem sorted_perm (posts : List Post) : (sorted posts).Perm posts :=
  List.perm_insertionSort _ posts

theorem sorted_pairwise (posts : List Post) :
    (sorted posts).Pairwise fun a b => b.timestamp ≤ a.timestamp := by
  have : Std.Total fun a b : Post => b.timestamp ≤ a.timestamp :=
    ⟨fun a b => le_total b.timestamp a.timestamp⟩
  have : IsTrans Post fun a b => b.timestamp ≤ a.timestamp :=
    ⟨fun a b c hab hbc => le_trans hbc hab⟩
  exact List.pairwise_insertionSort _ posts

theorem mem_sorted {posts : List Post} {post : Post} : post ∈ sorted posts ↔ post ∈ posts :=
  (sorted_perm posts).mem_iff

end TimelineViewModel

end SocialTimeline
