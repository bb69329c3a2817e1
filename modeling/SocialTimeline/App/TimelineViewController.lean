import SocialTimeline.App.TimelineViewModel

/-!
# `TimelineViewController` and its table

The table keeps rows of its own: `reloadData` copies the data source,
`insertRows` and `deleteRows` change one row at a given index. UIKit compares
the number of rows before and after with what the data source reports and
aborts when they do not fit. Rows have an identity (`Row.id`), which is what a
swipe started on one of them stays attached to while others come and go.
-/

namespace SocialTimeline

open FirebaseTimelineService Lib

/-- A row of the table: its identity and the post its cell was configured with. -/
structure Row where
  id : Nat
  post : Post
  deriving DecidableEq

/-- The table: its rows, and the next unused identity. -/
structure UITableView where
  rows : List Row := []
  nextRow : Nat := 0
  deriving DecidableEq

inductive EditingStyle
  | none
  | delete
  | insert
  deriving DecidableEq

structure TimelineViewController where
  viewModel : TimelineViewModel
  table : UITableView := {}
  deriving DecidableEq

/-- Fresh rows for a list of posts. -/
def freshRows (start : Nat) : List Post → List Row
  | [] => []
  | post :: posts => { id := start, post } :: freshRows (start + 1) posts

namespace TimelineViewController

/-- `reloadData`: the rows are asked for anew. -/
def reloadData (controller : TimelineViewController) : TimelineViewController :=
  { controller with
    table :=
      { rows := freshRows controller.table.nextRow controller.viewModel.posts
        nextRow := controller.table.nextRow + controller.viewModel.posts.length } }

/-- `insertRows(at:)`: the data source must report one row more; the new row's
cell is configured with `postAt`. -/
def insertRows (controller : TimelineViewController) (index : Nat) :
    Except Crash TimelineViewController :=
  if index ≤ controller.table.rows.length ∧
      controller.viewModel.numberOfPosts = controller.table.rows.length + 1 then do
    let post ← controller.viewModel.postAt index
    return { controller with
      table :=
        { rows := controller.table.rows.insertIdx index { id := controller.table.nextRow, post }
          nextRow := controller.table.nextRow + 1 } }
  else .error .invalidTableUpdate

/-- `deleteRows(at:)`: the data source must report one row less. -/
def deleteRows (controller : TimelineViewController) (index : Nat) :
    Except Crash TimelineViewController :=
  if index < controller.table.rows.length ∧
      controller.viewModel.numberOfPosts + 1 = controller.table.rows.length then
    .ok { controller with
      table := { controller.table with rows := controller.table.rows.eraseIdx index } }
  else .error .invalidTableUpdate

/-- `retrievePosts`, completed: the view model takes the list, the table
reloads. -/
def retrieved (controller : TimelineViewController) (posts : List Post) :
    TimelineViewController :=
  reloadData { controller with viewModel := controller.viewModel.retrieveAllPosts posts }

/-- The subscriber of `newPosts`. -/
def onNext (controller : TimelineViewController) (operation : PostOperation) :
    Except Crash TimelineViewController :=
  match operation.type with
  | .added => controller.insertRows operation.index
  | .removed => controller.deleteRows operation.index

/-- One live event through `newPosts` and its subscriber. -/
def receive (controller : TimelineViewController) (event : LiveEvent) :
    Except Crash TimelineViewController := do
  let (viewModel, operation) ← controller.viewModel.newPosts event
  match operation with
  | none => return { controller with viewModel }
  | some operation => onNext { controller with viewModel } operation

/-- One child event from an observer: decoded by the service, then received. -/
def observe (controller : TimelineViewController) (event : DataEvent) :
    Except Crash TimelineViewController :=
  match startLiveUpdating event with
  | none => .ok controller
  | some live => controller.receive live

/-- A finite stream of live events. -/
def receiveAll (controller : TimelineViewController) :
    List LiveEvent → Except Crash TimelineViewController
  | [] => .ok controller
  | event :: events => do
      let controller ← controller.receive event
      receiveAll controller events

/-- A finite stream of child events. -/
def observeAll (controller : TimelineViewController) :
    List DataEvent → Except Crash TimelineViewController
  | [] => .ok controller
  | event :: events => do
      let controller ← controller.observe event
      observeAll controller events

def canEditRowAt (controller : TimelineViewController) (index : Nat) : Except Crash Bool :=
  controller.viewModel.canErasePostAt index

/-- `tableView(_:commit:forRowAt:)`: the writes the gesture issues. -/
def commit (controller : TimelineViewController) (style : EditingStyle) (index : Nat) :
    Except Crash (List Write) :=
  if style = .delete then do
    let write ← controller.viewModel.removePostAt index
    return write.toList
  else .ok []

/-- The timeline screen of a user, before anything is retrieved. -/
def opened (user : User) : TimelineViewController := { viewModel := { user } }

end TimelineViewController

end SocialTimeline
