import SocialTimeline.Logic.TableInStep
import SocialTimeline.Logic.BulkRead

/-!
# A client of the database

One running app: the screen, how far `viewDidLoad` has come, and the child
events raised to its observers and not delivered yet.

* `childEvent` — the event of a change of one child;
* `Client.hears` — what a client makes of an event, if one of its observers is
  registered for it and its post decodes;
* `Client.settled` — the screen once all raised events are delivered.
  Delivering changes nothing about it (`settled_deliver`), an event heard edits
  its posts (`posts_settled_notify`).
-/

namespace SocialTimeline

open FirebaseTimelineService Lib

/-- The child event of a change from `before` to `after`, by value: nothing is
raised for a value that is the same. -/
def childEvent (key : String) : (before after : Option Node) → Option DataEvent
  | none, none => none
  | none, some node => some ⟨.childAdded, key, node⟩
  | some node, none => some ⟨.childRemoved, key, node⟩
  | some old, some new => if old = new then none else some ⟨.childChanged, key, new⟩

@[simp] theorem childEvent_self (key : String) (child : Option Node) :
    childEvent key child child = none := by
  cases child <;> simp [childEvent]

theorem childEvent_key {key : String} {before after : Option Node} {event : DataEvent}
    (h : childEvent key before after = some event) : event.key = key := by
  unfold childEvent at h
  split at h
  · cases h
  · cases h
    rfl
  · cases h
    rfl
  · split at h
    · cases h
    · cases h
      rfl

/-- A value under a key holds a post. -/
def decodes (key : String) (child : Option Node) : Bool :=
  (child.bind (decodeSnapshot key)).isSome

@[simp] theorem decodes_toNode (key : String) (post : Post) :
    decodes key (some post.toNode) = true := by
  simp [decodes, decodeSnapshot_toNode]

@[simp] theorem decodes_stampNode (key : String) (timestamp : Double) :
    decodes key (some (stampNode timestamp)) = false := by
  simp [decodes]

theorem decodes_of_decodeSnapshot {key : String} {node : Node} {post : Post}
    (h : decodeSnapshot key node = some post) : decodes key (some node) = true := by
  simp [decodes, h]

theorem exists_of_decodes {key : String} {child : Option Node} (h : decodes key child = true) :
    ∃ node post, child = some node ∧ decodeSnapshot key node = some post := by
  obtain ⟨post, hpost⟩ := Option.isSome_iff_exists.mp h
  obtain ⟨node, hchild, hdecode⟩ := Option.bind_eq_some_iff.mp hpost
  exact ⟨node, post, hchild, hdecode⟩

/-- How far the screen has come: `retrievePosts` called back, then `addedPosts`
subscribed, then `removedPosts`. -/
inductive Stage
  | opened
  | retrieved
  | observingChanged
  | live
  deriving DecidableEq

/-- The observers registered at a stage. -/
def Stage.listens : Stage → DataEventType → Bool
  | .observingChanged, .childChanged => true
  | .live, .childChanged => true
  | .live, .childRemoved => true
  | _, _ => false

@[simp] theorem Stage.listens_childAdded (stage : Stage) : stage.listens .childAdded = false := by
  cases stage <;> rfl

structure Client where
  stage : Stage
  screen : Screen
  inbox : List DataEvent

/-- A child event from an observer, on a screen. -/
def Screen.observe (screen : Screen) (event : DataEvent) : Screen :=
  match startLiveUpdating event with
  | none => screen
  | some live => screen.receive live

/-- The controller of a screen observes without aborting. -/
theorem Screen.observe_eq (screen : Screen) (event : DataEvent) :
    screen.controller.observe event = .ok (screen.observe event).controller := by
  unfold TimelineViewController.observe Screen.observe
  cases startLiveUpdating event with
  | none => rfl
  | some live => exact screen.receive_eq live

namespace Client

/-- The app as it is started by a user. -/
def opened (user : User) : Client := { stage := .opened, screen := .opened user, inbox := [] }

/-- An event is raised: it reaches the client if an observer is registered. -/
def notify (client : Client) (event : Option DataEvent) : Client :=
  { client with
    inbox := client.inbox ++ (event.filter fun e => client.stage.listens e.type).toList }

/-- The one-shot read calls back; after a failure the screen stays without
observers. -/
def retrieve (client : Client) (foundation : Foundation) (children : List (String × Node)) :
    Client :=
  match retrievePosts foundation (.value (.children children)) with
  | .ok posts => { client with stage := .retrieved, screen := client.screen.retrieved posts }
  | .error _ => client

/-- The oldest raised event is delivered. -/
def deliver (client : Client) : Client :=
  match client.inbox with
  | [] => client
  | event :: inbox => { client with screen := client.screen.observe event, inbox }

/-- The edits the raised events come to. -/
def edits (client : Client) : List (Edit Post (Option String)) :=
  (client.inbox.filterMap startLiveUpdating).map LiveEvent.edit

/-- The screen once every raised event is delivered. -/
def settled (client : Client) : Screen := client.inbox.foldl Screen.observe client.screen

/-- What a client makes of a raised event. -/
def hears (client : Client) (event : Option DataEvent) : Option LiveEvent :=
  (event.filter fun e => client.stage.listens e.type).bind startLiveUpdating

@[simp] theorem hears_none (client : Client) : client.hears none = none := rfl

theorem hears_some (client : Client) (event : DataEvent) :
    client.hears (some event) =
      if client.stage.listens event.type then startLiveUpdating event else none := by
  cases hlisten : client.stage.listens event.type <;> simp [hears, Option.filter, hlisten]

@[simp] theorem stage_deliver (client : Client) : client.deliver.stage = client.stage := by
  unfold deliver
  split <;> rfl

/-- Delivering does not change what the screen settles to. -/
@[simp] theorem settled_deliver (client : Client) : client.deliver.settled = client.settled := by
  unfold deliver
  split
  · rfl
  · rename_i event inbox hinbox
    unfold settled
    rw [hinbox]
    rfl

theorem posts_observe (screen : Screen) (event : DataEvent) :
    (screen.observe event).posts =
      editedBy screen.posts ((startLiveUpdating event).toList.map LiveEvent.edit) := by
  unfold Screen.observe
  cases startLiveUpdating event with
  | none => rfl
  | some live => exact screen.posts_receive live

/-- The settled posts are the posts under the edits raised. -/
theorem posts_settled (client : Client) :
    client.settled.posts = editedBy client.screen.posts client.edits := by
  rcases client with ⟨stage, screen, inbox⟩
  unfold settled edits
  simp only
  induction inbox generalizing screen with
  | nil => rfl
  | cons event inbox ih =>
      rw [List.foldl_cons, ih (screen.observe event), posts_observe]
      cases hlive : startLiveUpdating event with
      | none =>
          rw [List.filterMap_cons_none hlive]
          rfl
      | some live =>
          rw [List.filterMap_cons_some hlive]
          rfl

/-- Raising an event adds the edit of what is heard. -/
theorem edits_notify (client : Client) (event : Option DataEvent) :
    (client.notify event).edits =
      client.edits ++ (client.hears event).toList.map LiveEvent.edit := by
  unfold edits notify hears
  simp only
  rw [List.filterMap_append, List.map_append]
  congr 2
  cases event.filter fun e => client.stage.listens e.type with
  | none => rfl
  | some e =>
      show [e].filterMap startLiveUpdating = (startLiveUpdating e).toList
      cases hlive : startLiveUpdating e with
      | none => rw [List.filterMap_cons_none hlive]; rfl
      | some live => rw [List.filterMap_cons_some hlive]; rfl

/-- **Raising an event** edits the settled posts by what is heard. -/
theorem posts_settled_notify (client : Client) (event : Option DataEvent) :
    (client.notify event).settled.posts =
      editedBy client.settled.posts ((client.hears event).toList.map LiveEvent.edit) := by
  rw [posts_settled, edits_notify, posts_settled]
  exact Edit.run_append Post.databaseKey _ _ _

/-! ## What is heard of a change -/

/-- An addition is heard of a change to a value that decodes, once the first
observer is registered. -/
theorem hears_added {client : Client} {key : String} {before after : Option Node} {post : Post} :
    client.hears (childEvent key before after) = some ⟨post, .added⟩ ↔
      ∃ old new, before = some old ∧ after = some new ∧ old ≠ new ∧
        client.stage.listens .childChanged = true ∧ decodeSnapshot key new = some post := by
  rcases before with _ | old <;> rcases after with _ | new
  · simp [childEvent]
  · simp [childEvent, hears_some]
  · simp [childEvent, hears_some, startLiveUpdating_eq]
  · by_cases heq : old = new
    · simp [heq]
    · simp [childEvent, heq, hears_some, startLiveUpdating_eq]

/-- A removal is heard of the end of a child that decodes, once both observers
are registered. -/
theorem hears_removed {client : Client} {key : String} {before after : Option Node} {post : Post} :
    client.hears (childEvent key before after) = some ⟨post, .removed⟩ ↔
      ∃ old, before = some old ∧ after = none ∧
        client.stage.listens .childRemoved = true ∧ decodeSnapshot key old = some post := by
  rcases before with _ | old <;> rcases after with _ | new
  · simp [childEvent]
  · simp [childEvent, hears_some]
  · simp [childEvent, hears_some, startLiveUpdating_eq]
  · by_cases heq : old = new
    · simp [heq]
    · simp [childEvent, heq, hears_some, startLiveUpdating_eq]

/-- Nothing is heard of a child that was not there. -/
theorem hears_childEvent_none (client : Client) (key : String) (after : Option Node) :
    client.hears (childEvent key none after) = none := by
  cases after with
  | none => rfl
  | some node => simp [childEvent, hears_some]

/-- Nothing is heard of a value that is no post and replaces none. -/
theorem hears_eq_none {client : Client} {key : String} {before after : Option Node}
    (hbefore : decodes key before = false) (hafter : decodes key after = false) :
    client.hears (childEvent key before after) = none := by
  cases hlive : client.hears (childEvent key before after) with
  | none => rfl
  | some live =>
      rcases live with ⟨post, type⟩
      cases type with
      | added =>
          obtain ⟨_, new, _, rfl, _, _, hdecode⟩ := hears_added.mp hlive
          rw [decodes_of_decodeSnapshot hdecode] at hafter
          cases hafter
      | removed =>
          obtain ⟨old, rfl, _, _, hdecode⟩ := hears_removed.mp hlive
          rw [decodes_of_decodeSnapshot hdecode] at hbefore
          cases hbefore

/-- What is heard is about the child the event was raised for. -/
theorem hears_databaseKey {client : Client} {key : String} {before after : Option Node}
    {live : LiveEvent} (h : client.hears (childEvent key before after) = some live) :
    live.post.databaseKey = some key := by
  obtain ⟨event, hevent, hlive⟩ := Option.bind_eq_some_iff.mp h
  have hkey := childEvent_key (Option.eq_some_of_filter_eq_some hevent)
  rw [startLiveUpdating_databaseKey hlive, hkey]

end Client

end SocialTimeline
