import SocialTimeline.App.Post

/-!
# `FirebaseTimelineService`

The service between the timeline and `/posts`.

* **reading** — `retrievePosts` decodes the one-shot value of the whole node;
  `addedPosts` and `removedPosts` decode the child events of the two live
  observers, merged by `startLiveUpdating`;
* **writing** — `createPost` is two writes, the second issued by the completion
  block of the first (`createPostCompletion`); `removePost` is one.

`NSDictionary value(forKey:)` is key-value coding: a key that starts with `@`
is not looked up but resolved as a property of the dictionary object. Which
properties there are is `Foundation`'s to say.
-/

namespace SocialTimeline

structure User where
  username : String
  identifier : String
  deriving DecidableEq

inductive ErrorCode
  | genericError
  | authError
  | timelineError
  deriving DecidableEq

structure TimelineError where
  message : Option String
  code : ErrorCode
  deriving DecidableEq

/-- The ways the app is brought down. -/
inductive Crash
  /-- `NSUnknownKeyException`. -/
  | undefinedKey (key : String)
  /-- An array index out of range. -/
  | indexOutOfRange
  /-- `NSInternalInconsistencyException`: a table update at odds with the data
  source. -/
  | invalidTableUpdate
  deriving DecidableEq

/-- How a one-shot read ends without posts. -/
inductive Failure
  | error (error : TimelineError)
  | crash (crash : Crash)
  deriving DecidableEq

namespace FirebaseTimelineService

def postsPath : String := "posts"

/-! ## Reading -/

/-- What `observeSingleEvent(of: .value)` calls back with. -/
inductive ValueEvent
  | value (snapshot : Node)
  | cancelled (localizedDescription : String)

/-- `NSDictionary value(forKey:)`. -/
def valueForKey (foundation : Foundation) (dict : NSDictionary) (key : String) :
    Except Crash AnyObject :=
  match key.toList with
  | '@' :: name =>
      match foundation.property dict (String.ofList name) with
      | some value => .ok value
      | none => .error (.undefinedKey key)
  | _ => .ok ((dict.lookup key).getD .null)

/-- The closure `retrievePosts` maps over the keys. -/
def retrievePost (foundation : Foundation) (postsDictionary : NSDictionary) (key : String) :
    Except Crash (Option Post) := do
  let value ← valueForKey foundation postsDictionary key
  return decodeObject key value

/-- `map` over all keys, then `compactMap { $0 }`; a crash in the closure ends
it. -/
def retrieveAll (foundation : Foundation) (postsDictionary : NSDictionary) :
    List String → Except Crash (List Post)
  | [] => .ok []
  | key :: keys => do
      let post ← retrievePost foundation postsDictionary key
      let posts ← retrieveAll foundation postsDictionary keys
      return post.toList ++ posts

def retrievePosts (foundation : Foundation) : ValueEvent → Except Failure (List Post)
  | .cancelled localizedDescription =>
      .error (.error { message := some localizedDescription, code := .timelineError })
  | .value snapshot =>
      match (snapshot.val foundation).asDictionary with
      -- "This means that the timeline is empty, so we return an empty array"
      | none => .ok []
      | some postsDictionary =>
          match retrieveAll foundation postsDictionary (postsDictionary.map Prod.fst) with
          | .ok posts => .ok posts
          | .error crash => .error (.crash crash)

inductive DataEventType
  | childAdded
  | childChanged
  | childRemoved
  deriving DecidableEq

/-- A child event as it reaches an observer: its kind and the child's snapshot. -/
structure DataEvent where
  type : DataEventType
  key : String
  node : Node
  deriving DecidableEq

/-- An element of the stream of live updates: `(post:, type:)`. -/
structure LiveEvent where
  post : Post
  type : PostUpdateType
  deriving DecidableEq

/-- The callback of an observer for one kind of child event. -/
def observePosts (observed : DataEventType) (type : PostUpdateType) (event : DataEvent) :
    Option LiveEvent :=
  if event.type = observed then
    (decodeSnapshot event.key event.node).map fun post => { post, type }
  else none

def addedPosts : DataEvent → Option LiveEvent :=
  observePosts .childChanged .added

def removedPosts : DataEvent → Option LiveEvent :=
  observePosts .childRemoved .removed

/-- `Observable.merge([addedPosts(), removedPosts()])`, one event at a time. -/
def startLiveUpdating (event : DataEvent) : Option LiveEvent :=
  addedPosts event <|> removedPosts event

theorem startLiveUpdating_eq (event : DataEvent) :
    startLiveUpdating event =
      match event.type with
      | .childAdded => none
      | .childChanged =>
          (decodeSnapshot event.key event.node).map fun post => ⟨post, .added⟩
      | .childRemoved =>
          (decodeSnapshot event.key event.node).map fun post => ⟨post, .removed⟩ := by
  rcases event with ⟨type, key, node⟩
  cases type <;> simp [startLiveUpdating, addedPosts, removedPosts, observePosts]

/-- A live event is about the post of the child the event was raised for. -/
theorem startLiveUpdating_some {event : DataEvent} {live : LiveEvent}
    (h : startLiveUpdating event = some live) :
    decodeSnapshot event.key event.node = some live.post := by
  rw [startLiveUpdating_eq] at h
  split at h
  · cases h
  all_goals
    obtain ⟨post, hpost, rfl⟩ := Option.map_eq_some_iff.mp h
    exact hpost

theorem startLiveUpdating_databaseKey {event : DataEvent} {live : LiveEvent}
    (h : startLiveUpdating event = some live) : live.post.databaseKey = some event.key :=
  decodeSnapshot_databaseKey (startLiveUpdating_some h)

/-! ## Writing -/

/-- A `DatabaseReference`: its path, and the last key on it. -/
structure DatabaseReference where
  path : String
  key : String
  deriving DecidableEq

namespace DatabaseReference

/-- `Database.database().reference(withPath:)`. -/
def withPath (path : String) : DatabaseReference := { path, key := path }

def child (reference : DatabaseReference) (key : String) : DatabaseReference :=
  { path := reference.path ++ "/" ++ key, key }

end DatabaseReference

/-- A write to the child `key` of `/posts`. -/
inductive Write
  /-- `setValue(post.toAnyObject())`. -/
  | setValue (key : String) (post : Post)
  /-- `updateChildValues([Post.Keys.timestamp: timestamp])`. -/
  | updateChildValues (key : String) (timestamp : Double)
  | removeValue (key : String)
  deriving DecidableEq

def Write.key : Write → String
  | setValue key _ => key
  | updateChildValues key _ => key
  | removeValue key => key

/-- How a `Completable` ends. -/
inductive Completion
  | completed
  | error (error : TimelineError)
  deriving DecidableEq

/-- The first write of a post, on the key `childByAutoId` gave. -/
def createPost (message : String) (user : User) (key : String) (now : Double) : Write :=
  .setValue key { message, user := user.username, timestamp := now }

/-- The completion block of the first write: what it writes next, and how the
`Completable` ends. -/
def createPostCompletion (key : String) (error : Option String) (now : Double) :
    Option Write × Completion :=
  match error with
  | some localizedDescription =>
      (none, .error { message := some localizedDescription, code := .timelineError })
  | none => (some (.updateChildValues key now), .completed)

/-- The reference that `removePost` removes the value of. -/
def removePostReference (post : Post) : Option DatabaseReference :=
  post.databaseKey.map fun databaseKey => (DatabaseReference.withPath postsPath).child databaseKey

/-- `removePost`; a post without a key gives `Completable.empty()`. -/
def removePost (post : Post) : Option Write :=
  (removePostReference post).map fun reference => .removeValue reference.key

def removePostCompletion (error : Option String) : Completion :=
  match error with
  | some localizedDescription =>
      .error { message := some localizedDescription, code := .timelineError }
  | none => .completed

/-- A write on a child: `setValue` replaces it, `updateChildValues` merges into
what is there and creates it where there is nothing, `removeValue` deletes it. -/
def Write.exec : Write → Option Node → Option Node
  | setValue _ post, _ => some post.toNode
  | updateChildValues _ timestamp, some node =>
      some (node.updateImmediateChild Post.Keys.timestamp (.leaf (.double timestamp)))
  | updateChildValues _ timestamp, none => some (stampNode timestamp)
  | removeValue _, _ => none

end FirebaseTimelineService

end SocialTimeline
