import SocialTimeline.App.FirebaseTimelineService
import SocialTimeline.Lib.TSys

/-!
# Subscriptions and the observers behind them

The streams of `FirebaseTimelineService` are cold: each subscription runs its
`create` closure, which registers observers on `/posts` and returns a
disposable; disposing of the subscription disposes of that.

Two states are kept side by side. `Reference` is what is registered: an observer
stays until it is removed by its handle or its listen is cancelled, and that of
`observeSingleEvent` removes itself at its first event. `Subscription` is what the
screens hold. A screen that is opened subscribes to `retrievePosts` and, once
answered, to `startLiveUpdating`; a log-out disposes of both, with the bag of its
controller.
-/

namespace SocialTimeline

open FirebaseTimelineService Lib

/-- What an observer is registered for. -/
inductive Listening
  /-- `observe` of a kind of child event. -/
  | child (type : DataEventType)
  /-- `observeSingleEvent(of: .value)`. -/
  | singleValue
  deriving DecidableEq

/-- A registered observer, with the subscription its callback sends to. -/
structure Observer where
  handle : Nat
  listening : Listening
  subscription : Nat
  deriving DecidableEq

/-- The observers registered on `/posts`, and the next handle. -/
structure Reference where
  observers : List Observer := []
  nextHandle : Nat := 0

namespace Reference

/-- Registers an observer and returns its handle. -/
def observe (reference : Reference) (listening : Listening) (subscription : Nat) :
    Nat × Reference :=
  (reference.nextHandle,
    { observers := reference.observers ++ [⟨reference.nextHandle, listening, subscription⟩]
      nextHandle := reference.nextHandle + 1 })

/-- `removeObserver(withHandle:)`. -/
def removeObserver (reference : Reference) (handle : Nat) : Reference :=
  { reference with observers := reference.observers.filter fun o => o.handle ≠ handle }

end Reference

/-- What is disposed of: the handles whose observers are removed then. -/
abbrev Disposable := List Nat

/-- `Disposables.create()`, which does nothing. -/
def Disposables.create : Disposable := []

def Disposable.dispose (disposable : Disposable) (reference : Reference) : Reference :=
  disposable.foldl Reference.removeObserver reference

namespace FirebaseTimelineService

/-- The `create` closure of a live stream. -/
def observeLive (type : DataEventType) (subscription : Nat) (reference : Reference) :
    Disposable × Reference :=
  -- the handle that `observe` returns is not kept
  let (_, reference) := reference.observe (.child type) subscription
  (Disposables.create, reference)

def subscribeAddedPosts : Nat → Reference → Disposable × Reference :=
  observeLive .childChanged

def subscribeRemovedPosts : Nat → Reference → Disposable × Reference :=
  observeLive .childRemoved

/-- `Observable.merge([addedPosts(), removedPosts()])` subscribes to both, and is
disposed of as both. -/
def subscribeStartLiveUpdating (subscription : Nat) (reference : Reference) :
    Disposable × Reference :=
  let (added, reference) := subscribeAddedPosts subscription reference
  let (removed, reference) := subscribeRemovedPosts subscription reference
  (added ++ removed, reference)

/-- The `create` closure of `retrievePosts`. -/
def subscribeRetrievePosts (subscription : Nat) (reference : Reference) :
    Disposable × Reference :=
  let (_, reference) := reference.observe .singleValue subscription
  (Disposables.create, reference)

end FirebaseTimelineService

/-- The streams a screen subscribes to. -/
inductive Source
  | retrievePosts
  | startLiveUpdating
  deriving DecidableEq

def Source.subscribe : Source → Nat → Reference → Disposable × Reference
  | retrievePosts => subscribeRetrievePosts
  | startLiveUpdating => subscribeStartLiveUpdating

structure Subscription where
  source : Source
  disposable : Disposable
  isDisposed : Bool := false
  /-- What the callback of `observeSingleEvent` was called with. -/
  answer : Option ValueEvent := none
  /-- The live events that reached the subscriber. -/
  received : List LiveEvent := []

/-- An element on its way to the subscriber; the sink of a disposed subscription
drops it. -/
def Subscription.on (subscription : Subscription) (event : LiveEvent) : Subscription :=
  if subscription.isDisposed then subscription
  else { subscription with received := subscription.received ++ [event] }

/-- The flag that makes the sink of a subscription drop what follows. -/
def Subscription.stop (subscription : Subscription) : Subscription :=
  { subscription with isDisposed := true }

/-- The callback of `observeSingleEvent`. -/
def Subscription.call (event : ValueEvent) (subscription : Subscription) : Subscription :=
  { subscription with answer := some event }

/-- The callback of an observer, at a child event. -/
def Observer.callback (observer : Observer) (event : DataEvent) : Option LiveEvent :=
  match observer.listening with
  | .child .childChanged => addedPosts event
  | .child .childRemoved => removedPosts event
  | _ => none

/-- The observers on `/posts`, and the subscriptions made so far. -/
structure Registry where
  reference : Reference := {}
  subscriptions : List Subscription := []

namespace Registry

inductive Act
  | subscribe (source : Source)
  /-- A subscription, by its number, is disposed of. -/
  | dispose (subscription : Nat)
  /-- The value that the observer of a `retrievePosts` subscription waits for. -/
  | value (subscription : Nat) (snapshot : Node)
  /-- A child event, delivered to every observer. -/
  | child (event : DataEvent)
  /-- The listen on `/posts` is refused or revoked. -/
  | cancel (localizedDescription : String)

/-- The subscription made next has the number of those made so far. -/
def subscribe (s : Registry) (source : Source) : Registry :=
  let (disposable, reference) := source.subscribe s.subscriptions.length s.reference
  { reference, subscriptions := s.subscriptions ++ [{ source, disposable }] }

/-- Disposing marks the subscription and, the first time, disposes of what its
closure returned. -/
def dispose (s : Registry) (subscription : Nat) : Registry where
  reference :=
    match s.subscriptions[subscription]? with
    | some sub => if sub.isDisposed then s.reference else sub.disposable.dispose s.reference
    | none => s.reference
  subscriptions := s.subscriptions.modify subscription .stop

/-- `observeSingleEvent` removes its observer and calls back. -/
def call (s : Registry) (observer : Observer) (event : ValueEvent) : Registry where
  reference := s.reference.removeObserver observer.handle
  subscriptions := s.subscriptions.modify observer.subscription (.call event)

/-- The callback ends the `Single`, and an ended subscription is disposed of. -/
def value (s : Registry) (observer : Observer) (event : ValueEvent) : Registry :=
  (s.call observer event).dispose observer.subscription

/-- A child event reaches the observers one after another. -/
def child (s : Registry) (event : DataEvent) : Registry :=
  { s with
    subscriptions := s.reference.observers.foldl (fun subscriptions observer =>
      match observer.callback event with
      | some live => subscriptions.modify observer.subscription (·.on live)
      | none => subscriptions) s.subscriptions }

/-- A cancelled listen takes all observers of the query away, not just the one that was
refused. Those of `observeSingleEvent` are called back with the error; the live ones have
no callback for it. -/
def cancel (s : Registry) (localizedDescription : String) : Registry :=
  (s.reference.observers.filter fun o => o.listening = .singleValue).foldl
    (fun s observer => s.value observer (.cancelled localizedDescription))
    { s with reference := { s.reference with observers := [] } }

/-- The observer of a `retrievePosts` subscription that is still to be called. -/
def awaiting (s : Registry) (subscription : Nat) : Option Observer :=
  s.reference.observers.find? fun o => o.subscription = subscription ∧ o.listening = .singleValue

def step (s : Registry) : Act → Option Registry
  | .subscribe source => some (s.subscribe source)
  | .dispose subscription =>
      if subscription < s.subscriptions.length then some (s.dispose subscription) else none
  | .value subscription snapshot =>
      (s.awaiting subscription).map fun observer => s.value observer (.value snapshot)
  | .child event => some (s.child event)
  | .cancel localizedDescription => some (s.cancel localizedDescription)

end Registry

/-- Screens subscribing and leaving, around one service. -/
def registry : TSys Registry Registry.Act where
  init := {}
  step := Registry.step

end SocialTimeline
