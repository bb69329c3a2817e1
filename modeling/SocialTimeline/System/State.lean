import SocialTimeline.System.Client
import SocialTimeline.Lib.TSys

/-!
# Clients around one database

Any number of running apps, the children of `/posts`, and the writes on their
way to the server. A label of the system is a move, which is about one child
(`Move`), or a turn of one client (`Turn`).

A client sees the database either as the server has it, or with its own writes
in flight laid over it (`Visibility`); a child event is raised whenever what a
client sees of a child changes (`publish`). The server may take writes in any
order, so the runs in which it takes the writes of each client in the order of
issue are among the runs here.
-/

namespace SocialTimeline

open FirebaseTimelineService Lib

abbrev ClientId := Nat

/-- Whether a client's own writes show to it before the server has taken
them. -/
inductive Visibility
  | committed
  | optimistic
  deriving DecidableEq

/-- What a run does not change: the visibility, who uses which client, and the
Foundation they run on. -/
structure Env where
  visibility : Visibility
  users : ClientId → User
  foundation : Foundation

structure State where
  /-- The children of `/posts`. -/
  posts : String → Option Node
  /-- The keys `childByAutoId` has given out. -/
  used : List String
  /-- Writes issued and not answered, in the order of issue. -/
  sent : List (ClientId × Write)
  /-- First writes taken whose completion block has not run. -/
  acknowledged : List (ClientId × String)
  clients : ClientId → Client

/-- What is done about one child. -/
inductive Move
  /-- `createPost`, with the key it is given and its device's clock. -/
  | createPost (client : ClientId) (key message : String) (now : Double)
  /-- The completion block of the first write, with its device's clock. -/
  | createdPost (client : ClientId) (key : String) (now : Double)
  /-- `removePost` of a listed post. -/
  | removePost (client : ClientId) (key : String)
  /-- The server takes a write. -/
  | commit (client : ClientId) (write : Write)
  /-- The server rejects a write. -/
  | reject (client : ClientId) (write : Write)
  deriving DecidableEq

def Move.key : Move → String
  | createPost _ key _ _ => key
  | createdPost _ key _ => key
  | removePost _ key => key
  | commit _ write => write.key
  | reject _ write => write.key

/-- What a client does about its screen. -/
inductive Turn
  /-- `retrievePosts` is called back, with the children in the order of the
  dictionary. -/
  | retrieve (children : List (String × Node))
  /-- `addedPosts` is subscribed. -/
  | observeChanged
  /-- `removedPosts` is subscribed. -/
  | observeRemoved
  /-- The oldest raised event is delivered. -/
  | deliver

inductive Act
  | move (move : Move)
  | turn (client : ClientId) (turn : Turn)

namespace State

def initial (env : Env) : State where
  posts _ := none
  used := []
  sent := []
  acknowledged := []
  clients c := .opened (env.users c)

/-- The writes of a client on a child that are in flight. -/
def pending (s : State) (client : ClientId) (key : String) : List (ClientId × Write) :=
  s.sent.filter fun e => e.1 = client ∧ e.2.key = key

/-- What a client sees of a child. -/
def view (env : Env) (s : State) (client : ClientId) (key : String) : Option Node :=
  match env.visibility with
  | .committed => s.posts key
  | .optimistic => (s.pending client key).foldl (fun child e => e.2.exec child) (s.posts key)

/-- The children a client sees. -/
def snapshot (env : Env) (s : State) (client : ClientId) : List (String × Node) :=
  s.used.filterMap fun key => (view env s client key).map fun node => (key, node)

/-- A client issues a write. -/
def issue (s : State) (client : ClientId) (write : Write) : State :=
  { s with sent := s.sent ++ [(client, write)] }

/-- The server takes a write; for a first write the completion block is due. -/
def commit (s : State) (client : ClientId) (write : Write) : State where
  posts := Function.update s.posts write.key (write.exec (s.posts write.key))
  used := s.used
  sent := s.sent.erase (client, write)
  acknowledged :=
    match write with
    | .setValue key _ => s.acknowledged ++ [(client, key)]
    | _ => s.acknowledged
  clients := s.clients

/-- The server rejects a write. The completion block of a rejected first write
issues nothing (`createPostCompletion_error`). -/
def reject (s : State) (client : ClientId) (write : Write) : State :=
  { s with sent := s.sent.erase (client, write) }

theorem createPostCompletion_error (key reason : String) (now : Double) :
    (createPostCompletion key (some reason) now).1 = none := rfl

/-- The database and the writes in flight after a move. -/
def moved (env : Env) (s : State) : Move → State
  | .createPost client key message now =>
      { s.issue client (createPost message (env.users client) key now) with used := key :: s.used }
  | .createdPost client key now =>
      { s with
        sent := s.sent ++ ((createPostCompletion key none now).1.map fun write =>
          (client, write)).toList
        acknowledged := s.acknowledged.erase (client, key) }
  | .removePost client key => s.issue client (.removeValue key)
  | .commit client write => s.commit client write
  | .reject client write => s.reject client write

/-- The child event a client gets to see of a move. -/
def raised (env : Env) (s : State) (move : Move) (client : ClientId) : Option DataEvent :=
  childEvent move.key (view env s client move.key) (view env (moved env s move) client move.key)

/-- A move, and the events raised by it. -/
def publish (env : Env) (s : State) (move : Move) : State :=
  { moved env s move with clients := fun c => (s.clients c).notify (raised env s move c) }

/-- A turn of one client. -/
def turned (env : Env) (s : State) (client : ClientId) : Turn → Client
  | .retrieve children => (s.clients client).retrieve env.foundation children
  | .observeChanged => { s.clients client with stage := .observingChanged }
  | .observeRemoved => { s.clients client with stage := .live }
  | .deliver => (s.clients client).deliver

def next (env : Env) (s : State) : Act → State
  | .move move => publish env s move
  | .turn client turn =>
      { s with clients := Function.update s.clients client (turned env s client turn) }

/-- When a move can be made. -/
def Movable (s : State) : Move → Prop
  | .createPost _ key _ _ => isPushId key = true ∧ key ∉ s.used
  | .createdPost client key _ => (client, key) ∈ s.acknowledged
  | .removePost client key =>
      .removeValue key ∈ (s.clients client).screen.posts.filterMap removePost
  | .commit client write => (client, write) ∈ s.sent
  | .reject client write => (client, write) ∈ s.sent

/-- When a client can take a turn. -/
def Turnable (env : Env) (s : State) (client : ClientId) : Turn → Prop
  | .retrieve children =>
      (s.clients client).stage = .opened ∧ children.Perm (snapshot env s client)
  | .observeChanged => (s.clients client).stage = .retrieved
  | .observeRemoved => (s.clients client).stage = .observingChanged
  | .deliver => (s.clients client).inbox ≠ []

def Enabled (env : Env) (s : State) : Act → Prop
  | .move move => s.Movable move
  | .turn client turn => s.Turnable env client turn

instance (s : State) (move : Move) : Decidable (s.Movable move) :=
  match move with
  | .createPost _ _ _ _ => inferInstanceAs (Decidable (_ ∧ _))
  | .createdPost _ _ _ => inferInstanceAs (Decidable (_ ∈ s.acknowledged))
  | .removePost _ _ => inferInstanceAs (Decidable (_ ∈ List.filterMap _ _))
  | .commit _ _ => inferInstanceAs (Decidable (_ ∈ s.sent))
  | .reject _ _ => inferInstanceAs (Decidable (_ ∈ s.sent))

instance (env : Env) (s : State) (client : ClientId) (turn : Turn) :
    Decidable (s.Turnable env client turn) :=
  match turn with
  | .retrieve children =>
      inferInstanceAs (Decidable (_ ∧ children.Perm (snapshot env s client)))
  | .observeChanged => inferInstanceAs (Decidable (_ = Stage.retrieved))
  | .observeRemoved => inferInstanceAs (Decidable (_ = Stage.observingChanged))
  | .deliver => inferInstanceAs (Decidable ((s.clients client).inbox ≠ []))

instance (env : Env) (s : State) (act : Act) : Decidable (s.Enabled env act) :=
  match act with
  | .move move => inferInstanceAs (Decidable (s.Movable move))
  | .turn client turn => inferInstanceAs (Decidable (s.Turnable env client turn))

end State

/-- The clients and the database as one system. -/
def timeline (env : Env) : TSys State Act where
  init := .initial env
  step s act := if s.Enabled env act then some (s.next env act) else none

theorem step_eq_some {env : Env} {s t : State} {act : Act} :
    (timeline env).step s act = some t ↔ s.Enabled env act ∧ t = s.next env act := by
  show (if s.Enabled env act then some (s.next env act) else none) = some t ↔ _
  split <;> simp_all [eq_comm]

/-! ## Devices of one user

The runs on fixed labels in this development are runs of these. -/

/-- A user with the app open on every client. -/
def devices (visibility : Visibility) : Env where
  visibility
  users _ := { username := "mia", identifier := "uid" }
  foundation := .ascii

/-- Keys as `childByAutoId` makes them. -/
def pushKey : String := "-M0aaaaaaaaaaaaaaaaa"

def otherKey : String := "-M0bbbbbbbbbbbbbbbbb"

/-- The post of the first write under the first key. -/
def firstPost : Post := { message := "hello", user := "mia", timestamp := 1 }

/-- The second device opens its timeline. -/
def opening : List Act :=
  [.turn 1 (.retrieve []), .turn 1 .observeChanged, .turn 1 .observeRemoved]

/-- The first device posts. -/
def posting : List Act :=
  [.move (.createPost 0 pushKey "hello" 1), .move (.commit 0 (.setValue pushKey firstPost)),
    .move (.createdPost 0 pushKey 2), .move (.commit 0 (.updateChildValues pushKey 2))]

end SocialTimeline
