import SocialTimeline.System.State

/-!
# What a step does

The lemmas about the system that later proofs use instead of its step function.

* **other children** — a move leaves every other child, and the writes in flight
  on it, as they were (`posts_moved_of_ne`, `pending_moved_of_ne`);
* **the child itself** — only a commit changes it (`posts_moved`);
* **the settled lists** — a move edits the list a client settles to by what the
  client hears of it (`listed_move`), and of the turns only the one-shot read
  changes one (`listed_turn`);
* **keys on them** — how often a client lists a key moves by one with what it
  hears of that key (`count_move_added`, `count_move_removed`).
-/

namespace SocialTimeline

open FirebaseTimelineService Lib

namespace State

variable (env : Env) (s : State)

/-- The posts a client settles to. -/
def listed (client : ClientId) : List Post := (s.clients client).settled.posts

/-- What a client hears of a move. -/
def heard (move : Move) (client : ClientId) : Option LiveEvent :=
  (s.clients client).hears (raised env s move client)

/-! ## Children under a move -/

/-- The server's side of a move: a commit writes, nothing else does. -/
theorem posts_moved (move : Move) :
    (moved env s move).posts =
      match move with
      | .commit _ write => Function.update s.posts write.key (write.exec (s.posts write.key))
      | _ => s.posts := by
  cases move <;> rfl

theorem posts_moved_of_ne {move : Move} {key : String} (h : key ≠ move.key) :
    (moved env s move).posts key = s.posts key := by
  rw [posts_moved]
  cases move with
  | commit client write => exact Function.update_of_ne h _ _
  | _ => rfl

theorem posts_moved_commit (client : ClientId) (write : Write) :
    (moved env s (.commit client write)).posts write.key = write.exec (s.posts write.key) :=
  Function.update_self _ _ _

/-- A move changes the writes in flight on a child by what it is, whatever they
are. -/
theorem pending_moved_congr {s t : State} {client : ClientId} {key : String}
    (h : t.pending client key = s.pending client key) (move : Move) :
    (moved env t move).pending client key = (moved env s move).pending client key := by
  have happend : ∀ e : List (ClientId × Write),
      ((t.sent ++ e).filter fun e => e.1 = client ∧ e.2.key = key) =
        (s.sent ++ e).filter fun e => e.1 = client ∧ e.2.key = key := by
    intro e
    rw [List.filter_append, List.filter_append]
    exact congrArg (· ++ _) h
  have herase : ∀ e : ClientId × Write,
      ((t.sent.erase e).filter fun e => e.1 = client ∧ e.2.key = key) =
        (s.sent.erase e).filter fun e => e.1 = client ∧ e.2.key = key := by
    intro e
    rw [← List.erase_filter, ← List.erase_filter]
    exact congrArg (·.erase e) h
  cases move with
  | createPost _ _ _ _ => exact happend _
  | createdPost _ _ _ => exact happend _
  | removePost _ _ => exact happend _
  | commit _ _ => exact herase _
  | reject _ _ => exact herase _

/-- A move leaves the writes in flight on every other child as they were. -/
theorem pending_moved_of_ne {move : Move} {key : String} (h : key ≠ move.key)
    (client : ClientId) : (moved env s move).pending client key = s.pending client key := by
  have happend : ∀ (client' : ClientId) (write : Write), write.key = move.key →
      ((s.sent ++ [(client', write)]).filter fun e => e.1 = client ∧ e.2.key = key) =
        s.pending client key := by
    intro client' write hwrite
    simp [pending, List.filter_append, hwrite, Ne.symm h]
  have herase : ∀ (client' : ClientId) (write : Write), write.key = move.key →
      ((s.sent.erase (client', write)).filter fun e => e.1 = client ∧ e.2.key = key) =
        s.pending client key := by
    intro client' write hwrite
    rw [← List.erase_filter, List.erase_of_not_mem]
    · rfl
    · intro hmem
      have hkey := (of_decide_eq_true (List.mem_filter.mp hmem).2).2
      exact h (hkey.symm.trans hwrite)
  cases move with
  | createPost _ _ _ _ => exact happend _ _ rfl
  | createdPost _ _ _ => exact happend _ _ rfl
  | removePost _ _ => exact happend _ _ rfl
  | commit _ _ => exact herase _ _ rfl
  | reject _ _ => exact herase _ _ rfl

theorem pending_reject (client client' : ClientId) (write : Write) (key : String) :
    (moved env s (.reject client' write)).pending client key =
      (s.pending client key).erase (client', write) :=
  (List.erase_filter ..).symm

/-- What a client sees of a child depends on that child and on the client's
writes in flight on it. -/
theorem view_congr {s t : State} {client : ClientId} {key : String}
    (hposts : t.posts key = s.posts key) (hpending : t.pending client key = s.pending client key) :
    view env t client key = view env s client key := by
  unfold view
  rw [hposts, hpending]

theorem view_committed {env : Env} (henv : env.visibility = .committed) (client : ClientId)
    (key : String) : view env s client key = s.posts key := by
  unfold view
  rw [henv]

/-- A first write in flight after a move was in flight before, or is issued by
the call of `createPost` that the move is. -/
theorem first_write_moved {move : Move} {client : ClientId} {key : String} {post : Post}
    (h : (client, .setValue key post) ∈ (moved env s move).sent) :
    (client, .setValue key post) ∈ s.sent ∨ ∃ message now,
      move = .createPost client key message now ∧
        post = { message, user := (env.users client).username, timestamp := now } := by
  cases move with
  | createPost client' key' message now =>
      rcases List.mem_append.mp h with hold | hnew
      · exact .inl hold
      · cases List.mem_singleton.mp hnew
        exact .inr ⟨message, now, rfl, rfl⟩
  | createdPost client' key' now =>
      rcases List.mem_append.mp h with hold | hnew
      · exact .inl hold
      · cases List.mem_singleton.mp hnew
  | removePost client' key' =>
      rcases List.mem_append.mp h with hold | hnew
      · exact .inl hold
      · cases List.mem_singleton.mp hnew
  | commit client' write => exact .inl (List.mem_of_mem_erase h)
  | reject client' write => exact .inl (List.mem_of_mem_erase h)

/-! ## Clients under a step -/

@[simp] theorem posts_next_move (move : Move) :
    (next env s (.move move)).posts = (moved env s move).posts := rfl

@[simp] theorem clients_next_move (move : Move) (client : ClientId) :
    (next env s (.move move)).clients client =
      (s.clients client).notify (raised env s move client) := rfl

@[simp] theorem clients_next_turn (client : ClientId) (turn : Turn) :
    (next env s (.turn client turn)).clients client = turned env s client turn :=
  Function.update_self _ _ _

theorem clients_next_turn_of_ne {client client' : ClientId} (h : client ≠ client')
    (turn : Turn) : (next env s (.turn client' turn)).clients client = s.clients client :=
  Function.update_of_ne h _ _

/-- A turn other than the one-shot read registers an observer, or leaves the
stage as it is. -/
theorem stage_turned {env : Env} {s : State} {client : ClientId} {turn : Turn}
    (h : s.Turnable env client turn) (hread : ∀ children, turn ≠ .retrieve children) :
    ((s.clients client).stage = .retrieved ∧
        (turned env s client turn).stage = .observingChanged) ∨
      (turned env s client turn).stage = .live ∨
      (turned env s client turn).stage = (s.clients client).stage := by
  cases turn with
  | retrieve children => exact absurd rfl (hread children)
  | observeChanged => exact .inl ⟨h, rfl⟩
  | observeRemoved => exact .inr (.inl rfl)
  | deliver => exact .inr (.inr (Client.stage_deliver _))

/-- **A move** edits the settled list of a client by what the client hears. -/
theorem listed_move (move : Move) (client : ClientId) :
    (next env s (.move move)).listed client =
      editedBy (s.listed client) ((heard env s move client).toList.map LiveEvent.edit) :=
  Client.posts_settled_notify _ _

/-- **A turn** other than the one-shot read changes no settled list. -/
theorem listed_turn {client : ClientId} {turn : Turn} (h : ∀ children, turn ≠ .retrieve children)
    (client' : ClientId) : (next env s (.turn client turn)).listed client' = s.listed client' := by
  by_cases hc : client' = client
  · subst hc
    unfold listed
    rw [clients_next_turn]
    cases turn with
    | retrieve children => exact absurd rfl (h children)
    | observeChanged => rfl
    | observeRemoved => rfl
    | deliver => rw [turned, Client.settled_deliver]
  · unfold listed
    rw [clients_next_turn_of_ne env s hc]

theorem listed_turn_of_ne {client client' : ClientId} (h : client' ≠ client) (turn : Turn) :
    (next env s (.turn client turn)).listed client' = s.listed client' := by
  unfold listed
  rw [clients_next_turn_of_ne env s h]

/-- What is heard is about the move's child. -/
theorem heard_databaseKey {move : Move} {client : ClientId} {live : LiveEvent}
    (h : heard env s move client = some live) : live.post.databaseKey = some move.key :=
  Client.hears_databaseKey h

/-- What is heard edits no other key. -/
theorem target_heard {move : Move} {client : ClientId} :
    ∀ edit ∈ (heard env s move client).toList.map LiveEvent.edit,
      edit.target Post.databaseKey = some move.key := by
  intro edit hedit
  obtain ⟨live, hlive, rfl⟩ := List.mem_map.mp hedit
  rw [Option.mem_toList] at hlive
  rw [target_edit, heard_databaseKey env s hlive]

/-- How often a client lists a key. -/
def count (client : ClientId) (key : String) : Nat :=
  ((s.listed client).map Post.databaseKey).count (some key)

theorem count_move_of_ne {move : Move} {key : String} (h : key ≠ move.key) (client : ClientId) :
    (next env s (.move move)).count client key = s.count client key := by
  unfold count
  rw [listed_move]
  refine Edit.count_run_of_ne Post.databaseKey _ ?_
  intro edit hedit hkey
  rw [target_heard env s edit hedit] at hkey
  exact h (Option.some.inj hkey).symm

theorem count_move_none {move : Move} {client : ClientId} (h : heard env s move client = none)
    (key : String) : (next env s (.move move)).count client key = s.count client key := by
  unfold count
  rw [listed_move, h]
  rfl

theorem count_move_added {move : Move} {client : ClientId} {post : Post}
    (h : heard env s move client = some ⟨post, .added⟩) :
    (next env s (.move move)).count client move.key = s.count client move.key + 1 := by
  have hkey : post.databaseKey = some move.key := heard_databaseKey env s h
  unfold count
  rw [listed_move, h, ← hkey]
  exact Edit.count_exec_push Post.databaseKey _ post

theorem count_move_removed {move : Move} {client : ClientId} {post : Post}
    (h : heard env s move client = some ⟨post, .removed⟩) :
    (next env s (.move move)).count client move.key = s.count client move.key - 1 := by
  have hkey : post.databaseKey = some move.key := heard_databaseKey env s h
  unfold count
  rw [listed_move, h, ← hkey]
  exact Edit.count_exec_drop Post.databaseKey _ _

end State

end SocialTimeline
