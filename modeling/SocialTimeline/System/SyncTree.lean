import SocialTimeline.Database.FSyncTree
import SocialTimeline.System.Creation

/-!
# A client and its sync tree

What the database has the sync tree of one client do in a run of the system, and what
the app makes of the events of its two observers.

* **snapshots** — a child of the system as a snapshot (`Snapshot.ofChild`), and the
  children of `/posts` as what the server has (`State.server`);
* **writes** — what a write sets below its child (`Write.sets`), and the steps it is for
  the sync tree of its author and of anyone else (`Write.userAct`, `Write.serverAct`);
* **steps** — `syncActs` are the steps of the tree that go with one of the system, and
  `synced` runs both side by side.

The server tells a client what it takes, and then whether the client's own write was
taken. A tree without a view takes no notice of the first. A listen is answered at once;
the one-shot read has a view of its own, which is gone before the observers come, and is
not run here.
-/

namespace SocialTimeline

open FirebaseTimelineService Lib Lib.Nested

/-! ## Snapshots -/

namespace Snapshot

mutual

/-- A node with its children in order. -/
def ofNode : Node → Snapshot
  | .leaf value => ⟨.leaf value, trivial⟩
  | .children children => ofChildren children

def ofChildren : List (String × Node) → Snapshot
  | [] => empty
  | (key, node) :: children => Nested.setChild (ofChildren children) key (ofNode node)

end

/-- A child that may not be there. -/
def ofChild (child : Option Node) : Snapshot := (child.map ofNode).getD empty

theorem not_isLeaf_ofChildren (children : List (String × Node)) :
    ¬IsLeaf (ofChildren children) := by
  induction children with
  | nil => exact not_isLeaf_empty
  | cons e children ih => exact mt isLeaf_of_setChild ih

theorem ofChildren_setChild (key : String) (node : Node) (children : List (String × Node)) :
    ofChildren (setChild key node children) =
      Nested.setChild (ofChildren children) key (ofNode node) := by
  induction children with
  | nil => rfl
  | cons e children ih =>
      have hnot := not_isLeaf_ofChildren children
      rw [setChild]
      split
      · rename_i hkey
        rw [ofChildren, ofChildren, hkey, setChild_setChild fun hleaf => absurd hleaf hnot]
      · rename_i hkey
        rw [ofChildren, ofChildren, ih, setChild_comm _ (Ne.symm hkey)]

theorem child_ofChildren (children : List (String × Node)) (key : String) :
    child (ofChildren children) key = ofChild (children.lookup key) := by
  induction children with
  | nil => exact child_empty key
  | cons e children ih =>
      rw [ofChildren, lookup_cons_eq_ite]
      by_cases hkey : key = e.1
      · rw [hkey, child_setChild_self, if_pos rfl]
        rfl
      · rw [child_setChild_of_ne _ _ hkey, ih, if_neg hkey]

end Snapshot

/-! ## Writes -/

namespace FirebaseTimelineService.Write

/-- The path of the child. -/
def path (write : Write) : List String := [postsPath, write.key]

/-- What a write sets, below its child. -/
def sets : Write → List (List String × Snapshot)
  | setValue _ post => [([], .ofNode post.toNode)]
  | updateChildValues _ timestamp =>
      [([Post.Keys.timestamp], .ofNode (.leaf (.double timestamp)))]
  | removeValue _ => [([], empty)]

/-- The same with their whole paths. -/
def placed (write : Write) : List (List String × Snapshot) :=
  write.sets.map fun e => (write.path ++ e.1, e.2)

/-- The children that `updateChildValues` changes. -/
def changedChildren (timestamp : Double) : FCompoundWrite Snapshot :=
  FCompoundWrite.emptyWrite.addWrite (.ofNode (.leaf (.double timestamp))) [Post.Keys.timestamp]

/-- A write as its author's sync tree takes it. -/
def userAct (writeId : Int) (write : Write) : FSyncTree.Act :=
  match write with
  | setValue _ post => .userOverwrite write.path (.ofNode post.toNode) writeId true
  | updateChildValues _ timestamp => .userMerge write.path (changedChildren timestamp) writeId
  | removeValue _ => .userOverwrite write.path empty writeId true

/-- The record of a write on its way. -/
def record (writeId : Int) (write : Write) : FWriteRecord Snapshot :=
  match write with
  | setValue _ post => .overwrite write.path (.ofNode post.toNode) writeId true
  | updateChildValues _ timestamp => .merge write.path (changedChildren timestamp) writeId
  | removeValue _ => .overwrite write.path empty writeId true

/-- A write as the server tells of it. -/
def serverAct (write : Write) : FSyncTree.Act :=
  match write with
  | setValue _ post => .serverOverwrite write.path (.ofNode post.toNode)
  | updateChildValues _ timestamp => .serverMerge write.path (changedChildren timestamp)
  | removeValue _ => .serverOverwrite write.path empty

/-- **Taking a write** is setting what it sets. -/
theorem ofChild_exec (write : Write) (child : Option Node) :
    Snapshot.ofChild (write.exec child) = setAll write.sets (Snapshot.ofChild child) := by
  cases write with
  | setValue key post => rfl
  | removeValue key => rfl
  | updateChildValues key timestamp =>
      cases child with
      | none => rfl
      | some node =>
          cases node with
          | children children => exact Snapshot.ofChildren_setChild _ _ children
          | leaf value => exact Subtype.ext rfl

end FirebaseTimelineService.Write

/-! ## Children the app writes -/

/-- A child that a run of the system can have: none, a written post, or a lone timestamp. -/
inductive Formed : Option Node → Prop
  | absent : Formed none
  | written (post : Post) : Formed (some post.toNode)
  | stamped (timestamp : Double) : Formed (some (stampNode timestamp))

namespace Formed

variable {child child' : Option Node}

theorem exec (h : Formed child) (write : Write) : Formed (write.exec child) := by
  cases write with
  | setValue key post => exact .written post
  | removeValue key => exact .absent
  | updateChildValues key timestamp =>
      cases h with
      | absent => exact .stamped timestamp
      | written post =>
          exact (congrArg (fun node => Formed (some node))
            (updateImmediateChild_toNode post timestamp)).mpr (.written _)
      | stamped stamp =>
          exact (congrArg (fun node => Formed (some node))
            (State.updateImmediateChild_stampNode stamp timestamp)).mpr (.stamped _)

theorem foldl_exec (h : Formed child) (writes : List Write) :
    Formed (writes.foldl (fun child write => write.exec child) child) := by
  induction writes generalizing child with
  | nil => exact h
  | cons write writes ih => exact ih (h.exec write)

/-- Taking a write twice is taking it once. -/
theorem exec_exec (h : Formed child) (write : Write) :
    write.exec (write.exec child) = write.exec child := by
  cases write with
  | setValue key post => rfl
  | removeValue key => rfl
  | updateChildValues key timestamp => cases h <;> rfl

theorem not_isLeaf (h : Formed child) : ¬IsLeaf (Snapshot.ofChild child) := by
  cases h with
  | absent => exact not_isLeaf_empty
  | written post => exact Snapshot.not_isLeaf_ofChildren _
  | stamped timestamp => exact Snapshot.not_isLeaf_ofChildren _

theorem eq_none_iff (h : Formed child) : Snapshot.ofChild child = empty ↔ child = none := by
  refine ⟨fun hempty => ?_, fun hnone => hnone ▸ rfl⟩
  cases h with
  | absent => rfl
  | written post =>
      have hchild := congrArg (fun node => Nested.child node Post.Keys.message) hempty
      cases congrArg Subtype.val hchild
  | stamped timestamp =>
      have hchild := congrArg (fun node => Nested.child node Post.Keys.timestamp) hempty
      cases congrArg Subtype.val hchild

/-- A snapshot says which child it is of. -/
theorem ofChild_inj (h : Formed child) (h' : Formed child')
    (heq : Snapshot.ofChild child = Snapshot.ofChild child') : child = child' := by
  have hat : ∀ childKey, (Nested.child (Snapshot.ofChild child) childKey).val =
      (Nested.child (Snapshot.ofChild child') childKey).val := fun childKey => by rw [heq]
  have hmessage := hat Post.Keys.message
  have huser := hat Post.Keys.user
  have htimestamp := hat Post.Keys.timestamp
  cases h with
  | absent => exact ((h'.eq_none_iff).mp heq.symm).symm
  | written post =>
      cases h' with
      | absent => exact absurd ((Formed.written post).eq_none_iff.mp heq) nofun
      | written post' =>
          obtain ⟨message, user, timestamp, databaseKey⟩ := post
          obtain ⟨message', user', timestamp', databaseKey'⟩ := post'
          cases hmessage
          cases huser
          cases htimestamp
          rfl
      | stamped timestamp => cases hmessage
  | stamped timestamp =>
      cases h' with
      | absent => exact absurd ((Formed.stamped timestamp).eq_none_iff.mp heq) nofun
      | written post => cases hmessage
      | stamped timestamp' =>
          cases htimestamp
          rfl

/-- The order of the children makes no difference to what a child decodes to. -/
theorem decodeSnapshot_ofNode {node : Node} (h : Formed (some node)) (key : String) :
    decodeSnapshot key (Snapshot.ofNode node).val = decodeSnapshot key node := by
  cases h with
  | written post =>
      rw [decodeSnapshot_toNode]
      exact decodeObject_children _ key
  | stamped timestamp => rfl

end Formed

/-! ## What the server has, and what is pending -/

/-- What some writes set. -/
def setsOf (writes : List Write) : List (List String × Snapshot) :=
  writes.flatMap Write.placed

namespace State

variable {env : Env} {s t : State} {client : ClientId} {key : String}

/-- The children of `/posts`. -/
def database (s : State) : Snapshot :=
  .ofChildren (s.used.filterMap fun key => (s.posts key).map fun node => (key, node))

/-- All that the server has. -/
def server (s : State) : Snapshot := set [postsPath] s.database empty

/-- The writes of a client in flight, in the order of issue. -/
def issued (s : State) (client : ClientId) : List Write :=
  (s.sent.filter fun e => e.1 = client).map Prod.snd

theorem child_database (h : s.Keyed) (key : String) :
    child s.database key = Snapshot.ofChild (s.posts key) := by
  have hlookup : ∀ used : List String,
      (used.filterMap fun key => (s.posts key).map fun node => (key, node)).lookup key =
        if key ∈ used then s.posts key else none := by
    intro used
    induction used with
    | nil => rfl
    | cons key' used ih =>
        cases hchild : s.posts key' with
        | none =>
            rw [List.filterMap_cons_none (by rw [hchild]; rfl), ih]
            by_cases hkey : key = key'
            · simp [hkey, hchild]
            · simp [hkey]
        | some node =>
            rw [List.filterMap_cons_some (b := (key', node)) (by rw [hchild]; rfl),
              lookup_cons_eq_ite, ih]
            by_cases hkey : key = key'
            · simp [hkey, hchild]
            · simp [hkey]
  rw [database, Snapshot.child_ofChildren, hlookup]
  split
  · rfl
  · rename_i hunused
    rw [(h.fresh hunused 0).1]

/-- The database is what its children are. -/
theorem database_eq (h : s.Keyed) {node : Snapshot} (hleaf : ¬IsLeaf node)
    (hchild : ∀ key, child node key = Snapshot.ofChild (s.posts key)) : s.database = node :=
  Nested.ext (Snapshot.not_isLeaf_ofChildren _) hleaf fun key =>
    (child_database h key).trans (hchild key).symm

theorem server_congr (hs : s.Keyed) (ht : t.Keyed) (h : t.posts = s.posts) :
    t.server = s.server := by
  refine congrArg (set [postsPath] · empty) (database_eq ht ?_ fun key => ?_)
  · exact Snapshot.not_isLeaf_ofChildren _
  · rw [child_database hs, h]

theorem get_database (s : State) : get [postsPath] s.server = s.database :=
  get_set [postsPath] s.database empty

theorem get_server (h : s.Keyed) (key : String) :
    get [postsPath, key] s.server = Snapshot.ofChild (s.posts key) := by
  rw [← child_database h key, ← get_database]
  exact get_append [postsPath] [key] s.server

/-- The server has set what a write it took sets. -/
theorem server_commit {write : Write} (hs : s.Keyed) (ht : t.Keyed)
    (hposts : t.posts = Function.update s.posts write.key (write.exec (s.posts write.key))) :
    t.server = setAll write.placed s.server := by
  have hchild := write.ofChild_exec (s.posts write.key)
  have hdatabase : t.database =
      Nested.setChild s.database write.key (Snapshot.ofChild (write.exec (s.posts write.key))) := by
    refine database_eq ht (mt isLeaf_of_setChild (Snapshot.not_isLeaf_ofChildren _)) fun key => ?_
    rw [hposts]
    by_cases hkey : key = write.key
    · rw [hkey, child_setChild_self, Function.update_self]
    · rw [child_setChild_of_ne _ _ hkey, Function.update_of_ne hkey, child_database hs]
  have hapart : write.sets.Pairwise fun v w => Diverge v.1 w.1 := by
    cases write <;> exact List.pairwise_singleton _ _
  have hset : set [write.key] (Snapshot.ofChild (write.exec (s.posts write.key)))
      (get [postsPath] s.server) = t.database := by
    rw [hdatabase, get_database]
    rfl
  have hpath : get write.path s.server = Snapshot.ofChild (s.posts write.key) :=
    get_server hs write.key
  rw [Write.placed, setAll_below hapart, hpath, ← hchild,
    show write.path = [postsPath] ++ [write.key] from rfl, set_append, hset, server, server,
    set_set (clear_empty _)]

theorem clear_server (s : State) (key : String) : Clear [postsPath, key] s.server := by
  refine (clear_append (p := [postsPath]) (q := [key])).mpr ⟨?_, ?_⟩
  · exact clear_set _ (clear_empty [postsPath])
  · rw [get_database]
    exact ⟨Snapshot.not_isLeaf_ofChildren _, trivial⟩

/-- The keys were given out, and the children are ones the app writes. -/
structure Housed (s : State) : Prop where
  keyed : s.Keyed
  formed : ∀ key, Formed (s.posts key)

theorem housed (h : (timeline env).Reachable s) : s.Housed := by
  refine ⟨(wellKeyed h).keyed, fun key => ?_⟩
  cases hchild : s.posts key with
  | none => exact .absent
  | some node =>
      rcases (creation h).formed key node hchild with ⟨post, rfl⟩ | ⟨timestamp, rfl⟩
      · exact .written post
      · exact .stamped timestamp

/-- No leaf of the server stands in the way of a write. -/
theorem Housed.clear_setsOf (h : s.Housed) (writes : List Write) :
    ClearAll (setsOf writes) s.server := by
  intro e he
  obtain ⟨write, -, hplaced⟩ := List.mem_flatMap.mp he
  obtain ⟨f, hf, rfl⟩ := List.mem_map.mp hplaced
  refine clear_append.mpr ⟨clear_server s write.key, ?_⟩
  rw [show get write.path s.server = Snapshot.ofChild (s.posts write.key) from
    get_server h.keyed write.key]
  cases write with
  | updateChildValues key timestamp =>
      rw [List.mem_singleton.mp hf]
      exact ⟨(h.formed key).not_isLeaf, trivial⟩
  | setValue key post =>
      rw [List.mem_singleton.mp hf]
      trivial
  | removeValue key =>
      rw [List.mem_singleton.mp hf]
      trivial

/-- **Writes under way**, set one after another, leave each child as taking those about it
would. -/
theorem get_setAll_setsOf {node : Snapshot} {child : Option Node} (writes : List Write)
    (h : get [postsPath, key] node = Snapshot.ofChild child) :
    get [postsPath, key] (setAll (setsOf writes) node) = Snapshot.ofChild
      ((writes.filter fun write => write.key = key).foldl (fun child write => write.exec child)
        child) := by
  induction writes generalizing node child with
  | nil => exact h
  | cons write writes ih =>
      rw [setsOf, List.flatMap_cons, setAll_append]
      by_cases hkey : write.key = key
      · rw [List.filter_cons_of_pos (by simpa using hkey), List.foldl_cons]
        refine ih ?_
        rw [write.ofChild_exec, ← h, ← hkey]
        exact get_setAll_below [postsPath, write.key] write.sets node
      · rw [List.filter_cons_of_neg (by simpa using hkey)]
        refine ih ?_
        rw [← h]
        refine get_setAll_diverge (fun e he => ?_) node
        obtain ⟨f, -, rfl⟩ := List.mem_map.mp he
        have hapart : Diverge [postsPath, key] write.path :=
          diverge_cons.mpr (.inr ⟨rfl, diverge_cons.mpr (.inl (Ne.symm hkey))⟩)
        exact hapart.append_right f.1

/-- What a client sees that sees its own writes at once. -/
theorem view_optimistic (henv : env.visibility = .optimistic) (client : ClientId)
    (key : String) : view env s client key =
      ((s.issued client).filter fun write => write.key = key).foldl
        (fun child write => write.exec child) (s.posts key) := by
  have hpending : (s.issued client).filter (fun write => write.key = key) =
      (s.pending client key).map Prod.snd := by
    rw [issued, List.filter_map, List.filter_filter, pending]
    refine congrArg (List.map Prod.snd) (List.filter_congr fun e _ => ?_)
    simp [Bool.and_comm]
  unfold view
  rw [henv, hpending, List.foldl_map]

theorem Housed.formed_view (h : s.Housed) (henv : env.visibility = .optimistic)
    (client : ClientId) (key : String) : Formed (view env s client key) := by
  rw [view_optimistic henv]
  exact (h.formed key).foldl_exec _

/-- **What a client sees** is what the server has with the client's writes made on it. -/
theorem Housed.get_view (h : s.Housed) (henv : env.visibility = .optimistic)
    (client : ClientId) (key : String) :
    get [postsPath, key] (setAll (setsOf (s.issued client)) s.server) =
      Snapshot.ofChild (view env s client key) := by
  rw [view_optimistic henv]
  exact get_setAll_setsOf _ (get_server h.keyed key)

/-! ### Writes issued and answered -/

theorem issued_append (author : ClientId) (write : Write)
    (ht : t.sent = s.sent ++ [(author, write)]) (client : ClientId) :
    t.issued client = s.issued client ++ if author = client then [write] else [] := by
  rw [issued, ht, List.filter_append, List.map_append]
  refine congrArg (s.issued client ++ ·) ?_
  by_cases hauthor : author = client <;> simp [hauthor]

theorem issued_erase_of_ne {author : ClientId} (hne : author ≠ client) (write : Write)
    (ht : t.sent = s.sent.erase (author, write)) : t.issued client = s.issued client := by
  rw [issued, ht, ← List.erase_filter, List.erase_of_not_mem]
  · rfl
  · intro hmem
    exact hne (of_decide_eq_true (List.mem_filter.mp hmem).2)

/-- An answer to the oldest write leaves the others. -/
theorem issued_erase_oldest {write : Write} (ht : t.sent = s.sent.erase (client, write))
    (holdest : (s.issued client).head? = some write) :
    s.issued client = write :: t.issued client := by
  rw [issued, List.head?_map] at holdest
  obtain ⟨e, he, rfl⟩ := Option.map_eq_some_iff.mp holdest
  obtain ⟨rest, hsent⟩ := List.head?_eq_some_iff.mp he
  have hclient : e.1 = client :=
    of_decide_eq_true (List.mem_filter.mp (hsent ▸ List.mem_cons_self : e ∈ _)).2
  have hhead : (client, e.2) = e := by rw [← hclient]
  rw [issued, issued, ht, ← List.erase_filter, hsent, hhead, List.erase_cons_head, List.map_cons]

end State

/-! ## Steps -/

/-- The write a move issues, and who issues it. -/
def Move.issues (env : Env) : Move → Option (ClientId × Write)
  | createPost client key message now =>
      some (client, FirebaseTimelineService.createPost message (env.users client) key now)
  | createdPost client key now =>
      (createPostCompletion key none now).1.map fun write => (client, write)
  | removePost client key => some (client, .removeValue key)
  | commit _ _ => none
  | reject _ _ => none

theorem Move.sent_issues {env : Env} {s : State} {move : Move} {author : ClientId}
    {write : Write} (h : move.issues env = some (author, write)) :
    (s.moved env move).sent = s.sent ++ [(author, write)] ∧
      (s.moved env move).posts = s.posts := by
  cases move <;> cases h <;> exact ⟨rfl, rfl⟩

/-- The observer of `addedPosts`. -/
def addedPostsObserver : FEventRegistration where
  handle := 0
  responseTo type := type = .child .childChanged

/-- The observer of `removedPosts`. -/
def removedPostsObserver : FEventRegistration where
  handle := 1
  responseTo type := type = .child .childRemoved

/-- The observers registered at a stage. -/
def Stage.observers : Stage → List FEventRegistration
  | opened => []
  | retrieved => []
  | observingChanged => [addedPostsObserver]
  | live => [addedPostsObserver, removedPostsObserver]

/-- What the app makes of the events. -/
def liveEvents (events : Events) : List LiveEvent :=
  events.filterMap fun e =>
    match e.2 with
    | .child event => startLiveUpdating event
    | .value _ => none

namespace FSyncTree

def nextWriteId (tree : FSyncTree) : Int := tree.pendingWriteTree.lastWriteId + 1

def oldestWriteId (tree : FSyncTree) : Int :=
  (tree.pendingWriteTree.allWrites.head?.map FWriteRecord.writeId).getD 0

/-- Some steps one after another, with the events of all. -/
def nextAll (location : List String) (tree : FSyncTree) : List Act → Option (FSyncTree × Events)
  | [] => some (tree, [])
  | act :: acts => do
      let (tree, events) ← tree.next location act
      let (tree, events') ← nextAll location tree acts
      return (tree, events ++ events')

end FSyncTree

/-- What a step of the system has the sync tree of a client do. The first observer has the
client listen to `/posts`, and the server tell it all that is there. -/
def syncActs (env : Env) (client : ClientId) (s : State) (tree : FSyncTree) :
    Act → List FSyncTree.Act
  | .move (.commit author write) =>
      write.serverAct :: if author = client then [.ackUserWrite tree.oldestWriteId false] else []
  | .move (.reject author _) =>
      if author = client then [.ackUserWrite tree.oldestWriteId true] else []
  | .move move =>
      ((move.issues env).filter fun e => e.1 = client).toList.map fun e =>
        e.2.userAct tree.nextWriteId
  | .turn reader .observeChanged =>
      if reader = client then
        [.addEventRegistration addedPostsObserver, .serverOverwrite [postsPath] s.database,
          .listenComplete [postsPath]]
      else []
  | .turn reader .observeRemoved =>
      if reader = client then [.addEventRegistration removedPostsObserver] else []
  | .turn _ _ => []

/-- The system with the sync tree of one client. -/
structure Synced where
  system : State
  tree : FSyncTree
  /-- What the app has made of the events so far. -/
  received : List LiveEvent

/-- The sync tree of a client beside the system. -/
def synced (env : Env) (client : ClientId) : TSys Synced Act where
  init := { system := .initial env, tree := .init, received := [] }
  step c act := do
    let system ← (timeline env).step c.system act
    let (tree, events) ← c.tree.nextAll [postsPath] (syncActs env client c.system c.tree act)
    return { system, tree, received := c.received ++ liveEvents events }

/-- The server answers the writes of a client in the order of issue. -/
def InOrder (client : ClientId) (s : State) : Act → Prop
  | .move (.commit author write) => author = client → (s.issued client).head? = some write
  | .move (.reject author write) => author = client → (s.issued client).head? = some write
  | _ => True

/-- What a client hears of a step. -/
def heardOf (env : Env) (client : ClientId) (s : State) : Act → List LiveEvent
  | .move move => (s.heard env move client).toList
  | .turn _ _ => []

/-- What a client hears in a run. -/
def heardAlong (env : Env) (client : ClientId) (acts : List Act) : List LiveEvent :=
  (timeline env).history (fun heard s act _ => heard ++ heardOf env client s act) [] acts

end SocialTimeline
