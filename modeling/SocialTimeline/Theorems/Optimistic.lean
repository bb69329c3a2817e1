import SocialTimeline.System.SyncTree
import SocialTimeline.Theorems.Applying

/-!
# The sync tree behind a client

A client that sees its own writes at once sees what its sync tree shows. `synced_follows`
says so for every run in which the server answers the client's writes in the order of
issue: the tree takes every step, its view shows the children the client sees, and the app
makes of the events of its two observers what the client of the system hears.

* `Seen` — what there is to see with some writes made on what the server has;
* `Mirrors` — the tree has been told that, and has just these writes pending and just
  the observers registered. A step that is taken keeps it, and its events come to what is
  heard (`Mirrors.apply`);
* `InStep` — the tree takes some steps and is where the client is then; so for every move
  and every turn (`inStep_move`, `inStep_turn`).
-/

namespace SocialTimeline

open FirebaseTimelineService Lib Lib.Nested FSyncTree

/-! ## Writes on the tree -/

namespace FirebaseTimelineService.Write

theorem writes_changedChildren (timestamp : Double) : (changedChildren timestamp).writes =
    [([Post.Keys.timestamp], .ofNode (.leaf (.double timestamp)))] := rfl

theorem writes_record (write : Write) (writeId : Int) :
    (write.record writeId).writes = write.placed := by
  cases write <;> rfl

theorem told_userAct (server : Snapshot) (write : Write) (writeId : Int) :
    FSyncTree.told server (write.userAct writeId) = server := by
  cases write <;> rfl

/-- What the server tells of a write it has taken is what the write sets. -/
theorem told_serverAct (server : Snapshot) (write : Write) :
    FSyncTree.told server write.serverAct = setAll write.placed server := by
  cases write <;> rfl

theorem orderly_userAct (server : Snapshot) (tree : FSyncTree) (write : Write) (writeId : Int) :
    Orderly [postsPath] server tree (write.userAct writeId) := by
  cases write with
  | setValue key post => rfl
  | removeValue key => rfl
  | updateChildValues key timestamp =>
      show ∀ e ∈ (changedChildren timestamp).writes, e.1.length ≤ 1
      rw [writes_changedChildren]
      exact List.forall_mem_singleton.mpr (le_refl 1)

theorem orderly_serverAct (server : Snapshot) (tree : FSyncTree) (write : Write) :
    Orderly [postsPath] server tree write.serverAct := by
  cases write <;> trivial

end FirebaseTimelineService.Write

/-- The pending writes are some writes of a client, in the order of issue. -/
def Pends (tree : FSyncTree) (writes : List Write) : Prop :=
  List.Forall₂ (fun record write => record = write.record record.writeId)
    tree.pendingWriteTree.allWrites writes

variable {tree tree' : FSyncTree} {act : FSyncTree.Act} {events : Events}
  {writes writes' : List Write} {server server' : Snapshot}

theorem Pends.pending_eq (h : Pends tree writes) : tree.pending = setsOf writes := by
  unfold FSyncTree.pending
  unfold Pends at h
  generalize tree.pendingWriteTree.allWrites = records at h
  induction h with
  | nil => rfl
  | cons hrecord h ih =>
      rw [FWriteTree.pending_cons, ih, hrecord, Write.writes_record]
      rfl

theorem Pends.congr (h : Pends tree writes)
    (hsame : tree'.pendingWriteTree = tree.pendingWriteTree) : Pends tree' writes := by
  unfold Pends
  rw [hsame]
  exact h

theorem Pends.issue (h : Pends tree writes) {write : Write} {writeId : Int}
    (hall : tree'.pendingWriteTree.allWrites =
      tree.pendingWriteTree.allWrites ++ [write.record writeId]) :
    Pends tree' (writes ++ [write]) := by
  unfold Pends
  rw [hall]
  refine List.rel_append h (.cons ?_ .nil)
  cases write <;> rfl

/-! ## What there is to see -/

/-- What there is to see with some writes made on what the server has. -/
structure Seen (server : Snapshot) (writes : List Write) (seen : String → Option Node) :
    Prop where
  clear : ClearAll (setsOf writes) server
  formed : ∀ key, Formed (seen key)
  get_eq : ∀ key, get [postsPath, key] (setAll (setsOf writes) server) =
    Snapshot.ofChild (seen key)

theorem Seen.child_eq {seen : String → Option Node} (h : Seen server writes seen)
    (key : String) :
    child (get [postsPath] (setAll (setsOf writes) server)) key = Snapshot.ofChild (seen key) := by
  rw [← h.get_eq key]
  exact (get_append [postsPath] [key] _).symm

namespace State

variable {env : Env} {s t : State}

theorem Housed.seen (h : s.Housed) (henv : env.visibility = .optimistic) (client : ClientId) :
    Seen s.server (s.issued client) (view env s client) :=
  ⟨h.clear_setsOf _, h.formed_view henv client, h.get_view henv client⟩

end State

/-- The tree has been told what the server has, and has just some writes pending and the
observers of a stage registered. -/
structure Mirrors (server : Snapshot) (writes : List Write) (stage : Stage) (tree : FSyncTree) :
    Prop where
  upToDate : UpToDate [postsPath] server tree
  pends : Pends tree writes
  observers : tree.observers = stage.observers
  unviewed : tree.observers = [] → tree.view = none
  full : tree.Full

theorem observers_of_view (h : tree.view = none) : tree.observers = [] := by
  rw [FSyncTree.observers, h]
  rfl

theorem exists_view (h : tree.observers ≠ []) : ∃ view, tree.view = some view :=
  Option.ne_none_iff_exists'.mp (mt observers_of_view h)

variable {seen seen' : String → Option Node} {stage : Stage}

/-- A view that has been told all shows what there is to see. -/
theorem UpToDate.shown_eq (h : UpToDate [postsPath] server tree) (hpends : Pends tree writes)
    (hseen : Seen server writes seen) {view : FView} (hview : tree.view = some view)
    (hfull : view.viewCache.cachedServerSnap.isFullyInitialized = true) (key : String) :
    tree.shown key = Snapshot.ofChild (seen key) := by
  have hshows := (h.shows view hview).shown (.inl hfull)
  unfold FSyncTree.shown
  rw [hview]
  show child view.viewCache.cachedEventSnap.node key = _
  rw [hshows, hpends.pending_eq]
  exact hseen.child_eq key

theorem Mirrors.shown_eq (h : Mirrors server writes stage tree) (hseen : Seen server writes seen)
    {view : FView} (hview : tree.view = some view) (key : String) :
    tree.shown key = Snapshot.ofChild (seen key) :=
  UpToDate.shown_eq h.upToDate h.pends hseen hview (h.full view hview) key

/-- **A step that is taken** and changes one child only: its events come to what is heard
of the change. -/
theorem Mirrors.apply {client : Client} (h : Mirrors server writes client.stage tree)
    (hseen : Seen server writes seen) (hseen' : Seen server' writes' seen')
    (happlied : Applied [postsPath] tree act tree' events)
    (horderly : Orderly [postsPath] server tree act)
    (htold : FSyncTree.told server act = server') (hpends : Pends tree' writes') (key : String)
    (hsame : ∀ other, other ≠ key → seen' other = seen other) :
    Mirrors server' writes' client.stage tree' ∧
      liveEvents events = (client.hears (childEvent key (seen key) (seen' key))).toList := by
  obtain ⟨changes, hreported, hstrict⟩ := happlied.reported
  have hobservers := hreported.observers
  have hmirrors : Mirrors server' writes' client.stage tree' := by
    subst htold
    refine ⟨h.upToDate.next happlied.next horderly ?_ ?_, hpends, hobservers.trans h.observers,
      fun hnil => happlied.unviewed (h.unviewed (hobservers ▸ hnil)), happlied.full h.full⟩
    · exact h.pends.pending_eq ▸ hseen.clear
    · exact hpends.pending_eq ▸ hseen'.clear
  refine ⟨hmirrors, ?_⟩
  cases hview : tree.view with
  | none =>
      -- nobody observes
      have hnil : client.stage.observers = [] :=
        h.observers.symm.trans (observers_of_view hview)
      obtain ⟨valueChange, rfl⟩ := hreported.events
      rw [h.observers, hnil, Client.hears_of_observers hnil]
      exact liveEvents_nobody changes valueChange
  | some view =>
      obtain ⟨view', hview'⟩ := exists_view fun hnil => by
        cases hview.symm.trans (h.unviewed (hobservers ▸ hnil))
      have hshown := h.shown_eq hseen hview
      have hshown' := hmirrors.shown_eq hseen' hview'
      refine liveEvents_of_reported hreported hstrict h.observers (hseen.formed key)
        (hseen'.formed key) (hshown key) (hshown' key) fun other hne => ?_
      rw [hshown other, hshown' other, hsame other hne]

/-- **An answer** to the oldest write. -/
theorem Mirrors.answer {client : Client} {write : Write}
    (h : Mirrors server (write :: writes) client.stage tree)
    (hseen : Seen server (write :: writes) seen) (hseen' : Seen server writes seen')
    (key : String) (hsame : ∀ other, other ≠ key → seen' other = seen other) (revert : Bool) :
    ∃ tree' events,
      tree.next [postsPath] (.ackUserWrite tree.oldestWriteId revert) = some (tree', events) ∧
      Mirrors server writes client.stage tree' ∧
      liveEvents events = (client.hears (childEvent key (seen key) (seen' key))).toList := by
  obtain ⟨record, records, -, hrecords, hall⟩ := List.forall₂_cons_right_iff.mp h.pends
  have hid : record.writeId = tree.oldestWriteId := by
    rw [oldestWriteId, hall]
    rfl
  obtain ⟨tree', events, happlied, hrest⟩ := applied_answer hall revert
  have hpends : Pends tree' writes := by
    unfold Pends
    rw [hrest]
    exact hrecords
  exact ⟨tree', events, happlied.next,
    h.apply hseen hseen' happlied ⟨record, records, hall, hid⟩ rfl hpends key hsame⟩

/-! ## Moves -/

theorem nextAll_one (h : tree.next [postsPath] act = some (tree', events)) :
    tree.nextAll [postsPath] [act] = some (tree', events) := by
  simp [nextAll, h]

theorem nextAll_cons {acts : List FSyncTree.Act} {last : FSyncTree} {events' : Events}
    (h : tree.next [postsPath] act = some (tree', events))
    (hrest : tree'.nextAll [postsPath] acts = some (last, events')) :
    tree.nextAll [postsPath] (act :: acts) = some (last, events ++ events') := by
  simp [nextAll, h, hrest]

namespace State

variable {env : Env} {s t : State} {client : ClientId}

theorem view_moved_of_ne (env : Env) (s : State) (client : ClientId) {move : Move} {key : String}
    (h : key ≠ move.key) : view env (moved env s move) client key = view env s client key :=
  view_congr env (posts_moved_of_ne env s h) (pending_moved_of_ne env s h client)

/-- What the server has and what is in flight make what is seen. -/
theorem view_of_issued (henv : env.visibility = .optimistic) (hposts : t.posts = s.posts)
    (hissued : t.issued client = s.issued client) : view env t client = view env s client := by
  funext key
  rw [view_optimistic henv, view_optimistic henv, hposts, hissued]

/-- **The oldest write** shows alike before the server has taken it, when it has not
answered yet, and after. -/
theorem view_commit_own (henv : env.visibility = .optimistic) (hs : s.Housed) {write : Write}
    (hposts : t.posts = Function.update s.posts write.key (write.exec (s.posts write.key)))
    (hissued : s.issued client = write :: t.issued client) (key : String) :
    ((s.issued client).filter fun write => write.key = key).foldl
        (fun child write => write.exec child) (t.posts key) = view env s client key ∧
      view env t client key = view env s client key := by
  rw [view_optimistic henv, view_optimistic henv, hissued, hposts]
  by_cases hkey : write.key = key
  · subst hkey
    rw [List.filter_cons_of_pos (by simp), List.foldl_cons, List.foldl_cons, Function.update_self,
      (hs.formed write.key).exec_exec]
    exact ⟨rfl, rfl⟩
  · rw [List.filter_cons_of_neg (by simpa using hkey), Function.update_of_ne (Ne.symm hkey)]
    exact ⟨rfl, rfl⟩

end State

/-- The tree is where a client is. -/
abbrev Beside (client : ClientId) (s : State) (tree : FSyncTree) : Prop :=
  Mirrors s.server (s.issued client) (s.clients client).stage tree

/-- The tree takes some steps, is where the client is then, and the events come to what is
heard. -/
def InStep (client : ClientId) (tree : FSyncTree) (acts : List FSyncTree.Act) (t : State)
    (heard : List LiveEvent) : Prop :=
  ∃ tree' events, tree.nextAll [postsPath] acts = some (tree', events) ∧
    Beside client t tree' ∧ liveEvents events = heard

section Steps

open State

variable {env : Env} {s : State} {client author : ClientId} {write : Write} {move : Move}

/-- A move of which the tree is told nothing. -/
theorem inStep_idle (henv : env.visibility = .optimistic) (hs : s.Housed)
    (ht : (s.next env (.move move)).Housed) (h : Beside client s tree)
    (hposts : (moved env s move).posts = s.posts)
    (hissued : (moved env s move).issued client = s.issued client) :
    InStep client tree [] (s.next env (.move move)) (s.heard env move client).toList := by
  refine ⟨tree, [], rfl, ?_, ?_⟩
  · have hserver : (s.next env (.move move)).server = s.server :=
      server_congr hs.keyed ht.keyed hposts
    unfold Beside
    rw [hserver, show (s.next env (.move move)).issued client = s.issued client from hissued]
    exact h
  · have hview : view env (moved env s move) client = view env s client :=
      view_of_issued henv hposts hissued
    rw [State.heard, State.raised, hview, childEvent_self, Client.hears_none]
    rfl

/-- A move the tree is told of by one step. -/
theorem inStep_one (henv : env.visibility = .optimistic) (hs : s.Housed)
    (ht : (s.next env (.move move)).Housed) (h : Beside client s tree)
    (happlied : Applied [postsPath] tree act tree' events)
    (horderly : Orderly [postsPath] s.server tree act)
    (htold : FSyncTree.told s.server act = (s.next env (.move move)).server)
    (hpends : Pends tree' ((moved env s move).issued client)) :
    InStep client tree [act] (s.next env (.move move)) (s.heard env move client).toList :=
  ⟨tree', events, nextAll_one happlied.next,
    h.apply (hs.seen henv client) (ht.seen henv client) happlied horderly htold hpends
      move.key fun _ hne => view_moved_of_ne env s client hne⟩

/-- A client issues a write. -/
theorem inStep_issue (henv : env.visibility = .optimistic) (hs : s.Housed)
    (ht : (s.next env (.move move)).Housed) (h : Beside client s tree)
    (hissues : move.issues env = some (author, write)) :
    InStep client tree
      (((move.issues env).filter fun e => e.1 = client).toList.map fun e =>
        e.2.userAct tree.nextWriteId)
      (s.next env (.move move)) (s.heard env move client).toList := by
  obtain ⟨hsent, hposts⟩ := Move.sent_issues (s := s) hissues
  have hissued := issued_append author write hsent client
  by_cases hauthor : author = client
  · rw [if_pos hauthor] at hissued
    rw [hissues, Option.filter_some_pos (by simpa using hauthor)]
    obtain ⟨tree', events, happlied, hall⟩ := applied_user tree write
    refine inStep_one henv hs ht h happlied (write.orderly_userAct _ tree _) ?_ ?_
    · rw [Write.told_userAct]
      exact (server_congr hs.keyed ht.keyed hposts).symm
    · rw [hissued]
      exact h.pends.issue hall
  · rw [if_neg hauthor, List.append_nil] at hissued
    rw [hissues, Option.filter_some_neg (by simpa using hauthor)]
    exact inStep_idle henv hs ht h hposts hissued

/-- The server takes a write of someone else. -/
theorem inStep_commit_other (henv : env.visibility = .optimistic) (hs : s.Housed)
    (ht : (s.next env (.move (.commit author write))).Housed) (h : Beside client s tree)
    (hne : author ≠ client) :
    InStep client tree [write.serverAct] (s.next env (.move (.commit author write)))
      (s.heard env (.commit author write) client).toList := by
  have hissued : (s.commit author write).issued client = s.issued client :=
    issued_erase_of_ne hne write rfl
  obtain ⟨tree', events, happlied, hsame⟩ := applied_server tree write
  refine inStep_one henv hs ht h happlied (write.orderly_serverAct _ tree) ?_ ?_
  · rw [Write.told_serverAct]
    exact (server_commit hs.keyed ht.keyed rfl).symm
  · show Pends tree' ((s.commit author write).issued client)
    rw [hissued]
    exact h.pends.congr hsame

/-- The server takes a write of the client: it tells of it, and answers. Neither shows. -/
theorem inStep_commit_own (henv : env.visibility = .optimistic) (hs : s.Housed)
    (ht : (s.next env (.move (.commit client write))).Housed) (h : Beside client s tree)
    (holdest : (s.issued client).head? = some write) :
    InStep client tree [write.serverAct, .ackUserWrite tree.oldestWriteId false]
      (s.next env (.move (.commit client write)))
      (s.heard env (.commit client write) client).toList := by
  have hissued : s.issued client = write :: (s.commit client write).issued client :=
    issued_erase_oldest rfl holdest
  have hview := view_commit_own henv hs rfl hissued
  have hserver : (s.next env (.move (.commit client write))).server =
      setAll write.placed s.server := server_commit hs.keyed ht.keyed rfl
  have hbetween : Seen (s.next env (.move (.commit client write))).server (s.issued client)
      (view env s client) := by
    refine ⟨ht.clear_setsOf _, hs.formed_view henv client, fun key => ?_⟩
    rw [get_setAll_setsOf _ (get_server ht.keyed key)]
    exact congrArg Snapshot.ofChild (hview key).1
  obtain ⟨after, heard, happlied, hsame⟩ := applied_server tree write
  have hpends : Pends after (s.issued client) := h.pends.congr hsame
  obtain ⟨hbeside, hevents⟩ := h.apply (hs.seen henv client) hbetween happlied
    (write.orderly_serverAct _ tree) ((Write.told_serverAct _ write).trans hserver.symm) hpends
    write.key fun _ _ => rfl
  have holdest : after.oldestWriteId = tree.oldestWriteId := by
    rw [oldestWriteId, hsame]
    rfl
  rw [hissued] at hbeside hbetween
  obtain ⟨answered, answers, hanswer, hbeside', hevents'⟩ :=
    hbeside.answer hbetween (ht.seen henv client) write.key (fun other _ => (hview other).2) false
  rw [holdest] at hanswer
  refine ⟨answered, heard ++ answers, nextAll_cons happlied.next (nextAll_one hanswer),
    hbeside', ?_⟩
  rw [liveEvents_append, hevents, hevents', childEvent_self, Client.hears_none]
  rfl

/-- The server rejects a write of the client. -/
theorem inStep_reject_own (henv : env.visibility = .optimistic) (hs : s.Housed)
    (ht : (s.next env (.move (.reject client write))).Housed) (h : Beside client s tree)
    (holdest : (s.issued client).head? = some write) :
    InStep client tree [.ackUserWrite tree.oldestWriteId true]
      (s.next env (.move (.reject client write)))
      (s.heard env (.reject client write) client).toList := by
  have hissued : s.issued client = write :: (s.reject client write).issued client :=
    issued_erase_oldest rfl holdest
  have hseen := hs.seen henv client
  unfold Beside at h
  rw [hissued] at h hseen
  have hserver : (s.next env (.move (.reject client write))).server = s.server :=
    server_congr hs.keyed ht.keyed rfl
  have hseen' := ht.seen henv client
  rw [hserver] at hseen'
  obtain ⟨tree', events, hnext, hbeside, hevents⟩ :=
    h.answer hseen hseen' write.key
      (fun other hne => @view_moved_of_ne env s client (.reject client write) other hne) true
  refine ⟨tree', events, nextAll_one hnext, ?_, hevents⟩
  unfold Beside
  rw [hserver]
  exact hbeside

/-- **Every move**, with the server answering in the order of issue. -/
theorem inStep_move (henv : env.visibility = .optimistic) (hs : s.Housed)
    (ht : (s.next env (.move move)).Housed) (h : Beside client s tree)
    (horder : InOrder client s (.move move)) :
    InStep client tree (syncActs env client s tree (.move move)) (s.next env (.move move))
      (s.heard env move client).toList := by
  cases move with
  | createPost author key message now => exact inStep_issue henv hs ht h rfl
  | createdPost author key now => exact inStep_issue henv hs ht h rfl
  | removePost author key => exact inStep_issue henv hs ht h rfl
  | commit author write =>
      by_cases hauthor : author = client
      · subst hauthor
        rw [syncActs, if_pos rfl]
        exact inStep_commit_own henv hs ht h (horder rfl)
      · rw [syncActs, if_neg hauthor]
        exact inStep_commit_other henv hs ht h hauthor
  | reject author write =>
      by_cases hauthor : author = client
      · subst hauthor
        rw [syncActs, if_pos rfl]
        exact inStep_reject_own henv hs ht h (horder rfl)
      · rw [syncActs, if_neg hauthor]
        exact inStep_idle henv hs ht h rfl (issued_erase_of_ne hauthor write rfl)

/-! ## Turns -/

/-- An observer that is not for additions hears nothing of what there is. -/
theorem liveEvents_register (tree : FSyncTree) {registration : FEventRegistration}
    (hresponse : registration.responseTo (.child .childAdded) = false) :
    liveEvents (tree.addEventRegistration [postsPath] registration).2 = [] := by
  unfold FSyncTree.addEventRegistration FView.initialEvents
  refine liveEvents_added (fun change hchange => ?_)
    (List.forall_mem_singleton.mpr hresponse) _
  obtain ⟨key, -, rfl⟩ := List.mem_map.mp hchange
  rfl

/-- The second observer joins the first. -/
theorem inStep_observeRemoved (h : Beside client s tree)
    (hstage : (s.clients client).stage = .observingChanged) :
    InStep client tree [.addEventRegistration removedPostsObserver]
      (s.next env (.turn client .observeRemoved)) [] := by
  unfold Beside at h
  rw [hstage] at h
  have hobservers : (tree.addEventRegistration [postsPath] removedPostsObserver).1.observers =
      Stage.live.observers := by
    rw [observers_addEventRegistration, h.observers]
    rfl
  refine ⟨_, _, nextAll_one rfl, ?_, liveEvents_register tree rfl⟩
  show Mirrors s.server (s.issued client)
    ((s.next env (.turn client .observeRemoved)).clients client).stage
    (tree.addEventRegistration [postsPath] removedPostsObserver).1
  rw [clients_next_turn]
  refine ⟨h.upToDate.register _, h.pends, hobservers, fun hnil => ?_, ?_⟩
  · cases hobservers.symm.trans hnil
  · intro view' hview'
    -- there is the first observer's view
    obtain ⟨view, hview⟩ : ∃ view, tree.view = some view :=
      exists_view (h.observers ▸ List.cons_ne_nil _ _)
    have hfull := h.full view hview
    rw [FSyncTree.addEventRegistration, hview] at hview'
    rw [← Option.some.inj hview']
    exact hfull

/-- The first observer's view, of which the server has told nothing: it shows of each child
nothing, or what there is to see. -/
structure Awaits (server : Snapshot) (writes : List Write) (seen : String → Option Node)
    (tree : FSyncTree) : Prop where
  upToDate : UpToDate [postsPath] server tree
  pends : Pends tree writes
  observers : tree.observers = Stage.observingChanged.observers
  shown : ∀ key, tree.shown key = empty ∨ tree.shown key = Snapshot.ofChild (seen key)

/-- The first observer makes the view. -/
theorem Mirrors.register (h : Mirrors server writes .retrieved tree)
    (hseen : Seen server writes seen) :
    Awaits server writes seen (tree.addEventRegistration [postsPath] addedPostsObserver).1 := by
  refine ⟨h.upToDate.register _, h.pends, ?_, fun key => ?_⟩
  · rw [observers_addEventRegistration, h.observers]
    rfl
  · have hinitial := (lays h.upToDate.layered [postsPath]).child_initialViewCache server key
    have hpath : (tree.writesCache [postsPath]).path = [postsPath] := rfl
    rw [h.pends.pending_eq, hpath, hseen.child_eq key] at hinitial
    rw [FSyncTree.addEventRegistration, h.unviewed h.observers]
    exact hinitial

/-- The server tells it all there is. Nobody is called back. -/
theorem Awaits.tell (h : Awaits server writes seen tree) (hseen : Seen server writes seen)
    {newData : Snapshot} (hserver : set [postsPath] newData server = server) :
    ∃ tree' events,
      tree.next [postsPath] (.serverOverwrite [postsPath] newData) = some (tree', events) ∧
      Mirrors server writes .observingChanged tree' ∧ liveEvents events = [] := by
  obtain ⟨tree', events, happlied, hsame⟩ := applied_serverAll tree newData
  obtain ⟨changes, hreported, hstrict⟩ := happlied.reported
  have hobservers : tree'.observers = Stage.observingChanged.observers :=
    hreported.observers.trans h.observers
  have hpends : Pends tree' writes := h.pends.congr hsame
  have htold : FSyncTree.told server (.serverOverwrite [postsPath] newData) = server := hserver
  have hupToDate : UpToDate [postsPath] server tree' := by
    have hnext := h.upToDate.next happlied.next trivial (h.pends.pending_eq ▸ hseen.clear)
      (by rw [htold, hpends.pending_eq]; exact hseen.clear)
    rwa [htold] at hnext
  have hfull : tree'.Full := by
    intro view' hview'
    obtain ⟨view, -, hcache⟩ := (applyOperationToSyncPoints_cases happlied.next).2 view' hview'
    rw [hcache]
    exact FViewProcessor.applyServerOverwriteTo_all view.viewCache newData _
  refine ⟨tree', events, happlied.next,
    ⟨hupToDate, hpends, hobservers, fun hnil => ?_, hfull⟩, ?_⟩
  · cases hobservers.symm.trans hnil
  · refine liveEvents_of_additions hreported hstrict h.observers fun key => ?_
    obtain ⟨view', hview'⟩ : ∃ view', tree'.view = some view' :=
      exists_view (hobservers ▸ List.cons_ne_nil _ _)
    rw [UpToDate.shown_eq hupToDate hpends hseen hview' (hfull view' hview') key]
    exact h.shown key

/-- That was all: nothing changes. -/
theorem Mirrors.complete {client : Client} (h : Mirrors server writes client.stage tree)
    (hseen : Seen server writes seen) :
    ∃ tree' events, tree.next [postsPath] (.listenComplete [postsPath]) = some (tree', events) ∧
      Mirrors server writes client.stage tree' ∧ liveEvents events = [] := by
  obtain ⟨tree', events, happlied, hsame⟩ := applied_listenComplete tree
  have hpends : Pends tree' writes := h.pends.congr hsame
  have horderly : Orderly [postsPath] server tree (.listenComplete [postsPath]) :=
    fun _ view hview => (h.upToDate.shows view hview).served (h.full view hview)
  obtain ⟨hmirrors, hevents⟩ :=
    h.apply hseen hseen happlied horderly rfl hpends postsPath fun _ _ => rfl
  rw [childEvent_self, Client.hears_none] at hevents
  exact ⟨tree', events, happlied.next, hmirrors, hevents⟩

/-- **The first observer** has the client listen to `/posts`. -/
theorem inStep_observeChanged (henv : env.visibility = .optimistic) (hs : s.Housed)
    (h : Beside client s tree) (hstage : (s.clients client).stage = .retrieved) :
    InStep client tree
      [.addEventRegistration addedPostsObserver, .serverOverwrite [postsPath] s.database,
        .listenComplete [postsPath]]
      (s.next env (.turn client .observeChanged)) [] := by
  unfold Beside at h
  rw [hstage] at h
  have hseen := hs.seen henv client
  have hserver : set [postsPath] s.database s.server = s.server :=
    set_set (clear_empty [postsPath]) s.database s.database
  have hclient : ((s.next env (.turn client .observeChanged)).clients client).stage =
      .observingChanged := by
    rw [clients_next_turn]
    rfl
  obtain ⟨made, events, hmade, hmirrors, hlive⟩ := (h.register hseen).tell hseen hserver
  rw [← hclient] at hmirrors
  obtain ⟨completed, events', hcompleted, hmirrors', hlive'⟩ := hmirrors.complete hseen
  refine ⟨completed, _, nextAll_cons rfl (nextAll_cons hmade (nextAll_one hcompleted)),
    hmirrors', ?_⟩
  rw [liveEvents_append, liveEvents_append, hlive, hlive']
  exact (List.append_nil _).trans (liveEvents_register tree rfl)

/-- A turn of which the tree is told nothing, and that registers nobody. -/
theorem inStep_quiet {reader : ClientId} {turn : Turn} (h : Beside client s tree)
    (hobservers : ((s.next env (.turn reader turn)).clients client).stage.observers =
      (s.clients client).stage.observers) :
    InStep client tree [] (s.next env (.turn reader turn)) [] := by
  refine ⟨tree, [], rfl, ?_, rfl⟩
  exact ⟨h.upToDate, h.pends, h.observers.trans hobservers.symm, h.unviewed, h.full⟩

/-- Before and after the one-shot read nobody observes. -/
theorem observers_retrieve {reading : Client} (h : reading.stage = .opened)
    (foundation : Foundation) (children : List (String × Node)) :
    (reading.retrieve foundation children).stage.observers = reading.stage.observers := by
  unfold Client.retrieve
  split
  · rw [h]
    rfl
  · rfl

/-- **Every turn**. -/
theorem inStep_turn (henv : env.visibility = .optimistic) (hs : s.Housed) (h : Beside client s tree)
    {reader : ClientId} {turn : Turn} (hturn : s.Turnable env reader turn) :
    InStep client tree (syncActs env client s tree (.turn reader turn))
      (s.next env (.turn reader turn)) [] := by
  by_cases hreader : reader = client
  · subst hreader
    cases turn with
    | retrieve children =>
        refine inStep_quiet h ?_
        rw [clients_next_turn]
        exact observers_retrieve hturn.1 env.foundation children
    | observeChanged =>
        rw [syncActs, if_pos rfl]
        exact inStep_observeChanged henv hs h hturn
    | observeRemoved =>
        rw [syncActs, if_pos rfl]
        exact inStep_observeRemoved h hturn
    | deliver =>
        refine inStep_quiet h ?_
        rw [clients_next_turn, turned, Client.stage_deliver]
  · have hsame : InStep client tree [] (s.next env (.turn reader turn)) [] := by
      refine inStep_quiet h ?_
      rw [clients_next_turn_of_ne env s (Ne.symm hreader)]
    cases turn with
    | retrieve children => exact hsame
    | observeChanged =>
        rw [syncActs, if_neg hreader]
        exact hsame
    | observeRemoved =>
        rw [syncActs, if_neg hreader]
        exact hsame
    | deliver => exact hsame

end Steps

/-! ## Runs -/

section Runs

variable {env : Env} {s t : State} {client : ClientId}

/-- **Every step** of the system, with the server answering in the order of issue. -/
theorem inStep_next (henv : env.visibility = .optimistic) (hs : s.Housed) {act : Act}
    (ht : (s.next env act).Housed) (h : Beside client s tree) (henabled : s.Enabled env act)
    (horder : InOrder client s act) :
    InStep client tree (syncActs env client s tree act) (s.next env act)
      (heardOf env client s act) := by
  cases act with
  | move move => exact inStep_move henv hs ht h horder
  | turn reader turn => exact inStep_turn henv hs h henabled

/-- The tree of a client that has not started yet. -/
theorem beside_initial (env : Env) (client : ClientId) :
    Beside client (.initial env) FSyncTree.init := by
  refine ⟨?_, .nil, rfl, fun _ => rfl, nofun⟩
  have hserver : (State.initial env).server = empty := set_empty [postsPath]
  rw [hserver]
  exact upToDate_init [postsPath]

theorem heardAlong_snoc {acts : List Act} {act : Act} (hrun : (timeline env).run acts = some s)
    (hstep : (timeline env).step s act = some t) :
    heardAlong env client (acts ++ [act]) =
      heardAlong env client acts ++ heardOf env client s act :=
  (timeline env).history_snoc _ _ hrun hstep

/-- **Synced runs.** Where the server answers a client's writes in the order of issue, a
client that sees its own writes at once has its sync tree in step: in every run the tree
takes every step, has the observers of the client's stage and, once there is a view, shows
of every child what the client sees; and the app has made of its events what the client of
the system has heard. -/
theorem synced_follows (henv : env.visibility = .optimistic) {acts : List Act}
    (horder : (timeline env).EachStep (fun _ s act => InOrder client s act) acts)
    (hrun : (timeline env).run acts = some s) :
    ∃ c, (synced env client).run acts = some c ∧ c.system = s ∧
      c.received = heardAlong env client acts ∧
      c.tree.observers = (s.clients client).stage.observers ∧
      ∀ view, c.tree.view = some view → ∃ snap, view.viewCache.completeEventSnap = some snap ∧
        ∀ key, child snap key = Snapshot.ofChild (State.view env s client key) := by
  have hrelated := TSys.run_of_simulation (N := synced env client)
    (R := fun acts s c => c.system = s ∧ Beside client s c.tree ∧
      c.received = heardAlong env client acts)
    ⟨rfl, beside_initial env client, rfl⟩ ?_ horder hrun
  · obtain ⟨c, hc, hsystem, hbeside, hreceived⟩ := hrelated
    have hseen := (State.housed ⟨acts, hrun⟩).seen henv client
    refine ⟨c, hc, hsystem, hreceived, hbeside.observers, fun view hview => ?_⟩
    obtain ⟨-, hshown⟩ := hbeside.upToDate.complete_snaps hview (hbeside.full view hview)
    refine ⟨_, hshown, fun key => ?_⟩
    rw [hbeside.pends.pending_eq]
    exact hseen.child_eq key
  · rintro acts act s t c hrun ⟨rfl, hbeside, hreceived⟩ horder hstep
    obtain ⟨henabled, rfl⟩ := step_eq_some.mp hstep
    have hs := State.housed ⟨acts, hrun⟩
    have hreached : (timeline env).Reachable (c.system.next env act) :=
      ⟨acts ++ [act], (timeline env).run_snoc_eq_some.mpr ⟨c.system, hrun, hstep⟩⟩
    have ht := State.housed hreached
    obtain ⟨tree, events, hnext, hbeside', hlive⟩ := inStep_next henv hs ht hbeside henabled horder
    refine ⟨⟨c.system.next env act, tree, c.received ++ liveEvents events⟩, ?_, rfl, hbeside', ?_⟩
    · show ((timeline env).step c.system act).bind _ = _
      rw [hstep]
      show (c.tree.nextAll [postsPath] (syncActs env client c.system c.tree act)).bind _ = _
      rw [hnext]
      rfl
    · rw [heardAlong_snoc hrun hstep, hreceived, hlive]

/-- A device that observes posts, and hears of its post with the second write. -/
theorem synced_follows_posting :
    ∃ c, (synced (devices .optimistic) 0).run
        ([.turn 0 (.retrieve []), .turn 0 .observeChanged, .turn 0 .observeRemoved,
            .move (.createPost 0 pushKey "hello" 1)] ++
          [.move (.commit 0 (.setValue pushKey firstPost))] ++
          [.move (.createdPost 0 pushKey 2)]) = some c ∧
      c.received =
        [⟨{ firstPost with timestamp := 2, databaseKey := some pushKey }, .added⟩] := by
  have horder : (timeline (devices .optimistic)).EachStep (fun _ s act => InOrder 0 s act)
      ([.turn 0 (.retrieve []), .turn 0 .observeChanged, .turn 0 .observeRemoved,
          .move (.createPost 0 pushKey "hello" 1)] ++
        [.move (.commit 0 (.setValue pushKey firstPost))] ++
        [.move (.createdPost 0 pushKey 2)]) := by
    refine TSys.eachStep_snoc (TSys.eachStep_snoc (TSys.eachStep_of_forall ?_) ?_) ?_
    · simp [InOrder]
    · intro s hrun _
      have hissued : ((timeline (devices .optimistic)).run
          [.turn 0 (.retrieve []), .turn 0 .observeChanged, .turn 0 .observeRemoved,
            .move (.createPost 0 pushKey "hello" 1)]).map (fun s => s.issued 0) =
          some [.setValue pushKey firstPost] := rfl
      rw [hrun] at hissued
      have hwrites : s.issued 0 = [.setValue pushKey firstPost] := Option.some.inj hissued
      rw [hwrites]
      rfl
    · exact fun _ _ => trivial
  obtain ⟨c, hc, -, hreceived, -⟩ := synced_follows rfl horder rfl
  exact ⟨c, hc, hreceived.trans rfl⟩

end Runs

end SocialTimeline
