import SocialTimeline.Theorems.Store

/-!
# Who wrote what a screen shows

Whatever a client lists, in whatever order the clients and the server act and
whether or not writes show before they are taken, was put in by a call of
`createPost`: the message and the user are the ones of that call, and the
timestamp was read from a clock of the client that made it.

* `Authored` — a post is what a call under its key made of it;
* `Known` — everything stored, in flight, raised and listed is; every move and every
  turn keep it (`Known.move`, `Known.turn`), so it holds after every run (`known`);
* `OwnRemoval` — a removal is issued through the gesture, which asks
  `canErasePostAt`. Then a post is taken away by its author's account only.
-/

namespace SocialTimeline

open FirebaseTimelineService Lib

/-- A post is what a call of `createPost` under the key made of it. Its timestamp
was read when the post was created or when its first write was acknowledged. -/
def Authored (env : Env) (acts : List Act) (key : String) (post : Post) : Prop :=
  ∃ author message now, .move (.createPost author key message now) ∈ acts ∧
    post.message = message ∧ post.user = (env.users author).username ∧
    (post.timestamp = now ∨ .move (.createdPost author key post.timestamp) ∈ acts)

/-- A child is an authored post, or the timestamp left of one. -/
def Traceable (env : Env) (acts : List Act) (key : String) (node : Node) : Prop :=
  (∃ post, Authored env acts key post ∧ node = post.toNode) ∨
    ∃ timestamp, node = stampNode timestamp

/-- A write in flight was issued by the client that made the call. -/
def Issued (env : Env) (acts : List Act) (client : ClientId) : Write → Prop
  | .setValue key post => ∃ message now, .move (.createPost client key message now) ∈ acts ∧
      post = { message, user := (env.users client).username, timestamp := now }
  | .updateChildValues key timestamp =>
      (∃ message now, .move (.createPost client key message now) ∈ acts) ∧
        .move (.createdPost client key timestamp) ∈ acts
  | .removeValue _ => True

section

variable {env : Env} {acts acts' : List Act} {key : String}

theorem Authored.mono {post : Post} (h : Authored env acts key post) (hle : acts ⊆ acts') :
    Authored env acts' key post := by
  obtain ⟨author, message, now, hcall, hmessage, huser, hstamp⟩ := h
  exact ⟨author, message, now, hle hcall, hmessage, huser, hstamp.imp_right (hle ·)⟩

theorem Traceable.mono {node : Node} (h : Traceable env acts key node) (hle : acts ⊆ acts') :
    Traceable env acts' key node := by
  rcases h with ⟨post, hpost, rfl⟩ | hstamp
  · exact .inl ⟨post, hpost.mono hle, rfl⟩
  · exact .inr hstamp

theorem Issued.mono {client : ClientId} {write : Write} (h : Issued env acts client write)
    (hle : acts ⊆ acts') : Issued env acts' client write := by
  cases write with
  | setValue key post =>
      obtain ⟨message, now, hcall, hpost⟩ := h
      exact ⟨message, now, hle hcall, hpost⟩
  | updateChildValues key timestamp =>
      obtain ⟨⟨message, now, hcall⟩, hcreated⟩ := h
      exact ⟨⟨message, now, hle hcall⟩, hle hcreated⟩
  | removeValue key => trivial

/-- What decodes of a traceable child is authored. -/
theorem Traceable.decode {node : Node} {post : Post} (h : Traceable env acts key node)
    (hdecode : decodeSnapshot key node = some post) : Authored env acts key post := by
  rcases h with ⟨post', ⟨author, message, now, hcall, hmessage, huser, hstamp⟩, rfl⟩ | ⟨stamp, rfl⟩
  · rw [decodeSnapshot_toNode] at hdecode
    cases hdecode
    exact ⟨author, message, now, hcall, hmessage, huser, hstamp⟩
  · rw [decodeSnapshot_stampNode] at hdecode
    cases hdecode

/-- An issued write leaves a traceable child traceable. The update belongs to the
call that made the child, since no two calls get one key. -/
theorem Traceable.exec {s : State} (hcalls : CallsApart acts s) {client : ClientId}
    {write : Write} (hwrite : Issued env acts client write) {child : Option Node}
    (hchild : ∀ node, child = some node → Traceable env acts write.key node) :
    ∀ node, write.exec child = some node → Traceable env acts write.key node := by
  intro node hnode
  cases write with
  | setValue key post =>
      obtain ⟨message, now, hcall, rfl⟩ := hwrite
      cases hnode
      exact .inl ⟨_, ⟨client, message, now, hcall, rfl, rfl, .inl rfl⟩, rfl⟩
  | removeValue key => cases hnode
  | updateChildValues key timestamp =>
      obtain ⟨⟨message, now, hcall⟩, hcreated⟩ := hwrite
      cases child with
      | none =>
          cases hnode
          exact .inr ⟨timestamp, rfl⟩
      | some old =>
          cases hnode
          rcases hchild old rfl with
            ⟨post, ⟨author, message', now', hcall', hmessage, huser, -⟩, rfl⟩ | ⟨stamp, rfl⟩
          · obtain ⟨rfl, -, -⟩ := hcalls.2 _ _ _ _ _ _ _ hcall hcall'
            exact .inl ⟨{ post with timestamp }, ⟨author, message', now', hcall', hmessage, huser,
              .inr hcreated⟩, updateImmediateChild_toNode post timestamp⟩
          · exact .inr ⟨timestamp, rfl⟩

end

/-! ## Everything is traceable -/

/-- Stored, in flight, raised and listed posts are authored. -/
structure Known (env : Env) (acts : List Act) (s : State) : Prop where
  sent : ∀ e ∈ s.sent, Issued env acts e.1 e.2
  acknowledged : ∀ e ∈ s.acknowledged, ∃ message now,
    .move (.createPost e.1 e.2 message now) ∈ acts
  stored : ∀ key node, s.posts key = some node → Traceable env acts key node
  raised : ∀ client, ∀ event ∈ (s.clients client).inbox, Traceable env acts event.key event.node
  listed : ∀ client, ∀ post ∈ (s.clients client).screen.posts,
    ∃ key, post.databaseKey = some key ∧ Authored env acts key post

namespace Known

variable {env : Env} {acts : List Act} {s : State}

theorem mono {acts' : List Act} (h : Known env acts s) (hle : acts ⊆ acts') :
    Known env acts' s where
  sent e he := (h.sent e he).mono hle
  acknowledged e he := by
    obtain ⟨message, now, hcall⟩ := h.acknowledged e he
    exact ⟨message, now, hle hcall⟩
  stored key node hnode := (h.stored key node hnode).mono hle
  raised client event he := (h.raised client event he).mono hle
  listed client post hpost := by
    obtain ⟨key, hkey, hauthored⟩ := h.listed client post hpost
    exact ⟨key, hkey, hauthored.mono hle⟩

/-- What a client sees is traceable, its own writes in flight included. -/
theorem view (h : Known env acts s) (hcalls : CallsApart acts s) {client : ClientId}
    {key : String} : ∀ node, s.view env client key = some node → Traceable env acts key node := by
  unfold State.view
  cases env.visibility with
  | committed => exact h.stored key
  | optimistic =>
      have hpending : ∀ e ∈ s.pending client key, Issued env acts e.1 e.2 ∧ e.2.key = key := by
        intro e he
        obtain ⟨hsent, hkey⟩ := List.mem_filter.mp he
        exact ⟨h.sent e hsent, (of_decide_eq_true hkey).2⟩
      have hstored := h.stored key
      -- the writes are laid over the child one after the other
      show ∀ node, (s.pending client key).foldl (fun child e => e.2.exec child) (s.posts key) =
        some node → _
      revert hpending hstored
      generalize s.pending client key = writes
      generalize s.posts key = child
      intro hpending hchild
      induction writes generalizing child with
      | nil => exact hchild
      | cons e writes ih =>
          obtain ⟨hissued, rfl⟩ := hpending e List.mem_cons_self
          exact ih (e.2.exec child) (fun e' he' => hpending e' (List.mem_cons_of_mem _ he'))
            (Traceable.exec hcalls hissued hchild)

/-- The writes in flight after a move were issued by their calls. -/
theorem sent_moved (h : Known env acts s) {move : Move} (hmove : s.Movable move) :
    ∀ e ∈ (s.moved env move).sent, Issued env (acts ++ [.move move]) e.1 e.2 := by
  have hold : ∀ e ∈ s.sent, Issued env (acts ++ [.move move]) e.1 e.2 :=
    fun e he => (h.sent e he).mono (List.subset_append_left _ _)
  have hself : Act.move move ∈ acts ++ [.move move] := by simp
  intro e he
  cases move with
  | createPost client key message now =>
      rcases List.mem_append.mp he with hsent | hnew
      · exact hold e hsent
      · rw [List.mem_singleton.mp hnew]
        exact ⟨message, now, hself, rfl⟩
  | createdPost client key now =>
      rcases List.mem_append.mp he with hsent | hnew
      · exact hold e hsent
      · rw [List.mem_singleton.mp hnew]
        obtain ⟨message, stamp, hcall⟩ := h.acknowledged _ hmove
        exact ⟨⟨message, stamp, List.mem_append_left _ hcall⟩, hself⟩
  | removePost client key =>
      rcases List.mem_append.mp he with hsent | hnew
      · exact hold e hsent
      · rw [List.mem_singleton.mp hnew]
        trivial
  | commit client write => exact hold e (List.mem_of_mem_erase he)
  | reject client write => exact hold e (List.mem_of_mem_erase he)

/-- So were the first writes taken whose completion block is due. -/
theorem acknowledged_moved (h : Known env acts s) {move : Move} (hmove : s.Movable move) :
    ∀ e ∈ (s.moved env move).acknowledged, ∃ message now,
      .move (.createPost e.1 e.2 message now) ∈ acts := by
  intro e he
  cases move with
  | commit client write =>
      cases write with
      | setValue key post =>
          rcases List.mem_append.mp he with hold | hnew
          · exact h.acknowledged e hold
          · rw [List.mem_singleton.mp hnew]
            obtain ⟨message, now, hcall, -⟩ := h.sent _ hmove
            exact ⟨message, now, hcall⟩
      | updateChildValues key timestamp => exact h.acknowledged e he
      | removeValue key => exact h.acknowledged e he
  | createdPost client key now => exact h.acknowledged e (List.mem_of_mem_erase he)
  | createPost client key message now => exact h.acknowledged e he
  | removePost client key => exact h.acknowledged e he
  | reject client write => exact h.acknowledged e he

theorem stored_moved (h : Known env acts s) (hcalls : CallsApart acts s) {move : Move}
    (hmove : s.Movable move) :
    ∀ key node, (s.moved env move).posts key = some node → Traceable env acts key node := by
  intro key node hnode
  rw [State.posts_moved] at hnode
  cases move with
  | commit client write =>
      by_cases hkey : key = write.key
      · subst hkey
        simp only [Function.update_self] at hnode
        exact Traceable.exec hcalls (h.sent _ hmove) (h.stored write.key) node hnode
      · simp only [Function.update_of_ne hkey] at hnode
        exact h.stored key node hnode
  | _ => exact h.stored key node hnode

end Known

/-- A child event carries the child before the change or after it. -/
theorem childEvent_node {key : String} {before after : Option Node} {event : DataEvent}
    (h : childEvent key before after = some event) :
    before = some event.node ∨ after = some event.node := by
  rcases before with _ | old <;> rcases after with _ | new
  · cases h
  · cases h
    exact .inr rfl
  · cases h
    exact .inl rfl
  · simp only [childEvent] at h
    split at h
    · cases h
    · cases h
      exact .inr rfl

/-- A post listed after an event was listed before, or is what the event carries. -/
theorem Screen.mem_observe {screen : Screen} {event : DataEvent} {post : Post}
    (h : post ∈ (screen.observe event).posts) :
    post ∈ screen.posts ∨ decodeSnapshot event.key event.node = some post := by
  rw [Client.posts_observe] at h
  rcases Edit.mem_run Post.databaseKey h with hold | hnew
  · exact .inl hold
  · obtain ⟨⟨post', type⟩, hlive, hedit⟩ := List.mem_map.mp hnew
    rw [Option.mem_toList] at hlive
    cases type with
    | removed => cases hedit
    | added =>
        cases hedit
        exact .inr (startLiveUpdating_some hlive)

namespace Known

variable {env : Env} {acts : List Act} {s : State}

/-- **A move** keeps everything traceable. -/
theorem move (h : Known env acts s) (hcalls : CallsApart acts s) {move : Move}
    (hmove : s.Movable move)
    (hcalls' : CallsApart (acts ++ [.move move]) (s.next env (.move move))) :
    Known env (acts ++ [.move move]) (s.next env (.move move)) := by
  have hle : acts ⊆ acts ++ [.move move] := List.subset_append_left _ _
  have hafter : Known env (acts ++ [.move move]) (s.moved env move) := by
    refine ⟨h.sent_moved hmove, ?_, ?_, ?_, ?_⟩
    · intro e he
      obtain ⟨message, now, hcall⟩ := h.acknowledged_moved hmove e he
      exact ⟨message, now, hle hcall⟩
    · exact fun key node hnode => (h.stored_moved hcalls hmove key node hnode).mono hle
    · -- the clients are still the ones before the move
      have hclients : (s.moved env move).clients = s.clients := by cases move <;> rfl
      rw [hclients]
      exact (h.mono hle).raised
    · have hclients : (s.moved env move).clients = s.clients := by cases move <;> rfl
      rw [hclients]
      exact (h.mono hle).listed
  refine ⟨hafter.sent, hafter.acknowledged, hafter.stored, ?_,
    fun client => (h.mono hle).listed client⟩
  intro client event he
  rcases List.mem_append.mp he with hold | hnew
  · exact (h.mono hle).raised client event hold
  · rw [Option.mem_toList] at hnew
    have hevent := Option.eq_some_of_filter_eq_some hnew
    rw [childEvent_key hevent]
    rcases childEvent_node hevent with hbefore | hafter'
    · exact (h.view hcalls _ hbefore).mono hle
    · exact hafter.view (s := s.moved env move) ⟨hcalls'.1, hcalls'.2⟩ _ hafter'

/-- **A turn** keeps everything traceable. -/
theorem turn (h : Known env acts s) (hcalls : CallsApart acts s) (hwell : s.WellKeyed)
    {client : ClientId} {turn : Turn} (hturn : s.Turnable env client turn) :
    Known env acts (s.next env (.turn client turn)) := by
  have hclient : (∀ event ∈ (s.turned env client turn).inbox,
      Traceable env acts event.key event.node) ∧
      ∀ post ∈ (s.turned env client turn).screen.posts,
        ∃ key, post.databaseKey = some key ∧ Authored env acts key post := by
    cases turn with
    | observeChanged => exact ⟨h.raised client, h.listed client⟩
    | observeRemoved => exact ⟨h.raised client, h.listed client⟩
    | retrieve children =>
        rw [State.turned, hwell.retrieve hturn.2]
        refine ⟨h.raised client, ?_⟩
        intro post hpost
        have hread : post ∈ TimelineViewModel.sorted (decodeChildren children) := hpost
        obtain ⟨key, node, hmem, hdecode⟩ :=
          State.mem_decodeChildren.mp (TimelineViewModel.mem_sorted.mp hread)
        have hview := hwell.keyed.mem_snapshot.mp (hturn.2.mem_iff.mp hmem)
        exact ⟨key, decodeSnapshot_databaseKey hdecode, (h.view hcalls node hview).decode hdecode⟩
    | deliver =>
        rw [State.turned]
        unfold Client.deliver
        split
        · exact ⟨h.raised client, h.listed client⟩
        · rename_i event inbox hinbox
          have hraised := h.raised client
          rw [hinbox] at hraised
          refine ⟨fun e he => hraised e (List.mem_cons_of_mem event he), ?_⟩
          intro post hpost
          rcases Screen.mem_observe hpost with hold | hdecode
          · exact h.listed client post hold
          · exact ⟨event.key, decodeSnapshot_databaseKey hdecode,
              (hraised event List.mem_cons_self).decode hdecode⟩
  refine ⟨h.sent, h.acknowledged, h.stored, ?_, ?_⟩
  · intro client'
    by_cases hc : client' = client
    · subst hc
      rw [State.clients_next_turn]
      exact hclient.1
    · rw [State.clients_next_turn_of_ne env s hc]
      exact h.raised client'
  · intro client'
    by_cases hc : client' = client
    · subst hc
      rw [State.clients_next_turn]
      exact hclient.2
    · rw [State.clients_next_turn_of_ne env s hc]
      exact h.listed client'

end Known

/-- **Everything is traceable**, in every run. -/
theorem known {env : Env} {acts : List Act} {s : State} (hrun : (timeline env).run acts = some s) :
    Known env acts s := by
  refine TSys.run_induction (P := Known env) ?_ ?_ hrun
  · exact ⟨nofun, nofun, nofun, fun _ => nofun, fun _ => nofun⟩
  · intro acts act s t hrun h hstep
    have hrun' : (timeline env).run (acts ++ [act]) = some t :=
      (timeline env).run_snoc_eq_some.mpr ⟨s, hrun, hstep⟩
    obtain ⟨henabled, rfl⟩ := step_eq_some.mp hstep
    cases act with
    | move move => exact h.move (callsApart hrun) henabled (callsApart hrun')
    | turn client turn =>
        exact (h.turn (callsApart hrun) (wellKeyed ⟨acts, hrun⟩) henabled).mono
          (List.subset_append_left _ _)

/-- **Rows are genuine.** In every run, with writes shown early or not, each row of
each client's table shows a post that one call of `createPost` put in, the only call
under its key: that call's message and user, and a time read from its client's clock
when the post was created or acknowledged. -/
theorem rows_authored (env : Env) {acts : List Act} {s : State}
    (hrun : (timeline env).run acts = some s) (client : ClientId) :
    ∀ row ∈ (s.clients client).screen.controller.table.rows, ∃ key author message now,
      row.post.databaseKey = some key ∧
        .move (.createPost author key message now) ∈ acts ∧
        (∀ author' message' now', .move (.createPost author' key message' now') ∈ acts →
          author' = author ∧ message' = message ∧ now' = now) ∧
        row.post.message = message ∧ row.post.user = (env.users author).username ∧
        (row.post.timestamp = now ∨ .move (.createdPost author key row.post.timestamp) ∈ acts) := by
  intro row hrow
  have hposts : row.post ∈ (s.clients client).screen.posts := by
    rw [← Screen.shown_eq]
    exact List.mem_map_of_mem hrow
  obtain ⟨key, hkey, author, message, now, hcall, hmessage, huser, hstamp⟩ :=
    (known hrun).listed client row.post hposts
  refine ⟨key, author, message, now, hkey, hcall, ?_, hmessage, huser, hstamp⟩
  intro author' message' now' hcall'
  exact (callsApart hrun).2 _ _ _ _ _ _ _ hcall hcall'

/-- The second device, of the same user, is told of the post of the first. -/
def told : List Act := opening ++ posting ++ [.turn 1 .deliver]

/-- The post as it is told of. -/
def toldPost : Post := { firstPost with timestamp := 2, databaseKey := some pushKey }

/-- The second device shows it. -/
theorem rows_authored_told :
    ∃ s, (timeline (devices .committed)).run told = some s ∧
      ∃ row, row ∈ (s.clients 1).screen.controller.table.rows ∧ row.post.user = "mia" := by
  have hrun : ((timeline (devices .committed)).run told).map
      (fun s => (s.clients 1).screen.shown) = some [toldPost] := by rfl
  obtain ⟨s, hs, hshown⟩ := Option.map_eq_some_iff.mp hrun
  obtain ⟨row, hrow, -⟩ := List.mem_map.mp (hshown ▸ List.mem_cons_self)
  refine ⟨s, hs, row, hrow, ?_⟩
  obtain ⟨_, _, _, _, -, -, -, -, huser, -⟩ := rows_authored _ hs 1 row hrow
  exact huser

/-! ## Removals -/

theorem Screen.user_receive (screen : Screen) (event : LiveEvent) :
    (screen.receive event).controller.viewModel.user = screen.controller.viewModel.user := by
  obtain ⟨c', hok, -, -, hfollows⟩ := TimelineViewController.receive_inStep screen.inStep event
  rw [screen.receive_eq event] at hok
  cases hok
  exact hfollows.user

theorem Client.user_deliver (client : Client) :
    client.deliver.screen.controller.viewModel.user = client.screen.controller.viewModel.user := by
  unfold Client.deliver
  split
  · rfl
  · show (client.screen.observe _).controller.viewModel.user = _
    unfold Screen.observe
    split
    · rfl
    · exact client.screen.user_receive _

/-- A screen belongs to the user of its client. -/
theorem user_of_reachable {env : Env} {s : State} (h : (timeline env).Reachable s)
    (client : ClientId) :
    (s.clients client).screen.controller.viewModel.user = env.users client := by
  refine h.invariant (I := fun s => ∀ client,
    (s.clients client).screen.controller.viewModel.user = env.users client) (fun _ => rfl) ?_ client
  intro s act t hs hstep client
  obtain ⟨henabled, rfl⟩ := step_eq_some.mp hstep
  cases act with
  | move move => exact hs client
  | turn reader turn =>
      by_cases hc : client = reader
      · subst hc
        rw [State.clients_next_turn]
        cases turn with
        | observeChanged => exact hs client
        | observeRemoved => exact hs client
        | deliver => exact (Client.user_deliver _).trans (hs client)
        | retrieve children =>
            show ((s.clients client).retrieve env.foundation
              children).screen.controller.viewModel.user = _
            unfold Client.retrieve
            split
            · exact hs client
            · exact hs client
      · rw [State.clients_next_turn_of_ne env s hc]
        exact hs client

/-- At some point of the run the client's table had a row for the key that
`canEditRowAt` let the user swipe. -/
def Swiped (env : Env) (acts : List Act) (client : ClientId) (key : String) : Prop :=
  ∃ pre s, pre <+: acts ∧ (timeline env).run pre = some s ∧
    ∃ index row, (s.clients client).screen.controller.table.rows[index]? = some row ∧
      (s.clients client).screen.controller.canEditRowAt index = .ok true ∧
      row.post.databaseKey = some key

/-- Removals come from swipes. -/
def FromSwipe (env : Env) (acts : List Act) (_ : State) (act : Act) : Prop :=
  ∀ client key, act = .move (.removePost client key) → Swiped env acts client key

/-- A child goes only by a removal from the account that its post was created
with. -/
def OwnRemoval (env : Env) (acts : List Act) (s : State) (act : Act) : Prop :=
  ∀ key, s.posts key ≠ none → (s.next env act).posts key = none →
    ∃ client author message now, act = .move (.commit client (.removeValue key)) ∧
      .move (.createPost author key message now) ∈ acts ∧
      (env.users author).username = (env.users client).username

/-- What a user can swipe was created with the user's account. -/
theorem Swiped.own {env : Env} {acts : List Act} {client : ClientId} {key : String}
    (h : Swiped env acts client key) : ∃ author message now,
      .move (.createPost author key message now) ∈ acts ∧
        (env.users author).username = (env.users client).username := by
  obtain ⟨pre, s, hpre, hrun, index, row, hrow, hedit, hkey⟩ := h
  have hposts : (s.clients client).screen.posts[index]? = some row.post := by
    rw [← Screen.shown_eq, Screen.shown, List.getElem?_map, hrow]
    rfl
  obtain ⟨key', hkey', author, message, now, hcall, -, huser, -⟩ :=
    (known hrun).listed client row.post (List.mem_of_getElem? hposts)
  rw [hkey] at hkey'
  cases hkey'
  refine ⟨author, message, now, hpre.subset hcall, ?_⟩
  -- the row may be swiped because its post carries the username of the screen's user
  have hvm : (s.clients client).screen.controller.viewModel.posts[index]? = some row.post := hposts
  simp only [TimelineViewController.canEditRowAt, TimelineViewModel.canErasePostAt,
    TimelineViewModel.postAt, hvm, bind, Except.bind, pure, Except.pure, Except.ok.injEq,
    beq_iff_eq, user_of_reachable ⟨pre, hrun⟩ client] at hedit
  exact huser.symm.trans hedit

/-- Removals in flight are of posts created with the account of the client that
issued them. -/
def OwnSent (env : Env) (acts : List Act) (s : State) : Prop :=
  ∀ client key, (client, .removeValue key) ∈ s.sent → ∃ author message now,
    .move (.createPost author key message now) ∈ acts ∧
      (env.users author).username = (env.users client).username

/-- A removal in flight after a move was in flight, or is issued by the gesture. -/
theorem State.removal_moved {env : Env} {s : State} {move : Move} {client : ClientId}
    {key : String} (h : (client, .removeValue key) ∈ (s.moved env move).sent) :
    (client, .removeValue key) ∈ s.sent ∨ move = .removePost client key := by
  cases move with
  | createPost client' key' message now =>
      rcases List.mem_append.mp h with hold | hnew
      · exact .inl hold
      · cases List.mem_singleton.mp hnew
  | createdPost client' key' now =>
      rcases List.mem_append.mp h with hold | hnew
      · exact .inl hold
      · cases List.mem_singleton.mp hnew
  | removePost client' key' =>
      rcases List.mem_append.mp h with hold | hnew
      · exact .inl hold
      · cases List.mem_singleton.mp hnew
        exact .inr rfl
  | commit client' write => exact .inl (List.mem_of_mem_erase h)
  | reject client' write => exact .inl (List.mem_of_mem_erase h)

/-- **Nobody removes another's post.** In every run in which removals come from
swipes that `canEditRowAt` allowed, at that moment or any time before, a child of
`/posts` goes away only by a removal that was issued under the username its post
was created with. -/
theorem own_posts_removed (env : Env) {acts : List Act}
    (h : (timeline env).EachStep (FromSwipe env) acts) :
    (timeline env).EachStep (OwnRemoval env) acts := by
  have hsent : (timeline env).Always (OwnSent env) acts := by
    refine TSys.always_of_eachStep (fun _ _ => nofun) ?_ h
    intro acts act s t hrun hs hswipe hstep client key hmem
    obtain ⟨henabled, rfl⟩ := step_eq_some.mp hstep
    have hold : (client, .removeValue key) ∈ s.sent ∨ act = .move (.removePost client key) := by
      cases act with
      | move move => exact (State.removal_moved hmem).imp_right (congrArg Act.move)
      | turn reader turn => exact .inl hmem
    rcases hold with hold | hact
    · obtain ⟨author, message, now, hcall, huser⟩ := hs client key hold
      exact ⟨author, message, now, List.mem_append_left _ hcall, huser⟩
    · obtain ⟨author, message, now, hcall, huser⟩ := (hswipe client key hact).own
      exact ⟨author, message, now, List.mem_append_left _ hcall, huser⟩
  intro pre act hpre s t hrun hstep key hthere hgone
  obtain ⟨henabled, rfl⟩ := step_eq_some.mp hstep
  cases act with
  | turn client turn => exact absurd hgone hthere
  | move move =>
      rw [State.posts_next_move, State.posts_moved] at hgone
      cases move with
      | commit client write =>
          by_cases hkey : key = write.key
          · subst hkey
            simp only [Function.update_self] at hgone
            cases write with
            | setValue key post => cases hgone
            | updateChildValues key timestamp =>
                cases hchild : s.posts key with
                | none => exact absurd hchild hthere
                | some node =>
                    rw [Write.key, hchild] at hgone
                    cases hgone
            | removeValue key =>
                have hprefix : pre <+: acts := (List.prefix_append pre [_]).trans hpre
                obtain ⟨author, message, now, hcall, huser⟩ :=
                  hsent pre hprefix s hrun client key henabled
                exact ⟨client, author, message, now, rfl, hcall, huser⟩
          · simp only [Function.update_of_ne hkey] at hgone
            exact absurd hgone hthere
      | _ => exact absurd hgone hthere

/-- It swipes the row and removes the post, and the removal is taken. -/
theorem own_posts_removed_told :
    (timeline (devices .committed)).EachStep (OwnRemoval (devices .committed))
        (told ++ [.move (.removePost 1 pushKey)] ++ [.move (.commit 1 (.removeValue pushKey))]) ∧
      ((timeline (devices .committed)).run
        (told ++ [.move (.removePost 1 pushKey)] ++
          [.move (.commit 1 (.removeValue pushKey))])).isSome = true := by
  refine ⟨own_posts_removed _ ?_, by rfl⟩
  refine TSys.eachStep_snoc (TSys.eachStep_snoc (TSys.eachStep_of_forall ?_) ?_) ?_
  · intro act hact pre s client key heq
    subst heq
    simp [told, opening, posting] at hact
  · intro s hrun client key hact
    cases hact
    have hrow : ((timeline (devices .committed)).run told).map (fun s =>
        ((s.clients 1).screen.controller.table.rows[0]?.map Row.post,
          (s.clients 1).screen.controller.canEditRowAt 0)) =
          some (some toldPost, .ok true) := by
      rfl
    rw [hrun] at hrow
    obtain ⟨hpost, hedit⟩ := Prod.mk.inj (Option.some.inj hrow)
    obtain ⟨row, hindex, hshown⟩ := Option.map_eq_some_iff.mp hpost
    refine ⟨told, s, List.prefix_rfl, hrun, 0, row, hindex, hedit, ?_⟩
    rw [hshown]
    rfl
  · intro s hrun client key hact
    cases hact

end SocialTimeline
