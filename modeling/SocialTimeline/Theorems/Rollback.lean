import SocialTimeline.System.Keys

/-!
# Rejected writes

A client that sees its own writes at once issues an operation, other things
happen, and the server rejects the operation's write. `rejected_write_undone`
compares the client's timeline with that of the same run without the operation:
a rejected `createPost` leaves no trace, and a rejected `removePost` leaves the
removed row missing.
-/

namespace SocialTimeline

open FirebaseTimelineService Lib

/-! ## Operations and their surroundings -/

/-- An operation of a client: `createPost` or `removePost`. -/
inductive Operation
  | createPost (key message : String) (now : Double)
  | removePost (key : String)

namespace Operation

def key : Operation → String
  | createPost key _ _ => key
  | removePost key => key

def move (client : ClientId) : Operation → Move
  | createPost key message now => .createPost client key message now
  | removePost key => .removePost client key

/-- The write that the operation issues. -/
def write (user : User) : Operation → Write
  | createPost key message now => FirebaseTimelineService.createPost message user key now
  | removePost key => .removeValue key

theorem key_move (operation : Operation) (client : ClientId) :
    (operation.move client).key = operation.key := by
  cases operation <;> rfl

theorem key_write (operation : Operation) (user : User) :
    (operation.write user).key = operation.key := by
  cases operation <;> rfl

/-- The operation puts its write in flight and nothing else. -/
theorem posts_moved (env : Env) (s : State) (operation : Operation) (client : ClientId) :
    (s.moved env (operation.move client)).posts = s.posts ∧
      (s.moved env (operation.move client)).sent =
        s.sent ++ [(client, operation.write (env.users client))] := by
  cases operation <;> exact ⟨rfl, rfl⟩

end Operation

/-- When the rejection of an operation leaves the timeline as it would be. -/
def LeavesIntact (env : Env) (s : State) (client : ClientId) : Operation → Prop
  | .createPost _ _ _ => True
  | .removePost key =>
      decodes key (s.view env client key) = false ∨
        some key ∉ (s.listed client).map Post.databaseKey

/-- An act that is not about a key. -/
def Elsewhere (key : String) : Act → Prop
  | .move move => move.key ≠ key
  | .turn _ _ => True

/-- The same acts, but for when raised events are delivered. -/
inductive Redelivered : List Act → List Act → Prop
  | nil : Redelivered [] []
  | act (act : Act) {acts acts' : List Act} :
      Redelivered acts acts' → Redelivered (act :: acts) (act :: acts')
  | left (reader : ClientId) {acts acts' : List Act} :
      Redelivered acts acts' → Redelivered (.turn reader .deliver :: acts) acts'
  | right (reader : ClientId) {acts acts' : List Act} :
      Redelivered acts acts' → Redelivered acts (.turn reader .deliver :: acts')

/-! ## Two runs that differ under one key -/

/-- Two states in which a live client sees the same but under one key. -/
structure Apart (key : String) (client : ClientId) (s t : State) : Prop where
  posts : ∀ other, other ≠ key → t.posts other = s.posts other
  pending : ∀ other, other ≠ key → t.pending client other = s.pending client other
  live : (s.clients client).stage = .live
  live' : (t.clients client).stage = .live

section

variable {env : Env} {key : String} {client : ClientId} {s t s' t' : State}

theorem Apart.view (h : Apart key client s t) {other : String} (hne : other ≠ key) :
    t.view env client other = s.view env client other :=
  State.view_congr env (h.posts other hne) (h.pending other hne)

/-- A move elsewhere is heard alike, and leaves the states apart as they were. -/
theorem Apart.move (env : Env) (h : Apart key client s t) {move : Move} (hne : move.key ≠ key) :
    Apart key client (s.next env (.move move)) (t.next env (.move move)) ∧
      t.heard env move client = s.heard env move client := by
  have hposts : ∀ other, other ≠ key →
      (t.moved env move).posts other = (s.moved env move).posts other := by
    intro other hother
    by_cases hmove : other = move.key
    · subst hmove
      rw [State.posts_moved, State.posts_moved]
      cases move with
      | commit author write =>
          have hchild : t.posts write.key = s.posts write.key := h.posts _ hne
          simp only [Move.key, Function.update_self, hchild]
      | _ => exact h.posts _ hother
    · rw [State.posts_moved_of_ne env t hmove, State.posts_moved_of_ne env s hmove]
      exact h.posts other hother
  have hpending : ∀ other, other ≠ key →
      (t.moved env move).pending client other = (s.moved env move).pending client other :=
    fun other hother => State.pending_moved_congr env (h.pending other hother) move
  refine ⟨⟨hposts, hpending, h.live, h.live'⟩, ?_⟩
  have hbefore : t.view env client move.key = s.view env client move.key := h.view hne
  have hafter : (t.moved env move).view env client move.key =
      (s.moved env move).view env client move.key :=
    State.view_congr env (hposts _ hne) (hpending _ hne)
  unfold State.heard State.raised Client.hears
  rw [hbefore, hafter, h.live, h.live']

/-- A turn changes neither what a live client hears nor what it settles to. -/
theorem turn_of_live {reader : ClientId} {turn : Turn}
    (henabled : s.Enabled env (.turn reader turn)) (hlive : (s.clients client).stage = .live) :
    ((s.next env (.turn reader turn)).clients client).stage = .live ∧
      (s.next env (.turn reader turn)).listed client = s.listed client := by
  have hturn : s.Turnable env reader turn := henabled
  by_cases hne : client = reader
  · subst hne
    have hread : ∀ children, turn ≠ .retrieve children := by
      rintro children rfl
      cases hlive.symm.trans hturn.1
    refine ⟨?_, State.listed_turn env s hread client⟩
    rw [State.clients_next_turn]
    rcases State.stage_turned hturn hread with ⟨hretrieved, -⟩ | hnew | hsame
    · cases hlive.symm.trans hretrieved
    · exact hnew
    · exact hsame.trans hlive
  · rw [State.clients_next_turn_of_ne env s hne]
    exact ⟨hlive, State.listed_turn_of_ne env s hne turn⟩

/-- From `s` to `s'` and from `t` to `t'` a client's list is edited alike, and not
under the key, where nothing changes on the way from `t`. -/
structure EditedAlike (key : String) (client : ClientId) (s t s' t' : State) : Prop where
  posts : t'.posts key = t.posts key
  pending : t'.pending client key = t.pending client key
  listed : ∃ edits : List (Edit Post (Option String)),
    (∀ edit ∈ edits, edit.target Post.databaseKey ≠ some key) ∧
      s'.listed client = editedBy (s.listed client) edits ∧
      t'.listed client = editedBy (t.listed client) edits

theorem EditedAlike.trans {s₁ t₁ : State} (h : EditedAlike key client s t s₁ t₁)
    (h' : EditedAlike key client s₁ t₁ s' t') : EditedAlike key client s t s' t' := by
  obtain ⟨edits, hedits, hs, ht⟩ := h.listed
  obtain ⟨edits', hedits', hs', ht'⟩ := h'.listed
  refine ⟨h'.posts.trans h.posts, h'.pending.trans h.pending, edits ++ edits', ?_, ?_, ?_⟩
  · intro edit hedit
    rcases List.mem_append.mp hedit with hfirst | hlater
    · exact hedits edit hfirst
    · exact hedits' edit hlater
  · rw [hs', hs]
    exact (Edit.run_append Post.databaseKey _ _ _).symm
  · rw [ht', ht]
    exact (Edit.run_append Post.databaseKey _ _ _).symm

/-- Turns edit no list. -/
theorem EditedAlike.turned (hposts : t'.posts = t.posts) (hsent : t'.sent = t.sent)
    (hs : s'.listed client = s.listed client) (ht : t'.listed client = t.listed client) :
    EditedAlike key client s t s' t' := by
  refine ⟨congrFun hposts key, ?_, [], nofun, hs, ht⟩
  unfold State.pending
  rw [hsent]

theorem Apart.editedAlike_move (env : Env) (h : Apart key client s t) {move : Move}
    (hne : move.key ≠ key) :
    EditedAlike key client s t (s.next env (.move move)) (t.next env (.move move)) where
  posts := State.posts_moved_of_ne env t (Ne.symm hne)
  pending := State.pending_moved_of_ne env t (Ne.symm hne) client
  listed := by
    refine ⟨(s.heard env move client).toList.map LiveEvent.edit, ?_, ?_, ?_⟩
    · intro edit hedit
      rw [State.target_heard env s edit hedit]
      exact fun habs => hne (Option.some.inj habs)
    · exact State.listed_move env s move client
    · rw [State.listed_move, (h.move env hne).2]

/-- **Runs apart.** Acts elsewhere, taken from two states that differ under a key,
edit the client's lists alike, whenever events are delivered in either run. -/
theorem Apart.run {acts acts' : List Act} (hsame : Redelivered acts acts')
    (hacts : ∀ act ∈ acts, Elsewhere key act) (h : Apart key client s t)
    (hs : (timeline env).runFrom s acts = some s') (ht : (timeline env).runFrom t acts' = some t') :
    EditedAlike key client s t s' t' := by
  induction hsame generalizing s t with
  | nil =>
      cases hs
      cases ht
      exact .turned rfl rfl rfl rfl
  | left reader hsame ih =>
      obtain ⟨-, hrest⟩ := List.forall_mem_cons.mp hacts
      obtain ⟨s₁, hstep, hs⟩ := Option.bind_eq_some_iff.mp hs
      obtain ⟨henabled, rfl⟩ := step_eq_some.mp hstep
      obtain ⟨hlive, hlisted⟩ := turn_of_live henabled h.live
      have happart : Apart key client (s.next env (.turn reader .deliver)) t :=
        ⟨h.posts, h.pending, hlive, h.live'⟩
      have hedited : EditedAlike key client s t (s.next env (.turn reader .deliver)) t :=
        .turned rfl rfl hlisted rfl
      exact hedited.trans (ih hrest happart hs ht)
  | right reader hsame ih =>
      obtain ⟨t₁, hstep, ht⟩ := Option.bind_eq_some_iff.mp ht
      obtain ⟨henabled, rfl⟩ := step_eq_some.mp hstep
      obtain ⟨hlive, hlisted⟩ := turn_of_live henabled h.live'
      have happart : Apart key client s (t.next env (.turn reader .deliver)) :=
        ⟨h.posts, h.pending, h.live, hlive⟩
      have hedited : EditedAlike key client s t s (t.next env (.turn reader .deliver)) :=
        .turned rfl rfl rfl hlisted
      exact hedited.trans (ih hacts happart hs ht)
  | act act hsame ih =>
      obtain ⟨hact, hrest⟩ := List.forall_mem_cons.mp hacts
      obtain ⟨s₁, hstep, hs⟩ := Option.bind_eq_some_iff.mp hs
      obtain ⟨t₁, hstep', ht⟩ := Option.bind_eq_some_iff.mp ht
      obtain ⟨henabled, rfl⟩ := step_eq_some.mp hstep
      obtain ⟨henabled', rfl⟩ := step_eq_some.mp hstep'
      cases act with
      | turn reader turn =>
          obtain ⟨hlive, hlisted⟩ := turn_of_live henabled h.live
          obtain ⟨hlive', hlisted'⟩ := turn_of_live henabled' h.live'
          have happart : Apart key client (s.next env (.turn reader turn))
              (t.next env (.turn reader turn)) := ⟨h.posts, h.pending, hlive, hlive'⟩
          have hedited : EditedAlike key client s t (s.next env (.turn reader turn))
              (t.next env (.turn reader turn)) := .turned rfl rfl hlisted hlisted'
          exact hedited.trans (ih hrest happart hs ht)
      | move move =>
          have hne : move.key ≠ key := hact
          exact (h.editedAlike_move env hne).trans (ih hrest (h.move env hne).1 hs ht)

/-! ## The operation and its end -/

/-- While a removal is the last write in flight, its client sees no child. -/
theorem view_removing (henv : env.visibility = .optimistic) {before : List (ClientId × Write)}
    (hpending : s.pending client key = before ++ [(client, .removeValue key)]) :
    s.view env client key = none := by
  unfold State.view
  rw [henv, hpending]
  exact List.foldl_append

theorem pending_issued (env : Env) (s : State) (operation : Operation) (client : ClientId) :
    (s.moved env (operation.move client)).pending client operation.key =
      s.pending client operation.key ++ [(client, operation.write (env.users client))] := by
  unfold State.pending
  rw [(operation.posts_moved env s client).2, List.filter_append]
  simp [operation.key_write]

/-- The issuing of an operation keeps the states apart under its key only. -/
theorem apart_issued (env : Env) (operation : Operation)
    (hlive : (s.clients client).stage = .live) :
    Apart operation.key client s (s.next env (.move (operation.move client))) where
  posts other _ := congrFun (operation.posts_moved env s client).1 other
  pending other hother :=
    State.pending_moved_of_ne env s (by rwa [operation.key_move]) client
  live := hlive
  live' := hlive

/-- With its only write on a child rejected, the client sees the child as the
server has it. -/
theorem view_rejected (henv : env.visibility = .optimistic) (write : Write)
    (hpending : s.pending client write.key = [(client, write)]) :
    (s.moved env (.reject client write)).view env client write.key = s.posts write.key := by
  unfold State.view
  rw [henv, State.pending_reject, hpending, List.erase_cons_head]
  rfl

/-- The state before the rejection, and what the two runs did to the lists. -/
theorem before_rejection {s₁ s₂ : State} (hlive : (s.clients client).stage = .live)
    (operation : Operation) {acts acts' : List Act}
    (hacts : ∀ act ∈ acts, Elsewhere operation.key act) (hsame : Redelivered acts acts')
    (hwithout : (timeline env).runFrom s acts = some s₁)
    (hwith : (timeline env).runFrom s (.move (operation.move client) :: acts' ++
      [.move (.reject client (operation.write (env.users client)))]) = some s₂) :
    ∃ t : State, s.Movable (operation.move client) ∧
      s₂ = t.next env (.move (.reject client (operation.write (env.users client)))) ∧
      t.posts operation.key = s.posts operation.key ∧
      t.pending client operation.key =
        s.pending client operation.key ++ [(client, operation.write (env.users client))] ∧
      EditedAlike operation.key client s (s.next env (.move (operation.move client))) s₁ t := by
  rw [List.cons_append, TSys.runFrom_cons, Option.bind_eq_some_iff] at hwith
  obtain ⟨s', hissue, hwith⟩ := hwith
  obtain ⟨hmovable, rfl⟩ := step_eq_some.mp hissue
  rw [TSys.runFrom_append, Option.bind_eq_some_iff] at hwith
  obtain ⟨t, hacted, hend⟩ := hwith
  obtain ⟨s₂', hreject, hs₂⟩ := Option.bind_eq_some_iff.mp hend
  obtain ⟨-, rfl⟩ := step_eq_some.mp hreject
  cases hs₂
  have hedited := (apart_issued env operation hlive).run hsame hacts hwithout hacted
  refine ⟨t, hmovable, rfl, ?_, ?_, hedited⟩
  · exact hedited.posts.trans (congrFun (operation.posts_moved env s client).1 _)
  · exact hedited.pending.trans (pending_issued env s operation client)

/-- A rejected `createPost` leaves the list as it would be: its first event is
not listened for and the second one finds nothing. -/
theorem createPost_undone {s₁ s₂ : State} (henv : env.visibility = .optimistic)
    (hwell : s.WellKeyed) (hlive : (s.clients client).stage = .live) {message : String}
    {now : Double} {acts acts' : List Act}
    (hacts : ∀ act ∈ acts, Elsewhere key act) (hsame : Redelivered acts acts')
    (hwithout : (timeline env).runFrom s acts = some s₁)
    (hwith : (timeline env).runFrom s
      (.move ((Operation.createPost key message now).move client) :: acts' ++
        [.move (.reject client ((Operation.createPost key message now).write
          (env.users client)))]) = some s₂) :
    s₂.listed client = s₁.listed client := by
  obtain ⟨t, ⟨-, hfresh⟩, rfl, hposts, hpending, hedited⟩ :=
    before_rejection hlive (.createPost key message now) hacts hsame hwithout hwith
  obtain ⟨edits, hedits, hs₁, ht⟩ := hedited.listed
  obtain ⟨hposts₀, hpending₀⟩ := hwell.keyed.fresh hfresh client
  -- the call is not heard, so the lists agree before the rejection
  have hissued : (s.next env (.move (.createPost client key message now))).listed client =
      s.listed client := by
    have hheard : s.heard env (.createPost client key message now) client = none := by
      unfold State.heard State.raised
      rw [Move.key, hwell.keyed.view_eq_none hfresh]
      exact Client.hears_childEvent_none _ _ _
    rw [State.listed_move, hheard]
    rfl
  have hlisted : t.listed client = s₁.listed client := by
    rw [ht, hs₁]
    exact congrArg (fun posts => editedBy posts edits) hissued
  -- the key is on neither
  have hunlisted : some key ∉ (s₁.listed client).map Post.databaseKey := by
    rw [hs₁]
    exact mt (Edit.mem_map_run_of_ne Post.databaseKey _ hedits).mp (hwell.unlisted hfresh client)
  rw [State.listed_move, hlisted]
  cases hheard : t.heard env (.reject client
      ((Operation.createPost key message now).write (env.users client))) client with
  | none => rfl
  | some live =>
      have hkey := State.heard_databaseKey env t hheard
      rcases live with ⟨post, type⟩
      cases type with
      | removed =>
          show edited (s₁.listed client) (.drop post.databaseKey) = s₁.listed client
          rw [hkey]
          exact Edit.exec_drop_of_notMem Post.databaseKey hunlisted
      | added =>
          -- the write is gone again, and with it the child
          obtain ⟨_, _, _, hafter, _⟩ := Client.hears_added.mp hheard
          let write := (Operation.createPost key message now).write (env.users client)
          have halone : t.pending client write.key = [(client, write)] := by
            refine hpending.trans ?_
            rw [Operation.key, hpending₀]
            rfl
          have hgone : (t.moved env (.reject client write)).view env client write.key = none :=
            (view_rejected henv write halone).trans (hposts.trans hposts₀)
          cases hgone.symm.trans hafter

/-- Issuing a removal drops the row of a post that the client sees. -/
theorem listed_removePost (henv : env.visibility = .optimistic)
    (hlive : (s.clients client).stage = .live) :
    (s.next env (.move (.removePost client key))).listed client =
      if decodes key (s.view env client key) then edited (s.listed client) (.drop (some key))
      else s.listed client := by
  have hview : (s.moved env (.removePost client key)).view env client key = none :=
    view_removing henv (pending_issued env s (.removePost key) client)
  have hheard : s.heard env (.removePost client key) client =
      (s.clients client).hears (childEvent key (s.view env client key) none) := by
    unfold State.heard State.raised
    exact congrArg (fun after => (s.clients client).hears
      (childEvent key (s.view env client key) after)) hview
  rw [State.listed_move, hheard]
  cases hdecodes : decodes key (s.view env client key) with
  | false =>
      rw [Client.hears_eq_none hdecodes rfl]
      rfl
  | true =>
      obtain ⟨node, post, hnode, hdecode⟩ := exists_of_decodes hdecodes
      have hremoved : (s.clients client).hears (childEvent key (s.view env client key) none) =
          some ⟨post, .removed⟩ :=
        Client.hears_removed.mpr ⟨node, hnode, rfl, by rw [hlive]; rfl, hdecode⟩
      rw [hremoved, if_pos rfl, ← decodeSnapshot_databaseKey hdecode]
      rfl

/-- While the removal is in flight the child is gone, and its rejection is not
heard. -/
theorem removePost_unheard {s₁ s₂ : State} (henv : env.visibility = .optimistic)
    (hlive : (s.clients client).stage = .live) {acts acts' : List Act}
    (hacts : ∀ act ∈ acts, Elsewhere key act) (hsame : Redelivered acts acts')
    (hwithout : (timeline env).runFrom s acts = some s₁)
    (hwith : (timeline env).runFrom s (.move (.removePost client key) :: acts' ++
      [.move (.reject client (.removeValue key))]) = some s₂) :
    s₂.listed client = s₁.listed client ↔ LeavesIntact env s client (.removePost key) := by
  obtain ⟨t, -, rfl, -, hpending, hedited⟩ :=
    before_rejection hlive (.removePost key) hacts hsame hwithout hwith
  obtain ⟨edits, hedits, hs₁, ht⟩ := hedited.listed
  simp only [Operation.key, Operation.move] at hpending hedits ht
  have hend : (t.next env (.move (.reject client (.removeValue key)))).listed client =
      t.listed client := by
    have hheard : t.heard env (.reject client (.removeValue key)) client = none := by
      unfold State.heard State.raised
      simp only [Move.key, Write.key, view_removing henv hpending]
      exact Client.hears_childEvent_none _ _ _
    rw [State.listed_move, hheard]
    rfl
  have hmem : some key ∈ (s₁.listed client).map Post.databaseKey ↔
      some key ∈ (s.listed client).map Post.databaseKey := by
    rw [hs₁]
    exact Edit.mem_map_run_of_ne Post.databaseKey _ hedits
  show (t.next env (.move (.reject client (.removeValue key)))).listed client = _ ↔ _ ∨ _
  rw [hend, ht, listed_removePost henv hlive]
  cases decodes key (s.view env client key) with
  | false =>
      rw [hs₁]
      exact iff_of_true rfl (.inl rfl)
  | true =>
      have hdrop : editedBy (edited (s.listed client) (.drop (some key))) edits =
          edited (s₁.listed client) (.drop (some key)) := by
        rw [hs₁]
        exact Edit.run_drop_comm Post.databaseKey _ hedits
      rw [if_pos rfl, hdrop, Edit.exec_drop_eq_self_iff, hmem]
      simp

end

/-- **What a rejected write leaves.** From any reachable state in which a client
that sees its own writes is live, let it issue an operation, let anything happen
that is not about the same key, and let the server reject the write. Once all
events are delivered, posts and rows are as in a run of the same acts without
the operation, whenever events were delivered in either, if and only if the
operation was a `createPost`, or a `removePost` of a post that the client did not
see any more or that was about to leave its list. -/
theorem rejected_write_undone {env : Env} (henv : env.visibility = .optimistic)
    {s s₁ s₂ : State} (hreachable : (timeline env).Reachable s) {client : ClientId}
    (hlive : (s.clients client).stage = .live) (operation : Operation) {acts acts' : List Act}
    (hacts : ∀ act ∈ acts, Elsewhere operation.key act) (hsame : Redelivered acts acts')
    (hwithout : (timeline env).runFrom s acts = some s₁)
    (hwith : (timeline env).runFrom s (.move (operation.move client) :: acts' ++
      [.move (.reject client (operation.write (env.users client)))]) = some s₂) :
    ((s₂.clients client).settled.posts = (s₁.clients client).settled.posts ∧
        (s₂.clients client).settled.shown = (s₁.clients client).settled.shown) ↔
      LeavesIntact env s client operation := by
  have hrows : ((s₂.clients client).settled.posts = (s₁.clients client).settled.posts ∧
      (s₂.clients client).settled.shown = (s₁.clients client).settled.shown) ↔
        s₂.listed client = s₁.listed client := by
    rw [Screen.shown_eq, Screen.shown_eq, and_self]
    rfl
  rw [hrows]
  cases operation with
  | createPost key message now =>
      exact iff_of_true
        (createPost_undone henv (wellKeyed hreachable) hlive hacts hsame hwithout hwith) trivial
  | removePost key => exact removePost_unheard henv hlive hacts hsame hwithout hwith

/-- The first device lists the post and removes it; the second device, which is
live, has not been told yet. -/
def removing : List Act :=
  opening ++ posting ++ [.turn 1 .deliver,
    .turn 0 (.retrieve [(pushKey, ({ firstPost with timestamp := 2 } : Post).toNode)]),
    .move (.removePost 0 pushKey), .move (.commit 0 (.removeValue pushKey))]

/-- A post is rejected while another device posts, and that one is delivered
before the rejection; and a removal is rejected of a post that another device has
just removed, whose row is still there. -/
theorem rejected_post_undone :
    (∃ s s₁ s₂, (timeline (devices .optimistic)).run opening = some s ∧
      (timeline (devices .optimistic)).runFrom s posting = some s₁ ∧
      (timeline (devices .optimistic)).runFrom s
        (.move (.createPost 1 otherKey "again" 3) :: (posting ++ [.turn 1 .deliver]) ++
          [.move (.reject 1 (.setValue otherKey ⟨"again", "mia", 3, none⟩))]) = some s₂ ∧
      (s₂.clients 1).settled.posts = (s₁.clients 1).settled.posts) ∧
    ∃ s s₂, (timeline (devices .optimistic)).run removing = some s ∧
      (s.clients 1).screen.shown = [⟨"hello", "mia", 2, some pushKey⟩] ∧
      (timeline (devices .optimistic)).runFrom s
        [.move (.removePost 1 pushKey), .move (.reject 1 (.removeValue pushKey))] = some s₂ ∧
      (s₂.clients 1).settled.posts = (s.clients 1).settled.posts := by
  constructor
  · have hopening : ((timeline (devices .optimistic)).run opening).map
        (fun s => ((s.clients 1).stage, ((timeline (devices .optimistic)).runFrom s posting).isSome,
          ((timeline (devices .optimistic)).runFrom s
            (.move (.createPost 1 otherKey "again" 3) :: (posting ++ [.turn 1 .deliver]) ++
              [.move (.reject 1 (.setValue otherKey ⟨"again", "mia", 3, none⟩))])).isSome)) =
        some (.live, true, true) := rfl
    obtain ⟨s, hs, hfields⟩ := Option.map_eq_some_iff.mp hopening
    simp only [Prod.mk.injEq, Option.isSome_iff_exists] at hfields
    obtain ⟨hlive, ⟨s₁, hs₁⟩, ⟨s₂, hs₂⟩⟩ := hfields
    have helsewhere : ∀ act ∈ posting, Elsewhere otherKey act := by
      simp [posting, Elsewhere, Move.key, Write.key, pushKey, otherKey]
    have hsame : Redelivered posting (posting ++ [.turn 1 .deliver]) :=
      .act _ (.act _ (.act _ (.act _ (.right 1 .nil))))
    refine ⟨s, s₁, s₂, hs, hs₁, hs₂, ?_⟩
    exact ((rejected_write_undone rfl ⟨opening, hs⟩ hlive (.createPost otherKey "again" 3)
      helsewhere hsame hs₁ hs₂).mpr trivial).1
  · have hremoving : ((timeline (devices .optimistic)).run removing).map
        (fun s => ((s.clients 1).stage, (s.clients 1).screen.shown,
          s.view (devices .optimistic) 1 pushKey, ((timeline (devices .optimistic)).runFrom s
            [.move (.removePost 1 pushKey),
              .move (.reject 1 (.removeValue pushKey))]).isSome)) =
        some (.live, [⟨"hello", "mia", 2, some pushKey⟩], none, true) := rfl
    obtain ⟨s, hs, hfields⟩ := Option.map_eq_some_iff.mp hremoving
    simp only [Prod.mk.injEq, Option.isSome_iff_exists] at hfields
    obtain ⟨hlive, hshown, hview, ⟨s₂, hs₂⟩⟩ := hfields
    have hunseen : LeavesIntact (devices .optimistic) s 1 (.removePost pushKey) :=
      .inl (congrArg (decodes pushKey) hview)
    refine ⟨s, s₂, hs, hshown, hs₂, ?_⟩
    exact ((rejected_write_undone rfl ⟨removing, hs⟩ hlive (.removePost pushKey)
      (List.forall_mem_nil _) .nil rfl hs₂).mpr hunseen).1

/-- The second device removes a listed post, and the removal is rejected: the
post is still there and its row is gone. -/
theorem rejected_removal_stays :
    ∃ s s₂, (timeline (devices .optimistic)).run (opening ++ posting ++ [.turn 1 .deliver]) =
        some s ∧
      (s.clients 1).stage = .live ∧ (s.clients 1).inbox = [] ∧
      (s.clients 1).screen.shown = [⟨"hello", "mia", 2, some pushKey⟩] ∧
      (timeline (devices .optimistic)).runFrom s
        [.move (.removePost 1 pushKey), .move (.reject 1 (.removeValue pushKey)),
          .turn 1 .deliver] = some s₂ ∧
      (s₂.clients 1).inbox = [] ∧ s₂.posts pushKey = s.posts pushKey ∧
      (s₂.clients 1).screen.posts = [] ∧ (s₂.clients 1).screen.shown = [] := by
  have hrun : ((timeline (devices .optimistic)).run (opening ++ posting ++ [.turn 1 .deliver])).map
      (fun s => ((s.clients 1).stage, (s.clients 1).inbox, (s.clients 1).screen.shown,
        s.posts pushKey, ((timeline (devices .optimistic)).runFrom s
          [.move (.removePost 1 pushKey), .move (.reject 1 (.removeValue pushKey)),
            .turn 1 .deliver]).map (fun s₂ => ((s₂.clients 1).inbox, s₂.posts pushKey,
              (s₂.clients 1).screen.posts, (s₂.clients 1).screen.shown)))) =
      some (.live, [], [⟨"hello", "mia", 2, some pushKey⟩],
        some ({ firstPost with timestamp := 2 } : Post).toNode,
        some ([], some ({ firstPost with timestamp := 2 } : Post).toNode, [], [])) := rfl
  obtain ⟨s, hs, hfields⟩ := Option.map_eq_some_iff.mp hrun
  simp only [Prod.mk.injEq] at hfields
  obtain ⟨hlive, hinbox, hshown, hchild, hremoval⟩ := hfields
  obtain ⟨s₂, hs₂, hfields₂⟩ := Option.map_eq_some_iff.mp hremoval
  simp only [Prod.mk.injEq] at hfields₂
  obtain ⟨hinbox₂, hchild₂, hposts₂, hshown₂⟩ := hfields₂
  exact ⟨s, s₂, hs, hlive, hinbox, hshown, hs₂, hinbox₂, hchild₂.trans hchild.symm, hposts₂,
    hshown₂⟩

end SocialTimeline
