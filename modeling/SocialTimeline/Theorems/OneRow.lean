import SocialTimeline.Theorems.Convergence

/-!
# At most one row for each post

The live path puts every changed child on top without looking for its key.
`one_row_iff` says for every run when the client's list still never has two
entries with one key: exactly when no change is brought to the client for a post
that it has been given already. For clients that see the committed children
`one_row_told` says the same of trails: exactly when no post that the client's
read returns is changed once its first observer is registered.
-/

namespace SocialTimeline

open FirebaseTimelineService Lib

/-! ## The list while events are delivered -/

/-- No two entries share a key, now and after any number of deliveries. -/
def OneRow (client : Client) : Prop :=
  ∀ n, ((Client.deliver^[n] client).screen.posts.map Post.databaseKey).Nodup

/-- The list has distinct keys and every raised addition will find its key
unlisted. -/
structure Client.Unrepeated (client : Client) : Prop where
  distinct : Edit.Distinct Post.databaseKey client.screen.posts
  fresh : Edit.FreshRun Post.databaseKey client.screen.posts client.edits

namespace Client

theorem Unrepeated.deliver {client : Client} (h : client.Unrepeated) :
    client.deliver.Unrepeated := by
  rcases client with ⟨stage, screen, inbox⟩
  cases inbox with
  | nil => exact h
  | cons event inbox =>
      obtain ⟨hdistinct, hfresh⟩ := h
      have hedits : ({ stage, screen, inbox := event :: inbox } : Client).edits =
          (startLiveUpdating event).toList.map LiveEvent.edit ++
            ({ stage, screen, inbox } : Client).edits := by
        unfold edits
        cases hlive : startLiveUpdating event with
        | none => rw [List.filterMap_cons_none hlive]; rfl
        | some live => rw [List.filterMap_cons_some hlive]; rfl
      rw [hedits, Edit.freshRun_append] at hfresh
      have hposts := posts_observe screen event
      refine ⟨?_, ?_⟩
      · show Edit.Distinct Post.databaseKey (screen.observe event).posts
        rw [hposts]
        exact hdistinct.run hfresh.1
      · show Edit.FreshRun Post.databaseKey (screen.observe event).posts _
        rw [hposts]
        exact hfresh.2

theorem Unrepeated.oneRow {client : Client} (h : client.Unrepeated) : OneRow client := by
  intro n
  have hafter : (Client.deliver^[n] client).Unrepeated := by
    induction n generalizing client with
    | zero => exact h
    | succ n ih => exact ih h.deliver
  exact hafter.distinct

/-- Delivering everything settles the screen. -/
theorem iterate_deliver (client : Client) :
    (Client.deliver^[client.inbox.length] client).screen = client.settled := by
  rcases client with ⟨stage, screen, inbox⟩
  induction inbox generalizing screen with
  | nil => rfl
  | cons event inbox ih => exact ih (screen.observe event)

theorem distinct_settled {client : Client} (h : OneRow client) :
    Edit.Distinct Post.databaseKey client.settled.posts := by
  rw [← iterate_deliver]
  exact h client.inbox.length

end Client

/-! ## What a client has been given -/

/-- The keys a client has been given and not been told to take away: those of the
posts its read returned, and those of the changes brought to it. -/
def Given.record (env : Env) (client : ClientId) (given : List String) (s : State) (act : Act)
    (_ : State) : List String :=
  match act with
  | .turn reader (.retrieve children) =>
      if reader = client then
        (children.filter fun e => decodes e.1 (some e.2)).map Prod.fst
      else given
  | .turn _ _ => given
  | .move move =>
      match s.heard env move client with
      | none => given
      | some ⟨_, .added⟩ => move.key :: given
      | some ⟨_, .removed⟩ => given.filter (· ≠ move.key)

/-- The keys a client has been given in a run. -/
def given (env : Env) (client : ClientId) (acts : List Act) : List String :=
  (timeline env).history (Given.record env client) [] acts

/-- No change is brought to the client for a post it has been given. -/
def NoRepeat (env : Env) (client : ClientId) (acts : List Act) (s : State) (act : Act) : Prop :=
  ∀ move post, act = .move move → s.heard env move client = some ⟨post, .added⟩ →
    move.key ∉ given env client acts

/-- What a client settles to is what it has been given, each key once. -/
structure AsGiven (client : ClientId) (given : List String) (s : State) : Prop where
  distinct : Edit.Distinct Post.databaseKey (s.listed client)
  keys : ∀ key, key ∈ given ↔ some key ∈ (s.listed client).map Post.databaseKey

theorem asGiven_initial (env : Env) (client : ClientId) :
    AsGiven client (given env client []) (.initial env) :=
  ⟨List.nodup_nil, fun _ => ⟨nofun, nofun⟩⟩

theorem given_snoc {env : Env} {client : ClientId} {acts : List Act} {act : Act} {s t : State}
    (hrun : (timeline env).run acts = some s) (hstep : (timeline env).step s act = some t) :
    given env client (acts ++ [act]) =
      Given.record env client (given env client acts) s act t :=
  (timeline env).history_snoc _ _ hrun hstep

section

variable {env : Env} {client : ClientId} {given : List String} {s : State}

/-- An addition keeps keys distinct exactly when it was not given. -/
theorem AsGiven.distinct_move (h : AsGiven client given s) {move : Move} :
    Edit.Distinct Post.databaseKey ((s.next env (.move move)).listed client) ↔
      ∀ post, s.heard env move client = some ⟨post, .added⟩ → move.key ∉ given := by
  rw [State.listed_move]
  cases hheard : s.heard env move client with
  | none => exact iff_of_true h.distinct nofun
  | some live =>
      have hkey := State.heard_databaseKey env s hheard
      rcases live with ⟨post, type⟩
      cases type with
      | removed => exact iff_of_true (h.distinct.exec (e := .drop post.databaseKey) trivial) nofun
      | added =>
          have hlisted : move.key ∈ given ↔
              post.databaseKey ∈ (s.listed client).map Post.databaseKey := by
            rw [hkey]
            exact h.keys move.key
          constructor
          · intro hdistinct _ _ hgiven
            refine Edit.not_distinct_of_not_fresh (e := .push post) ?_ hdistinct
            exact not_not.mpr (hlisted.mp hgiven)
          · intro hfresh
            have hunlisted := (not_congr hlisted).mp (hfresh post rfl)
            exact h.distinct.exec (e := .push post) hunlisted

/-- **A move** that leaves keys distinct leaves the list as given. -/
theorem AsGiven.move (h : AsGiven client given s) {move : Move}
    (hdistinct : Edit.Distinct Post.databaseKey ((s.next env (.move move)).listed client)) :
    AsGiven client (Given.record env client given s (.move move) (s.next env (.move move)))
      (s.next env (.move move)) := by
  refine ⟨hdistinct, ?_⟩
  intro key
  rw [State.listed_move]
  simp only [Given.record]
  cases hheard : s.heard env move client with
  | none => exact h.keys key
  | some live =>
      have hkey := State.heard_databaseKey env s hheard
      rcases live with ⟨post, type⟩
      cases type with
      | added =>
          show key ∈ move.key :: given ↔ some key ∈ post.databaseKey :: _
          rw [List.mem_cons, List.mem_cons, h.keys key, hkey, Option.some.injEq]
      | removed =>
          show key ∈ given.filter _ ↔
            some key ∈ (edited (s.listed client) (.drop post.databaseKey)).map Post.databaseKey
          rw [Edit.map_exec_drop, List.Nodup.mem_erase_iff h.distinct, List.mem_filter, h.keys key,
            hkey]
          simp [and_comm]

/-- **A turn** keeps what a client settles to as given. -/
theorem AsGiven.turn (h : AsGiven client given s) (hwell : s.WellKeyed) {reader : ClientId}
    {turn : Turn} (hturn : s.Turnable env reader turn) :
    AsGiven client (Given.record env client given s (.turn reader turn)
      (s.next env (.turn reader turn))) (s.next env (.turn reader turn)) := by
  by_cases hread : ∃ children, turn = .retrieve children
  · obtain ⟨children, rfl⟩ := hread
    by_cases hne : reader = client
    · subst hne
      simp only [Given.record, if_true]
      refine ⟨hwell.distinct_retrieve hturn, ?_⟩
      intro key
      rw [hwell.mem_retrieve hturn, List.mem_map]
      constructor
      · rintro ⟨⟨key', node⟩, hmem, rfl⟩
        obtain ⟨hchild, hdecodes⟩ := List.mem_filter.mp hmem
        rw [hwell.keyed.mem_snapshot.mp (hturn.2.mem_iff.mp hchild)]
        exact hdecodes
      · intro hdecodes
        obtain ⟨node, post, hview, hdecode⟩ := exists_of_decodes hdecodes
        refine ⟨(key, node), List.mem_filter.mpr ⟨?_, decodes_of_decodeSnapshot hdecode⟩, rfl⟩
        exact hturn.2.mem_iff.mpr (hwell.keyed.mem_snapshot.mpr hview)
    · simp only [Given.record, if_neg hne]
      have hsame := State.listed_turn_of_ne env s (Ne.symm hne) (.retrieve children)
      exact ⟨hsame ▸ h.distinct, hsame ▸ h.keys⟩
  · have hother : ∀ children, turn ≠ .retrieve children := fun children heq => hread ⟨children, heq⟩
    have hsame : (s.next env (.turn reader turn)).listed client = s.listed client :=
      State.listed_turn env s hother client
    have hgiven : Given.record env client given s (.turn reader turn)
        (s.next env (.turn reader turn)) = given := by
      cases turn with
      | retrieve children => exact absurd rfl (hother children)
      | _ => rfl
    rw [hgiven]
    exact ⟨hsame ▸ h.distinct, hsame ▸ h.keys⟩

/-- A step that leaves keys distinct leaves the list as given. -/
theorem AsGiven.next (h : AsGiven client given s) (hwell : s.WellKeyed) {act : Act}
    (henabled : s.Enabled env act)
    (hdistinct : Edit.Distinct Post.databaseKey ((s.next env act).listed client)) :
    AsGiven client (Given.record env client given s act (s.next env act)) (s.next env act) := by
  cases act with
  | move move => exact h.move hdistinct
  | turn reader turn => exact h.turn hwell henabled

/-! ## The list on screen -/

/-- A move of which nothing given is heard again keeps additions to come
unlisted. -/
theorem Client.Unrepeated.move (h : (s.clients client).Unrepeated) {move : Move}
    (hdistinct : Edit.Distinct Post.databaseKey ((s.next env (.move move)).listed client)) :
    ((s.next env (.move move)).clients client).Unrepeated := by
  refine ⟨h.distinct, ?_⟩
  rw [State.clients_next_move, Client.edits_notify, Edit.freshRun_append]
  refine ⟨h.fresh, ?_⟩
  rw [State.listed_move] at hdistinct
  have hsettled : editedBy (s.clients client).screen.posts (s.clients client).edits =
      s.listed client := (Client.posts_settled _).symm
  show Edit.FreshRun Post.databaseKey
    (editedBy (s.clients client).screen.posts (s.clients client).edits)
      ((s.heard env move client).toList.map LiveEvent.edit)
  rw [hsettled]
  cases hheard : s.heard env move client with
  | none => trivial
  | some live =>
      rw [hheard] at hdistinct
      refine ⟨?_, trivial⟩
      by_contra hstale
      exact Edit.not_distinct_of_not_fresh hstale hdistinct

theorem Client.Unrepeated.turn (h : (s.clients client).Unrepeated) (hwell : s.WellKeyed)
    {reader : ClientId} {turn : Turn} (hturn : s.Turnable env reader turn) :
    ((s.next env (.turn reader turn)).clients client).Unrepeated := by
  by_cases hne : client = reader
  · subst hne
    rw [State.clients_next_turn]
    cases turn with
    | retrieve children =>
        have hdistinct := hwell.distinct_retrieve hturn
        have hinbox : (s.clients client).inbox = [] := ((hwell.clients client).opened hturn.1).1
        rw [hwell.listed_retrieve hturn] at hdistinct
        rw [State.turned, hwell.retrieve hturn.2]
        refine ⟨hdistinct, ?_⟩
        unfold Client.edits
        simp only [hinbox]
        trivial
    | observeChanged => exact ⟨h.distinct, h.fresh⟩
    | observeRemoved => exact ⟨h.distinct, h.fresh⟩
    | deliver => exact h.deliver
  · rw [State.clients_next_turn_of_ne env s hne]
    exact h

end

section

variable {env : Env} {client : ClientId} {acts : List Act}

/-- A run that keeps keys distinct once all is delivered repeats nothing. -/
theorem noRepeat_of_distinct (h : (timeline env).Always
    (fun _ s => Edit.Distinct Post.databaseKey (s.listed client)) acts) :
    (timeline env).EachStep (NoRepeat env client) acts := by
  -- distinct keys after each step keep the list as given up to the next one
  have hnext : (timeline env).EachStep (fun _ s act =>
      Edit.Distinct Post.databaseKey ((s.next env act).listed client)) acts := by
    intro pre act hpre s t hrun hstep
    have hrun' := (timeline env).run_snoc_eq_some.mpr ⟨s, hrun, hstep⟩
    obtain ⟨-, rfl⟩ := step_eq_some.mp hstep
    exact h _ hpre _ hrun'
  have hgiven : (timeline env).Always
      (fun acts s => AsGiven client (given env client acts) s) acts := by
    refine TSys.always_of_eachStep (asGiven_initial env client) ?_ hnext
    intro acts act s t hrun h hdistinct hstep
    rw [given_snoc hrun hstep]
    obtain ⟨henabled, rfl⟩ := step_eq_some.mp hstep
    exact h.next (wellKeyed ⟨acts, hrun⟩) henabled hdistinct
  intro pre act hpre s t hrun hstep
  rintro move post rfl hheard
  have hasGiven := hgiven pre ((List.prefix_append pre _).trans hpre) s hrun
  exact hasGiven.distinct_move.mp (hnext pre _ hpre s t hrun hstep) post hheard

/-- A run that repeats nothing has one row for each post, whatever is delivered. -/
theorem oneRow_of_noRepeat (h : (timeline env).EachStep (NoRepeat env client) acts) :
    (timeline env).Always (fun _ s => OneRow (s.clients client)) acts := by
  have hall : (timeline env).Always (fun acts s =>
      AsGiven client (given env client acts) s ∧ (s.clients client).Unrepeated) acts := by
    refine TSys.always_of_eachStep ?_ ?_ h
    · exact ⟨asGiven_initial env client, ⟨List.nodup_nil, trivial⟩⟩
    rintro acts act s t hrun ⟨h, hunrepeated⟩ hnoRepeat hstep
    rw [given_snoc hrun hstep]
    obtain ⟨henabled, rfl⟩ := step_eq_some.mp hstep
    have hwell := wellKeyed ⟨acts, hrun⟩
    cases act with
    | turn reader turn => exact ⟨h.turn hwell henabled, hunrepeated.turn hwell henabled⟩
    | move move =>
        have hdistinct := h.distinct_move.mpr fun post => hnoRepeat move post rfl
        exact ⟨h.move hdistinct, hunrepeated.move hdistinct⟩
  exact fun pre hpre s hrun => (hall pre hpre s hrun).2.oneRow

end

/-- **When there is one row for each post.** In every run, and with clients that
see the committed children or their own writes at once, a client never lists two
posts with one key, in any state and after any deliveries, if and only if no
change is ever brought to it for a post it has been given. -/
theorem one_row_iff (env : Env) (client : ClientId) (acts : List Act) :
    (timeline env).Always (fun _ s => OneRow (s.clients client)) acts ↔
      (timeline env).EachStep (NoRepeat env client) acts := by
  constructor
  · intro hrows
    exact noRepeat_of_distinct fun pre hpre s hrun =>
      Client.distinct_settled (hrows pre hpre s hrun)
  · exact oneRow_of_noRepeat

/-- The second device reads the post between its two writes. -/
def readBetweenWrites : List Act :=
  [.move (.createPost 0 pushKey "hello" 1), .move (.commit 0 (.setValue pushKey firstPost)),
    .turn 1 (.retrieve [(pushKey, firstPost.toNode)]), .turn 1 .observeChanged,
    .turn 1 .observeRemoved, .move (.createdPost 0 pushKey 2),
    .move (.commit 0 (.updateChildValues pushKey 2)), .turn 1 .deliver]

/-- It lists the post twice. -/
theorem post_listed_twice :
    ∃ s, (timeline (devices .optimistic)).run readBetweenWrites = some s ∧
      (s.clients 1).screen.posts.map Post.databaseKey = [some pushKey, some pushKey] ∧
      ¬ OneRow (s.clients 1) := by
  have hrun : ((timeline (devices .optimistic)).run readBetweenWrites).map
      (fun s => (s.clients 1).screen.posts.map Post.databaseKey) =
        some [some pushKey, some pushKey] := rfl
  obtain ⟨s, hs, hkeys⟩ := Option.map_eq_some_iff.mp hrun
  refine ⟨s, hs, hkeys, ?_⟩
  intro hrow
  have hnodup : ((s.clients 1).screen.posts.map Post.databaseKey).Nodup := hrow 0
  rw [hkeys] at hnodup
  exact absurd hnodup (by decide)

/-! ## One row, by trails -/

theorem Trail.told_lt_two (trail : Trail) :
    trail.told < 2 ↔ (trail.returned = true → trail.announced = false) := by
  rcases trail with ⟨_, returned, announced, _⟩
  cases returned <;> cases announced <;> simp [Trail.told]

section

variable {env : Env} {client : ClientId} {key : String} {trail : Trail} {s : State}

/-- A client is not told any more of a post whose removal it heard. -/
theorem Traced.told_record_of_heard (h : Traced client key trail s) {act : Act}
    (henabled : s.Enabled env act) {t : State}
    (hheard : (trail.record client key s act t).removal = .heard) :
    (trail.record client key s act t).told = trail.told := by
  cases act with
  | turn reader turn =>
      cases turn with
      | retrieve children =>
          by_cases hne : reader = client
          · subst hne
            rw [Trail.record, if_pos rfl] at hheard
            have hopened : (s.clients reader).stage = .opened := henabled.1
            exact absurd hheard (h.unhearing (by rw [hopened]; rfl))
          · rw [Trail.record, if_neg hne]
      | _ => rfl
  | move move =>
      by_cases hkey : move.key = key
      · simp only [Trail.record, if_pos hkey] at hheard ⊢
        unfold Trail.mark at hheard ⊢
        cases hbefore : decodes key (s.posts key) <;> cases hafter : decodes key (t.posts key) <;>
          simp only [hbefore, hafter] at hheard ⊢
        · rfl
        · rfl
        · -- a post that is there has not been removed
          have hremoved : trail.removal = .heard := by
            split at hheard
            · exact hheard
            · exact hheard
          rw [(h.stored.mp hbefore).2] at hremoved
          cases hremoved
      · simp only [Trail.record, if_neg hkey]

/-- A client that settles to distinct keys lists no key twice. -/
theorem State.count_le_one (h : Edit.Distinct Post.databaseKey (s.listed client)) (key : String) :
    s.count client key ≤ 1 :=
  List.nodup_iff_count_le_one.mp h (some key)

/-- A client told of no post twice settles to distinct keys. -/
theorem distinct_of_told (henv : env.visibility = .committed) {acts : List Act}
    (hrun : (timeline env).run acts = some s)
    (htold : ∀ key, (SocialTimeline.trail env client key acts).told < 2) :
    Edit.Distinct Post.databaseKey (s.listed client) := by
  refine List.nodup_iff_count_le_one.mpr fun listed => ?_
  cases listed with
  | none =>
      rw [List.count_eq_zero_of_not_mem]
      · exact Nat.zero_le 1
      intro hmem
      obtain ⟨post, hpost, hnone⟩ := List.mem_map.mp hmem
      obtain ⟨key, -, hkey⟩ := ((wellKeyed ⟨acts, hrun⟩).clients client).settled hpost
      cases hkey.symm.trans hnone
  | some key =>
      have hcount := (traced henv client key hrun).count
      have hle := htold key
      show s.count client key ≤ 1
      split at hcount <;> omega

end

/-- **One row for each post, by trails.** In every run of clients that see the
committed children, a client never lists two posts with one key if and only if
no post that its read returned is changed after its first observer is
registered. -/
theorem one_row_told {env : Env} (henv : env.visibility = .committed) (client : ClientId)
    (acts : List Act) :
    (timeline env).Always (fun _ s => OneRow (s.clients client)) acts ↔
      (timeline env).Always (fun acts _ => ∀ key,
        (trail env client key acts).returned = true →
          (trail env client key acts).announced = false) acts := by
  constructor
  · intro hrows pre hpre s hrun key
    rw [← Trail.told_lt_two]
    induction pre using List.reverseRecOn generalizing s with
    | nil => exact Nat.zero_lt_two
    | append_singleton pre act ih =>
        have hcount := (traced henv client key hrun).count
        have hle := State.count_le_one (Client.distinct_settled (hrows _ hpre s hrun)) key
        by_cases hheard : (trail env client key (pre ++ [act])).removal = .heard
        · -- what it was told of, it was told of before
          obtain ⟨s', hs', hstep⟩ := (timeline env).run_snoc_eq_some.mp hrun
          have hmark : trail env client key (pre ++ [act]) =
              (trail env client key pre).record client key s' act s :=
            (timeline env).history_snoc _ _ hs' hstep
          have hprev := ih ((List.prefix_append pre [act]).trans hpre) s' hs'
          obtain ⟨henabled, -⟩ := step_eq_some.mp hstep
          rw [hmark] at hheard ⊢
          rwa [(traced henv client key hs').told_record_of_heard henabled hheard]
        · split at hcount
          · exact absurd ‹_› hheard
          · omega
  · intro htrails
    refine oneRow_of_noRepeat (noRepeat_of_distinct fun pre hpre s hrun => ?_)
    exact distinct_of_told henv hrun fun key =>
      (Trail.told_lt_two _).mpr (htrails pre hpre s hrun key)

/-- A post read between its two writes is changed once more. -/
theorem one_row_told_between :
    ¬ (timeline (devices .committed)).Always (fun _ s => OneRow (s.clients 1))
      readBetweenWrites := by
  intro hrows
  have hrun : ((timeline (devices .committed)).run readBetweenWrites).isSome = true := rfl
  obtain ⟨s, hs⟩ := Option.isSome_iff_exists.mp hrun
  have hquiet := (one_row_told rfl 1 readBetweenWrites).mp hrows _ List.prefix_rfl s hs pushKey rfl
  exact Bool.false_ne_true (hquiet.symm.trans rfl)

end SocialTimeline
