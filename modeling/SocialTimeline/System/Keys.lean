import SocialTimeline.System.Steps

/-!
# Every key was given out

In every reachable state the children, the writes in flight and the clients'
lists and raised events carry keys that `childByAutoId` has given out, each of
them once (`wellKeyed`). It makes the one-shot read succeed and list what the
client sees, child by child (`listed_retrieve`), and makes a key that is still
to be given out unknown everywhere.
-/

namespace SocialTimeline

open FirebaseTimelineService Lib

/-- A client lists and awaits posts with keys given out, and none before its
read. -/
structure Client.Keyed (used : List String) (client : Client) : Prop where
  raised : ∀ event ∈ client.inbox, event.key ∈ used
  listed : ∀ post ∈ client.screen.posts, ∃ key ∈ used, post.databaseKey = some key
  opened : client.stage = .opened → client.inbox = [] ∧ client.screen.posts = []

/-- The keys of the database and of the writes in flight were given out. -/
structure State.Keyed (s : State) : Prop where
  nodup : s.used.Nodup
  push : ∀ key ∈ s.used, isPushId key = true
  stored : ∀ key, s.posts key ≠ none → key ∈ s.used
  sent : ∀ e ∈ s.sent, e.2.key ∈ s.used
  acknowledged : ∀ e ∈ s.acknowledged, e.2 ∈ s.used

/-- Every key was given out. -/
structure State.WellKeyed (s : State) : Prop where
  keyed : s.Keyed
  clients : ∀ client, (s.clients client).Keyed s.used

namespace Client.Keyed

variable {used used' : List String} {client : Client}

theorem mono (h : client.Keyed used) (hle : ∀ key ∈ used, key ∈ used') : client.Keyed used' where
  raised event he := hle _ (h.raised event he)
  listed post hp := by
    obtain ⟨key, hkey, hpost⟩ := h.listed post hp
    exact ⟨key, hle key hkey, hpost⟩
  opened := h.opened

theorem notify (h : client.Keyed used) {event : Option DataEvent}
    (hevent : ∀ e, event = some e → e.key ∈ used) : (client.notify event).Keyed used where
  raised e he := by
    rcases List.mem_append.mp he with hold | hnew
    · exact h.raised e hold
    · rw [Option.mem_toList] at hnew
      exact hevent e (Option.eq_some_of_filter_eq_some hnew)
  listed := h.listed
  opened hstage := by
    have hopened : client.stage = .opened := hstage
    obtain ⟨hinbox, hposts⟩ := h.opened hopened
    refine ⟨?_, hposts⟩
    show client.inbox ++ _ = []
    rw [hinbox, hopened]
    cases event <;> simp [Option.filter, Stage.listens]

theorem staged (h : client.Keyed used) {stage : Stage} (hstage : stage ≠ .opened) :
    ({ client with stage } : Client).Keyed used :=
  ⟨h.raised, h.listed, fun habs => absurd habs hstage⟩

theorem deliver (h : client.Keyed used) : client.deliver.Keyed used := by
  unfold Client.deliver
  split
  · exact h
  · rename_i event inbox hinbox
    have hkey : event.key ∈ used := h.raised event (hinbox ▸ List.mem_cons_self)
    refine ⟨?_, ?_, ?_⟩
    · exact fun e he => h.raised e (hinbox ▸ List.mem_cons_of_mem event he)
    · intro post hpost
      have hpost' : post ∈ editedBy client.screen.posts
          ((startLiveUpdating event).toList.map LiveEvent.edit) := by
        rw [← posts_observe]
        exact hpost
      rcases Edit.mem_run Post.databaseKey hpost' with hold | hnew
      · exact h.listed post hold
      · obtain ⟨live, hlive, hedit⟩ := List.mem_map.mp hnew
        rw [Option.mem_toList] at hlive
        rcases live with ⟨post', type⟩
        cases type with
        | added =>
            cases hedit
            exact ⟨event.key, hkey, startLiveUpdating_databaseKey hlive⟩
        | removed => cases hedit
    · intro hopened
      have hnil := (h.opened hopened).1
      rw [hinbox] at hnil
      cases hnil

/-- Keys on the settled list were given out. -/
theorem settled (h : client.Keyed used) {post : Post} (hpost : post ∈ client.settled.posts) :
    ∃ key ∈ used, post.databaseKey = some key := by
  rw [posts_settled] at hpost
  rcases Edit.mem_run Post.databaseKey hpost with hold | hnew
  · exact h.listed post hold
  · obtain ⟨live, hlive, hedit⟩ := List.mem_map.mp hnew
    obtain ⟨event, hevent, hdecode⟩ := List.mem_filterMap.mp hlive
    rcases live with ⟨post', type⟩
    cases type with
    | added =>
        cases hedit
        exact ⟨event.key, h.raised event hevent, startLiveUpdating_databaseKey hdecode⟩
    | removed => cases hedit

end Client.Keyed

namespace State

variable {env : Env} {s : State}

/-! ## Moves -/

theorem used_subset_moved (env : Env) (s : State) (move : Move) :
    ∀ key ∈ s.used, key ∈ (moved env s move).used := by
  intro key hkey
  cases move with
  | createPost _ _ _ _ => exact List.mem_cons_of_mem _ hkey
  | _ => exact hkey

theorem used_subset_next (env : Env) (s : State) (act : Act) :
    ∀ key ∈ s.used, key ∈ (next env s act).used := by
  cases act with
  | move move => exact used_subset_moved env s move
  | turn client turn => exact fun _ hkey => hkey

/-- The key of a move that can be made is given out by then. -/
theorem WellKeyed.move_key (h : s.WellKeyed) {move : Move} (hmove : s.Movable move) :
    move.key ∈ (moved env s move).used := by
  cases move with
  | createPost client key message now => exact List.mem_cons_self
  | createdPost client key now => exact h.keyed.acknowledged _ hmove
  | removePost client key =>
      obtain ⟨post, hpost, hremove⟩ := List.mem_filterMap.mp hmove
      obtain ⟨key', hkey', hdatabase⟩ := (h.clients client).listed post hpost
      rw [removePost, removePostReference, hdatabase] at hremove
      cases hremove
      exact hkey'
  | commit client write => exact h.keyed.sent _ hmove
  | reject client write => exact h.keyed.sent _ hmove

theorem WellKeyed.moved (h : s.WellKeyed) {move : Move} (hmove : s.Movable move) :
    (moved env s move).Keyed := by
  have hkey : move.key ∈ (State.moved env s move).used := h.move_key hmove
  have hle := used_subset_moved env s move
  refine ⟨?_, ?_, ?_, ?_, ?_⟩
  · cases move with
    | createPost client key message now => exact List.nodup_cons.mpr ⟨hmove.2, h.keyed.nodup⟩
    | _ => exact h.keyed.nodup
  · cases move with
    | createPost client key message now =>
        exact List.forall_mem_cons.mpr ⟨hmove.1, h.keyed.push⟩
    | _ => exact h.keyed.push
  · intro key hstored
    by_cases hne : key = move.key
    · exact hne ▸ hkey
    · rw [posts_moved_of_ne env s hne] at hstored
      exact hle key (h.keyed.stored key hstored)
  · have happend : ∀ (client : ClientId) (write : Write), write.key = move.key →
        ∀ e ∈ s.sent ++ [(client, write)], e.2.key ∈ (State.moved env s move).used := by
      intro client write hwrite e he
      rcases List.mem_append.mp he with hold | hnew
      · exact hle _ (h.keyed.sent e hold)
      · rw [List.mem_singleton.mp hnew, hwrite]
        exact hkey
    cases move with
    | createPost client key message now => exact happend client _ rfl
    | createdPost client key now => exact happend client _ rfl
    | removePost client key => exact happend client _ rfl
    | commit client write => exact fun e he => h.keyed.sent e (List.mem_of_mem_erase he)
    | reject client write => exact fun e he => h.keyed.sent e (List.mem_of_mem_erase he)
  · cases move with
    | createPost client key message now => exact fun e he => hle _ (h.keyed.acknowledged e he)
    | createdPost client key now =>
        exact fun e he => h.keyed.acknowledged e (List.mem_of_mem_erase he)
    | removePost client key => exact h.keyed.acknowledged
    | commit client write =>
        cases write with
        | setValue key post =>
            intro e he
            rcases List.mem_append.mp he with hold | hnew
            · exact h.keyed.acknowledged e hold
            · rw [List.mem_singleton.mp hnew]
              exact hkey
        | _ => exact h.keyed.acknowledged
    | reject client write => exact h.keyed.acknowledged

/-! ## What a client sees -/

/-- Nothing is stored and nothing in flight under a key not given out. -/
theorem Keyed.fresh (h : s.Keyed) {key : String} (hkey : key ∉ s.used) (client : ClientId) :
    s.posts key = none ∧ s.pending client key = [] := by
  constructor
  · by_contra hstored
    exact hkey (h.stored key hstored)
  · refine List.filter_eq_nil_iff.mpr ?_
    intro e he htrue
    have hmatch := of_decide_eq_true htrue
    exact hkey (hmatch.2 ▸ h.sent e he)

/-- Nothing is seen under a key not given out. -/
theorem Keyed.view_eq_none (h : s.Keyed) {client : ClientId} {key : String}
    (hkey : key ∉ s.used) : view env s client key = none := by
  obtain ⟨hposts, hpending⟩ := h.fresh hkey client
  unfold view
  rw [hposts, hpending]
  split <;> rfl

/-- A key not given out is on no list. -/
theorem WellKeyed.unlisted (h : s.WellKeyed) {key : String} (hkey : key ∉ s.used)
    (client : ClientId) : some key ∉ (s.listed client).map Post.databaseKey := by
  intro hmem
  obtain ⟨post, hpost, hdatabase⟩ := List.mem_map.mp hmem
  obtain ⟨key', hused, hkey'⟩ := (h.clients client).settled hpost
  rw [hdatabase] at hkey'
  cases hkey'
  exact hkey hused

theorem mem_snapshot {client : ClientId} {e : String × Node} :
    e ∈ snapshot env s client ↔ e.1 ∈ s.used ∧ view env s client e.1 = some e.2 := by
  rcases e with ⟨key, node⟩
  simp only [snapshot, List.mem_filterMap, Option.map_eq_some_iff, Prod.mk.injEq]
  constructor
  · rintro ⟨key', hkey, node', hview, rfl, rfl⟩
    exact ⟨hkey, hview⟩
  · rintro ⟨hkey, hview⟩
    exact ⟨key, hkey, node, hview, rfl, rfl⟩

/-- The children seen are the children of the snapshot. -/
theorem Keyed.mem_snapshot (h : s.Keyed) {client : ClientId} {key : String} {node : Node} :
    (key, node) ∈ snapshot env s client ↔ view env s client key = some node := by
  rw [State.mem_snapshot]
  refine ⟨And.right, fun hview => ⟨?_, hview⟩⟩
  by_contra hkey
  rw [h.view_eq_none hkey] at hview
  cases hview

theorem snapshot_keys (client : ClientId) :
    ((snapshot env s client).map Prod.fst).Sublist s.used := by
  unfold snapshot
  induction s.used with
  | nil => exact List.Sublist.refl _
  | cons key used ih =>
      rw [List.filterMap_cons]
      cases view env s client key with
      | none => exact ih.cons key
      | some node => exact ih.cons_cons key

/-! ## The one-shot read -/

theorem WellKeyed.children_keys (h : s.WellKeyed) {client : ClientId}
    {children : List (String × Node)} (hperm : children.Perm (snapshot env s client)) :
    (children.map Prod.fst).Nodup ∧ ∀ key ∈ children.map Prod.fst, key ∈ s.used := by
  have hkeys := hperm.map Prod.fst
  have hsub : ((snapshot env s client).map Prod.fst).Sublist s.used := snapshot_keys client
  refine ⟨hkeys.nodup_iff.mpr (h.keyed.nodup.sublist hsub), ?_⟩
  intro key hkey
  exact hsub.subset (hkeys.mem_iff.mp hkey)

/-- The one-shot read succeeds, with the posts the client sees. -/
theorem WellKeyed.retrieve (h : s.WellKeyed) {client : ClientId}
    {children : List (String × Node)} (hperm : children.Perm (snapshot env s client)) :
    (s.clients client).retrieve env.foundation children =
      { s.clients client with
        stage := .retrieved
        screen := (s.clients client).screen.retrieved (decodeChildren children) } := by
  obtain ⟨hnodup, hused⟩ := h.children_keys hperm
  have hread := retrievePosts_pushIds env.foundation hnodup
    fun key hkey => h.keyed.push key (hused key hkey)
  unfold Client.retrieve
  rw [hread]

/-- **The one-shot read** makes the client settle to the posts it sees, sorted. -/
theorem WellKeyed.listed_retrieve (h : s.WellKeyed) {client : ClientId}
    {children : List (String × Node)} (hturn : s.Turnable env client (.retrieve children)) :
    (next env s (.turn client (.retrieve children))).listed client =
      TimelineViewModel.sorted (decodeChildren children) := by
  have hinbox : (s.clients client).inbox = [] := ((h.clients client).opened hturn.1).1
  unfold listed
  rw [clients_next_turn, turned, h.retrieve hturn.2]
  unfold Client.settled
  simp only [hinbox]
  exact Screen.posts_retrieved _ _

theorem mem_decodeChildren {children : List (String × Node)} {post : Post} :
    post ∈ decodeChildren children ↔ ∃ key node, (key, node) ∈ children ∧
      decodeSnapshot key node = some post := by
  unfold decodeChildren
  rw [List.mem_filterMap]
  exact Prod.exists

theorem decodeChildren_keys (children : List (String × Node)) :
    ((decodeChildren children).map Post.databaseKey).Sublist
      (children.map fun e => some e.1) := by
  unfold decodeChildren
  induction children with
  | nil => exact List.Sublist.refl _
  | cons e children ih =>
      rw [List.filterMap_cons]
      cases hpost : decodeSnapshot e.1 e.2 with
      | none => exact ih.cons _
      | some post =>
          rw [List.map_cons, decodeSnapshot_databaseKey hpost]
          exact ih.cons_cons _

/-- A read lists each post it sees once, and nothing else. -/
theorem WellKeyed.distinct_retrieve (h : s.WellKeyed) {client : ClientId}
    {children : List (String × Node)} (hturn : s.Turnable env client (.retrieve children)) :
    Edit.Distinct Post.databaseKey
      ((State.next env s (.turn client (.retrieve children))).listed client) := by
  rw [h.listed_retrieve hturn]
  have hkeys : (children.map fun e => some e.1).Nodup := by
    have hnodup := (h.children_keys hturn.2).1.map (Option.some_injective String)
    rwa [List.map_map] at hnodup
  have hperm := (TimelineViewModel.sorted_perm (decodeChildren children)).map Post.databaseKey
  exact hperm.nodup_iff.mpr (hkeys.sublist (decodeChildren_keys children))

theorem WellKeyed.mem_retrieve (h : s.WellKeyed) {client : ClientId}
    {children : List (String × Node)} (hturn : s.Turnable env client (.retrieve children))
    {key : String} :
    some key ∈ ((State.next env s (.turn client (.retrieve children))).listed client).map
        Post.databaseKey ↔ decodes key (view env s client key) = true := by
  rw [h.listed_retrieve hturn, List.mem_map]
  constructor
  · rintro ⟨post, hpost, hkey⟩
    obtain ⟨key', node, hmem, hdecode⟩ :=
      mem_decodeChildren.mp (TimelineViewModel.mem_sorted.mp hpost)
    rw [decodeSnapshot_databaseKey hdecode] at hkey
    cases hkey
    rw [h.keyed.mem_snapshot.mp (hturn.2.mem_iff.mp hmem)]
    exact decodes_of_decodeSnapshot hdecode
  · intro hdecodes
    obtain ⟨node, post, hview, hdecode⟩ := exists_of_decodes hdecodes
    have hmem := hturn.2.mem_iff.mpr (h.keyed.mem_snapshot.mpr hview)
    refine ⟨post, ?_, decodeSnapshot_databaseKey hdecode⟩
    exact TimelineViewModel.mem_sorted.mpr (mem_decodeChildren.mpr ⟨key, node, hmem, hdecode⟩)

/-- How often a key is listed after a read. -/
theorem WellKeyed.count_retrieve (h : s.WellKeyed) {client : ClientId}
    {children : List (String × Node)} (hturn : s.Turnable env client (.retrieve children))
    (key : String) : (State.next env s (.turn client (.retrieve children))).count client key =
      (decodes key (view env s client key)).toNat := by
  have hdistinct := h.distinct_retrieve hturn
  have hmem : some key ∈ ((State.next env s (.turn client (.retrieve children))).listed client).map
      Post.databaseKey ↔ decodes key (view env s client key) = true := h.mem_retrieve hturn
  unfold count
  cases hdecodes : decodes key (view env s client key) with
  | true => exact List.count_eq_one_of_mem hdistinct (hmem.mpr hdecodes)
  | false =>
      refine List.count_eq_zero.mpr fun hlisted => ?_
      rw [hmem.mp hlisted] at hdecodes
      cases hdecodes

/-- A client's turn keeps its keys among those given out. -/
theorem WellKeyed.turned (h : s.WellKeyed) {client : ClientId} {turn : Turn}
    (hturn : s.Turnable env client turn) : (turned env s client turn).Keyed s.used := by
  have hclient := h.clients client
  cases turn with
  | retrieve children =>
      obtain ⟨hopened, hperm⟩ := hturn
      obtain ⟨-, hused⟩ := h.children_keys hperm
      rw [State.turned, h.retrieve hperm]
      refine ⟨hclient.raised, ?_, fun habs => Stage.noConfusion habs⟩
      intro post hpost
      have hread : post ∈ TimelineViewModel.sorted (decodeChildren children) := hpost
      obtain ⟨key, node, hmem, hdecode⟩ :=
        mem_decodeChildren.mp (TimelineViewModel.mem_sorted.mp hread)
      exact ⟨key, hused key (List.mem_map.mpr ⟨_, hmem, rfl⟩), decodeSnapshot_databaseKey hdecode⟩
  | observeChanged => exact hclient.staged Stage.noConfusion
  | observeRemoved => exact hclient.staged Stage.noConfusion
  | deliver => exact hclient.deliver

theorem WellKeyed.next (h : s.WellKeyed) {act : Act} (henabled : s.Enabled env act) :
    (next env s act).WellKeyed := by
  cases act with
  | move move =>
      have hmoved : (State.moved env s move).Keyed := h.moved henabled
      refine ⟨⟨hmoved.nodup, hmoved.push, hmoved.stored, hmoved.sent, hmoved.acknowledged⟩, ?_⟩
      intro client
      refine ((h.clients client).mono (used_subset_moved env s move)).notify ?_
      intro event hevent
      rw [childEvent_key hevent]
      exact h.move_key henabled
  | turn client turn =>
      refine ⟨⟨h.keyed.nodup, h.keyed.push, h.keyed.stored, h.keyed.sent, h.keyed.acknowledged⟩, ?_⟩
      intro client'
      by_cases hc : client' = client
      · subst hc
        rw [clients_next_turn]
        exact h.turned henabled
      · rw [clients_next_turn_of_ne env s hc]
        exact h.clients client'

end State

/-- **Every key was given out**, in every reachable state. -/
theorem wellKeyed {env : Env} {s : State} (h : (timeline env).Reachable s) : s.WellKeyed := by
  refine h.invariant ?_ ?_
  · exact ⟨⟨List.nodup_nil, nofun, fun _ habs => absurd rfl habs, nofun, nofun⟩,
      fun _ => ⟨nofun, nofun, fun _ => ⟨rfl, rfl⟩⟩⟩
  · intro s act t hs hstep
    obtain ⟨henabled, rfl⟩ := step_eq_some.mp hstep
    exact hs.next henabled

end SocialTimeline
