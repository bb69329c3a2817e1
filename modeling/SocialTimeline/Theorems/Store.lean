import SocialTimeline.System.Keys

/-!
# The children of `/posts`

Each child should decode, to the message and the user its `createPost` call was
given. `store_decodes_iff` says for every run when it does in all of its states:
exactly when no timestamp update arrives at a child that is gone.
-/

namespace SocialTimeline

open FirebaseTimelineService Lib

/-- Every child decodes to the message and the user of the one call that made
its key. -/
def StoreDecodes (env : Env) (acts : List Act) (s : State) : Prop :=
  ∀ key node, s.posts key = some node → ∃ client message now,
    .move (.createPost client key message now) ∈ acts ∧
      (∀ client' message' now', .move (.createPost client' key message' now') ∈ acts →
        client' = client ∧ message' = message ∧ now' = now) ∧
      ∃ timestamp, decodeSnapshot key node =
        some ⟨message, (env.users client).username, timestamp, some key⟩

/-- An update that the server takes finds its child. -/
def UpdateFindsChild (s : State) : Act → Prop
  | .move (.commit _ (.updateChildValues key _)) => s.posts key ≠ none
  | _ => True

/-! ## One call for each key -/

/-- Keys of calls were given out, and no two calls got the same one. -/
def CallsApart (acts : List Act) (s : State) : Prop :=
  (∀ client key message now, .move (.createPost client key message now) ∈ acts → key ∈ s.used) ∧
    ∀ client client' key message message' now now',
      .move (.createPost client key message now) ∈ acts →
        .move (.createPost client' key message' now') ∈ acts →
          client' = client ∧ message' = message ∧ now' = now

theorem callsApart {env : Env} {acts : List Act} {s : State}
    (hrun : (timeline env).run acts = some s) : CallsApart acts s := by
  refine TSys.run_induction (P := CallsApart) ?_ ?_ hrun
  · exact ⟨nofun, nofun⟩
  · rintro acts act s t - ⟨hused, hsame⟩ hstep
    obtain ⟨henabled, rfl⟩ := step_eq_some.mp hstep
    have hle := State.used_subset_next env s act
    -- a call is an earlier one, or the one made now under a key not used before
    have hnow : ∀ {client key message now},
        .move (.createPost client key message now) ∈ [act] → key ∉ s.used ∧
          key ∈ (s.next env act).used := by
      intro client key message now hmem
      cases List.mem_singleton.mp hmem
      exact ⟨henabled.2, List.mem_cons_self⟩
    refine ⟨?_, ?_⟩
    · intro client key message now hmem
      rcases List.mem_append.mp hmem with hold | hnew
      · exact hle key (hused _ _ _ _ hold)
      · exact (hnow hnew).2
    · intro client client' key message message' now now' hmem hmem'
      rcases List.mem_append.mp hmem with hold | hnew <;>
        rcases List.mem_append.mp hmem' with hold' | hnew'
      · exact hsame _ _ _ _ _ _ _ hold hold'
      · exact absurd (hused _ _ _ _ hold) (hnow hnew').1
      · exact absurd (hused _ _ _ _ hold') (hnow hnew).1
      · cases List.mem_singleton.mp hnew
        cases List.mem_singleton.mp hnew'
        exact ⟨rfl, rfl, rfl⟩

/-! ## Written posts -/

/-- First writes in flight and children are posts of calls; a child may have got
another timestamp since. -/
structure Written (env : Env) (acts : List Act) (s : State) : Prop where
  sent : ∀ client key post, (client, .setValue key post) ∈ s.sent → ∃ message now,
    .move (.createPost client key message now) ∈ acts ∧
      post = { message, user := (env.users client).username, timestamp := now }
  stored : ∀ key node, s.posts key = some node → ∃ client message now timestamp,
    .move (.createPost client key message now) ∈ acts ∧
      node = ({ message, user := (env.users client).username, timestamp } : Post).toNode

/-- The children after a commit that finds its child if it is an update. -/
theorem Written.stored_commit {env : Env} {acts : List Act} {s : State} (h : Written env acts s)
    {client : ClientId} {write : Write} (hsent : (client, write) ∈ s.sent)
    (hfinds : UpdateFindsChild s (.move (.commit client write))) :
    ∀ node, write.exec (s.posts write.key) = some node → ∃ client message now timestamp,
      .move (.createPost client write.key message now) ∈ acts ∧
        node = ({ message, user := (env.users client).username, timestamp } : Post).toNode := by
  intro node hnode
  cases write with
  | setValue key post =>
      obtain ⟨message, now, hcall, rfl⟩ := h.sent client key post hsent
      cases hnode
      exact ⟨client, message, now, now, hcall, rfl⟩
  | updateChildValues key timestamp =>
      obtain ⟨old, hold⟩ := Option.ne_none_iff_exists'.mp hfinds
      obtain ⟨author, message, now, stamp, hcall, rfl⟩ := h.stored key old hold
      rw [Write.key, hold] at hnode
      cases hnode
      exact ⟨author, message, now, timestamp, hcall, updateImmediateChild_toNode _ _⟩
  | removeValue key => cases hnode

/-- **Step.** Updates that find their child keep written posts written. -/
theorem Written.next {env : Env} {acts : List Act} {s : State} (h : Written env acts s)
    {act : Act} (henabled : s.Enabled env act) (hfinds : UpdateFindsChild s act) :
    Written env (acts ++ [act]) (s.next env act) := by
  have hstored : ∀ key node, s.posts key = some node → ∃ client message now timestamp,
      .move (.createPost client key message now) ∈ acts ++ [act] ∧
        node = ({ message, user := (env.users client).username, timestamp } : Post).toNode := by
    intro key node hnode
    obtain ⟨client, message, now, timestamp, hcall, heq⟩ := h.stored key node hnode
    exact ⟨client, message, now, timestamp, List.mem_append_left _ hcall, heq⟩
  cases act with
  | turn client turn =>
      refine ⟨?_, hstored⟩
      intro client key post hmem
      obtain ⟨message, now, hcall, hpost⟩ := h.sent client key post hmem
      exact ⟨message, now, List.mem_append_left _ hcall, hpost⟩
  | move move =>
      refine ⟨?_, ?_⟩
      · intro client key post hmem
        rcases State.first_write_moved env s hmem with hsent | ⟨message, now, rfl, hpost⟩
        · obtain ⟨message, now, hcall, hpost⟩ := h.sent client key post hsent
          exact ⟨message, now, List.mem_append_left _ hcall, hpost⟩
        · exact ⟨message, now, List.mem_append_right _ (List.mem_singleton_self _), hpost⟩
      intro key node hnode
      rw [State.posts_next_move, State.posts_moved] at hnode
      cases move with
      | commit client write =>
          by_cases hkey : key = write.key
          · subst hkey
            simp only [Function.update_self] at hnode
            obtain ⟨author, message, now, timestamp, hcall, heq⟩ :=
              h.stored_commit henabled hfinds node hnode
            exact ⟨author, message, now, timestamp, List.mem_append_left _ hcall, heq⟩
          · simp only [Function.update_of_ne hkey] at hnode
            exact hstored key node hnode
      | _ => exact hstored key node hnode

/-- Written posts decode. -/
theorem Written.decodes {env : Env} {acts : List Act} {s : State} (h : Written env acts s)
    (hcalls : CallsApart acts s) : StoreDecodes env acts s := by
  intro key node hnode
  obtain ⟨client, message, now, timestamp, hcall, rfl⟩ := h.stored key node hnode
  refine ⟨client, message, now, hcall, ?_, timestamp, decodeSnapshot_toNode _ _⟩
  intro client' message' now' hcall'
  exact hcalls.2 _ _ _ _ _ _ _ hcall hcall'

/-- An update that finds no child leaves one that does not decode. -/
theorem not_storeDecodes_of_update {env : Env} {acts : List Act} {s : State} {act : Act}
    (hfinds : ¬ UpdateFindsChild s act) : ¬ StoreDecodes env acts (s.next env act) := by
  unfold UpdateFindsChild at hfinds
  split at hfinds
  · rename_i client key timestamp
    have hgone : s.posts key = none := not_not.mp hfinds
    have hstamp : (s.next env (.move (.commit client (.updateChildValues key timestamp)))).posts
        key = some (stampNode timestamp) := by
      have hcommit := State.posts_moved_commit env s client (.updateChildValues key timestamp)
      rw [Write.key, hgone] at hcommit
      exact hcommit
    intro hdecodes
    obtain ⟨_, _, _, _, _, _, hdecode⟩ := hdecodes key _ hstamp
    rw [decodeSnapshot_stampNode] at hdecode
    cases hdecode
  · exact absurd trivial hfinds

/-- **When the store decodes.** In every run, every child of every state decodes
to the message and the user of the call that made its key, if and only if no
timestamp update is taken at a child that is gone. -/
theorem store_decodes_iff (env : Env) (acts : List Act) :
    (timeline env).Always (StoreDecodes env) acts ↔
      (timeline env).EachStep (fun _ s act => UpdateFindsChild s act) acts := by
  constructor
  · intro hall pre act hpre s t hrun hstep
    by_contra hfinds
    have hrun' : (timeline env).run (pre ++ [act]) = some t :=
      (timeline env).run_snoc_eq_some.mpr ⟨s, hrun, hstep⟩
    obtain ⟨-, rfl⟩ := step_eq_some.mp hstep
    exact not_storeDecodes_of_update hfinds (hall _ hpre _ hrun')
  · intro heach pre hpre s hrun
    have hwritten : (timeline env).Always (Written env) acts := by
      refine TSys.always_of_eachStep ⟨nofun, nofun⟩ ?_ heach
      intro acts act s t _ h hfinds hstep
      obtain ⟨henabled, rfl⟩ := step_eq_some.mp hstep
      exact h.next henabled hfinds
    exact (hwritten pre hpre s hrun).decodes (callsApart hrun)

/-- The first device posts; the second one reads the post and removes it before
the first has sent the update. -/
def removedBeforeUpdate : List Act :=
  [.move (.createPost 0 pushKey "hello" 1), .move (.commit 0 (.setValue pushKey firstPost)),
    .turn 1 (.retrieve [(pushKey, firstPost.toNode)]), .move (.removePost 1 pushKey),
    .move (.commit 1 (.removeValue pushKey)), .move (.createdPost 0 pushKey 2),
    .move (.commit 0 (.updateChildValues pushKey 2))]

/-- It ends with a child that does not decode. -/
theorem store_left_undecodable :
    ∃ s, (timeline (devices .committed)).run removedBeforeUpdate = some s ∧
      s.posts pushKey = some (stampNode 2) ∧ decodeSnapshot pushKey (stampNode 2) = none ∧
      ¬ StoreDecodes (devices .committed) removedBeforeUpdate s := by
  have hrun : ((timeline (devices .committed)).run removedBeforeUpdate).map (·.posts pushKey) =
      some (some (stampNode 2)) := rfl
  obtain ⟨s, hs, hposts⟩ := Option.map_eq_some_iff.mp hrun
  refine ⟨s, hs, hposts, decodeSnapshot_stampNode 2 pushKey, ?_⟩
  intro hdecodes
  obtain ⟨_, _, _, _, _, _, hdecode⟩ := hdecodes pushKey _ hposts
  rw [decodeSnapshot_stampNode] at hdecode
  cases hdecode

end SocialTimeline
