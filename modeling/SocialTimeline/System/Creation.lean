import SocialTimeline.System.Keys

/-!
# A post is made by two writes

From the call of `createPost` to its timestamp update the key of a post is in
exactly one place: in the first write in flight, in the acknowledgement that the
completion block waits for, or in the update in flight (`State.creating`).

* `Creation` — no key is in the making twice, a first write in flight finds no
  child, and every child is a written post or a lone timestamp; it holds in every
  reachable state (`creation`);
* `Change` — the ways a child changes, as a client hears of them that sees the
  committed children; every move brings one of them (`Creation.change`).
-/

namespace SocialTimeline

open FirebaseTimelineService Lib

/-- The key of the post a write helps to make. -/
def FirebaseTimelineService.Write.creates : Write → Option String
  | .setValue key _ => some key
  | .updateChildValues key _ => some key
  | .removeValue _ => none

theorem FirebaseTimelineService.Write.creates_key {write : Write} {key : String}
    (h : write.creates = some key) : write.key = key := by
  cases write <;> cases h <;> rfl

/-- The key a move starts to make a post under. -/
def Move.starts : Move → List String
  | .createPost _ key _ _ => [key]
  | _ => []

/-- The key of the post a move ends the making of. -/
def Move.ends : Move → List String
  | .commit _ (.updateChildValues key _) => [key]
  | .reject _ write => write.creates.toList
  | _ => []

namespace State

/-- The keys of posts in the making. -/
def creating (s : State) : List String :=
  s.sent.filterMap (fun e => e.2.creates) ++ s.acknowledged.map Prod.snd

/-- Posts are made one write after the other. -/
structure Creation (s : State) : Prop where
  nodup : s.creating.Nodup
  absent : ∀ client key post, (client, .setValue key post) ∈ s.sent → s.posts key = none
  formed : ∀ key node, s.posts key = some node →
    (∃ post : Post, node = post.toNode) ∨ ∃ timestamp, node = stampNode timestamp

variable {env : Env} {s : State}

theorem mem_creating_of_sent {e : ClientId × Write} {key : String} (he : e ∈ s.sent)
    (hkey : e.2.creates = some key) : key ∈ s.creating :=
  List.mem_append_left _ (List.mem_filterMap.mpr ⟨e, he, hkey⟩)

theorem Keyed.creating_used (h : s.Keyed) {key : String} (hkey : key ∈ s.creating) :
    key ∈ s.used := by
  rcases List.mem_append.mp hkey with hsent | hack
  · obtain ⟨e, he, hcreates⟩ := List.mem_filterMap.mp hsent
    rw [← e.2.creates_key hcreates]
    exact h.sent e he
  · obtain ⟨e, he, rfl⟩ := List.mem_map.mp hack
    exact h.acknowledged e he

/-- A list mapped in part, before and after one item leaves it. -/
theorem filterMap_perm_erase {α β : Type} [BEq α] [LawfulBEq α] (f : α → Option β) {a : α}
    {l : List α} (h : a ∈ l) :
    ((f a).toList ++ (l.erase a).filterMap f).Perm (l.filterMap f) := by
  have hperm := ((List.perm_cons_erase h).filterMap f).symm
  cases hf : f a with
  | none => rwa [List.filterMap_cons_none hf] at hperm
  | some b => rwa [List.filterMap_cons_some hf] at hperm

/-- **Posts in the making** after a move: one more where it starts, one less
where it ends. -/
theorem creating_moved (env : Env) {move : Move} (hmove : s.Movable move) :
    (move.ends ++ (moved env s move).creating).Perm (move.starts ++ s.creating) := by
  cases move with
  | createPost client key message now =>
      show ((s.sent ++ [_]).filterMap _ ++ _).Perm (key :: (_ ++ _))
      rw [List.filterMap_append]
      show ((_ ++ [key]) ++ _).Perm _
      rw [List.append_assoc]
      exact List.perm_middle
  | createdPost client key now =>
      show ((s.sent ++ [_]).filterMap _ ++ (s.acknowledged.erase _).map _).Perm (_ ++ _)
      rw [List.filterMap_append]
      show ((_ ++ [key]) ++ _).Perm _
      rw [List.append_assoc]
      refine List.Perm.append_left _ ?_
      exact ((List.perm_cons_erase hmove).map Prod.snd).symm
  | removePost client key =>
      show ((s.sent ++ [_]).filterMap _ ++ _).Perm (_ ++ _)
      rw [List.filterMap_append]
      show ((_ ++ []) ++ _).Perm _
      rw [List.append_nil]
      exact .refl _
  | commit client write =>
      have herase := filterMap_perm_erase (fun e : ClientId × Write => e.2.creates) hmove
      cases write with
      | setValue key post =>
          show ((s.sent.erase _).filterMap _ ++ (s.acknowledged ++ [_]).map _).Perm (_ ++ _)
          rw [List.map_append, ← List.append_assoc]
          refine (List.perm_append_comm.trans ?_)
          rw [← List.append_assoc]
          exact herase.append_right _
      | updateChildValues key timestamp => exact herase.append_right _
      | removeValue key => exact herase.append_right _
  | reject client write =>
      have herase := filterMap_perm_erase (fun e : ClientId × Write => e.2.creates) hmove
      show (write.creates.toList ++ ((s.sent.erase _).filterMap _ ++ _)).Perm (_ ++ _)
      rw [← List.append_assoc]
      exact herase.append_right _

/-- The key of a started post was not used. -/
theorem starts_fresh {move : Move} (hmove : s.Movable move) :
    ∀ key ∈ move.starts, key ∉ s.used := by
  cases move with
  | createPost client key message now =>
      intro key' hkey
      rw [List.mem_singleton.mp hkey]
      exact hmove.2
  | _ => nofun

/-- No key is in the making twice after a move, and none that the move ends. -/
theorem WellKeyed.creating_moved (h : s.WellKeyed) (hnodup : s.creating.Nodup) {move : Move}
    (hmove : s.Movable move) : (move.ends ++ (State.moved env s move).creating).Nodup := by
  refine (State.creating_moved env hmove).nodup_iff.mpr ?_
  refine List.nodup_append.mpr ⟨?_, hnodup, ?_⟩
  · cases move with
    | createPost _ _ _ _ => exact List.nodup_singleton _
    | _ => exact List.nodup_nil
  · rintro key hstart _ hcreating rfl
    exact starts_fresh hmove key hstart (h.keyed.creating_used hcreating)

/-- A key used before is in the making after a move only if it was. -/
theorem creating_of_moved {move : Move} (hmove : s.Movable move) {key : String}
    (hused : key ∈ s.used) (hkey : key ∈ (moved env s move).creating) : key ∈ s.creating := by
  have hmem := (creating_moved env hmove).subset (List.mem_append_right move.ends hkey)
  rcases List.mem_append.mp hmem with hstart | hold
  · exact absurd hused (starts_fresh hmove key hstart)
  · exact hold

/-! ## Children -/

theorem updateImmediateChild_stampNode (old timestamp : Double) :
    (stampNode old).updateImmediateChild Post.Keys.timestamp (.leaf (.double timestamp)) =
      stampNode timestamp := rfl

theorem Creation.absent_moved (h : s.Creation) (hwell : s.WellKeyed) {move : Move}
    (hmove : s.Movable move) : ∀ client key post,
      (client, .setValue key post) ∈ (moved env s move).sent →
        (moved env s move).posts key = none := by
  intro client key post hmem
  have hnodup : (move.ends ++ (moved env s move).creating).Nodup :=
    hwell.creating_moved h.nodup hmove
  have hcreating : key ∈ (moved env s move).creating := mem_creating_of_sent hmem rfl
  rcases first_write_moved env s hmem with hold | ⟨message, now, rfl, -⟩
  · have habsent := h.absent client key post hold
    by_cases hkey : key = move.key
    · subst hkey
      rw [posts_moved]
      cases move with
      | commit author write =>
          simp only [Move.key, Function.update_self]
          cases write with
          | removeValue key => rfl
          | updateChildValues key timestamp =>
              -- the update has the key in the making already
              exact absurd hcreating (List.nodup_cons.mp hnodup).1
          | setValue key post' =>
              -- so has the acknowledgement of the write taken now
              have hack : key ∈ (moved env s
                  (.commit author (.setValue key post'))).acknowledged.map Prod.snd := by
                show key ∈ (s.acknowledged ++ [(author, key)]).map Prod.snd
                simp
              have hsent : key ∈ (moved env s (.commit author (.setValue key post'))).sent.filterMap
                  fun e => e.2.creates := List.mem_filterMap.mpr ⟨_, hmem, rfl⟩
              have hapart := (List.nodup_append.mp (List.nodup_append.mp hnodup).2.1).2.2
              exact absurd rfl (hapart key hsent key hack)
      | _ => exact habsent
    · rw [posts_moved_of_ne env s hkey]
      exact habsent
  · show s.posts key = none
    by_contra hstored
    exact hmove.2 (hwell.keyed.stored key hstored)

theorem Creation.formed_moved (h : s.Creation) (move : Move) : ∀ key node,
    (moved env s move).posts key = some node →
      (∃ post : Post, node = post.toNode) ∨ ∃ timestamp, node = stampNode timestamp := by
  intro key node hnode
  rw [posts_moved] at hnode
  cases move with
  | commit client write =>
      by_cases hkey : key = write.key
      · subst hkey
        simp only [Function.update_self] at hnode
        cases write with
        | setValue key post =>
            cases hnode
            exact .inl ⟨post, rfl⟩
        | removeValue key => cases hnode
        | updateChildValues key timestamp =>
            cases hold : s.posts key with
            | none =>
                rw [Write.key, hold] at hnode
                cases hnode
                exact .inr ⟨timestamp, rfl⟩
            | some old =>
                rw [Write.key, hold] at hnode
                cases hnode
                rcases h.formed key old hold with ⟨post, rfl⟩ | ⟨stamp, rfl⟩
                · exact .inl ⟨_, updateImmediateChild_toNode post timestamp⟩
                · exact .inr ⟨timestamp, updateImmediateChild_stampNode stamp timestamp⟩
      · simp only [Function.update_of_ne hkey] at hnode
        exact h.formed key node hnode
  | _ => exact h.formed key node hnode

/-! ## What a move does to its child -/

theorem exec_updateChildValues_ne_none (key : String) (timestamp : Double) (child : Option Node) :
    (Write.updateChildValues key timestamp).exec child ≠ none := by
  cases child <;> nofun

/-- An update makes a post of nothing else, and nothing else of a post. -/
theorem Creation.decodes_update (h : s.Creation) (key : String) (timestamp : Double) :
    decodes key ((Write.updateChildValues key timestamp).exec (s.posts key)) =
      decodes key (s.posts key) := by
  cases hchild : s.posts key with
  | none => exact decodes_stampNode key timestamp
  | some node =>
      rcases h.formed key node hchild with ⟨post, rfl⟩ | ⟨stamp, rfl⟩
      · exact (decodes_toNode key { post with timestamp }).trans (decodes_toNode key post).symm
      · exact (decodes_stampNode key timestamp).trans (decodes_stampNode key stamp).symm

/-- What a client that sees the committed children hears of a commit. -/
theorem heard_commit (henv : env.visibility = .committed) (author : ClientId) (write : Write)
    (client : ClientId) : heard env s (.commit author write) client =
      (s.clients client).hears
        (childEvent write.key (s.posts write.key) (write.exec (s.posts write.key))) := by
  unfold heard raised
  rw [view_committed _ henv, view_committed _ henv]
  exact congrArg (fun after => (s.clients client).hears
    (childEvent write.key (s.posts write.key) after)) (posts_moved_commit env s author write)

/-- The ways a child changes, as a client hears of them that sees the committed
children. -/
inductive Change (env : Env) (s : State) (move : Move) (client : ClientId) : Prop
  /-- Nothing that matters, or nothing at all. -/
  | silent (same : decodes move.key ((moved env s move).posts move.key) =
        decodes move.key (s.posts move.key))
      (unheard : (s.clients client).stage.listens .childChanged = true →
        decodes move.key (s.posts move.key) = true →
          (moved env s move).posts move.key = s.posts move.key)
      (heard : heard env s move client = none)
  /-- The first write is taken. -/
  | written (author : ClientId) (post : Post)
      (commit : move = .commit author (.setValue move.key post))
      (sent : (author, .setValue move.key post) ∈ s.sent)
      (before : decodes move.key (s.posts move.key) = false)
      (after : decodes move.key ((moved env s move).posts move.key) = true)
      (heard : heard env s move client = none)
  /-- The update is taken, and heard. -/
  | announced (ends : move.ends = [move.key])
      (differs : (moved env s move).posts move.key ≠ s.posts move.key)
      (before : decodes move.key (s.posts move.key) = true)
      (after : decodes move.key ((moved env s move).posts move.key) = true)
      (listens : (s.clients client).stage.listens .childChanged = true)
      (post : Post) (heard : heard env s move client = some ⟨post, .added⟩)
  /-- The post goes away; a client with both observers hears it. -/
  | removed (before : decodes move.key (s.posts move.key) = true)
      (after : decodes move.key ((moved env s move).posts move.key) = false)
      (post : Post) (heard : heard env s move client =
        if (s.clients client).stage.listens .childRemoved then some ⟨post, .removed⟩ else none)

/-- Only a commit changes a child, and only a change is heard of. -/
theorem change_of_posts_eq (henv : env.visibility = .committed) {move : Move}
    (hposts : (moved env s move).posts = s.posts) (client : ClientId) :
    Change env s move client := by
  have hchild : (moved env s move).posts move.key = s.posts move.key := congrFun hposts _
  refine .silent (congrArg (decodes move.key) hchild) (fun _ _ => hchild) ?_
  unfold heard raised
  rw [view_committed _ henv, view_committed _ henv, hchild, childEvent_self]
  rfl

/-- The first write finds no child, and an added child is not listened for. -/
theorem Creation.change_setValue (h : s.Creation) (henv : env.visibility = .committed)
    {author : ClientId} {key : String} {post : Post}
    (hsent : (author, .setValue key post) ∈ s.sent) (client : ClientId) :
    Change env s (.commit author (.setValue key post)) client := by
  have hbefore : s.posts key = none := h.absent author key post hsent
  have hafter := posts_moved_commit env s author (.setValue key post)
  refine .written author post rfl hsent ?_ ?_ ?_
  · exact congrArg (decodes key) hbefore
  · exact (congrArg (decodes key) hafter).trans (decodes_toNode key post)
  · rw [heard_commit henv, Write.key, hbefore]
    show (s.clients client).hears (some ⟨.childAdded, key, post.toNode⟩) = none
    simp [Client.hears_some]

/-- The update is heard of if it changes a post. -/
theorem Creation.change_updateChildValues (h : s.Creation) (henv : env.visibility = .committed)
    (author : ClientId) (key : String) (timestamp : Double) (client : ClientId) :
    Change env s (.commit author (.updateChildValues key timestamp)) client := by
  have hafter := posts_moved_commit env s author (.updateChildValues key timestamp)
  have hheard := heard_commit (s := s) henv author (.updateChildValues key timestamp) client
  have hupdate := h.decodes_update key timestamp
  have hdecodes : decodes key ((moved env s
      (.commit author (.updateChildValues key timestamp))).posts key) =
        decodes key (s.posts key) := (congrArg (decodes key) hafter).trans hupdate
  cases hlive : heard env s (.commit author (.updateChildValues key timestamp)) client with
  | none =>
      refine .silent hdecodes ?_ hlive
      -- a post that changes would be heard
      intro hlisten hpost
      by_contra hdiffers
      obtain ⟨old, _, hold, _⟩ := exists_of_decodes hpost
      obtain ⟨new, post, hnew, hdecode⟩ := exists_of_decodes (hupdate.trans hpost)
      have hne : old ≠ new := by
        rintro rfl
        exact hdiffers (hafter.trans (hnew.trans hold.symm))
      have hadded := hheard.trans
        (Client.hears_added.mpr ⟨old, new, hold, hnew, hne, hlisten, hdecode⟩)
      cases hlive.symm.trans hadded
  | some live =>
      rcases live with ⟨post, type⟩
      cases type with
      | removed =>
          obtain ⟨_, _, hgone, _⟩ := Client.hears_removed.mp (hheard.symm.trans hlive)
          exact absurd hgone (exec_updateChildValues_ne_none _ _ _)
      | added =>
          obtain ⟨old, new, hold, hnew, hne, hlisten, hdecode⟩ :=
            Client.hears_added.mp (hheard.symm.trans hlive)
          have hpost : decodes key ((moved env s
              (.commit author (.updateChildValues key timestamp))).posts key) = true :=
            (congrArg (decodes key) (hafter.trans hnew)).trans (decodes_of_decodeSnapshot hdecode)
          refine .announced rfl ?_ (hdecodes.symm.trans hpost) hpost hlisten post hlive
          intro hsame
          exact hne (Option.some.inj (hold.symm.trans (hsame.symm.trans (hafter.trans hnew))))

/-- The removal is heard of if there was a post. -/
theorem change_removeValue (henv : env.visibility = .committed) (author : ClientId) (key : String)
    (client : ClientId) : Change env s (.commit author (.removeValue key)) client := by
  have hheard := heard_commit (s := s) henv author (.removeValue key) client
  have hafter : decodes key ((moved env s (.commit author (.removeValue key))).posts key) = false :=
    congrArg (decodes key) (posts_moved_commit env s author (.removeValue key))
  cases hbefore : decodes key (s.posts key) with
  | false =>
      refine .silent (hafter.trans hbefore.symm) ?_
        (hheard.trans (Client.hears_eq_none hbefore rfl))
      exact fun _ habs => absurd (hbefore.symm.trans habs) Bool.false_ne_true
  | true =>
      obtain ⟨node, post, hnode, hdecode⟩ := exists_of_decodes hbefore
      refine .removed hbefore hafter post (hheard.trans ?_)
      simp [Write.key, Write.exec, hnode, childEvent, Client.hears_some, startLiveUpdating_eq,
        hdecode]

/-- **Every move** changes its child in one of these ways. -/
theorem Creation.change (h : s.Creation) (henv : env.visibility = .committed) {move : Move}
    (hmove : s.Movable move) (client : ClientId) : Change env s move client := by
  cases move with
  | commit author write =>
      cases write with
      | setValue key post => exact h.change_setValue henv hmove client
      | updateChildValues key timestamp =>
          exact h.change_updateChildValues henv author key timestamp client
      | removeValue key => exact change_removeValue henv author key client
  | createPost author key message now => exact change_of_posts_eq henv rfl client
  | createdPost author key now => exact change_of_posts_eq henv rfl client
  | removePost author key => exact change_of_posts_eq henv rfl client
  | reject author write => exact change_of_posts_eq henv rfl client

theorem Creation.next (h : s.Creation) (hwell : s.WellKeyed) {act : Act}
    (henabled : s.Enabled env act) : (State.next env s act).Creation := by
  cases act with
  | turn client turn => exact ⟨h.nodup, h.absent, h.formed⟩
  | move move =>
      refine ⟨?_, h.absent_moved hwell henabled, h.formed_moved move⟩
      exact (List.nodup_append.mp (hwell.creating_moved h.nodup henabled)).2.1

end State

/-- **Posts are made one write after the other**, in every reachable state. -/
theorem creation {env : Env} {s : State} (h : (timeline env).Reachable s) : s.Creation := by
  obtain ⟨acts, hrun⟩ := h
  refine TSys.run_induction (P := fun _ s => s.Creation) ⟨List.nodup_nil, nofun, nofun⟩ ?_ hrun
  intro acts act s t hrun hs hstep
  obtain ⟨henabled, rfl⟩ := step_eq_some.mp hstep
  exact hs.next (wellKeyed ⟨acts, hrun⟩) henabled

end SocialTimeline
