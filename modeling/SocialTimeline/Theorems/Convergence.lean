import SocialTimeline.System.Creation

/-!
# Convergence of the live timeline

Once no write is in flight and every event is delivered, a client should list
the posts there are. What it lists under a key follows from what happened to the
child while the client was reading and registering its observers, recorded in a
`Trail`; `converged_iff` says which trails end well, for every run.
-/

namespace SocialTimeline

open FirebaseTimelineService Lib

/-! ## Trails -/

/-- Whether a post went away, and whether the client's second observer was
registered by then. -/
inductive Removal
  | kept
  | unheard
  | heard
  deriving DecidableEq

/-- What happened under one key, as far as it concerns one client. -/
structure Trail where
  /-- A post was written. -/
  written : Bool := false
  /-- The client's read found it. -/
  returned : Bool := false
  /-- It was changed after the client's first observer was registered. -/
  announced : Bool := false
  removal : Removal := .kept
  deriving DecidableEq

namespace Trail

/-- How often the client was told of the post. -/
def told (trail : Trail) : Nat := trail.returned.toNat + trail.announced.toNat

/-- A post still there was told of; a post removed before the client listened
for it was not; and no post removed later was told of twice. -/
def Sound (trail : Trail) : Prop :=
  match trail.removal with
  | .kept => trail.written = true → 0 < trail.told
  | .unheard => trail.told = 0
  | .heard => trail.told < 2

/-- A change of the child leaves its mark. -/
def mark (trail : Trail) (stage : Stage) (key : String) (before after : Option Node) : Trail :=
  match decodes key before, decodes key after with
  | false, false => trail
  | false, true => { trail with written := true }
  | true, false =>
      { trail with removal := if stage.listens .childRemoved then .heard else .unheard }
  | true, true =>
      if stage.listens .childChanged ∧ after ≠ before then { trail with announced := true }
      else trail

/-- A step leaves its mark. -/
def record (client : ClientId) (key : String) (trail : Trail) (s : State) (act : Act)
    (t : State) : Trail :=
  match act with
  | .turn reader (.retrieve _) =>
      if reader = client then { trail with returned := decodes key (s.posts key) } else trail
  | .turn _ _ => trail
  | .move move =>
      if move.key = key then
        trail.mark (s.clients client).stage key (s.posts key) (t.posts key)
      else trail

/-- A change without effect on the post, or unheard, leaves none. -/
theorem mark_silent (trail : Trail) {stage : Stage} {key : String} {before after : Option Node}
    (hsame : decodes key after = decodes key before)
    (hunheard : stage.listens .childChanged = true → decodes key before = true → after = before) :
    trail.mark stage key before after = trail := by
  unfold mark
  rw [hsame]
  cases hbefore : decodes key before with
  | false => rfl
  | true =>
      refine if_neg ?_
      rintro ⟨hlistens, hdiffers⟩
      exact hdiffers (hunheard hlistens hbefore)

theorem mark_announced (trail : Trail) {stage : Stage} {key : String}
    {before after : Option Node} (hbefore : decodes key before = true)
    (hafter : decodes key after = true) (hlistens : stage.listens .childChanged = true)
    (hdiffers : after ≠ before) :
    trail.mark stage key before after = { trail with announced := true } := by
  unfold mark
  rw [hbefore, hafter]
  exact if_pos ⟨hlistens, hdiffers⟩

end Trail

/-- The trail of a key and a client after a run. -/
def trail (env : Env) (client : ClientId) (key : String) (acts : List Act) : Trail :=
  (timeline env).history (Trail.record client key) {} acts

/-! ## What a client lists follows the trail -/

/-- The child and the client's list are where the trail says. -/
structure Traced (client : ClientId) (key : String) (trail : Trail) (s : State) : Prop where
  stored : decodes key (s.posts key) = true ↔ trail.written = true ∧ trail.removal = .kept
  unwritten : trail.written = false → trail = {}
  count : s.count client key =
    match trail.removal with
    | .heard => trail.told - 1
    | _ => trail.told
  unread : (s.clients client).stage = .opened → trail.returned = false
  unobserving : (s.clients client).stage.listens .childChanged = false → trail.announced = false
  unhearing : (s.clients client).stage.listens .childRemoved = false → trail.removal ≠ .heard
  used : trail.written = true → key ∈ s.used
  taken : trail.written = true → ∀ author post, (author, .setValue key post) ∉ s.sent
  made : trail.announced = true → key ∉ s.creating

theorem traced_initial (env : Env) (client : ClientId) (key : String) :
    Traced client key {} (.initial env) where
  stored := ⟨nofun, nofun⟩
  unwritten _ := rfl
  count := rfl
  unread _ := rfl
  unobserving _ := rfl
  unhearing _ := nofun
  used := nofun
  taken := nofun
  made := nofun

namespace Traced

variable {env : Env} {client : ClientId} {key : String} {trail : Trail} {s : State} {move : Move}

/-- Without a written post nothing was told and nothing is listed. -/
theorem told_of_unwritten (h : Traced client key trail s) (hwritten : trail.written = false) :
    trail.told = 0 := by
  rw [h.unwritten hwritten]
  rfl

/-- A first write in flight after a move was in flight before, or is new. -/
theorem taken_moved (h : Traced client key trail s) {move : Move} (hmove : s.Movable move)
    (hwritten : trail.written = true) :
    ∀ author post, (author, .setValue key post) ∉ (s.moved env move).sent := by
  intro author post hmem
  rcases State.first_write_moved env s hmem with hold | ⟨message, now, rfl, -⟩
  · exact h.taken hwritten author post hold
  · exact hmove.2 (h.used hwritten)

/-- A change told of was a change of a written post. -/
theorem written_of_announced (h : Traced client key trail s) (hannounced : trail.announced = true) :
    trail.written = true := by
  by_contra hnot
  rw [h.unwritten (Bool.eq_false_of_not_eq_true hnot)] at hannounced
  cases hannounced

/-- The facts that any move keeps. -/
theorem kept_move (env : Env) (h : Traced client key trail s) {move : Move}
    (hmove : s.Movable move) :
    (trail.written = true → key ∈ (s.next env (.move move)).used) ∧
      (trail.written = true →
        ∀ author post, (author, .setValue key post) ∉ (s.next env (.move move)).sent) ∧
      (trail.announced = true → key ∉ (s.next env (.move move)).creating) := by
  refine ⟨?_, h.taken_moved hmove, ?_⟩
  · exact fun hwritten => State.used_subset_moved env s move key (h.used hwritten)
  · intro hannounced hmem
    have hused := h.used (h.written_of_announced hannounced)
    exact h.made hannounced (State.creating_of_moved hmove hused hmem)

/-- A move of another key leaves no mark. -/
theorem move_of_ne (h : Traced client key trail s) {move : Move} (hmove : s.Movable move)
    (hkey : key ≠ move.key) : Traced client key trail (s.next env (.move move)) where
  stored := by
    rw [State.posts_next_move, State.posts_moved_of_ne env s hkey]
    exact h.stored
  unwritten := h.unwritten
  count := (s.count_move_of_ne env hkey client).trans h.count
  unread := h.unread
  unobserving := h.unobserving
  unhearing := h.unhearing
  used := (h.kept_move env hmove).1
  taken := (h.kept_move env hmove).2.1
  made := (h.kept_move env hmove).2.2

/-- A move about the key, silent for the client. -/
theorem silent (h : Traced client move.key trail s) (hmove : s.Movable move)
    (hsame : decodes move.key ((s.moved env move).posts move.key) =
      decodes move.key (s.posts move.key))
    (hheard : s.heard env move client = none) :
    Traced client move.key trail (s.next env (.move move)) := by
  obtain ⟨hused, htaken, hmade⟩ := h.kept_move env hmove
  refine ⟨?_, h.unwritten, ?_, h.unread, h.unobserving, h.unhearing, hused, htaken, hmade⟩
  · rw [State.posts_next_move, hsame]
    exact h.stored
  · exact (s.count_move_none env hheard move.key).trans h.count

/-- The first write is taken. -/
theorem written (h : Traced client move.key trail s) (hcreation : s.Creation)
    (hwell : s.WellKeyed) (hmove : s.Movable move) {author : ClientId} {post : Post}
    (hsent : (author, .setValue move.key post) ∈ s.sent)
    (hafter : decodes move.key ((s.moved env move).posts move.key) = true)
    (hheard : s.heard env move client = none) :
    Traced client move.key { trail with written := true } (s.next env (.move move)) := by
  have hunwritten : trail.written = false := by
    by_contra hnot
    exact h.taken (Bool.eq_true_of_not_eq_false hnot) author post hsent
  obtain rfl := h.unwritten hunwritten
  refine ⟨?_, nofun, ?_, fun _ => rfl, fun _ => rfl, fun _ => nofun, ?_, ?_, nofun⟩
  · rw [State.posts_next_move, hafter]
    simp
  · exact (s.count_move_none env hheard move.key).trans h.count
  · exact fun _ => hwell.move_key hmove
  · intro _ author post hmem
    rw [hcreation.absent_moved hwell hmove author _ post hmem] at hafter
    cases hafter

/-- The update is taken while the client's first observer is registered. -/
theorem announced (h : Traced client move.key trail s) (hcreation : s.Creation)
    (hwell : s.WellKeyed) (hmove : s.Movable move) (hends : move.ends = [move.key])
    (hbefore : decodes move.key (s.posts move.key) = true)
    (hafter : decodes move.key ((s.moved env move).posts move.key) = true)
    (hlistens : (s.clients client).stage.listens .childChanged = true) {post : Post}
    (hheard : s.heard env move client = some ⟨post, .added⟩) :
    Traced client move.key { trail with announced := true } (s.next env (.move move)) := by
  obtain ⟨hused, htaken, -⟩ := h.kept_move env hmove
  obtain ⟨hwritten, hkept⟩ := h.stored.mp hbefore
  have hnodup : ([move.key] ++ (s.moved env move).creating).Nodup :=
    hends ▸ hwell.creating_moved hcreation.nodup hmove
  -- the update was in flight, so nothing was announced before
  have hcreating : move.key ∈ s.creating := by
    have hmem := (State.creating_moved env hmove).subset
      (List.mem_append_left _ (hends ▸ List.mem_singleton_self _))
    rcases List.mem_append.mp hmem with hstarts | hold
    · exact absurd (h.used hwritten) (State.starts_fresh hmove _ hstarts)
    · exact hold
  have hquiet : trail.announced = false := by
    by_contra hnot
    exact h.made (Bool.eq_true_of_not_eq_false hnot) hcreating
  refine ⟨?_, ?_, ?_, h.unread, ?_, h.unhearing, hused, htaken, ?_⟩
  · rw [State.posts_next_move, hafter]
    exact iff_of_true rfl ⟨hwritten, hkept⟩
  · exact fun habs => absurd (hwritten.symm.trans habs) nofun
  · have hcount := h.count
    rw [s.count_move_added env hheard]
    simp only [hkept, Trail.told, hquiet, Bool.toNat_false, Bool.toNat_true] at hcount ⊢
    omega
  · exact fun habs => absurd (hlistens.symm.trans habs) nofun
  · exact fun _ => (List.nodup_cons.mp hnodup).1

/-- The post goes away. -/
theorem removed (h : Traced client move.key trail s) (hmove : s.Movable move)
    (hbefore : decodes move.key (s.posts move.key) = true)
    (hafter : decodes move.key ((s.moved env move).posts move.key) = false) {post : Post}
    (hheard : s.heard env move client =
      if (s.clients client).stage.listens .childRemoved then some ⟨post, .removed⟩ else none) :
    Traced client move.key
      { trail with
        removal := if (s.clients client).stage.listens .childRemoved then .heard else .unheard }
      (s.next env (.move move)) := by
  obtain ⟨hused, htaken, hmade⟩ := h.kept_move env hmove
  obtain ⟨hwritten, hkept⟩ := h.stored.mp hbefore
  have hcount := h.count
  simp only [hkept] at hcount
  refine ⟨?_, ?_, ?_, h.unread, h.unobserving, ?_, hused, htaken, hmade⟩
  · rw [State.posts_next_move, hafter]
    split <;> simp
  · exact fun habs => absurd (hwritten.symm.trans habs) nofun
  · split at hheard
    · rename_i hlistens
      rw [s.count_move_removed env hheard, hcount, if_pos hlistens]
      rfl
    · rename_i hlistens
      rw [s.count_move_none env hheard, hcount, if_neg hlistens]
      rfl
  · intro hlistens
    have hstage : (s.clients client).stage.listens .childRemoved = false := hlistens
    rw [hstage]
    nofun

/-- A turn of another client leaves no mark. -/
theorem turn_of_ne (h : Traced client key trail s) {reader : ClientId} (hne : client ≠ reader)
    (turn : Turn) : Traced client key trail (s.next env (.turn reader turn)) := by
  have hclient := State.clients_next_turn_of_ne env s hne turn
  have hcount : (s.next env (.turn reader turn)).count client key = s.count client key := by
    unfold State.count
    rw [State.listed_turn_of_ne env s hne]
  refine ⟨h.stored, h.unwritten, hcount.trans h.count, ?_, ?_, ?_, h.used, h.taken, h.made⟩
  · rw [hclient]
    exact h.unread
  · rw [hclient]
    exact h.unobserving
  · rw [hclient]
    exact h.unhearing

/-- The client's read marks whether it finds the post. -/
theorem retrieve (h : Traced client key trail s) (henv : env.visibility = .committed)
    (hwell : s.WellKeyed) {children : List (String × Node)}
    (hturn : s.Turnable env client (.retrieve children)) :
    Traced client key { trail with returned := decodes key (s.posts key) }
      (s.next env (.turn client (.retrieve children))) := by
  have hopened : (s.clients client).stage = .opened := hturn.1
  have hquiet : trail.announced = false := h.unobserving (by rw [hopened]; rfl)
  have hunheard : trail.removal ≠ .heard := h.unhearing (by rw [hopened]; rfl)
  have hstage : ((s.next env (.turn client (.retrieve children))).clients client).stage =
      .retrieved := by
    rw [State.clients_next_turn, State.turned, hwell.retrieve hturn.2]
  have hcount := hwell.count_retrieve hturn key
  rw [State.view_committed s henv] at hcount
  refine ⟨h.stored, ?_, ?_, ?_, ?_, ?_, h.used, h.taken, ?_⟩
  · intro hwritten
    obtain rfl := h.unwritten hwritten
    have hgone : decodes key (s.posts key) = false := by
      by_contra hthere
      exact Bool.false_ne_true (h.stored.mp (Bool.eq_true_of_not_eq_false hthere)).1
    rw [hgone]
  · rw [hcount]
    split
    · rename_i hheard
      exact absurd hheard hunheard
    · simp [Trail.told, hquiet]
  · rw [hstage]
    intro habs
    cases habs
  · exact fun _ => hquiet
  · exact fun _ => hunheard
  · exact fun habs => absurd (hquiet.symm.trans habs) Bool.false_ne_true

/-- The client's other turns leave no mark. -/
theorem turn (h : Traced client key trail s) {turn : Turn}
    (hturn : s.Turnable env client turn) (hread : ∀ children, turn ≠ .retrieve children) :
    Traced client key trail (s.next env (.turn client turn)) := by
  have hcount : (s.next env (.turn client turn)).count client key = s.count client key := by
    unfold State.count
    rw [State.listed_turn env s hread]
  refine ⟨h.stored, h.unwritten, hcount.trans h.count, ?_, ?_, ?_, h.used, h.taken, h.made⟩ <;>
    rw [State.clients_next_turn] <;>
    rcases State.stage_turned hturn hread with ⟨hold, hnew⟩ | hnew | hsame
  · intro habs
    cases hnew.symm.trans habs
  · intro habs
    cases hnew.symm.trans habs
  · rw [hsame]
    exact h.unread
  · rw [hnew]
    exact fun habs => absurd habs.symm Bool.false_ne_true
  · rw [hnew]
    exact fun habs => absurd habs.symm Bool.false_ne_true
  · rw [hsame]
    exact h.unobserving
  · -- the second observer is still to come
    exact fun _ => h.unhearing (by rw [hold]; rfl)
  · rw [hnew]
    exact fun habs => absurd habs.symm Bool.false_ne_true
  · rw [hsame]
    exact h.unhearing

/-- **Step.** Each step leaves the mark that keeps trail and list together. -/
theorem next (h : Traced client key trail s) (henv : env.visibility = .committed)
    (hcreation : s.Creation) (hwell : s.WellKeyed) {act : Act} (henabled : s.Enabled env act) :
    Traced client key (trail.record client key s act (s.next env act)) (s.next env act) := by
  cases act with
  | turn reader turn =>
      by_cases hne : client = reader
      · subst hne
        cases turn with
        | retrieve children =>
            simp only [Trail.record, if_true]
            exact h.retrieve henv hwell henabled
        | observeChanged => exact h.turn henabled nofun
        | observeRemoved => exact h.turn henabled nofun
        | deliver => exact h.turn henabled nofun
      · have hsame : trail.record client key s (.turn reader turn)
            (s.next env (.turn reader turn)) = trail := by
          cases turn with
          | retrieve children => exact if_neg (Ne.symm hne)
          | _ => rfl
        rw [hsame]
        exact h.turn_of_ne hne turn
  | move move =>
      by_cases hkey : key = move.key
      · subst hkey
        simp only [Trail.record, if_true]
        show Traced client move.key (trail.mark (s.clients client).stage move.key
          (s.posts move.key) ((s.moved env move).posts move.key)) _
        cases hcreation.change henv henabled client with
        | silent same unheard heard =>
            rw [Trail.mark_silent trail same unheard]
            exact h.silent henabled same heard
        | written author post commit sent before after heard =>
            simp only [Trail.mark, before, after]
            exact h.written hcreation hwell henabled sent after heard
        | announced ends differs before after listens post heard =>
            rw [Trail.mark_announced trail before after listens differs]
            exact h.announced hcreation hwell henabled ends before after listens heard
        | removed before after post heard =>
            simp only [Trail.mark, before, after]
            exact h.removed henabled before after heard
      · have hsame : trail.record client key s (.move move) (s.next env (.move move)) = trail :=
          if_neg (Ne.symm hkey)
        rw [hsame]
        exact h.move_of_ne henabled hkey

end Traced

/-- **What a client lists follows the trail**, in every run of clients that see
the committed children. -/
theorem traced {env : Env} (henv : env.visibility = .committed) (client : ClientId)
    (key : String) {acts : List Act} {s : State} (hrun : (timeline env).run acts = some s) :
    Traced client key (trail env client key acts) s := by
  refine TSys.run_induction (M := timeline env)
    (P := fun acts s => Traced client key (trail env client key acts) s)
    (traced_initial env client key) ?_ hrun
  intro acts act s t hrun h hstep
  have hreachable : (timeline env).Reachable s := ⟨acts, hrun⟩
  have hmark : trail env client key (acts ++ [act]) =
      (trail env client key acts).record client key s act t :=
    (timeline env).history_snoc _ _ hrun hstep
  obtain ⟨henabled, rfl⟩ := step_eq_some.mp hstep
  rw [hmark]
  exact h.next henv (creation hreachable) (wellKeyed hreachable) henabled

/-! ## Convergence -/

/-- Nothing is in flight, and the client has been delivered every event raised to
its two observers. -/
structure Quiescent (s : State) (client : ClientId) : Prop where
  sent : s.sent = []
  acknowledged : s.acknowledged = []
  live : (s.clients client).stage = .live
  delivered : (s.clients client).inbox = []

/-- The client lists the keys of the children that hold a post. -/
def Converged (s : State) (client : ClientId) : Prop :=
  ∀ key, some key ∈ (s.clients client).screen.posts.map Post.databaseKey ↔
    decodes key (s.posts key) = true

/-- **When the live timeline converges.** In every run of clients that see the
committed children, once nothing is in flight and everything is delivered, a
client lists exactly the posts there are if and only if all its trails are
sound. -/
theorem converged_iff {env : Env} (henv : env.visibility = .committed) {acts : List Act}
    {s : State} {client : ClientId} (hrun : (timeline env).run acts = some s)
    (hquiescent : Quiescent s client) :
    Converged s client ↔ ∀ key, (trail env client key acts).Sound := by
  refine forall_congr' fun key => ?_
  have htraced := traced henv client key hrun
  have hsettled : (s.clients client).screen.posts = s.listed client := by
    unfold State.listed Client.settled
    rw [hquiescent.delivered]
    rfl
  have hcount := htraced.count
  have hunwritten := htraced.told_of_unwritten
  have hlisted : some key ∈ (s.clients client).screen.posts.map Post.databaseKey ↔
      0 < s.count client key := by
    rw [hsettled]
    exact List.count_pos_iff.symm
  rw [hlisted, htraced.stored]
  unfold Trail.Sound
  cases hremoval : (trail env client key acts).removal with
  | kept =>
      simp only [hremoval] at hcount
      rw [hcount]
      cases hwritten : (trail env client key acts).written with
      | true => simp
      | false => simp [hunwritten hwritten]
  | unheard =>
      simp only [hremoval] at hcount
      rw [hcount]
      simp
  | heard =>
      simp only [hremoval] at hcount
      rw [hcount]
      simp only [reduceCtorEq, and_false, iff_false]
      omega

/-- The first device posts once the second one has opened its timeline. -/
theorem converged_after_opening :
    ∃ s, (timeline (devices .committed)).run (opening ++ posting ++ [.turn 1 .deliver]) = some s ∧
      Quiescent s 1 ∧ (Converged s 1 ↔ ∀ key, (trail (devices .committed) 1 key
        (opening ++ posting ++ [.turn 1 .deliver])).Sound) := by
  have hrun : ((timeline (devices .committed)).run (opening ++ posting ++ [.turn 1 .deliver])).map
      (fun s => (s.sent, s.acknowledged, (s.clients 1).stage, (s.clients 1).inbox)) =
        some ([], [], .live, []) := rfl
  obtain ⟨s, hs, hfields⟩ := Option.map_eq_some_iff.mp hrun
  simp only [Prod.mk.injEq] at hfields
  obtain ⟨hsent, hacknowledged, hlive, hinbox⟩ := hfields
  have hquiescent : Quiescent s 1 := ⟨hsent, hacknowledged, hlive, hinbox⟩
  exact ⟨s, hs, hquiescent, converged_iff rfl hs hquiescent⟩

/-- The first device posts after the second one has read the timeline and before
it observes it. -/
def postedBetween : List Act :=
  .turn 1 (.retrieve []) :: posting ++ [.turn 1 .observeChanged, .turn 1 .observeRemoved]

/-- The post stays missing, with every write taken and every event delivered. -/
theorem live_timeline_misses_post :
    (∀ client write, .move (.reject client write) ∉ postedBetween) ∧
      ∃ s, (timeline (devices .committed)).run postedBetween = some s ∧ Quiescent s 1 ∧
        (s.clients 1).screen.posts = [] ∧ decodes pushKey (s.posts pushKey) = true ∧
        ¬ Converged s 1 := by
  refine ⟨by simp [postedBetween, posting], ?_⟩
  have hrun : ((timeline (devices .committed)).run postedBetween).map
      (fun s => (s.sent, s.acknowledged, (s.clients 1).stage, (s.clients 1).inbox,
        (s.clients 1).screen.posts, s.posts pushKey)) =
        some ([], [], .live, [], [], some ({ firstPost with timestamp := 2 } : Post).toNode) := rfl
  obtain ⟨s, hs, hfields⟩ := Option.map_eq_some_iff.mp hrun
  simp only [Prod.mk.injEq] at hfields
  obtain ⟨hsent, hacknowledged, hlive, hinbox, hposts, hchild⟩ := hfields
  have hdecodes : decodes pushKey (s.posts pushKey) = true := by
    rw [hchild]
    exact decodes_toNode _ _
  refine ⟨s, hs, ⟨hsent, hacknowledged, hlive, hinbox⟩, hposts, hdecodes, ?_⟩
  intro hconverged
  have hlisted := (hconverged pushKey).mpr hdecodes
  rw [hposts] at hlisted
  exact List.not_mem_nil hlisted

end SocialTimeline
