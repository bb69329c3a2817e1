import SocialTimeline.Theorems.Convergence

/-!
# What a client hears of one child

A client that sees the committed children hears at most one addition and at most
one removal of each key, in this order and of the same post, in every run
(`heard_once`). And two such clients that listen hear the same, so lists that agree
once agree from then on (`replicas_agree`). A client that sees its own writes before
they are committed hears of a rejected removal, and the other does not.
-/

namespace SocialTimeline

open FirebaseTimelineService Lib

/-- What a client hears of a key, in the order it hears it. -/
def Hearing.record (env : Env) (client : ClientId) (key : String) (events : List LiveEvent)
    (s : State) (act : Act) (_ : State) : List LiveEvent :=
  match act with
  | .move move => if move.key = key then events ++ (s.heard env move client).toList else events
  | .turn _ _ => events

/-- What a client has heard of a key in a run. -/
def hearing (env : Env) (client : ClientId) (key : String) (acts : List Act) : List LiveEvent :=
  (timeline env).history (Hearing.record env client key) [] acts

/-! ## Heard once -/

/-- What was heard under a trail. A post that was announced and is still there is
the one that was announced. -/
inductive Told (key : String) (child : Option Node) : (announced : Bool) → Removal →
    List LiveEvent → Prop
  | silent {removal : Removal} (unheard : removal ≠ .heard) : Told key child false removal []
  | announced {post : Post} {node : Node} (there : child = some node)
      (decodes : decodeSnapshot key node = some post) : Told key child true .kept [⟨post, .added⟩]
  | lost {post : Post} : Told key child true .unheard [⟨post, .added⟩]
  | removed {post : Post} : Told key child false .heard [⟨post, .removed⟩]
  | both {post : Post} : Told key child true .heard [⟨post, .added⟩, ⟨post, .removed⟩]

namespace Told

variable {key : String} {child child' : Option Node} {announced : Bool} {removal : Removal}
  {events : List LiveEvent}

/-- Another child makes no difference unless an announced post is there. -/
theorem congr (h : Told key child announced removal events)
    (hsame : announced = true → removal = .kept → child' = child) :
    Told key child' announced removal events := by
  cases h with
  | silent unheard => exact .silent unheard
  | announced there decodes => exact .announced ((hsame rfl rfl).trans there) decodes
  | lost => exact .lost
  | removed => exact .removed
  | both => exact .both

/-- At most an addition and a removal, of one post. -/
theorem shape (h : Told key child announced removal events) :
    events = [] ∨ ∃ post, events = [⟨post, .added⟩] ∨ events = [⟨post, .removed⟩] ∨
      events = [⟨post, .added⟩, ⟨post, .removed⟩] := by
  cases h with
  | silent unheard => exact .inl rfl
  | announced there decodes => exact .inr ⟨_, .inl rfl⟩
  | lost => exact .inr ⟨_, .inl rfl⟩
  | removed => exact .inr ⟨_, .inr (.inl rfl)⟩
  | both => exact .inr ⟨_, .inr (.inr rfl)⟩

end Told

/-- What is heard of a move, read off the child before and after it. -/
theorem heard_eq_childEvent {env : Env} (henv : env.visibility = .committed) (s : State)
    (move : Move) (client : ClientId) :
    s.heard env move client = (s.clients client).hears
      (childEvent move.key (s.posts move.key) ((s.moved env move).posts move.key)) := by
  unfold State.heard State.raised
  rw [State.view_committed _ henv, State.view_committed _ henv]

section

variable {env : Env} {client : ClientId} {key : String} {trail : Trail} {s : State}
  {events : List LiveEvent}

/-- A move about the key. -/
theorem Told.move {move : Move}
    (h : Told move.key (s.posts move.key) trail.announced trail.removal events)
    (htraced : Traced client move.key trail s) (henv : env.visibility = .committed)
    (hcreation : s.Creation) (hwell : s.WellKeyed) (hmove : s.Movable move) :
    Told move.key ((s.moved env move).posts move.key)
      (trail.mark (s.clients client).stage move.key (s.posts move.key)
        ((s.moved env move).posts move.key)).announced
      (trail.mark (s.clients client).stage move.key (s.posts move.key)
        ((s.moved env move).posts move.key)).removal
      (events ++ (s.heard env move client).toList) := by
  have hchange := heard_eq_childEvent henv s move client
  cases hcreation.change henv hmove client with
  | silent same unheard heard =>
      rw [Trail.mark_silent trail same unheard, heard]
      show Told _ _ _ _ (events ++ [])
      rw [List.append_nil]
      refine h.congr fun hannounced hkept => unheard ?_ ?_
      · by_contra hnot
        have hquiet := htraced.unobserving (Bool.eq_false_of_not_eq_true hnot)
        rw [hannounced] at hquiet
        cases hquiet
      · exact htraced.stored.mpr ⟨htraced.written_of_announced hannounced, hkept⟩
  | written author post commit sent before after heard =>
      have hunwritten : trail.written = false := by
        by_contra hnot
        exact htraced.taken (Bool.eq_true_of_not_eq_false hnot) author post sent
      obtain rfl := htraced.unwritten hunwritten
      simp only [Trail.mark, before, after, heard]
      cases h with
      | silent unheard => exact .silent unheard
  | announced ends differs before after listens post heard =>
      have hkept := (htraced.stored.mp before).2
      have hnext := htraced.announced hcreation hwell hmove ends before after listens heard
      -- an addition makes the key listed once more, which a second one would not
      have hquiet : trail.announced = false := by
        by_contra hnot
        have hagain : ({ trail with announced := true } : Trail) = trail := by
          rw [← Bool.eq_true_of_not_eq_false hnot]
        have hcount := hnext.count
        rw [hagain, State.count_move_added env s heard, htraced.count] at hcount
        simp only [hkept] at hcount
        omega
      obtain ⟨old, new, -, hnew, -, -, hdecode⟩ :=
        Client.hears_added.mp (hchange.symm.trans heard)
      rw [Trail.mark_announced trail before after listens differs, heard]
      rw [hquiet, hkept] at h
      simp only [hkept]
      cases h with
      | silent unheard => exact .announced hnew hdecode
  | removed before after post heard =>
      have hkept := (htraced.stored.mp before).2
      simp only [Trail.mark, before, after]
      rw [hkept] at h
      cases hlistens : (s.clients client).stage.listens .childRemoved with
      | false =>
          rw [heard, hlistens]
          show Told _ _ _ .unheard (events ++ [])
          rw [List.append_nil]
          revert h
          cases trail.announced with
          | false =>
              intro h
              cases h with
              | silent unheard => exact .silent (by decide)
          | true =>
              intro h
              cases h with
              | announced there decodes => exact .lost
      | true =>
          rw [hlistens] at heard
          rw [heard]
          show Told _ _ _ .heard (events ++ [⟨post, .removed⟩])
          obtain ⟨old, hold, -, -, hdecode⟩ :=
            Client.hears_removed.mp (hchange.symm.trans heard)
          revert h
          cases trail.announced with
          | false =>
              intro h
              cases h with
              | silent unheard => exact .removed
          | true =>
              intro h
              cases h with
              | announced there decodes =>
                  -- the post that goes away is the one that was announced
                  rw [hold] at there
                  cases there
                  rw [decodes] at hdecode
                  cases hdecode
                  exact .both

/-- **Step.** What was heard follows the trail. -/
theorem Told.next (h : Told key (s.posts key) trail.announced trail.removal events)
    (htraced : Traced client key trail s) (henv : env.visibility = .committed)
    (hcreation : s.Creation) (hwell : s.WellKeyed) {act : Act} (henabled : s.Enabled env act) :
    Told key ((s.next env act).posts key)
      (trail.record client key s act (s.next env act)).announced
      (trail.record client key s act (s.next env act)).removal
      (Hearing.record env client key events s act (s.next env act)) := by
  cases act with
  | turn reader turn =>
      have hsame : (trail.record client key s (.turn reader turn)
          (s.next env (.turn reader turn))).announced = trail.announced ∧
          (trail.record client key s (.turn reader turn)
            (s.next env (.turn reader turn))).removal = trail.removal := by
        cases turn with
        | retrieve children =>
            by_cases hreader : reader = client <;> simp [Trail.record, hreader]
        | _ => exact ⟨rfl, rfl⟩
      rw [hsame.1, hsame.2]
      exact h
  | move move =>
      by_cases hkey : move.key = key
      · subst hkey
        simp only [Trail.record, Hearing.record, if_true]
        exact h.move htraced henv hcreation hwell henabled
      · simp only [Trail.record, Hearing.record, if_neg hkey]
        rw [State.posts_next_move, State.posts_moved_of_ne env s (Ne.symm hkey)]
        exact h

end

/-- **Heard once.** In every run of clients that see the committed children, what a
client hears of a key is nothing, or one addition, or one removal, or one addition
and after it one removal of the very post that was added. -/
theorem heard_once {env : Env} (henv : env.visibility = .committed) (client : ClientId)
    (key : String) {acts : List Act} {s : State} (hrun : (timeline env).run acts = some s) :
    hearing env client key acts = [] ∨ ∃ post,
      hearing env client key acts = [⟨post, .added⟩] ∨
        hearing env client key acts = [⟨post, .removed⟩] ∨
          hearing env client key acts = [⟨post, .added⟩, ⟨post, .removed⟩] := by
  have htold : Told key (s.posts key) (trail env client key acts).announced
      (trail env client key acts).removal (hearing env client key acts) := by
    refine TSys.run_induction (M := timeline env) (P := fun acts s =>
      Told key (s.posts key) (trail env client key acts).announced
        (trail env client key acts).removal (hearing env client key acts)) ?_ ?_ hrun
    · exact .silent (Removal.noConfusion)
    · intro acts act s t hrun h hstep
      have hreachable : (timeline env).Reachable s := ⟨acts, hrun⟩
      have hmark : trail env client key (acts ++ [act]) =
          (trail env client key acts).record client key s act t :=
        (timeline env).history_snoc _ _ hrun hstep
      have hheard : hearing env client key (acts ++ [act]) =
          Hearing.record env client key (hearing env client key acts) s act t :=
        (timeline env).history_snoc _ _ hrun hstep
      obtain ⟨henabled, rfl⟩ := step_eq_some.mp hstep
      rw [hmark, hheard]
      exact h.next (traced henv client key hrun) henv (creation hreachable)
        (wellKeyed hreachable) henabled
  exact htold.shape

/-- The second device hears of the post of the first, and then of its removal. -/
theorem heard_once_removed :
    ∃ s, (timeline (devices .committed)).run (opening ++ posting ++ [.turn 1 .deliver,
        .move (.removePost 1 pushKey), .move (.commit 1 (.removeValue pushKey))]) = some s ∧
      ∃ post, hearing (devices .committed) 1 pushKey (opening ++ posting ++ [.turn 1 .deliver,
        .move (.removePost 1 pushKey), .move (.commit 1 (.removeValue pushKey))]) =
          [⟨post, .added⟩, ⟨post, .removed⟩] := by
  have hsome : ((timeline (devices .committed)).run (opening ++ posting ++ [.turn 1 .deliver,
      .move (.removePost 1 pushKey), .move (.commit 1 (.removeValue pushKey))])).isSome = true := by
    rfl
  obtain ⟨s, hs⟩ := Option.isSome_iff_exists.mp hsome
  have hlength : (hearing (devices .committed) 1 pushKey (opening ++ posting ++ [.turn 1 .deliver,
      .move (.removePost 1 pushKey), .move (.commit 1 (.removeValue pushKey))])).length = 2 := by
    rfl
  refine ⟨s, hs, ?_⟩
  rcases heard_once rfl 1 pushKey hs with hnil | ⟨post, hone | hone | hboth⟩
  · rw [hnil] at hlength
    cases hlength
  · rw [hone] at hlength
    cases hlength
  · rw [hone] at hlength
    cases hlength
  · exact ⟨post, hboth⟩

/-! ## Replicas -/

/-- Clients that listen to both kinds of event and settle to the same list. -/
def Agree (client client' : ClientId) (s : State) : Prop :=
  (s.clients client).stage = .live ∧ (s.clients client').stage = .live ∧
    s.listed client = s.listed client'

/-- A live client has no turn left but to be delivered an event. -/
theorem State.turn_of_live {env : Env} {s : State} {client : ClientId} {turn : Turn}
    (hlive : (s.clients client).stage = .live) (hturn : s.Turnable env client turn) :
    turn = .deliver := by
  cases turn with
  | deliver => rfl
  | retrieve children => exact absurd (hlive.symm.trans hturn.1) nofun
  | observeChanged => exact absurd (hlive.symm.trans hturn) nofun
  | observeRemoved => exact absurd (hlive.symm.trans hturn) nofun

/-- Live clients stay live. -/
theorem State.stage_next_of_live {env : Env} {s : State} {act : Act} {client : ClientId}
    (henabled : s.Enabled env act) (hlive : (s.clients client).stage = .live) :
    ((s.next env act).clients client).stage = .live := by
  cases act with
  | move move => exact hlive
  | turn reader turn =>
      by_cases hc : client = reader
      · subst hc
        rw [State.clients_next_turn, State.turn_of_live hlive henabled, State.turned,
          Client.stage_deliver, hlive]
      · rw [State.clients_next_turn_of_ne env s hc]
        exact hlive

/-- Agreement is kept by every step: a move is heard by both clients or neither,
and no turn that is left to them changes what they settle to. -/
theorem Agree.next {env : Env} (henv : env.visibility = .committed) {client client' : ClientId}
    {s : State} (h : Agree client client' s) {act : Act} (henabled : s.Enabled env act) :
    Agree client client' (s.next env act) := by
  obtain ⟨hlive, hlive', hlisted⟩ := h
  refine ⟨State.stage_next_of_live henabled hlive, State.stage_next_of_live henabled hlive', ?_⟩
  cases act with
  | move move =>
      have hears : ∀ event : Option DataEvent,
          (s.clients client).hears event = (s.clients client').hears event := by
        intro event
        unfold Client.hears
        rw [hlive, hlive']
      rw [State.listed_move, State.listed_move, hlisted, heard_eq_childEvent henv,
        heard_eq_childEvent henv, hears]
  | turn reader turn =>
      have hquiet : ∀ c, (s.clients c).stage = .live →
          (s.next env (.turn reader turn)).listed c = s.listed c := by
        intro c hc
        by_cases hr : c = reader
        · subst hr
          refine State.listed_turn env s ?_ c
          intro children hretrieve
          cases hretrieve.symm.trans (State.turn_of_live hc henabled)
        · exact State.listed_turn_of_ne env s hr turn
      rw [hquiet client hlive, hquiet client' hlive', hlisted]

/-- **Replicas agree.** Clients see the committed children. Whatever happens after two of
them listen and settle to the same list, they settle to the same list ever after; and
whenever both have been delivered all that was raised, their tables show the same posts
in the same order. -/
theorem replicas_agree {env : Env} (henv : env.visibility = .committed)
    {client client' : ClientId} {s : State} (h : Agree client client' s) (acts : List Act)
    {t : State} (hrun : (timeline env).runFrom s acts = some t) :
    t.listed client = t.listed client' ∧
      ((t.clients client).inbox = [] → (t.clients client').inbox = [] →
        (t.clients client).screen.shown = (t.clients client').screen.shown) := by
  have hagree : Agree client client' t := by
    induction acts generalizing s with
    | nil =>
        cases hrun
        exact h
    | cons act acts ih =>
        rw [TSys.runFrom_cons, Option.bind_eq_some_iff] at hrun
        obtain ⟨u, hstep, hrest⟩ := hrun
        obtain ⟨henabled, rfl⟩ := step_eq_some.mp hstep
        exact ih (h.next henv henabled) hrest
  refine ⟨hagree.2.2, fun hinbox hinbox' => ?_⟩
  have hlisted := hagree.2.2
  unfold State.listed Client.settled at hlisted
  rw [hinbox, hinbox'] at hlisted
  rw [Screen.shown_eq, Screen.shown_eq]
  exact hlisted

/-- A third device opens its timeline. -/
def openingThird : List Act :=
  [.turn 2 (.retrieve []), .turn 2 .observeChanged, .turn 2 .observeRemoved]

/-- Two devices that opened before the first one posts show the post alike. -/
theorem replicas_agree_posting :
    ∃ s t, (timeline (devices .committed)).run (opening ++ openingThird) = some s ∧
      (timeline (devices .committed)).runFrom s (posting ++ [.turn 1 .deliver, .turn 2 .deliver]) =
        some t ∧
      (t.clients 1).screen.shown = (t.clients 2).screen.shown := by
  have hopened : ((timeline (devices .committed)).run (opening ++ openingThird)).map
      (fun s => ((s.clients 1).stage, (s.clients 2).stage, s.listed 1, s.listed 2)) =
        some (.live, .live, [], []) := by rfl
  obtain ⟨s, hs, hstate⟩ := Option.map_eq_some_iff.mp hopened
  simp only [Prod.mk.injEq] at hstate
  obtain ⟨hlive, hlive', hlisted, hlisted'⟩ := hstate
  have hposted : ((timeline (devices .committed)).run (opening ++ openingThird ++
      (posting ++ [.turn 1 .deliver, .turn 2 .deliver]))).map
        (fun t => ((t.clients 1).inbox, (t.clients 2).inbox)) = some ([], []) := by rfl
  obtain ⟨t, ht, hinboxes⟩ := Option.map_eq_some_iff.mp hposted
  rw [TSys.run_append, hs] at ht
  obtain ⟨hinbox, hinbox'⟩ := Prod.mk.inj hinboxes
  refine ⟨s, t, hs, ht, ?_⟩
  have hagree : Agree 1 2 s := ⟨hlive, hlive', hlisted.trans hlisted'.symm⟩
  exact (replicas_agree rfl hagree _ ht).2 hinbox hinbox'

end SocialTimeline
