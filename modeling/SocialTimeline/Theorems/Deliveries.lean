import SocialTimeline.Theorems.Observers
import SocialTimeline.System.State
import Mathlib.Data.List.DropRight

/-!
# What reaches a subscriber, and what it costs

The observers that a screen leaves behind are called until their listen is cancelled.
`received_exactly`: a live-update subscription still gets every event published
while it is held, once and in order, and nothing else. `observers_add_up`: the
observers left behind are counted by the subscriptions made since a listen was last
cancelled, and each changed or removed child is decoded once for every one of those.
-/

namespace SocialTimeline

open FirebaseTimelineService Lib

/-- The live event a label publishes. -/
def Registry.Act.published : Registry.Act → Option LiveEvent
  | .child event => startLiveUpdating event
  | _ => none

/-- A subscription called back by observers, one after another. -/
def Subscription.calledBack (event : DataEvent) (observers : List Observer) (sub : Subscription) :
    Subscription :=
  observers.foldl (fun sub observer =>
    match observer.callback event with
    | some live => sub.on live
    | none => sub) sub

namespace Registry

/-! ## One subscription -/

/-- A child event reaches a subscription through its own observers. -/
theorem child_getElem? (s : Registry) (event : DataEvent) (i : Nat) :
    (s.child event).subscriptions[i]? = s.subscriptions[i]?.map (Subscription.calledBack event
      (s.reference.observers.filter fun o => o.subscription = i)) := by
  unfold child
  generalize s.subscriptions = subs
  induction s.reference.observers generalizing subs with
  | nil => exact (Option.map_id' (x := subs[i]?)).symm
  | cons o observers ih =>
      simp only [List.foldl_cons]
      rw [ih]
      by_cases hi : o.subscription = i
      · rw [List.filter_cons_of_pos (by simpa using hi)]
        cases hcallback : o.callback event with
        | none =>
            congr 1
            funext sub
            simp only [Subscription.calledBack, List.foldl_cons, hcallback]
        | some live =>
            simp only [hi, List.getElem?_modify_eq, Option.map_eq_map, Option.map_map]
            congr 1
            funext sub
            simp only [Subscription.calledBack, List.foldl_cons, hcallback, Function.comp_apply]
      · rw [List.filter_cons_of_neg (by simpa using hi)]
        cases hcallback : o.callback event with
        | none => rfl
        | some live => simp only [List.getElem?_modify_ne _ _ hi]

/-- No event is both an addition and a removal. -/
theorem removedPosts_eq_none {event : DataEvent} {live : LiveEvent}
    (h : addedPosts event = some live) : removedPosts event = none := by
  unfold addedPosts observePosts at h
  unfold removedPosts observePosts
  split at h
  · rename_i htype
    rw [htype]
    rfl
  · cases h

/-- The two observers of a live subscription bring it the event once. -/
theorem calledBack_live {observers : List Observer} {sub : Subscription}
    (hlistening : observers.map Observer.listening = [.child .childChanged, .child .childRemoved])
    (hheld : sub.isDisposed = false) (event : DataEvent) :
    sub.calledBack event observers =
      { sub with received := sub.received ++ (startLiveUpdating event).toList } := by
  obtain ⟨o, rest, rfl, ho, hrest⟩ := List.map_eq_cons_iff.mp hlistening
  obtain ⟨o', hsingle, ho'⟩ := List.map_eq_singleton_iff.mp hrest
  subst hsingle
  have hadded : o.callback event = addedPosts event := by
    simp only [Observer.callback, ho]
  have hremoved : o'.callback event = removedPosts event := by
    simp only [Observer.callback, ho']
  rcases sub with ⟨source, disposable, isDisposed, answer, received⟩
  obtain rfl : isDisposed = false := hheld
  simp only [Subscription.calledBack, List.foldl_cons, List.foldl_nil, hadded, hremoved]
  unfold startLiveUpdating
  cases hlive : addedPosts event with
  | some live =>
      rw [removedPosts_eq_none hlive]
      simp [Subscription.on]
  | none => cases removedPosts event <;> simp [Subscription.on]

/-- A live-update subscription that is held, has its observers and has received some
events. -/
def Receiving (i : Nat) (received : List LiveEvent) (s : Registry) : Prop :=
  s.listening i = [.child .childChanged, .child .childRemoved] ∧
    ∃ sub, s.subscriptions[i]? = some sub ∧ sub.source = .startLiveUpdating ∧
      sub.isDisposed = false ∧ sub.received = received

/-- Disposing of another subscription, or calling it, does not touch this one. -/
theorem Receiving.modify {s t : Registry} {i j : Nat} {received : List LiveEvent}
    {f : Subscription → Subscription} (h : Receiving i received s) (hne : j ≠ i)
    (hlistening : t.listening i = s.listening i)
    (ht : t.subscriptions = s.subscriptions.modify j f) : Receiving i received t := by
  obtain ⟨hobservers, sub, hsub, hheld⟩ := h
  refine ⟨hlistening.trans hobservers, sub, ?_, hheld⟩
  rw [ht, List.getElem?_modify_ne _ _ hne, hsub]

/-- **Step.** A subscription that is held gets what the label publishes. -/
theorem Receiving.step {s t : Registry} {act : Act} (hinv : s.Inv)
    (hstep : s.step act = some t) {i : Nat} {received : List LiveEvent}
    (h : Receiving i received s) (hheld : act ≠ .dispose i)
    (hlisten : ∀ localizedDescription, act ≠ .cancel localizedDescription) :
    Receiving i (received ++ act.published.toList) t := by
  obtain ⟨source, rfl, rfl⟩ | ⟨j, rfl, -, rfl⟩ | ⟨o, ho, hsingle, snapshot, rfl, rfl⟩ |
    ⟨event, rfl, rfl⟩ | ⟨localizedDescription, rfl, -⟩ := step_cases hstep
  · obtain ⟨hobservers, sub, hsub, hrest⟩ := h
    have hlt : i < s.subscriptions.length := (List.getElem?_eq_some_iff.mp hsub).1
    refine ⟨?_, sub, ?_, ?_⟩
    · rw [listening_subscribe, if_neg (Nat.ne_of_lt hlt), List.append_nil, hobservers]
    · rw [subscribe_eq, List.getElem?_append_left hlt, hsub]
    · simpa [Act.published] using hrest
  · have hne : j ≠ i := by
      rintro rfl
      exact hheld rfl
    have hsame : Receiving i received (s.dispose j) :=
      h.modify (f := Subscription.stop) hne (hinv.listening_dispose j i) rfl
    simpa [Act.published] using hsame
  · -- what is called is a `retrievePosts` subscription, so another one
    obtain ⟨-, sub, hsub, hsource⟩ := hinv.awaiting ho hsingle
    have hne : o.subscription ≠ i := by
      rintro rfl
      obtain ⟨-, sub', hsub', hlive, -⟩ := h
      rw [hsub] at hsub'
      cases hsub'
      rw [hsource] at hlive
      cases hlive
    have hcall : (s.call o (.value snapshot)).listening i = s.listening i := by
      rw [hinv.listening_call ho hsingle, if_neg hne.symm]
    have hcalled : Receiving i received (s.call o (.value snapshot)) :=
      h.modify (f := Subscription.call (.value snapshot)) hne hcall rfl
    have hsame : Receiving i received (s.value o (.value snapshot)) :=
      hcalled.modify (f := Subscription.stop) hne
        ((hinv.call ho hsingle _).listening_dispose o.subscription i) rfl
    simpa [Act.published] using hsame
  · obtain ⟨hobservers, sub, hsub, hlive, hheld, rfl⟩ := h
    refine ⟨hobservers, { sub with received := sub.received ++ (startLiveUpdating event).toList },
      ?_, hlive, hheld, rfl⟩
    rw [child_getElem?, hsub, Option.map_some, calledBack_live hobservers hheld]
  · exact absurd rfl (hlisten localizedDescription)

/-- A subscription held along some labels gets what they publish, in order. -/
theorem Receiving.run {i : Nat} {acts : List Act} :
    ∀ {s t : Registry} {received : List LiveEvent}, registry.Reachable s →
      registry.runFrom s acts = some t → Receiving i received s → .dispose i ∉ acts →
        (∀ localizedDescription, .cancel localizedDescription ∉ acts) →
          Receiving i (received ++ acts.filterMap Act.published) t := by
  induction acts with
  | nil =>
      rintro s t received - hrun h - -
      cases hrun
      simpa using h
  | cons act acts ih =>
      intro s t received hreachable hrun h hheld hlisten
      rw [TSys.runFrom_cons, Option.bind_eq_some_iff] at hrun
      obtain ⟨u, hstep, hrest⟩ := hrun
      obtain ⟨pre, hpre⟩ := hreachable
      have hnext : Receiving i (received ++ act.published.toList) u := by
        refine h.step (inv_of_reachable ⟨pre, hpre⟩) hstep ?_ ?_
        · rintro rfl
          exact hheld List.mem_cons_self
        · rintro localizedDescription rfl
          exact hlisten localizedDescription List.mem_cons_self
      have hafter := ih ⟨pre ++ [act], registry.run_snoc_eq_some.mpr ⟨s, hpre, hstep⟩⟩ hrest hnext
        (fun hmem => hheld (List.mem_cons_of_mem act hmem))
        fun localizedDescription hmem =>
          hlisten localizedDescription (List.mem_cons_of_mem act hmem)
      rw [List.append_assoc] at hafter
      cases hlive : act.published with
      | none => simpa [hlive] using hafter
      | some live => simpa [hlive] using hafter

/-- Once disposed of, it stays disposed of with what it had. -/
theorem StoppedAfter.run {i : Nat} {received : List LiveEvent} {acts : List Act} :
    ∀ {s t : Registry}, registry.runFrom s acts = some t →
      StoppedAfter s.subscriptions i received → StoppedAfter t.subscriptions i received := by
  induction acts with
  | nil =>
      intro s t hrun h
      cases hrun
      exact h
  | cons act acts ih =>
      intro s t hrun h
      rw [TSys.runFrom_cons, Option.bind_eq_some_iff] at hrun
      obtain ⟨u, hstep, hrest⟩ := hrun
      exact ih hrest (disposed_receives_nothing hstep h)

/-- **Exactly once.** In every run, whatever other screens subscribe, leave or have left
behind: a live-update subscription made after `before` and held along `held`, with no
listen cancelled meanwhile, has then received the live events published along `held`,
each once and in order; and if it is disposed of, it never receives another. -/
theorem received_exactly {before held : List Act} {s t : Registry}
    (hbefore : registry.run before = some s)
    (hheld : registry.run (before ++ .subscribe .startLiveUpdating :: held) = some t)
    (hkept : .dispose s.subscriptions.length ∉ held)
    (hlisten : ∀ localizedDescription, .cancel localizedDescription ∉ held) :
    (∃ sub, t.subscriptions[s.subscriptions.length]? = some sub ∧ sub.isDisposed = false ∧
        sub.received = held.filterMap Act.published) ∧
      ∀ after u, registry.runFrom t (.dispose s.subscriptions.length :: after) = some u →
        ∃ sub, u.subscriptions[s.subscriptions.length]? = some sub ∧ sub.isDisposed = true ∧
          sub.received = held.filterMap Act.published := by
  have hmade : registry.run (before ++ [.subscribe .startLiveUpdating]) =
      some (s.subscribe .startLiveUpdating) :=
    registry.run_snoc_eq_some.mpr ⟨s, hbefore, rfl⟩
  have hnew : Receiving s.subscriptions.length [] (s.subscribe .startLiveUpdating) := by
    have hnone := (inv_of_reachable ⟨before, hbefore⟩).listening s.subscriptions.length
    rw [List.getElem?_eq_none (Nat.le_refl _)] at hnone
    refine ⟨?_, { source := .startLiveUpdating, disposable := [] }, ?_, rfl, rfl, rfl⟩
    · rw [listening_subscribe, if_pos rfl, (hnone : s.listening _ = [])]
      rfl
    · rw [subscribe_eq]
      exact List.getElem?_concat_length
  have hrest : registry.runFrom (s.subscribe .startLiveUpdating) held = some t := by
    rw [List.append_cons, TSys.run_append, hmade] at hheld
    exact hheld
  obtain ⟨-, sub, hsub, hlive, hdisposed, hreceived⟩ :=
    Receiving.run ⟨_, hmade⟩ hrest hnew hkept hlisten
  refine ⟨⟨sub, hsub, hdisposed, hreceived⟩, ?_⟩
  intro after u hafter
  rw [TSys.runFrom_cons, Option.bind_eq_some_iff] at hafter
  obtain ⟨stopped, hstep, hrest⟩ := hafter
  obtain ⟨-, hstopped⟩ := Option.ite_none_right_eq_some.mp hstep
  cases hstopped
  refine StoppedAfter.run hrest ⟨sub.stop, ?_, rfl, hreceived⟩
  show (t.subscriptions.modify _ .stop)[_]? = _
  rw [List.getElem?_modify_eq, hsub]
  rfl

/-- A screen listens, and leaves; a second one listens. The removal that comes then is
received by the second alone. -/
theorem received_exactly_second :
    ∃ s t, registry.run [.subscribe .startLiveUpdating, .dispose 0] = some s ∧
      registry.run ([.subscribe .startLiveUpdating, .dispose 0] ++
        .subscribe .startLiveUpdating ::
          [.child ⟨.childRemoved, pushKey, firstPost.toNode⟩]) = some t ∧
      ∃ sub, t.subscriptions[1]? = some sub ∧ sub.isDisposed = false ∧
        sub.received = [⟨{ firstPost with databaseKey := some pushKey }, .removed⟩] := by
  obtain ⟨s, hs⟩ : ∃ s, registry.run [.subscribe .startLiveUpdating, .dispose 0] = some s :=
    ⟨_, rfl⟩
  obtain ⟨t, ht⟩ : ∃ t, registry.run ([.subscribe .startLiveUpdating, .dispose 0] ++
      .subscribe .startLiveUpdating ::
        [.child ⟨.childRemoved, pushKey, firstPost.toNode⟩]) = some t := ⟨_, rfl⟩
  have hlength : s.subscriptions.length = 1 := by
    cases hs
    rfl
  obtain ⟨sub, hsub, hheld, hreceived⟩ :=
    (received_exactly hs ht (by simp) (by simp)).1
  rw [hlength] at hsub
  exact ⟨s, t, hs, ht, sub, hsub, hheld, hreceived⟩

/-! ## All observers -/

/-- What a label registers. -/
def Act.registers : Act → List Listening
  | .subscribe .startLiveUpdating => [.child .childChanged, .child .childRemoved]
  | .subscribe .retrievePosts => [.singleValue]
  | _ => []

/-- What a label removes: only the observer of a single event goes away. -/
def Act.removes : Act → List Listening
  | .value _ _ => [.singleValue]
  | _ => []

/-- A label that makes a live-update subscription. -/
def Act.opens : Act → Bool
  | .subscribe .startLiveUpdating => true
  | _ => false

/-- A label that cancels the listen. -/
def Act.cancels : Act → Bool
  | .cancel _ => true
  | _ => false

/-- The labels after the last cancelled listen. -/
def sinceCancelled (acts : List Act) : List Act := acts.rtakeWhile fun act => !act.cancels

theorem sinceCancelled_snoc (acts : List Act) (act : Act) :
    sinceCancelled (acts ++ [act]) = if act.cancels then [] else sinceCancelled acts ++ [act] := by
  rw [sinceCancelled, List.rtakeWhile_concat]
  cases act.cancels <;> rfl

/-- An observer that is called goes, and no other. -/
theorem Inv.removeObserver_perm {s : Registry} (h : s.Inv) {o : Observer}
    (ho : o ∈ s.reference.observers) (hsingle : o.listening = .singleValue) :
    (o :: (s.reference.removeObserver o.handle).observers).Perm s.reference.observers := by
  have hown := (h.awaiting ho hsingle).1
  have hothers : (s.reference.removeObserver o.handle).observers =
      s.reference.observers.filter fun o' => !decide (o'.subscription = o.subscription) := by
    apply List.filter_congr
    intro o' ho'
    by_cases hsub : o'.subscription = o.subscription
    · have hin : o' ∈ [o] := hown ▸ List.mem_filter.mpr ⟨ho', decide_eq_true hsub⟩
      rw [List.mem_singleton.mp hin]
      simp
    · have hhandle : o'.handle ≠ o.handle := by
        intro heq
        exact hsub (congrArg Observer.subscription (h.apart o' ho' o ho heq))
      simp [hsub, hhandle]
  have hsplit := List.filter_append_perm
    (fun o' : Observer => decide (o'.subscription = o.subscription)) s.reference.observers
  rw [hown, ← hothers] at hsplit
  exact hsplit

/-- **Step.** What is registered afterwards, with what the label removes, is what was
registered before, with what the label registers. -/
theorem Inv.listening_step {s t : Registry} {act : Act} (h : s.Inv)
    (hstep : s.step act = some t) (hlisten : act.cancels = false) :
    (t.reference.observers.map Observer.listening ++ act.removes).Perm
      (s.reference.observers.map Observer.listening ++ act.registers) := by
  obtain ⟨source, rfl, rfl⟩ | ⟨i, rfl, -, rfl⟩ | ⟨o, ho, hsingle, snapshot, rfl, rfl⟩ |
    ⟨event, rfl, rfl⟩ | ⟨localizedDescription, rfl, -⟩ := step_cases hstep
  · rw [subscribe_eq]
    cases source <;> simp [newObservers, Act.registers, Act.removes]
  · rw [dispose_reference h.idle]
    exact List.Perm.refl _
  · show ((((s.call o _).dispose o.subscription).reference.observers.map _) ++
      [Listening.singleValue]).Perm _
    rw [dispose_reference (h.call ho hsingle _).idle]
    have hperm := (h.removeObserver_perm ho hsingle).map Observer.listening
    rw [List.map_cons, hsingle] at hperm
    exact List.perm_append_comm.trans (hperm.trans (by simp [Act.registers]))
  · exact List.Perm.refl _
  · cases hlisten

/-- What is registered in a run, with what was removed since a listen was cancelled, is
what was registered since. -/
theorem listening_run {acts : List Act} {s : Registry} (hrun : registry.run acts = some s) :
    (s.reference.observers.map Observer.listening ++
        (sinceCancelled acts).flatMap Act.removes).Perm
      ((sinceCancelled acts).flatMap Act.registers) := by
  refine TSys.run_induction (M := registry) (P := fun acts s =>
    (s.reference.observers.map Observer.listening ++
        (sinceCancelled acts).flatMap Act.removes).Perm
      ((sinceCancelled acts).flatMap Act.registers)) (List.Perm.refl _) ?_ hrun
  intro acts act s t hrun h hstep
  have hinv : s.Inv := inv_of_reachable ⟨acts, hrun⟩
  rw [sinceCancelled_snoc]
  cases hcancels : act.cancels with
  | true =>
      cases act with
      | cancel localizedDescription =>
          obtain rfl := Option.some.inj hstep
          rw [hinv.reference_cancel]
          exact List.Perm.refl _
      | _ => cases hcancels
  | false =>
      have hnext := hinv.listening_step hstep hcancels
      rw [if_neg Bool.false_ne_true, List.flatMap_append, List.flatMap_append,
        List.flatMap_singleton, List.flatMap_singleton]
      -- the two balances added up
      refine (List.perm_append_comm.append_left _).trans ?_
      rw [← List.append_assoc]
      refine (hnext.append_right _).trans ?_
      rw [List.append_assoc]
      refine (List.perm_append_comm.append_left _).trans ?_
      rw [← List.append_assoc]
      exact h.append_right _

/-- The live events that the observers make of a child event, before any subscription
drops them. -/
def decoding (s : Registry) (event : DataEvent) : List LiveEvent :=
  s.reference.observers.filterMap fun o => o.callback event

/-- What an observer makes of an event depends on what it listens for. -/
theorem decoding_eq (s : Registry) (event : DataEvent) :
    s.decoding event = (s.reference.observers.map Observer.listening).filterMap fun listening =>
      Observer.callback ⟨0, listening, 0⟩ event := by
  rw [List.filterMap_map]
  rfl

/-- Of the observers of a live subscription one decodes the event, if it is decoded
at all. -/
theorem decoding_registers (event : DataEvent) (act : Act) :
    (act.registers.filterMap fun listening => Observer.callback ⟨0, listening, 0⟩ event).length =
      if act.opens then (startLiveUpdating event).toList.length else 0 := by
  cases act with
  | dispose i => rfl
  | value i event => rfl
  | child event => rfl
  | cancel localizedDescription => rfl
  | subscribe source =>
      cases source with
      | retrievePosts => rfl
      | startLiveUpdating =>
          show ([Listening.child .childChanged, .child .childRemoved].filterMap _).length = _
          unfold startLiveUpdating
          cases hadded : addedPosts event with
          | some live => simp [Act.opens, Observer.callback, hadded, removedPosts_eq_none hadded]
          | none =>
              cases hremoved : removedPosts event <;>
                simp [Act.opens, Observer.callback, hadded, hremoved]

/-- **The leak adds up.** In every run, the observers registered on `/posts` and those
removed by their single event are together all that were registered since a listen was
last cancelled, two for each live-update subscription and one for each read; leaving a
screen removes none. So each change or removal of a post is decoded once for every
live-update subscription made since, held or not. -/
theorem observers_add_up {acts : List Act} {s : Registry} (hrun : registry.run acts = some s) :
    (s.reference.observers.map Observer.listening ++
          (sinceCancelled acts).flatMap Act.removes).Perm
        ((sinceCancelled acts).flatMap Act.registers) ∧
      ∀ event, (s.decoding event).length =
        (sinceCancelled acts).countP Act.opens * (startLiveUpdating event).toList.length := by
  have hperm := listening_run hrun
  refine ⟨hperm, fun event => ?_⟩
  generalize sinceCancelled acts = since at hperm ⊢
  have hlength := (hperm.filterMap fun listening =>
    Observer.callback ⟨0, listening, 0⟩ event).length_eq
  rw [List.filterMap_append, List.length_append, ← decoding_eq] at hlength
  -- the observers that are gone decoded nothing
  have hremoved : ((since.flatMap Act.removes).filterMap fun listening =>
      Observer.callback ⟨0, listening, 0⟩ event).length = 0 := by
    rw [List.length_eq_zero_iff, List.filterMap_eq_nil_iff]
    intro listening hmem
    obtain ⟨act, -, hact⟩ := List.mem_flatMap.mp hmem
    cases act <;> simp [Act.removes] at hact
    rw [hact]
    rfl
  have hregistered : ((since.flatMap Act.registers).filterMap fun listening =>
      Observer.callback ⟨0, listening, 0⟩ event).length =
        since.countP Act.opens * (startLiveUpdating event).toList.length := by
    clear hperm hlength hremoved hrun
    induction since with
    | nil => simp
    | cons act acts ih =>
        rw [List.flatMap_cons, List.filterMap_append, List.length_append, ih,
          decoding_registers, List.countP_cons, Nat.add_mul]
        cases act.opens <;> simp [Nat.add_comm]
  omega

/-- After a screen has been left and another opened, a removal is decoded twice. -/
theorem observers_add_up_second :
    ∃ s, registry.run [.subscribe .startLiveUpdating, .dispose 0,
        .subscribe .startLiveUpdating] = some s ∧
      (s.decoding ⟨.childRemoved, pushKey, firstPost.toNode⟩).length = 2 := by
  obtain ⟨s, hs⟩ : ∃ s, registry.run [.subscribe .startLiveUpdating, .dispose 0,
      .subscribe .startLiveUpdating] = some s := ⟨_, rfl⟩
  refine ⟨s, hs, ?_⟩
  rw [(observers_add_up hs).2]
  rfl

end Registry

end SocialTimeline
