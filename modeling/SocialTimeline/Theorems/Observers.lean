import SocialTimeline.System.Subscriptions

/-!
# Observers and subscriptions

`observers_exact_iff`: the observers registered on `/posts` are exactly those
that the subscriptions still held call for, in every state of a run, if and only
if the run disposes of no live-update subscription and of no `retrievePosts`
subscription before it is answered, and no listen is cancelled under a live-update
subscription.

* **what is registered** (`Registry.Inv`) — whether a subscription is disposed of
  makes no difference to its observers: a live one keeps both until their listen is
  cancelled, a `retrievePosts` one keeps its own until it is called;
* **what should be** (`Subscription.due`) — the same for a subscription still
  held, nothing for one disposed of.
-/

namespace SocialTimeline

open FirebaseTimelineService Lib

/-- The observers a subscription calls for. -/
def Subscription.due (sub : Subscription) : List Listening :=
  if sub.isDisposed then []
  else
    match sub.source with
    | .startLiveUpdating => [.child .childChanged, .child .childRemoved]
    | .retrievePosts => if sub.answer.isSome then [] else [.singleValue]

/-- The observers a subscription has. -/
def Subscription.registered (sub : Subscription) : List Listening :=
  match sub.source with
  | .startLiveUpdating => [.child .childChanged, .child .childRemoved]
  | .retrievePosts => if sub.answer.isSome then [] else [.singleValue]

/-- The observers that may be registered for a subscription: its own, or none once the
listen of a live one was cancelled. -/
def HasObservers (sub : Option Subscription) (observers : List Listening) : Prop :=
  match sub with
  | none => observers = []
  | some sub =>
      observers = sub.registered ∨ sub.source = .startLiveUpdating ∧ observers = []

/-- A `retrievePosts` subscription that has been answered. -/
def Subscription.Answered (sub : Subscription) : Prop :=
  sub.source = .retrievePosts ∧ sub.answer.isSome

theorem Subscription.registered_eq_nil {sub : Subscription} :
    sub.registered = [] ↔ sub.Answered := by
  unfold registered Answered
  cases sub.source <;> simp [Option.isSome_iff_ne_none]

theorem Subscription.due_of_answered {sub : Subscription} (h : sub.Answered) : sub.due = [] := by
  unfold due
  rw [h.1]
  simp [h.2]

theorem Subscription.due_of_live {sub : Subscription} (hlive : sub.source = .startLiveUpdating)
    (hheld : sub.isDisposed = false) :
    sub.due = [.child .childChanged, .child .childRemoved] := by
  unfold due
  rw [hlive, hheld]
  rfl

/-- Only an unanswered `retrievePosts` subscription waits for a single value, and
it waits for nothing else. -/
theorem Subscription.registered_of_single {sub : Subscription}
    (h : .singleValue ∈ sub.registered) :
    sub.source = .retrievePosts ∧ sub.registered = [.singleValue] := by
  unfold registered at h ⊢
  cases hsource : sub.source with
  | startLiveUpdating => simp [hsource] at h
  | retrievePosts =>
      simp only [hsource] at h ⊢
      split at h
      · cases h
      · next hanswer => exact ⟨trivial, if_neg hanswer⟩

/-- What `on` leaves alone: all but the elements received. -/
def Subscription.quiet (sub : Subscription) : Subscription := { sub with received := [] }

@[simp] theorem Subscription.quiet_on (sub : Subscription) (event : LiveEvent) :
    (sub.on event).quiet = sub.quiet := by
  unfold on
  split <;> rfl

namespace Registry

/-- The observers registered for one subscription. -/
def listening (s : Registry) (subscription : Nat) : List Listening :=
  (s.reference.observers.filter fun o => o.subscription = subscription).map Observer.listening

/-- The observers registered are exactly those called for. -/
def Exact (s : Registry) : Prop :=
  ∀ i, (s.listening i).Perm ((s.subscriptions[i]?).elim [] Subscription.due)

/-- **What is registered.** Handles tell observers apart, no disposable removes
any, and the observers of a subscription do not depend on its being held. -/
structure Inv (s : Registry) : Prop where
  fresh : ∀ o ∈ s.reference.observers, o.handle < s.reference.nextHandle
  apart : ∀ o ∈ s.reference.observers, ∀ o' ∈ s.reference.observers,
    o.handle = o'.handle → o = o'
  idle : ∀ sub ∈ s.subscriptions, sub.disposable = []
  listening : ∀ i, HasObservers s.subscriptions[i]? (s.listening i)

/-! ## Subscribing -/

/-- The observers that a new subscription registers. -/
def newObservers (handle subscription : Nat) : Source → List Observer
  | .retrievePosts => [⟨handle, .singleValue, subscription⟩]
  | .startLiveUpdating =>
      [⟨handle, .child .childChanged, subscription⟩,
        ⟨handle + 1, .child .childRemoved, subscription⟩]

theorem subscribe_eq (s : Registry) (source : Source) :
    s.subscribe source =
      { reference :=
          { observers := s.reference.observers ++
              newObservers s.reference.nextHandle s.subscriptions.length source
            nextHandle := s.reference.nextHandle +
              (newObservers s.reference.nextHandle s.subscriptions.length source).length }
        subscriptions := s.subscriptions ++ [{ source, disposable := [] }] } := by
  cases source with
  | retrievePosts => rfl
  | startLiveUpdating =>
      show Registry.mk ⟨(_ ++ _) ++ _, _⟩ _ = _
      rw [List.append_assoc]
      rfl

theorem newObservers_spec {handle subscription : Nat} {source : Source} {o : Observer}
    (h : o ∈ newObservers handle subscription source) :
    o.subscription = subscription ∧ handle ≤ o.handle ∧
      o.handle < handle + (newObservers handle subscription source).length := by
  cases source <;> simp [newObservers] at h ⊢
  · subst h
    simp
  · rcases h with rfl | rfl <;> simp

theorem newObservers_apart {handle subscription : Nat} {source : Source} {o o' : Observer}
    (h : o ∈ newObservers handle subscription source)
    (h' : o' ∈ newObservers handle subscription source) (heq : o.handle = o'.handle) :
    o = o' := by
  cases source <;> simp [newObservers] at h h'
  · rw [h, h']
  · rcases h with rfl | rfl <;> rcases h' with rfl | rfl <;> simp at heq ⊢

theorem listening_subscribe (s : Registry) (source : Source) (i : Nat) :
    (s.subscribe source).listening i = s.listening i ++
      if i = s.subscriptions.length then ({ source, disposable := [] } : Subscription).registered
      else [] := by
  rw [subscribe_eq]
  simp only [listening, List.filter_append, List.map_append]
  congr 1
  by_cases hi : i = s.subscriptions.length
  · subst hi
    rw [if_pos rfl]
    cases source <;> simp [newObservers, Subscription.registered]
  · rw [if_neg hi, List.map_eq_nil_iff, List.filter_eq_nil_iff]
    intro o ho
    have hsub := (newObservers_spec ho).1
    simp only [decide_eq_true_eq]
    omega

theorem Inv.subscribe {s : Registry} (h : s.Inv) (source : Source) : (s.subscribe source).Inv := by
  refine ⟨?_, ?_, ?_, ?_⟩
  · rw [subscribe_eq]
    intro o ho
    show o.handle < s.reference.nextHandle + _
    rcases List.mem_append.mp ho with hold | hnew
    · have hlt := h.fresh o hold
      omega
    · exact (newObservers_spec hnew).2.2
  · rw [subscribe_eq]
    intro o ho o' ho' heq
    -- the new handles are past all those given out before
    rcases List.mem_append.mp ho with hold | hnew <;>
      rcases List.mem_append.mp ho' with hold' | hnew'
    · exact h.apart o hold o' hold' heq
    · have hlt := h.fresh o hold
      have hle := (newObservers_spec hnew').2.1
      omega
    · have hlt := h.fresh o' hold'
      have hle := (newObservers_spec hnew).2.1
      omega
    · exact newObservers_apart hnew hnew' heq
  · rw [subscribe_eq]
    intro sub hsub
    rcases List.mem_append.mp hsub with hold | hnew
    · exact h.idle sub hold
    · rw [List.mem_singleton.mp hnew]
  · intro i
    -- numbers below the new one keep their observers, those above have none yet
    have hold := h.listening i
    rw [listening_subscribe, subscribe_eq]
    rcases Nat.lt_trichotomy i s.subscriptions.length with hlt | rfl | hgt
    · rwa [List.getElem?_append_left hlt, if_neg (Nat.ne_of_lt hlt), List.append_nil]
    · rw [List.getElem?_eq_none (Nat.le_refl _)] at hold
      rw [List.getElem?_concat_length, if_pos rfl, (hold : s.listening _ = [])]
      exact .inl rfl
    · rw [List.getElem?_eq_none (Nat.le_of_lt hgt)] at hold
      rw [if_neg (Nat.ne_of_gt hgt), (hold : s.listening _ = []),
        List.getElem?_eq_none (by simp only [List.length_append, List.length_singleton]; omega)]
      rfl

/-! ## Disposing and answering -/

/-- No disposable removes an observer. -/
theorem dispose_reference {s : Registry} (h : ∀ sub ∈ s.subscriptions, sub.disposable = [])
    (i : Nat) : (s.dispose i).reference = s.reference := by
  simp only [Registry.dispose]
  cases hsub : s.subscriptions[i]? with
  | none => rfl
  | some sub =>
      have hidle := h sub (List.mem_of_getElem? hsub)
      simp only [hidle, Disposable.dispose, List.foldl_nil, ite_self]

theorem Inv.listening_dispose {s : Registry} (h : s.Inv) (i j : Nat) :
    (s.dispose i).listening j = s.listening j := by
  unfold Registry.listening
  rw [dispose_reference h.idle]

/-- An element of a list changed at one place, by the one that was there. -/
theorem exists_of_getElem?_modify {α : Type} {xs : List α} {f : α → α} {i j : Nat} {x : α}
    (h : (xs.modify i f)[j]? = some x) :
    ∃ old, xs[j]? = some old ∧ x = if i = j then f old else old := by
  rw [List.getElem?_modify, Option.map_eq_map, Option.map_eq_some_iff] at h
  obtain ⟨old, hold, rfl⟩ := h
  exact ⟨old, hold, rfl⟩

/-- Changing a subscription in a way that keeps what it may have registered. -/
theorem hasObservers_modify {subs : List Subscription} {f : Subscription → Subscription}
    (hf : ∀ sub, (f sub).source = sub.source ∧ (f sub).registered = sub.registered) (i : Nat)
    {j : Nat} {observers : List Listening} (h : HasObservers subs[j]? observers) :
    HasObservers (subs.modify i f)[j]? observers := by
  rw [List.getElem?_modify, Option.map_eq_map]
  cases hsub : subs[j]? with
  | none =>
      rw [hsub] at h
      exact h
  | some sub =>
      rw [hsub] at h
      by_cases hij : i = j
      · simp only [Option.map_some, if_pos hij, HasObservers, (hf sub).1, (hf sub).2]
        exact h
      · simp only [Option.map_some, if_neg hij]
        exact h

theorem idle_modify {subs : List Subscription} (h : ∀ sub ∈ subs, sub.disposable = [])
    {f : Subscription → Subscription} (hf : ∀ sub, (f sub).disposable = sub.disposable) (i : Nat) :
    ∀ sub ∈ subs.modify i f, sub.disposable = [] := by
  intro sub hsub
  obtain ⟨j, hj⟩ := List.mem_iff_getElem?.mp hsub
  obtain ⟨old, hold, rfl⟩ := exists_of_getElem?_modify hj
  have hidle := h old (List.mem_of_getElem? hold)
  split
  · rw [hf, hidle]
  · exact hidle

theorem Inv.dispose {s : Registry} (h : s.Inv) (i : Nat) : (s.dispose i).Inv := by
  have hreference := dispose_reference h.idle i
  refine ⟨?_, ?_, ?_, ?_⟩
  · rw [hreference]
    exact h.fresh
  · rw [hreference]
    exact h.apart
  · exact idle_modify (f := Subscription.stop) h.idle (fun _ => rfl) i
  · intro j
    rw [h.listening_dispose]
    exact hasObservers_modify (f := Subscription.stop) (fun _ => ⟨rfl, rfl⟩) i (h.listening j)

theorem Inv.removeObserver_of_ne {s : Registry} (h : s.Inv) {o : Observer}
    (ho : o ∈ s.reference.observers) {j : Nat} (hj : j ≠ o.subscription) :
    (s.reference.removeObserver o.handle).observers.filter (fun o => o.subscription = j) =
      s.reference.observers.filter fun o => o.subscription = j := by
  unfold Reference.removeObserver
  rw [List.filter_filter]
  apply List.filter_congr
  intro o' ho'
  by_cases hsub : o'.subscription = j
  · have hhandle : o'.handle ≠ o.handle := by
      intro heq
      rw [h.apart o' ho' o ho heq] at hsub
      exact hj hsub.symm
    simp [hsub, hhandle]
  · simp [hsub]

/-- The observer of `observeSingleEvent` is the only one of its subscription. -/
theorem Inv.awaiting {s : Registry} (h : s.Inv) {o : Observer}
    (ho : o ∈ s.reference.observers) (hsingle : o.listening = .singleValue) :
    (s.reference.observers.filter fun o' => o'.subscription = o.subscription) = [o] ∧
      ∃ sub, s.subscriptions[o.subscription]? = some sub ∧ sub.source = .retrievePosts := by
  have hmem : o ∈ s.reference.observers.filter fun o' => o'.subscription = o.subscription :=
    List.mem_filter.mpr ⟨ho, decide_eq_true rfl⟩
  have hlistening := h.listening o.subscription
  have hin : Listening.singleValue ∈ s.listening o.subscription :=
    hsingle ▸ List.mem_map_of_mem hmem
  cases hsub : s.subscriptions[o.subscription]? with
  | none =>
      rw [hsub] at hlistening
      rw [(hlistening : s.listening _ = [])] at hin
      cases hin
  | some sub =>
      rw [hsub] at hlistening
      rcases hlistening with hlistening | ⟨-, hnone⟩
      on_goal 2 =>
        rw [hnone] at hin
        cases hin
      rw [hlistening] at hin
      obtain ⟨hsource, hregistered⟩ := Subscription.registered_of_single hin
      rw [hregistered] at hlistening
      obtain ⟨o', hown, -⟩ := List.map_eq_singleton_iff.mp hlistening
      rw [hown] at hmem
      exact ⟨by rw [hown, List.mem_singleton.mp hmem], sub, rfl, hsource⟩

/-- The subscription that is called is left without observers, the others keep theirs. -/
theorem Inv.listening_call {s : Registry} (h : s.Inv) {o : Observer}
    (ho : o ∈ s.reference.observers) (hsingle : o.listening = .singleValue) (event : ValueEvent)
    (j : Nat) :
    (s.call o event).listening j = if j = o.subscription then [] else s.listening j := by
  show ((s.reference.removeObserver o.handle).observers.filter _).map _ = _
  by_cases hj : j = o.subscription
  · subst hj
    rw [if_pos rfl, List.map_eq_nil_iff, List.filter_eq_nil_iff]
    intro o' ho' hsame
    obtain ⟨hold, hhandle⟩ := List.mem_filter.mp ho'
    have hin : o' ∈ [o] := (h.awaiting ho hsingle).1 ▸ List.mem_filter.mpr ⟨hold, hsame⟩
    rw [List.mem_singleton.mp hin] at hhandle
    simp at hhandle
  · rw [if_neg hj, h.removeObserver_of_ne ho hj]
    rfl

theorem Inv.call {s : Registry} (h : s.Inv) {o : Observer} (ho : o ∈ s.reference.observers)
    (hsingle : o.listening = .singleValue) (event : ValueEvent) : (s.call o event).Inv := by
  obtain ⟨hown, sub, hsub, hsource⟩ := h.awaiting ho hsingle
  refine ⟨?_, ?_, ?_, ?_⟩
  · exact fun o' ho' => h.fresh o' (List.mem_filter.mp ho').1
  · exact fun o' ho' o'' ho'' =>
      h.apart o' (List.mem_filter.mp ho').1 o'' (List.mem_filter.mp ho'').1
  · exact idle_modify (f := Subscription.call event) h.idle (fun _ => rfl) o.subscription
  · intro j
    -- its own subscription is left with none and registers none once answered
    by_cases hj : j = o.subscription
    · subst hj
      rw [h.listening_call ho hsingle event, if_pos rfl]
      show HasObservers (s.subscriptions.modify _ (.call event))[_]? _
      rw [List.getElem?_modify_eq, hsub]
      have hanswered : (sub.call event).registered = [] :=
        Subscription.registered_eq_nil.mpr ⟨hsource, rfl⟩
      exact .inl hanswered.symm
    · rw [h.listening_call ho hsingle event, if_neg hj]
      show HasObservers (s.subscriptions.modify _ (.call event))[_]? _
      rw [List.getElem?_modify_ne _ _ (Ne.symm hj)]
      exact h.listening j

/-! ## Child events -/

theorem quiet_modify (subs : List Subscription) (live : LiveEvent) (i j : Nat) :
    (subs.modify i (·.on live))[j]?.map Subscription.quiet =
      subs[j]?.map Subscription.quiet := by
  rw [List.getElem?_modify, Option.map_eq_map, Option.map_map]
  congr 1
  funext sub
  by_cases hij : i = j <;> simp [hij]

/-- A child event leaves all of a subscription but the elements received. -/
theorem quiet_child (s : Registry) (event : DataEvent) (i : Nat) :
    (s.child event).subscriptions[i]?.map Subscription.quiet =
      s.subscriptions[i]?.map Subscription.quiet := by
  unfold child
  generalize s.subscriptions = subs
  induction s.reference.observers generalizing subs with
  | nil => rfl
  | cons o observers ih =>
      simp only [List.foldl_cons]
      rw [ih]
      cases o.callback event with
      | none => rfl
      | some live => exact quiet_modify subs live o.subscription i

/-- A subscription after a child event, by the one it was before. -/
theorem exists_of_child {s : Registry} {event : DataEvent} {i : Nat} {sub : Subscription}
    (h : (s.child event).subscriptions[i]? = some sub) :
    ∃ old, s.subscriptions[i]? = some old ∧ old.quiet = sub.quiet := by
  have hquiet := quiet_child s event i
  rw [h, Option.map_some, eq_comm, Option.map_eq_some_iff] at hquiet
  exact hquiet

theorem hasObservers_quiet {sub : Option Subscription} {observers : List Listening} :
    HasObservers (sub.map Subscription.quiet) observers ↔ HasObservers sub observers := by
  cases sub <;> rfl

theorem Inv.child {s : Registry} (h : s.Inv) (event : DataEvent) : (s.child event).Inv := by
  refine ⟨h.fresh, h.apart, ?_, ?_⟩
  · intro sub hsub
    obtain ⟨i, hi⟩ := List.mem_iff_getElem?.mp hsub
    obtain ⟨old, hold, hquiet⟩ := exists_of_child hi
    have hidle := h.idle old (List.mem_of_getElem? hold)
    exact (congrArg Subscription.disposable hquiet).symm.trans hidle
  · intro i
    have hsame : HasObservers (s.child event).subscriptions[i]? (s.listening i) :=
      hasObservers_quiet.mp (quiet_child s event i ▸ hasObservers_quiet.mpr (h.listening i))
    exact hsame

/-! ## Cancelled listens -/

/-- The same change at some places of a list, which makes no difference a second time. -/
theorem getElem?_foldl_modify {α β : Type} (f : α → α) (hf : ∀ x, f (f x) = f x)
    (place : β → Nat) (bs : List β) (xs : List α) (j : Nat) :
    (bs.foldl (fun xs b => xs.modify (place b) f) xs)[j]? =
      if j ∈ bs.map place then xs[j]?.map f else xs[j]? := by
  induction bs generalizing xs with
  | nil => rfl
  | cons b bs ih =>
      rw [List.foldl_cons, ih, List.map_cons]
      by_cases hj : place b = j
      · rw [if_pos (List.mem_cons.mpr (.inl hj.symm)), hj, List.getElem?_modify_eq]
        split
        · rw [Option.map_eq_map, Option.map_map]
          congr 1
          exact funext hf
        · rfl
      · rw [List.getElem?_modify_ne _ _ hj]
        simp only [List.mem_cons, Ne.symm hj, false_or]

section

variable {s : Registry} (localizedDescription : String)

theorem subscriptions_cancel :
    (s.cancel localizedDescription).subscriptions =
      (s.reference.observers.filter fun o => o.listening = .singleValue).foldl
        (fun subs o => subs.modify o.subscription
          (Subscription.stop ∘ .call (.cancelled localizedDescription))) s.subscriptions := by
  suffices hfold : ∀ (observers : List Observer) (start : Registry),
      (observers.foldl (fun s o => s.value o (.cancelled localizedDescription))
        start).subscriptions = observers.foldl (fun subs o => subs.modify o.subscription
          (Subscription.stop ∘ .call (.cancelled localizedDescription))) start.subscriptions from
    hfold _ _
  intro observers
  induction observers with
  | nil => exact fun _ => rfl
  | cons o observers ih =>
      intro start
      have hvalue : (start.value o (.cancelled localizedDescription)).subscriptions =
          start.subscriptions.modify o.subscription
            (Subscription.stop ∘ .call (.cancelled localizedDescription)) :=
        List.modify_modify_eq _ _ _ _
      rw [List.foldl_cons, List.foldl_cons, ih, hvalue]

theorem idle_value {start : Registry} (hidle : ∀ sub ∈ start.subscriptions, sub.disposable = [])
    (o : Observer) (event : ValueEvent) :
    ∀ sub ∈ (start.value o event).subscriptions, sub.disposable = [] :=
  idle_modify (f := Subscription.stop)
    (idle_modify (f := Subscription.call event) hidle (fun _ => rfl) o.subscription)
    (fun _ => rfl) o.subscription

/-- No observer is left, and no handle is used again. -/
theorem Inv.reference_cancel (h : s.Inv) :
    (s.cancel localizedDescription).reference = { s.reference with observers := [] } := by
  suffices hfold : ∀ (observers : List Observer) (start : Registry),
      (∀ sub ∈ start.subscriptions, sub.disposable = []) → start.reference.observers = [] →
        (observers.foldl (fun s o => s.value o (.cancelled localizedDescription))
          start).reference = start.reference from
    hfold _ _ h.idle rfl
  intro observers
  induction observers with
  | nil => exact fun _ _ _ => rfl
  | cons o observers ih =>
      intro start hidle hnone
      have hcall : (start.call o (.cancelled localizedDescription)).reference =
          start.reference := by
        rcases start with ⟨⟨observers, nextHandle⟩, subscriptions⟩
        subst hnone
        rfl
      have hvalue : (start.value o (.cancelled localizedDescription)).reference =
          start.reference := by
        refine (dispose_reference ?_ o.subscription).trans hcall
        exact idle_modify (f := Subscription.call _) hidle (fun _ => rfl) o.subscription
      rw [List.foldl_cons, ih _ (idle_value hidle o _) (by rw [hvalue, hnone]), hvalue]

theorem Inv.listening_cancel (h : s.Inv) (i : Nat) :
    (s.cancel localizedDescription).listening i = [] := by
  unfold Registry.listening
  rw [h.reference_cancel]
  rfl

theorem getElem?_cancel (i : Nat) :
    (s.cancel localizedDescription).subscriptions[i]? =
      if i ∈ (s.reference.observers.filter fun o => o.listening = .singleValue).map
          Observer.subscription then
        s.subscriptions[i]?.map (Subscription.stop ∘ .call (.cancelled localizedDescription))
      else s.subscriptions[i]? := by
  rw [subscriptions_cancel]
  exact getElem?_foldl_modify (Subscription.stop ∘ .call (.cancelled localizedDescription))
    (fun _ => rfl) Observer.subscription _ _ i

theorem Inv.source_of_awaiting (h : s.Inv) {i : Nat} {sub : Subscription}
    (hsub : s.subscriptions[i]? = some sub)
    (hi : i ∈ (s.reference.observers.filter fun o => o.listening = .singleValue).map
      Observer.subscription) : sub.source = .retrievePosts := by
  obtain ⟨o, ho, rfl⟩ := List.mem_map.mp hi
  obtain ⟨ho, hsingle⟩ := List.mem_filter.mp ho
  obtain ⟨-, sub', hsub', hsource⟩ := h.awaiting ho (of_decide_eq_true hsingle)
  rw [hsub] at hsub'
  cases hsub'
  exact hsource

/-- A live subscription is not told. -/
theorem Inv.cancel_live (h : s.Inv) {i : Nat} {sub : Subscription}
    (hsub : s.subscriptions[i]? = some sub) (hlive : sub.source = .startLiveUpdating) :
    (s.cancel localizedDescription).subscriptions[i]? = some sub := by
  rw [getElem?_cancel, if_neg, hsub]
  intro hi
  cases (h.source_of_awaiting hsub hi).symm.trans hlive

/-- A read that waits is called back and ends; nothing else changes. -/
theorem Inv.exists_of_cancel (h : s.Inv) {i : Nat} {sub : Subscription}
    (hsub : (s.cancel localizedDescription).subscriptions[i]? = some sub) :
    ∃ old, s.subscriptions[i]? = some old ∧
      (sub = old ∧ (old.source = .startLiveUpdating ∨ old.Answered) ∨
        sub = (old.call (.cancelled localizedDescription)).stop ∧
          old.source = .retrievePosts) := by
  rw [getElem?_cancel] at hsub
  split at hsub
  · rename_i hi
    obtain ⟨old, hold, rfl⟩ := Option.map_eq_some_iff.mp hsub
    exact ⟨old, hold, .inr ⟨rfl, h.source_of_awaiting hold hi⟩⟩
  · rename_i hnot
    refine ⟨sub, hsub, .inl ⟨rfl, ?_⟩⟩
    have hlistening := h.listening i
    rw [hsub] at hlistening
    rcases hlistening with hregistered | ⟨hlive, -⟩
    · cases hsource : sub.source with
      | startLiveUpdating => exact .inl rfl
      | retrievePosts =>
          refine .inr ⟨hsource, ?_⟩
          -- unanswered it would have an observer, which would have been called
          by_contra hwaiting
          have hsingle : Listening.singleValue ∈ s.listening i := by
            rw [hregistered, Subscription.registered, hsource]
            simp only [hwaiting, if_false, List.mem_singleton]
          obtain ⟨o, ho, hlistens⟩ := List.mem_map.mp hsingle
          obtain ⟨ho, hnumber⟩ := List.mem_filter.mp ho
          refine hnot (List.mem_map.mpr ⟨o, ?_, of_decide_eq_true hnumber⟩)
          exact List.mem_filter.mpr ⟨ho, decide_eq_true hlistens⟩
    · exact .inl hlive

theorem Inv.cancel (h : s.Inv) : (s.cancel localizedDescription).Inv := by
  have hreference := h.reference_cancel localizedDescription
  refine ⟨?_, ?_, ?_, ?_⟩
  · rw [hreference]
    exact fun _ ho => absurd ho List.not_mem_nil
  · rw [hreference]
    exact fun _ ho => absurd ho List.not_mem_nil
  · intro sub hsub
    obtain ⟨i, hi⟩ := List.mem_iff_getElem?.mp hsub
    obtain ⟨old, hold, ⟨rfl, -⟩ | ⟨rfl, -⟩⟩ := h.exists_of_cancel localizedDescription hi
    · exact h.idle sub (List.mem_of_getElem? hold)
    · exact h.idle old (List.mem_of_getElem? hold)
  · intro i
    rw [h.listening_cancel]
    cases hsub : (s.cancel localizedDescription).subscriptions[i]? with
    | none => rfl
    | some sub =>
        obtain ⟨old, -, ⟨rfl, hlive | hanswered⟩ | ⟨rfl, hsource⟩⟩ :=
          h.exists_of_cancel localizedDescription hsub
        · exact .inr ⟨hlive, rfl⟩
        · exact .inl (Subscription.registered_eq_nil.mpr hanswered).symm
        · have hanswered : (old.call (.cancelled localizedDescription)).stop.Answered :=
            ⟨hsource, rfl⟩
          exact .inl (Subscription.registered_eq_nil.mpr hanswered).symm

end

/-! ## Steps and runs -/

/-- What a step can do. -/
theorem step_cases {s t : Registry} {act : Act} (h : s.step act = some t) :
    (∃ source, act = .subscribe source ∧ t = s.subscribe source) ∨
    (∃ i, act = .dispose i ∧ i < s.subscriptions.length ∧ t = s.dispose i) ∨
    (∃ o ∈ s.reference.observers, o.listening = .singleValue ∧
      ∃ snapshot, act = .value o.subscription snapshot ∧ t = s.value o (.value snapshot)) ∨
    (∃ event, act = .child event ∧ t = s.child event) ∨
    ∃ localizedDescription, act = .cancel localizedDescription ∧
      t = s.cancel localizedDescription := by
  cases act with
  | subscribe source => exact .inl ⟨source, rfl, (Option.some.inj h).symm⟩
  | dispose i =>
      obtain ⟨hlt, ht⟩ := Option.ite_none_right_eq_some.mp h
      exact .inr (.inl ⟨i, rfl, hlt, (Option.some.inj ht).symm⟩)
  | value i snapshot =>
      obtain ⟨o, ho, rfl⟩ := Option.map_eq_some_iff.mp h
      have hfound := List.find?_some ho
      simp only [decide_eq_true_eq] at hfound
      obtain ⟨rfl, hsingle⟩ := hfound
      exact .inr (.inr (.inl ⟨o, List.mem_of_find?_eq_some ho, hsingle, snapshot, rfl, rfl⟩))
  | child event => exact .inr (.inr (.inr (.inl ⟨event, rfl, (Option.some.inj h).symm⟩)))
  | cancel localizedDescription =>
      exact .inr (.inr (.inr (.inr ⟨localizedDescription, rfl, (Option.some.inj h).symm⟩)))

theorem Inv.step {s t : Registry} {act : Act} (h : s.Inv) (hstep : s.step act = some t) :
    t.Inv := by
  obtain ⟨source, -, rfl⟩ | ⟨i, -, -, rfl⟩ | ⟨o, ho, hsingle, snapshot, -, rfl⟩ |
    ⟨event, -, rfl⟩ | ⟨localizedDescription, -, rfl⟩ := step_cases hstep
  · exact h.subscribe source
  · exact h.dispose i
  · exact (h.call ho hsingle (.value snapshot)).dispose o.subscription
  · exact h.child event
  · exact h.cancel localizedDescription

/-- **What is registered, along every run.** -/
theorem inv_of_reachable {s : Registry} (h : registry.Reachable s) : s.Inv := by
  refine h.invariant ⟨?_, ?_, ?_, fun _ => rfl⟩ fun _ _ _ hs hstep => hs.step hstep
  · exact fun _ ho => absurd ho List.not_mem_nil
  · exact fun _ ho => absurd ho List.not_mem_nil
  · exact fun _ hsub => absurd hsub List.not_mem_nil

/-- A step that disposes of nothing but answered `retrievePosts` subscriptions, and
cancels no listen while a live-update subscription is held. -/
def DisposesAnswered (s : Registry) : Act → Prop
  | .dispose i => ∀ sub, s.subscriptions[i]? = some sub → sub.Answered
  | .cancel _ => ∀ sub ∈ s.subscriptions, sub.source = .startLiveUpdating → sub.isDisposed
  | _ => True

/-- Such a step keeps the observers exact. -/
theorem Inv.step_exact {s t : Registry} {act : Act} (h : s.Inv) (hexact : s.Exact)
    (hdisposes : s.DisposesAnswered act) (hstep : s.step act = some t) : t.Exact := by
  intro i
  have hi := hexact i
  obtain ⟨source, rfl, rfl⟩ | ⟨j, rfl, -, rfl⟩ | ⟨o, ho, hsingle, snapshot, -, rfl⟩ |
    ⟨event, -, rfl⟩ | ⟨localizedDescription, rfl, rfl⟩ := step_cases hstep
  · rw [listening_subscribe, subscribe_eq]
    rcases Nat.lt_trichotomy i s.subscriptions.length with hlt | rfl | hgt
    · rwa [List.getElem?_append_left hlt, if_neg (Nat.ne_of_lt hlt), List.append_nil]
    · rw [List.getElem?_eq_none (Nat.le_refl _)] at hi
      rw [List.getElem?_concat_length, if_pos rfl, hi.eq_nil]
      exact List.Perm.refl _
    · rw [List.getElem?_eq_none (Nat.le_of_lt hgt)] at hi
      rw [if_neg (Nat.ne_of_gt hgt), hi.eq_nil,
        List.getElem?_eq_none (by simp only [List.length_append, List.length_singleton]; omega)]
      exact List.Perm.refl _
  · rw [h.listening_dispose]
    show (s.listening i).Perm ((s.subscriptions.modify j .stop)[i]?.elim [] _)
    by_cases hj : j = i
    · subst hj
      cases hsub : s.subscriptions[j]? with
      | none =>
          rw [hsub] at hi
          rwa [List.getElem?_modify_eq, hsub]
      | some sub =>
          rw [hsub, Option.elim_some, Subscription.due_of_answered (hdisposes sub hsub)] at hi
          rw [List.getElem?_modify_eq, hsub, hi.eq_nil]
          exact List.Perm.refl _
    · rwa [List.getElem?_modify_ne _ _ hj]
  -- the subscription called ends by itself
  · rw [value, (h.call ho hsingle _).listening_dispose, h.listening_call ho hsingle]
    show (if i = _ then _ else _ : List Listening).Perm
      (((s.subscriptions.modify _ (.call _)).modify _ .stop)[i]?.elim [] _)
    by_cases hi' : i = o.subscription
    · subst hi'
      obtain ⟨-, sub, hsub, -⟩ := h.awaiting ho hsingle
      rw [if_pos rfl, List.getElem?_modify_eq, List.getElem?_modify_eq, hsub]
      exact List.Perm.refl _
    · rwa [if_neg hi', List.getElem?_modify_ne _ _ (Ne.symm hi'),
        List.getElem?_modify_ne _ _ (Ne.symm hi')]
  · show (s.listening i).Perm _
    have hdue : (s.child event).subscriptions[i]?.elim [] Subscription.due =
        s.subscriptions[i]?.elim [] Subscription.due := by
      have hquiet := congrArg (fun sub => Option.elim sub [] Subscription.due)
        (quiet_child s event i)
      simp only [Option.elim_map] at hquiet
      exact hquiet
    rwa [hdue]
  · rw [h.listening_cancel]
    cases hsub : (s.cancel localizedDescription).subscriptions[i]? with
    | none => exact List.Perm.refl _
    | some sub =>
        obtain ⟨old, hold, ⟨rfl, hlive | hanswered⟩ | ⟨rfl, -⟩⟩ :=
          h.exists_of_cancel localizedDescription hsub
        · rw [Option.elim_some, Subscription.due,
            if_pos (hdisposes sub (List.mem_of_getElem? hold) hlive)]
        · rw [Option.elim_some, Subscription.due_of_answered hanswered]
        · exact List.Perm.refl _

/-- While the observers are exact, no live-update subscription is disposed of. -/
theorem live_held {acts : List Act} (h : registry.Always (fun _ s => s.Exact) acts) :
    registry.Always (fun _ s => ∀ sub ∈ s.subscriptions, sub.source = .startLiveUpdating →
      sub.isDisposed = false) acts := by
  have hsteps : registry.EachStep (fun pre s act => s.Exact ∧
      ∀ t, s.step act = some t → t.Exact) acts := by
    intro pre act hpre s t hs hstep
    refine ⟨h pre ((List.prefix_append pre [act]).trans hpre) s hs, ?_⟩
    intro t' hstep'
    exact h (pre ++ [act]) hpre t' (registry.run_snoc_eq_some.mpr ⟨s, hs, hstep'⟩)
  refine TSys.always_of_eachStep (fun _ hsub => absurd hsub List.not_mem_nil) ?_ hsteps
  rintro pre act s t hs hheld ⟨hexact, hnext⟩ hstep sub hmem hlive
  have hinv : s.Inv := inv_of_reachable ⟨pre, hs⟩
  have ht := hnext t hstep
  obtain ⟨source, -, rfl⟩ | ⟨j, -, -, rfl⟩ | ⟨o, ho, hsingle, snapshot, -, rfl⟩ |
    ⟨event, -, rfl⟩ | ⟨localizedDescription, -, rfl⟩ := step_cases hstep
  · rw [subscribe_eq] at hmem
    rcases List.mem_append.mp hmem with hold | hnew
    · exact hheld sub hold hlive
    · rw [List.mem_singleton.mp hnew]
  · obtain ⟨i, hi⟩ := List.mem_iff_getElem?.mp hmem
    obtain ⟨old, hold, rfl⟩ := exists_of_getElem?_modify hi
    by_cases hj : j = i
    · -- its observers would stay behind
      subst hj
      rw [if_pos rfl] at hi hlive
      have hold_live : old.source = .startLiveUpdating := hlive
      have hbefore := hexact j
      have hafter := ht j
      rw [hinv.listening_dispose, hi] at hafter
      rw [hold, hafter.eq_nil, Option.elim_some, Subscription.due_of_live hold_live
        (hheld old (List.mem_of_getElem? hold) hold_live)] at hbefore
      cases hbefore.nil_eq
    · rw [if_neg hj] at hlive ⊢
      exact hheld old (List.mem_of_getElem? hold) hlive
  · obtain ⟨-, called, hcalled, hsource⟩ := hinv.awaiting ho hsingle
    obtain ⟨i, hi⟩ := List.mem_iff_getElem?.mp hmem
    obtain ⟨old', hold', rfl⟩ := exists_of_getElem?_modify hi
    obtain ⟨old, hold, rfl⟩ := exists_of_getElem?_modify hold'
    by_cases hi' : o.subscription = i
    · subst hi'
      rw [hcalled] at hold
      cases hold
      rw [if_pos rfl, if_pos rfl] at hlive
      cases hsource.symm.trans hlive
    · rw [if_neg hi', if_neg hi'] at hlive ⊢
      exact hheld old (List.mem_of_getElem? hold) hlive
  · obtain ⟨i, hi⟩ := List.mem_iff_getElem?.mp hmem
    obtain ⟨old, hold, hquiet⟩ := exists_of_child hi
    have hold_live := (congrArg Subscription.source hquiet).trans hlive
    have hdisposed := congrArg Subscription.isDisposed hquiet
    exact hdisposed.symm.trans (hheld old (List.mem_of_getElem? hold) hold_live)
  · obtain ⟨i, hi⟩ := List.mem_iff_getElem?.mp hmem
    obtain ⟨old, hold, ⟨rfl, -⟩ | ⟨rfl, hsource⟩⟩ :=
      hinv.exists_of_cancel localizedDescription hi
    · exact hheld sub (List.mem_of_getElem? hold) hlive
    · cases hsource.symm.trans hlive

/-- **Exactly the observers called for.** Along a run of subscriptions, disposals,
answers, child events and cancelled listens, the observers registered on `/posts` are in
every state two for each live-update subscription not disposed of and one for each
`retrievePosts` subscription neither disposed of nor answered, if and only if the run
disposes of no live-update subscription, of no `retrievePosts` subscription before it is
answered, and cancels no listen while a live-update subscription is held. -/
theorem observers_exact_iff (acts : List Act) :
    registry.Always (fun _ s => s.Exact) acts ↔
      registry.EachStep (fun _ s act => s.DisposesAnswered act) acts := by
  constructor
  · intro halways pre act hpre s t hs hstep
    have hpre' : pre <+: acts := (List.prefix_append pre [act]).trans hpre
    -- the state after the step is one of the run, so it is exact too
    have ht : registry.run (pre ++ [act]) = some t :=
      registry.run_snoc_eq_some.mpr ⟨s, hs, hstep⟩
    have hexact : t.Exact := halways (pre ++ [act]) hpre t ht
    have hheld := live_held halways
    have hinv : s.Inv := inv_of_reachable ⟨pre, hs⟩
    cases act with
    | subscribe source => trivial
    | value i snapshot => trivial
    | child event => trivial
    | dispose i =>
        intro sub hsub
        obtain ⟨-, ht'⟩ := Option.ite_none_right_eq_some.mp hstep
        obtain rfl := Option.some.inj ht'
        have hstopped : (s.dispose i).subscriptions[i]? = some sub.stop := by
          show (s.subscriptions.modify i .stop)[i]? = _
          rw [List.getElem?_modify_eq, hsub]
          rfl
        have hlive : sub.source ≠ .startLiveUpdating := fun hlive => by
          cases hheld _ hpre _ ht sub.stop (List.mem_of_getElem? hstopped) hlive
        have hi := hexact i
        rw [hinv.listening_dispose, hstopped] at hi
        have hlistening := hinv.listening i
        rw [hsub, hi.eq_nil] at hlistening
        rcases hlistening with hregistered | ⟨hlive', -⟩
        · exact Subscription.registered_eq_nil.mp hregistered.symm
        · exact absurd hlive' hlive
    | cancel localizedDescription =>
        obtain rfl := Option.some.inj hstep
        intro sub hmem hlive
        -- a live subscription would be held without its observers
        obtain ⟨i, hsub⟩ := List.mem_iff_getElem?.mp hmem
        have hi := hexact i
        rw [hinv.listening_cancel, hinv.cancel_live localizedDescription hsub hlive,
          Option.elim_some,
          Subscription.due_of_live hlive (hheld pre hpre' s hs sub hmem hlive)] at hi
        cases hi.nil_eq
  · apply TSys.always_of_eachStep
    · exact fun i => List.Perm.refl []
    · intro pre act s t hs hexact hdisposes hstep
      exact (inv_of_reachable ⟨pre, hs⟩).step_exact hexact hdisposes hstep

/-- A screen is opened, its posts arrive, it listens for updates, and a log-out
disposes of both subscriptions. -/
def loggedOut : List Act :=
  [.subscribe .retrievePosts, .value 0 (.children []), .subscribe .startLiveUpdating,
    .dispose 0, .dispose 1]

/-- Both live observers stay registered, and no subscription calls for them. -/
theorem logout_leaves_observers :
    ∃ s, registry.run loggedOut = some s ∧ (∀ sub ∈ s.subscriptions, sub.isDisposed) ∧
      s.reference.observers.map Observer.listening =
        [.child .childChanged, .child .childRemoved] ∧ ¬ s.Exact := by
  refine ⟨_, rfl, by decide, rfl, ?_⟩
  intro hexact
  have hone := (hexact 1).length_eq
  exact absurd hone (by decide)

/-! ## What stays behind -/

/-- The subscription is disposed of, after some elements. -/
def StoppedAfter (subs : List Subscription) (i : Nat) (received : List LiveEvent) : Prop :=
  ∃ sub, subs[i]? = some sub ∧ sub.isDisposed ∧ sub.received = received

theorem StoppedAfter.modify {subs : List Subscription} {i : Nat} {received : List LiveEvent}
    (h : StoppedAfter subs i received) {f : Subscription → Subscription}
    (hf : ∀ sub, sub.isDisposed → (f sub).isDisposed ∧ (f sub).received = sub.received)
    (j : Nat) : StoppedAfter (subs.modify j f) i received := by
  obtain ⟨sub, hsub, hdisposed, rfl⟩ := h
  obtain ⟨hdisposed', hreceived'⟩ := hf sub hdisposed
  by_cases hij : j = i
  · subst hij
    exact ⟨f sub, by rw [List.getElem?_modify_eq, hsub]; rfl, hdisposed', hreceived'⟩
  · exact ⟨sub, by rw [List.getElem?_modify_ne _ _ hij, hsub], hdisposed, rfl⟩

/-- **The leak does not show.** A subscription disposed of receives nothing any
more, whatever its observers are called with. -/
theorem disposed_receives_nothing {s t : Registry} {act : Act} (hstep : s.step act = some t)
    {i : Nat} {received : List LiveEvent} (h : StoppedAfter s.subscriptions i received) :
    StoppedAfter t.subscriptions i received := by
  obtain ⟨source, -, rfl⟩ | ⟨j, -, -, rfl⟩ | ⟨o, -, -, snapshot, -, rfl⟩ | ⟨event, -, rfl⟩ |
    ⟨localizedDescription, -, rfl⟩ := step_cases hstep
  · obtain ⟨sub, hsub, hstopped⟩ := h
    have hlt : i < s.subscriptions.length := (List.getElem?_eq_some_iff.mp hsub).1
    refine ⟨sub, ?_, hstopped⟩
    rw [subscribe_eq, List.getElem?_append_left hlt, hsub]
  · exact h.modify (f := Subscription.stop) (fun _ _ => ⟨rfl, rfl⟩) j
  · exact (h.modify (f := Subscription.call (.value snapshot)) (fun _ hd => ⟨hd, rfl⟩)
      o.subscription).modify (f := Subscription.stop) (fun _ _ => ⟨rfl, rfl⟩) o.subscription
  · unfold child
    generalize s.subscriptions = subs at h ⊢
    induction s.reference.observers generalizing subs with
    | nil => exact h
    | cons o observers ih =>
        simp only [List.foldl_cons]
        apply ih
        cases o.callback event with
        | none => exact h
        | some live =>
            apply h.modify
            intro sub hdisposed
            simp only [Subscription.on, hdisposed, if_true, and_self]
  · obtain ⟨sub, hsub, hdisposed, rfl⟩ := h
    unfold StoppedAfter
    rw [getElem?_cancel]
    split
    · exact ⟨(sub.call (.cancelled localizedDescription)).stop, by rw [hsub]; rfl, rfl, rfl⟩
    · exact ⟨sub, hsub, hdisposed, rfl⟩

end Registry

end SocialTimeline
