import Mathlib.Data.List.Destutter
import Mathlib.Logic.Function.Basic

/-!
# Synchronous observables over relays

Observable chains whose sources are relays, on one thread. A relay keeps its
current value, sends it to an observer at subscription, and sends each value it
accepts to its observers before `accept` returns, in the order in which they
subscribed. One subscription to a chain is therefore a tree of sinks: an
operator subscribes to its sources from left to right, so a relay that occurs
several times reaches its occurrences from left to right too.

* **operators** — `relay`, `map`, `distinctUntilChanged`, and `combineLatest`
  and `combineLatest4` over one sink (`CombineLatestSink.next`);
* **following** (`Follows`) — the last element sent is a function of the
  current values of the relays, whatever was edited before; every operator
  keeps it;
* **glitch freedom** (`GlitchFree`) — each edit sends this function's new value
  if it changed, and nothing else. `distinctUntilChanged` gives it wherever the
  elements of one edit only go from the old value to the new one (`Settles`);
* **runs** — what a subscriber receives over any edits
  (`GlitchFree.received_eq`, `Follows.getLast?_received`).
-/

namespace SocialTimeline.Lib

/-- Passes elements to a sink one after another; what the sink forwards, in
order. -/
def feed {σ β γ : Type*} (on : σ → β → σ × List γ) (s : σ) : List β → σ × List γ
  | [] => (s, [])
  | x :: xs =>
      ((feed on (on s x).1 xs).1, (on s x).2 ++ (feed on (on s x).1 xs).2)

theorem feed_append {σ β γ : Type*} (on : σ → β → σ × List γ) (s : σ) (xs ys : List β) :
    feed on s (xs ++ ys) =
      ((feed on (feed on s xs).1 ys).1, (feed on s xs).2 ++ (feed on (feed on s xs).1 ys).2) := by
  induction xs generalizing s with
  | nil => rfl
  | cons x xs ih => simp only [List.cons_append, feed, ih, List.append_assoc]

/-- A cold observable over relays `ρ` holding values `α`. -/
structure Observable (ρ α β : Type) where
  /-- The sinks of one subscription. -/
  Sinks : Type
  /-- Subscribes while the relays hold the given values; what is sent at once. -/
  subscribe : (ρ → α) → Sinks × List β
  /-- A relay has accepted a value; what the subscription sends. -/
  accept : Sinks → ρ → α → Sinks × List β

namespace Observable

variable {ρ α β γ δ : Type} {β₁ β₂ β₃ β₄ : Type}

/-! ## Operators -/

/-- The values of one relay. -/
def relay [DecidableEq ρ] (r : ρ) : Observable ρ α α where
  Sinks := Unit
  subscribe v := ((), [v r])
  accept _ r' a := ((), if r' = r then [a] else [])

def map (f : β → γ) (o : Observable ρ α β) : Observable ρ α γ where
  Sinks := o.Sinks
  subscribe v := ((o.subscribe v).1, (o.subscribe v).2.map f)
  accept s r a := ((o.accept s r a).1, (o.accept s r a).2.map f)

/-- A sink behind a source. -/
def pipe {σ : Type} (on : σ → β → σ × List γ) (init : σ) (o : Observable ρ α β) :
    Observable ρ α γ where
  Sinks := o.Sinks × σ
  subscribe v :=
    let (s, xs) := o.subscribe v
    let (t, ys) := feed on init xs
    ((s, t), ys)
  accept s r a :=
    let (s', xs) := o.accept s.1 r a
    let (t, ys) := feed on s.2 xs
    ((s', t), ys)

/-- The elements of two sources. The first is subscribed first, so a relay behind
both reaches its observers in the first before those in the second. -/
def inOrder (o₁ o₂ : Observable ρ α β) : Observable ρ α β where
  Sinks := o₁.Sinks × o₂.Sinks
  subscribe v :=
    (((o₁.subscribe v).1, (o₂.subscribe v).1), (o₁.subscribe v).2 ++ (o₂.subscribe v).2)
  accept s r a :=
    (((o₁.accept s.1 r a).1, (o₂.accept s.2 r a).1),
      (o₁.accept s.1 r a).2 ++ (o₂.accept s.2 r a).2)

/-- The sink of `distinctUntilChanged`, with the last element it let through. -/
def DistinctUntilChangedSink.on [DecidableEq β] (currentKey : Option β) (value : β) :
    Option β × List β :=
  if currentKey = some value then (currentKey, []) else (some value, [value])

def distinctUntilChanged [DecidableEq β] (o : Observable ρ α β) : Observable ρ α β :=
  o.pipe DistinctUntilChangedSink.on none

/-- The sink of `combineLatest`: the observer of a source sets its latest
element, then the sink sends a result, once every source has an element. -/
def CombineLatestSink.next {κ : Type} (getResult : κ → Option γ) (latest : κ)
    (setLatestValue : κ → κ) : κ × List γ :=
  (setLatestValue latest, (getResult (setLatestValue latest)).toList)

structure LatestElements2 (β₁ β₂ : Type) where
  latestElement1 : Option β₁ := none
  latestElement2 : Option β₂ := none

namespace LatestElements2

def set1 (e : β₁) (latest : LatestElements2 β₁ β₂) : LatestElements2 β₁ β₂ :=
  { latest with latestElement1 := some e }

def set2 (e : β₂) (latest : LatestElements2 β₁ β₂) : LatestElements2 β₁ β₂ :=
  { latest with latestElement2 := some e }

def getResult (resultSelector : β₁ → β₂ → γ) (latest : LatestElements2 β₁ β₂) : Option γ := do
  return resultSelector (← latest.latestElement1) (← latest.latestElement2)

end LatestElements2

def combineLatest (o₁ : Observable ρ α β₁) (o₂ : Observable ρ α β₂)
    (resultSelector : β₁ → β₂ → γ) : Observable ρ α γ :=
  ((o₁.map LatestElements2.set1).inOrder (o₂.map LatestElements2.set2)).pipe
    (CombineLatestSink.next (LatestElements2.getResult resultSelector)) {}

structure LatestElements4 (β₁ β₂ β₃ β₄ : Type) where
  latestElement1 : Option β₁ := none
  latestElement2 : Option β₂ := none
  latestElement3 : Option β₃ := none
  latestElement4 : Option β₄ := none

namespace LatestElements4

def set1 (e : β₁) (latest : LatestElements4 β₁ β₂ β₃ β₄) : LatestElements4 β₁ β₂ β₃ β₄ :=
  { latest with latestElement1 := some e }

def set2 (e : β₂) (latest : LatestElements4 β₁ β₂ β₃ β₄) : LatestElements4 β₁ β₂ β₃ β₄ :=
  { latest with latestElement2 := some e }

def set3 (e : β₃) (latest : LatestElements4 β₁ β₂ β₃ β₄) : LatestElements4 β₁ β₂ β₃ β₄ :=
  { latest with latestElement3 := some e }

def set4 (e : β₄) (latest : LatestElements4 β₁ β₂ β₃ β₄) : LatestElements4 β₁ β₂ β₃ β₄ :=
  { latest with latestElement4 := some e }

def getResult (resultSelector : β₁ → β₂ → β₃ → β₄ → γ)
    (latest : LatestElements4 β₁ β₂ β₃ β₄) : Option γ := do
  return resultSelector (← latest.latestElement1) (← latest.latestElement2)
    (← latest.latestElement3) (← latest.latestElement4)

end LatestElements4

def combineLatest4 (o₁ : Observable ρ α β₁) (o₂ : Observable ρ α β₂) (o₃ : Observable ρ α β₃)
    (o₄ : Observable ρ α β₄) (resultSelector : β₁ → β₂ → β₃ → β₄ → γ) : Observable ρ α γ :=
  ((o₁.map LatestElements4.set1).inOrder <| (o₂.map LatestElements4.set2).inOrder <|
      (o₃.map LatestElements4.set3).inOrder (o₄.map LatestElements4.set4)).pipe
    (CombineLatestSink.next (LatestElements4.getResult resultSelector)) {}

/-! ## Feeding the sinks -/

/-- Elements of one source, once every source has an element: a result for each
of them, and the last one stays. -/
theorem feed_next {κ : Type} (getResult : κ → Option γ) (set : β → κ → κ) (result : β → γ)
    (latest : κ) (hset : ∀ x y, set y (set x latest) = set y latest)
    (hresult : ∀ x, getResult (set x latest) = some (result x)) (x : β) (xs : List β) :
    feed (CombineLatestSink.next getResult) (set x latest) (xs.map set) =
      (set (xs.getLastD x) latest, xs.map result) := by
  induction xs generalizing x with
  | nil => rfl
  | cons y ys ih =>
      -- `y` overwrites `x`, so the induction goes on from `set y latest`
      have hnext : CombineLatestSink.next getResult (set x latest) (set y) =
          (set y latest, [result y]) := by
        simp only [CombineLatestSink.next, hset, hresult, Option.toList_some]
      simp only [List.map_cons, feed, hnext, ih y, List.getLastD_cons, List.singleton_append]

/-- A sequence of elements that starts after `x`, only ever stays or moves to
`z`, and has arrived there at its end. -/
def Settles (x z : β) : List β → Prop
  | [] => x = z
  | y :: ys => (y = x ∨ y = z) ∧ Settles y z ys

/-- `distinctUntilChanged` shows of such a sequence the move and nothing else. -/
theorem feed_distinctUntilChanged [DecidableEq β] {x z : β} {ys : List β}
    (h : Settles x z ys) :
    feed DistinctUntilChangedSink.on (some x) ys = (some z, if x = z then [] else [z]) := by
  induction ys generalizing x with
  | nil =>
      have hxz : x = z := h
      subst hxz
      simp only [feed, if_true]
  | cons y ys ih =>
      obtain ⟨hy, hys⟩ := h
      have hrest := ih hys
      by_cases hxy : x = y
      · subst hxy
        simp only [feed, DistinctUntilChangedSink.on, if_true, hrest, List.nil_append]
      -- the move: from here on all elements are `z`
      · have hyz : y = z := hy.resolve_left fun hyx => hxy hyx.symm
        subst hyz
        simp only [feed, DistinctUntilChangedSink.on, Option.some.injEq, if_neg hxy, hrest,
          if_true, List.append_nil]

/-- Whatever the sequence, the last element is the key that is kept. -/
theorem feed_distinctUntilChanged_key [DecidableEq β] (x : β) (ys : List β) :
    (feed DistinctUntilChangedSink.on (some x) ys).1 = some (ys.getLastD x) ∧
      (feed DistinctUntilChangedSink.on (some x) ys).2.getLastD x = ys.getLastD x := by
  induction ys generalizing x with
  | nil => exact ⟨rfl, rfl⟩
  | cons y ys ih =>
      obtain ⟨hkey, hlast⟩ := ih y
      by_cases hxy : x = y
      · subst hxy
        simpa only [feed, DistinctUntilChangedSink.on, if_true, List.nil_append,
          List.getLastD_cons] using ih x
      · simp only [feed, DistinctUntilChangedSink.on, Option.some.injEq, if_neg hxy,
          List.getLastD_cons, List.singleton_append, hkey, hlast, and_self]

/-! ## Following the current values -/

variable [DecidableEq ρ]

/-- The values of the relays after an edit. -/
def edit (v : ρ → α) (e : ρ × α) : ρ → α := Function.update v e.1 e.2

/-- What one edit makes a subscription send, while the relays hold `v`. -/
def sent (o : Observable ρ α β) (v : ρ → α) (e : ρ × α) : List β :=
  (o.accept (o.subscribe v).1 e.1 e.2).2

/-- **Following.** A subscriber is sent `f` of the current values at once, the
sinks never remember more than the current values, and the last element sent is
`f` of them after each edit. -/
structure Follows (o : Observable ρ α β) (f : (ρ → α) → β) : Prop where
  subscribed : ∀ v, (o.subscribe v).2 = [f v]
  sinks : ∀ v e, (o.accept (o.subscribe v).1 e.1 e.2).1 = (o.subscribe (edit v e)).1
  last : ∀ v e, (o.sent v e).getLastD (f v) = f (edit v e)

theorem sent_relay (r : ρ) (v : ρ → α) (e : ρ × α) :
    (relay r : Observable ρ α α).sent v e = if e.1 = r then [e.2] else [] := rfl

theorem Follows.relay (r : ρ) : Follows (relay r : Observable ρ α α) fun v => v r where
  subscribed _ := rfl
  sinks _ _ := rfl
  last v e := by
    by_cases h : e.1 = r
    · subst h
      simp only [sent, Observable.relay, if_true, edit, Function.update_self]
      rfl
    · simp only [sent, Observable.relay, if_neg h, edit, Function.update_of_ne (Ne.symm h)]
      rfl

theorem Follows.map {o : Observable ρ α β} {f : (ρ → α) → β} (h : Follows o f) (g : β → γ) :
    Follows (o.map g) fun v => g (f v) where
  subscribed v := congrArg (List.map g) (h.subscribed v)
  sinks := h.sinks
  last v e := by
    show ((o.sent v e).map g).getLastD (g (f v)) = g (f (edit v e))
    rw [List.getLastD_map, h.last]

/-- `distinctUntilChanged` at subscription: the first element passes. -/
theorem Follows.distinctUntilChanged_subscribe [DecidableEq β] {o : Observable ρ α β}
    {f : (ρ → α) → β} (h : Follows o f) (v : ρ → α) :
    o.distinctUntilChanged.subscribe v = (((o.subscribe v).1, some (f v)), [f v]) := by
  simp only [distinctUntilChanged, pipe, h.subscribed, feed, DistinctUntilChangedSink.on,
    reduceCtorEq, if_false, List.append_nil]

theorem Follows.distinctUntilChanged [DecidableEq β] {o : Observable ρ α β} {f : (ρ → α) → β}
    (h : Follows o f) : Follows o.distinctUntilChanged f where
  subscribed v := by rw [h.distinctUntilChanged_subscribe]
  sinks v e := by
    rw [h.distinctUntilChanged_subscribe, h.distinctUntilChanged_subscribe]
    show ((o.accept (o.subscribe v).1 e.1 e.2).1, (feed _ (some (f v)) (o.sent v e)).1) = _
    rw [h.sinks, (feed_distinctUntilChanged_key (f v) (o.sent v e)).1, h.last]
  last v e := by
    unfold sent
    rw [h.distinctUntilChanged_subscribe]
    show (feed _ (some (f v)) (o.sent v e)).2.getLastD (f v) = _
    rw [(feed_distinctUntilChanged_key (f v) (o.sent v e)).2, h.last]

/-! ### `combineLatest`

Once every source has an element, each element of a source gives a result with
the latest elements of the sources before it and the old ones of those after. -/

theorem getLastD_append (xs ys : List β) (x : β) :
    (xs ++ ys).getLastD x = ys.getLastD (xs.getLastD x) := by
  induction xs generalizing x with
  | nil => rfl
  | cons y xs ih => simp only [List.cons_append, List.getLastD_cons, ih]

theorem LatestElements2.feed_ready (g : β₁ → β₂ → γ) (x₁ : β₁) (x₂ : β₂) (xs₁ : List β₁)
    (xs₂ : List β₂) :
    feed (CombineLatestSink.next (getResult g)) ⟨some x₁, some x₂⟩
        (xs₁.map set1 ++ xs₂.map set2) =
      (⟨some (xs₁.getLastD x₁), some (xs₂.getLastD x₂)⟩,
        xs₁.map (fun x => g x x₂) ++ xs₂.map (g (xs₁.getLastD x₁))) := by
  have hfeed₁ : feed (CombineLatestSink.next (getResult g)) ⟨some x₁, some x₂⟩ (xs₁.map set1) =
      (⟨some (xs₁.getLastD x₁), some x₂⟩, xs₁.map fun x => g x x₂) :=
    feed_next (getResult g) set1 (fun x => g x x₂) ⟨some x₁, some x₂⟩ (fun _ _ => rfl)
      (fun _ => rfl) x₁ xs₁
  have hfeed₂ : feed (CombineLatestSink.next (getResult g)) ⟨some (xs₁.getLastD x₁), some x₂⟩
      (xs₂.map set2) =
      (⟨some (xs₁.getLastD x₁), some (xs₂.getLastD x₂)⟩, xs₂.map (g (xs₁.getLastD x₁))) :=
    feed_next (getResult g) set2 (g (xs₁.getLastD x₁)) ⟨some (xs₁.getLastD x₁), some x₂⟩
      (fun _ _ => rfl) (fun _ => rfl) x₂ xs₂
  rw [feed_append, hfeed₁, hfeed₂]

theorem LatestElements4.feed_ready (g : β₁ → β₂ → β₃ → β₄ → γ) (x₁ : β₁) (x₂ : β₂) (x₃ : β₃)
    (x₄ : β₄) (xs₁ : List β₁) (xs₂ : List β₂) (xs₃ : List β₃) (xs₄ : List β₄) :
    feed (CombineLatestSink.next (getResult g)) ⟨some x₁, some x₂, some x₃, some x₄⟩
        (xs₁.map set1 ++ (xs₂.map set2 ++ (xs₃.map set3 ++ xs₄.map set4))) =
      (⟨some (xs₁.getLastD x₁), some (xs₂.getLastD x₂), some (xs₃.getLastD x₃),
          some (xs₄.getLastD x₄)⟩,
        xs₁.map (fun x => g x x₂ x₃ x₄) ++
          (xs₂.map (fun x => g (xs₁.getLastD x₁) x x₃ x₄) ++
            (xs₃.map (fun x => g (xs₁.getLastD x₁) (xs₂.getLastD x₂) x x₄) ++
              xs₄.map (g (xs₁.getLastD x₁) (xs₂.getLastD x₂) (xs₃.getLastD x₃))))) := by
  have hfeed₁ : ∀ y₁ y₂ y₃ y₄,
      feed (CombineLatestSink.next (getResult g)) ⟨some y₁, some y₂, some y₃, some y₄⟩
        (xs₁.map set1) =
      (⟨some (xs₁.getLastD y₁), some y₂, some y₃, some y₄⟩, xs₁.map fun x => g x y₂ y₃ y₄) :=
    fun y₁ y₂ y₃ y₄ => feed_next (getResult g) set1 (fun x => g x y₂ y₃ y₄)
      ⟨some y₁, some y₂, some y₃, some y₄⟩ (fun _ _ => rfl) (fun _ => rfl) y₁ xs₁
  have hfeed₂ : ∀ y₁ y₂ y₃ y₄,
      feed (CombineLatestSink.next (getResult g)) ⟨some y₁, some y₂, some y₃, some y₄⟩
        (xs₂.map set2) =
      (⟨some y₁, some (xs₂.getLastD y₂), some y₃, some y₄⟩, xs₂.map fun x => g y₁ x y₃ y₄) :=
    fun y₁ y₂ y₃ y₄ => feed_next (getResult g) set2 (fun x => g y₁ x y₃ y₄)
      ⟨some y₁, some y₂, some y₃, some y₄⟩ (fun _ _ => rfl) (fun _ => rfl) y₂ xs₂
  have hfeed₃ : ∀ y₁ y₂ y₃ y₄,
      feed (CombineLatestSink.next (getResult g)) ⟨some y₁, some y₂, some y₃, some y₄⟩
        (xs₃.map set3) =
      (⟨some y₁, some y₂, some (xs₃.getLastD y₃), some y₄⟩, xs₃.map fun x => g y₁ y₂ x y₄) :=
    fun y₁ y₂ y₃ y₄ => feed_next (getResult g) set3 (fun x => g y₁ y₂ x y₄)
      ⟨some y₁, some y₂, some y₃, some y₄⟩ (fun _ _ => rfl) (fun _ => rfl) y₃ xs₃
  have hfeed₄ : ∀ y₁ y₂ y₃ y₄,
      feed (CombineLatestSink.next (getResult g)) ⟨some y₁, some y₂, some y₃, some y₄⟩
        (xs₄.map set4) =
      (⟨some y₁, some y₂, some y₃, some (xs₄.getLastD y₄)⟩, xs₄.map (g y₁ y₂ y₃)) :=
    fun y₁ y₂ y₃ y₄ => feed_next (getResult g) set4 (g y₁ y₂ y₃)
      ⟨some y₁, some y₂, some y₃, some y₄⟩ (fun _ _ => rfl) (fun _ => rfl) y₄ xs₄
  rw [feed_append, hfeed₁, feed_append, hfeed₂, feed_append, hfeed₃, hfeed₄]

section CombineLatest

variable {o₁ : Observable ρ α β₁} {o₂ : Observable ρ α β₂} {f₁ : (ρ → α) → β₁}
  {f₂ : (ρ → α) → β₂}

theorem Follows.combineLatest_subscribe (h₁ : Follows o₁ f₁) (h₂ : Follows o₂ f₂)
    (g : β₁ → β₂ → γ) (v : ρ → α) :
    (combineLatest o₁ o₂ g).subscribe v =
      ((((o₁.subscribe v).1, (o₂.subscribe v).1), ⟨some (f₁ v), some (f₂ v)⟩),
        [g (f₁ v) (f₂ v)]) := by
  simp only [Observable.combineLatest, pipe, inOrder, Observable.map, h₁.subscribed,
    h₂.subscribed]
  rfl

/-- An edit, seen by the sink of `combineLatest`. -/
theorem Follows.combineLatest_accept (h₁ : Follows o₁ f₁) (h₂ : Follows o₂ f₂)
    (g : β₁ → β₂ → γ) (v : ρ → α) (e : ρ × α) :
    (combineLatest o₁ o₂ g).accept ((combineLatest o₁ o₂ g).subscribe v).1 e.1 e.2 =
      ((((o₁.subscribe (edit v e)).1, (o₂.subscribe (edit v e)).1),
          ⟨some (f₁ (edit v e)), some (f₂ (edit v e))⟩),
        (o₁.sent v e).map (fun x => g x (f₂ v)) ++ (o₂.sent v e).map (g (f₁ (edit v e)))) := by
  have hfeed := LatestElements2.feed_ready g (f₁ v) (f₂ v) (o₁.sent v e) (o₂.sent v e)
  rw [h₁.last, h₂.last, Prod.ext_iff] at hfeed
  obtain ⟨hlatest, hresults⟩ := hfeed
  rw [h₁.combineLatest_subscribe h₂]
  exact Prod.ext (Prod.ext (Prod.ext (h₁.sinks v e) (h₂.sinks v e)) hlatest) hresults

theorem Follows.sent_combineLatest (h₁ : Follows o₁ f₁) (h₂ : Follows o₂ f₂)
    (g : β₁ → β₂ → γ) (v : ρ → α) (e : ρ × α) :
    (combineLatest o₁ o₂ g).sent v e =
      (o₁.sent v e).map (fun x => g x (f₂ v)) ++ (o₂.sent v e).map (g (f₁ (edit v e))) := by
  rw [sent, h₁.combineLatest_accept h₂]

theorem Follows.combineLatest (h₁ : Follows o₁ f₁) (h₂ : Follows o₂ f₂) (g : β₁ → β₂ → γ) :
    Follows (combineLatest o₁ o₂ g) fun v => g (f₁ v) (f₂ v) where
  subscribed v := congrArg Prod.snd (h₁.combineLatest_subscribe h₂ g v)
  sinks v e := by rw [h₁.combineLatest_accept h₂, h₁.combineLatest_subscribe h₂]
  last v e := by
    rw [h₁.sent_combineLatest h₂, getLastD_append, List.getLastD_map, h₁.last,
      List.getLastD_map, h₂.last]

end CombineLatest

section CombineLatest4

variable {o₁ : Observable ρ α β₁} {o₂ : Observable ρ α β₂} {o₃ : Observable ρ α β₃}
  {o₄ : Observable ρ α β₄} {f₁ : (ρ → α) → β₁} {f₂ : (ρ → α) → β₂} {f₃ : (ρ → α) → β₃}
  {f₄ : (ρ → α) → β₄}

theorem Follows.combineLatest4_subscribe (h₁ : Follows o₁ f₁) (h₂ : Follows o₂ f₂)
    (h₃ : Follows o₃ f₃) (h₄ : Follows o₄ f₄) (g : β₁ → β₂ → β₃ → β₄ → γ) (v : ρ → α) :
    (combineLatest4 o₁ o₂ o₃ o₄ g).subscribe v =
      ((((o₁.subscribe v).1, (o₂.subscribe v).1, (o₃.subscribe v).1, (o₄.subscribe v).1),
          ⟨some (f₁ v), some (f₂ v), some (f₃ v), some (f₄ v)⟩),
        [g (f₁ v) (f₂ v) (f₃ v) (f₄ v)]) := by
  simp only [Observable.combineLatest4, pipe, inOrder, Observable.map, h₁.subscribed,
    h₂.subscribed, h₃.subscribed, h₄.subscribed]
  rfl

/-- An edit, seen by the sink of `combineLatest` over four sources. -/
theorem Follows.combineLatest4_accept (h₁ : Follows o₁ f₁) (h₂ : Follows o₂ f₂)
    (h₃ : Follows o₃ f₃) (h₄ : Follows o₄ f₄) (g : β₁ → β₂ → β₃ → β₄ → γ) (v : ρ → α)
    (e : ρ × α) :
    (combineLatest4 o₁ o₂ o₃ o₄ g).accept ((combineLatest4 o₁ o₂ o₃ o₄ g).subscribe v).1 e.1 e.2 =
      ((((o₁.subscribe (edit v e)).1, (o₂.subscribe (edit v e)).1, (o₃.subscribe (edit v e)).1,
            (o₄.subscribe (edit v e)).1),
          ⟨some (f₁ (edit v e)), some (f₂ (edit v e)), some (f₃ (edit v e)),
            some (f₄ (edit v e))⟩),
        (o₁.sent v e).map (fun x => g x (f₂ v) (f₃ v) (f₄ v)) ++
          ((o₂.sent v e).map (fun x => g (f₁ (edit v e)) x (f₃ v) (f₄ v)) ++
            ((o₃.sent v e).map (fun x => g (f₁ (edit v e)) (f₂ (edit v e)) x (f₄ v)) ++
              (o₄.sent v e).map (g (f₁ (edit v e)) (f₂ (edit v e)) (f₃ (edit v e)))))) := by
  have hfeed := LatestElements4.feed_ready g (f₁ v) (f₂ v) (f₃ v) (f₄ v) (o₁.sent v e)
    (o₂.sent v e) (o₃.sent v e) (o₄.sent v e)
  rw [h₁.last, h₂.last, h₃.last, h₄.last, Prod.ext_iff] at hfeed
  obtain ⟨hlatest, hresults⟩ := hfeed
  rw [h₁.combineLatest4_subscribe h₂ h₃ h₄]
  have hsinks : ((o₁.accept (o₁.subscribe v).1 e.1 e.2).1, (o₂.accept (o₂.subscribe v).1 e.1 e.2).1,
      (o₃.accept (o₃.subscribe v).1 e.1 e.2).1, (o₄.accept (o₄.subscribe v).1 e.1 e.2).1) =
      ((o₁.subscribe (edit v e)).1, (o₂.subscribe (edit v e)).1, (o₃.subscribe (edit v e)).1,
        (o₄.subscribe (edit v e)).1) := by
    rw [h₁.sinks, h₂.sinks, h₃.sinks, h₄.sinks]
  exact Prod.ext (Prod.ext hsinks hlatest) hresults

theorem Follows.sent_combineLatest4 (h₁ : Follows o₁ f₁) (h₂ : Follows o₂ f₂)
    (h₃ : Follows o₃ f₃) (h₄ : Follows o₄ f₄) (g : β₁ → β₂ → β₃ → β₄ → γ) (v : ρ → α)
    (e : ρ × α) :
    (combineLatest4 o₁ o₂ o₃ o₄ g).sent v e =
      (o₁.sent v e).map (fun x => g x (f₂ v) (f₃ v) (f₄ v)) ++
        ((o₂.sent v e).map (fun x => g (f₁ (edit v e)) x (f₃ v) (f₄ v)) ++
          ((o₃.sent v e).map (fun x => g (f₁ (edit v e)) (f₂ (edit v e)) x (f₄ v)) ++
            (o₄.sent v e).map (g (f₁ (edit v e)) (f₂ (edit v e)) (f₃ (edit v e))))) := by
  rw [sent, h₁.combineLatest4_accept h₂ h₃ h₄]

theorem Follows.combineLatest4 (h₁ : Follows o₁ f₁) (h₂ : Follows o₂ f₂) (h₃ : Follows o₃ f₃)
    (h₄ : Follows o₄ f₄) (g : β₁ → β₂ → β₃ → β₄ → γ) :
    Follows (combineLatest4 o₁ o₂ o₃ o₄ g) fun v => g (f₁ v) (f₂ v) (f₃ v) (f₄ v) where
  subscribed v := congrArg Prod.snd (h₁.combineLatest4_subscribe h₂ h₃ h₄ g v)
  sinks v e := by
    rw [h₁.combineLatest4_accept h₂ h₃ h₄, h₁.combineLatest4_subscribe h₂ h₃ h₄]
  last v e := by
    rw [h₁.sent_combineLatest4 h₂ h₃ h₄, getLastD_append,
      List.getLastD_map (f := fun x => g x (f₂ v) (f₃ v) (f₄ v)), h₁.last, getLastD_append,
      List.getLastD_map (f := fun x => g (f₁ (edit v e)) x (f₃ v) (f₄ v)), h₂.last,
      getLastD_append, List.getLastD_map (f := fun x => g _ (f₂ (edit v e)) x (f₄ v)), h₃.last,
      List.getLastD_map, h₄.last]

end CombineLatest4

/-! ## Glitch freedom -/

/-- **Glitch freedom.** An edit sends the new value of `f` if it changed, and
nothing else. -/
structure GlitchFree [DecidableEq β] (o : Observable ρ α β) (f : (ρ → α) → β) : Prop
    extends Follows o f where
  quiet : ∀ v e, o.sent v e = if f v = f (edit v e) then [] else [f (edit v e)]

/-- With at most one element to an edit there is nothing in between to send. -/
theorem Follows.settles {o : Observable ρ α β} {f : (ρ → α) → β} (h : Follows o f) {v : ρ → α}
    {e : ρ × α} (hone : (o.sent v e).length ≤ 1) : Settles (f v) (f (edit v e)) (o.sent v e) := by
  have hlast := h.last v e
  match hsent : o.sent v e with
  | [] =>
      rw [hsent] at hlast
      exact hlast
  | [x] =>
      rw [hsent] at hlast
      exact ⟨.inr hlast, hlast⟩
  | _ :: _ :: _ =>
      rw [hsent] at hone
      simp only [List.length_cons] at hone
      omega

/-- `distinctUntilChanged` makes a chain glitch free whose elements only go from
the old value to the new one at each edit. -/
theorem Follows.glitchFree [DecidableEq β] {o : Observable ρ α β} {f : (ρ → α) → β}
    (h : Follows o f) (hsettles : ∀ v e, Settles (f v) (f (edit v e)) (o.sent v e)) :
    GlitchFree o.distinctUntilChanged f where
  toFollows := h.distinctUntilChanged
  quiet v e := by
    have hfeed := feed_distinctUntilChanged (hsettles v e)
    unfold sent
    rw [h.distinctUntilChanged_subscribe]
    exact (Prod.ext_iff.mp hfeed).2

/-! ## Runs -/

/-- The values of the relays after some edits. -/
def values (v : ρ → α) (edits : List (ρ × α)) : ρ → α := edits.foldl edit v

theorem values_append (v : ρ → α) (before after : List (ρ × α)) :
    values v (before ++ after) = values (values v before) after :=
  List.foldl_append

/-- The values of the relays after each of some edits. -/
def valuesAlong (v : ρ → α) : List (ρ × α) → List (ρ → α)
  | [] => []
  | e :: edits => edit v e :: valuesAlong (edit v e) edits

/-- What the sinks of a subscription send while relays accept values. -/
def sentFrom (o : Observable ρ α β) (s : o.Sinks) : List (ρ × α) → List β
  | [] => []
  | e :: edits => (o.accept s e.1 e.2).2 ++ o.sentFrom (o.accept s e.1 e.2).1 edits

/-- What a subscriber receives that subscribes while the relays hold `v`, at its
subscription and over the edits that follow. -/
def received (o : Observable ρ α β) (v : ρ → α) (edits : List (ρ × α)) : List β :=
  (o.subscribe v).2 ++ o.sentFrom (o.subscribe v).1 edits

variable {o : Observable ρ α β} {f : (ρ → α) → β}

theorem Follows.sentFrom_cons (h : Follows o f) (v : ρ → α) (e : ρ × α) (edits : List (ρ × α)) :
    o.sentFrom (o.subscribe v).1 (e :: edits) =
      o.sent v e ++ o.sentFrom (o.subscribe (edit v e)).1 edits := by
  rw [sentFrom, h.sinks]
  rfl

theorem Follows.sentFrom_append (h : Follows o f) (v : ρ → α) (before after : List (ρ × α)) :
    o.sentFrom (o.subscribe v).1 (before ++ after) =
      o.sentFrom (o.subscribe v).1 before ++
        o.sentFrom (o.subscribe (values v before)).1 after := by
  induction before generalizing v with
  | nil => rfl
  | cons e before ih =>
      rw [List.cons_append, h.sentFrom_cons, h.sentFrom_cons, ih, List.append_assoc]
      rfl

/-- One more edit. -/
theorem Follows.received_snoc (h : Follows o f) (v : ρ → α) (edits : List (ρ × α)) (e : ρ × α) :
    o.received v (edits ++ [e]) = o.received v edits ++ o.sent (values v edits) e := by
  rw [received, received, h.sentFrom_append, h.sentFrom_cons, sentFrom, List.append_nil,
    List.append_assoc]

/-- **The last element received** is `f` of the current values. -/
theorem Follows.getLast?_received (h : Follows o f) (v : ρ → α) (edits : List (ρ × α)) :
    (o.received v edits).getLast? = some (f (values v edits)) := by
  induction edits using List.reverseRecOn with
  | nil => rw [received, h.subscribed, sentFrom, List.append_nil]; rfl
  | append_singleton edits e ih =>
      rw [h.received_snoc, List.getLast?_append, ih]
      have hlast := h.last (values v edits) e
      rw [List.getLastD_eq_getLast?] at hlast
      cases hsent : (o.sent (values v edits) e).getLast? with
      -- an edit that sends nothing leaves `f` as it was
      | none =>
          rw [hsent, Option.getD_none] at hlast
          rw [Option.none_or, hlast, values_append]
          rfl
      | some x =>
          rw [hsent, Option.getD_some] at hlast
          rw [Option.some_or, hlast, values_append]
          rfl

/-- **Glitch-free runs.** A subscriber receives the value at its subscription
and the value after each edit, without consecutive repetitions. -/
theorem GlitchFree.received_eq [DecidableEq β] (h : GlitchFree o f) (v : ρ → α)
    (edits : List (ρ × α)) :
    o.received v edits = (f v :: (valuesAlong v edits).map f).destutter (· ≠ ·) := by
  induction edits generalizing v with
  | nil => rw [received, h.subscribed]; rfl
  | cons e edits ih =>
      -- after the edit the subscription is one made at the edited values
      have hrest := ih (edit v e)
      rw [received, h.subscribed, List.destutter_cons'] at hrest
      rw [received, h.subscribed, h.sentFrom_cons, h.quiet, List.destutter_cons', valuesAlong,
        List.map_cons]
      by_cases hsame : f v = f (edit v e)
      · rw [if_pos hsame, List.destutter'_cons_neg _ (not_not.mpr hsame), hsame]
        exact hrest
      · rw [if_neg hsame, List.destutter'_cons_pos _ hsame, ← hrest]
        rfl

end Observable

end SocialTimeline.Lib
