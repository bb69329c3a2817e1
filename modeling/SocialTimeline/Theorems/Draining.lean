import SocialTimeline.System.Keys
import Mathlib.Algebra.BigOperators.Group.Finset.Basic
import Mathlib.Algebra.Order.BigOperators.Group.Finset

/-!
# Whatever is under way comes to its end

Once the users stop, what is under way is the writes in flight, the completion
blocks that are due and the events not delivered. Each step of that takes some of
it away, although a write taken may raise an event to every open client
(`load_next`); so it ends within a bound, in whatever order it is done, and never
stops half way (`timeline_drains`).
-/

namespace SocialTimeline

open FirebaseTimelineService Lib

/-- A step of what is under way: the server answers a write, a completion block
runs, an event is delivered. -/
def Act.Settles : Act → Prop
  | .move (.createdPost _ _ _) => True
  | .move (.commit _ _) => True
  | .move (.reject _ _) => True
  | .turn _ .deliver => True
  | _ => False

/-- The moves a write still makes: a first write is taken, acknowledged and followed
by its update. -/
def FirebaseTimelineService.Write.work : Write → Nat
  | .setValue _ _ => 3
  | .updateChildValues _ _ => 1
  | .removeValue _ => 1

theorem FirebaseTimelineService.Write.work_pos (write : Write) : 0 < write.work := by
  cases write <;> exact Nat.succ_pos _

namespace State

/-- The moves still to come of the writes in flight. -/
def sentWork : List (ClientId × Write) → Nat
  | [] => 0
  | e :: sent => e.2.work + sentWork sent

/-- The moves still to come of the writes made so far. -/
def work (s : State) : Nat := sentWork s.sent + 2 * s.acknowledged.length

/-- Nothing is under way. -/
structure Drained (s : State) : Prop where
  sent : s.sent = []
  acknowledged : s.acknowledged = []
  delivered : ∀ client, (s.clients client).inbox = []

/-- All other clients are where they started. -/
def OpenWithin (clients : Finset ClientId) (s : State) : Prop :=
  ∀ client ∉ clients, (s.clients client).stage = .opened

/-- What is under way, with room for the events it may still raise. -/
def load (clients : Finset ClientId) (s : State) : Nat :=
  s.work * (clients.card + 1) + ∑ client ∈ clients, (s.clients client).inbox.length

variable {env : Env} {s : State}

theorem sentWork_append (sent : List (ClientId × Write)) (client : ClientId) (write : Write) :
    sentWork (sent ++ [(client, write)]) = sentWork sent + write.work := by
  induction sent with
  | nil => simp [sentWork]
  | cons e sent ih => simp only [List.cons_append, sentWork, ih, Nat.add_assoc]

theorem sentWork_erase {client : ClientId} {write : Write} {sent : List (ClientId × Write)}
    (h : (client, write) ∈ sent) :
    sentWork (sent.erase (client, write)) + write.work = sentWork sent := by
  induction sent with
  | nil => cases h
  | cons e sent ih =>
      by_cases he : e = (client, write)
      · subst he
        rw [List.erase_cons_head, Nat.add_comm]
        rfl
      · have hmem := (List.mem_cons.mp h).resolve_left (Ne.symm he)
        rw [List.erase_cons_tail (by simpa using he)]
        simp only [sentWork]
        rw [Nat.add_assoc, ih hmem]

/-- A settling move does some of the work. -/
theorem work_moved {move : Move} (hmove : s.Movable move) (hsettles : (Act.move move).Settles) :
    (moved env s move).work < s.work := by
  cases move with
  | createPost client key message now => exact hsettles.elim
  | removePost client key => exact hsettles.elim
  | createdPost client key now =>
      -- the completion block that was due becomes an update in flight
      have hlength := List.length_erase_of_mem hmove
      have hpos := List.length_pos_of_mem hmove
      show sentWork (s.sent ++ [(client, .updateChildValues key now)]) +
        2 * (s.acknowledged.erase (client, key)).length <
          sentWork s.sent + 2 * s.acknowledged.length
      rw [sentWork_append, hlength]
      show sentWork s.sent + 1 + _ < _
      omega
  | reject client write =>
      have hsum := sentWork_erase hmove
      have hpos := write.work_pos
      show sentWork (s.sent.erase (client, write)) + 2 * s.acknowledged.length <
        sentWork s.sent + 2 * s.acknowledged.length
      omega
  | commit client write =>
      have hsum := sentWork_erase hmove
      have hpos := write.work_pos
      cases write with
      | setValue key post =>
          -- a first write taken makes its completion block due
          have hwork : (Write.setValue key post).work = 3 := rfl
          show sentWork (s.sent.erase (client, .setValue key post)) +
            2 * (s.acknowledged ++ [(client, key)]).length <
              sentWork s.sent + 2 * s.acknowledged.length
          rw [List.length_append, List.length_singleton]
          omega
      | updateChildValues key timestamp =>
          show sentWork (s.sent.erase (client, .updateChildValues key timestamp)) +
            2 * s.acknowledged.length < sentWork s.sent + 2 * s.acknowledged.length
          omega
      | removeValue key =>
          show sentWork (s.sent.erase (client, .removeValue key)) +
            2 * s.acknowledged.length < sentWork s.sent + 2 * s.acknowledged.length
          omega

/-- A move raises at most one event to a client. -/
theorem inbox_move (move : Move) (client : ClientId) :
    ((next env s (.move move)).clients client).inbox.length ≤
      (s.clients client).inbox.length + 1 := by
  show ((s.clients client).inbox ++ _).length ≤ _
  rw [List.length_append]
  cases (raised env s move client).filter _ <;> simp

/-- A delivery takes one event from one inbox. -/
theorem sum_inbox_deliver {clients : Finset ClientId} {client : ClientId} (hmem : client ∈ clients)
    (hinbox : (s.clients client).inbox ≠ []) :
    ∑ c ∈ clients, ((next env s (.turn client .deliver)).clients c).inbox.length <
      ∑ c ∈ clients, (s.clients c).inbox.length := by
  have hown : ((next env s (.turn client .deliver)).clients client).inbox.length <
      (s.clients client).inbox.length := by
    rw [clients_next_turn, turned]
    unfold Client.deliver
    split
    · rename_i hnil
      exact absurd hnil hinbox
    · rename_i event inbox hcons
      rw [hcons]
      exact Nat.lt_succ_self _
  refine Finset.sum_lt_sum ?_ ⟨client, hmem, hown⟩
  intro c hc
  by_cases heq : c = client
  · subst heq
    exact hown.le
  · rw [clients_next_turn_of_ne env s heq]

/-- **Step.** A settling step lightens the load, and opens no other client. -/
theorem load_next {clients : Finset ClientId} {act : Act} (hwell : s.WellKeyed)
    (hopen : s.OpenWithin clients) (hsettles : act.Settles) (henabled : s.Enabled env act) :
    (next env s act).OpenWithin clients ∧ (next env s act).load clients < s.load clients := by
  cases act with
  | move move =>
      refine ⟨fun client hclient => hopen client hclient, ?_⟩
      have hwork : (next env s (.move move)).work + 1 ≤ s.work := work_moved henabled hsettles
      have hsum : ∑ client ∈ clients, ((next env s (.move move)).clients client).inbox.length ≤
          ∑ client ∈ clients, (s.clients client).inbox.length + clients.card := by
        rw [Finset.card_eq_sum_ones, ← Finset.sum_add_distrib]
        exact Finset.sum_le_sum fun client _ => inbox_move move client
      have hmul := Nat.mul_le_mul_right (clients.card + 1) hwork
      rw [Nat.add_mul, Nat.one_mul] at hmul
      unfold load
      omega
  | turn client turn =>
      cases turn with
      | retrieve children => exact hsettles.elim
      | observeChanged => exact hsettles.elim
      | observeRemoved => exact hsettles.elim
      | deliver =>
          have hmem : client ∈ clients := by
            by_contra hclient
            exact henabled ((hwell.clients client).opened (hopen client hclient)).1
          refine ⟨?_, Nat.add_lt_add_left (sum_inbox_deliver hmem henabled) _⟩
          intro c hc
          have hne : c ≠ client := by
            rintro rfl
            exact hc hmem
          rw [clients_next_turn_of_ne env s hne]
          exact hopen c hc

/-- Where something is under way, a settling step can be taken. -/
theorem drained_or_settles (env : Env) (s : State) :
    s.Drained ∨ ∃ act t, act.Settles ∧ (timeline env).step s act = some t := by
  by_cases hdrained : s.Drained
  · exact .inl hdrained
  · have hsome : ∃ act, act.Settles ∧ s.Enabled env act := by
      by_contra hnone
      refine hdrained ⟨?_, ?_, ?_⟩
      · refine List.eq_nil_iff_forall_not_mem.mpr fun e he => hnone ?_
        exact ⟨.move (.commit e.1 e.2), trivial, he⟩
      · refine List.eq_nil_iff_forall_not_mem.mpr fun e he => hnone ?_
        exact ⟨.move (.createdPost e.1 e.2 0), trivial, he⟩
      · intro client
        by_contra hinbox
        exact hnone ⟨.turn client .deliver, trivial, hinbox⟩
    obtain ⟨act, hsettles, henabled⟩ := hsome
    exact .inr ⟨act, s.next env act, hsettles, step_eq_some.mpr ⟨henabled, rfl⟩⟩

end State

/-- Finitely many clients have done anything. -/
theorem openWithin {env : Env} {s : State} (h : (timeline env).Reachable s) :
    ∃ clients, s.OpenWithin clients := by
  refine h.invariant (I := fun s => ∃ clients, s.OpenWithin clients)
    ⟨∅, fun _ _ => rfl⟩ ?_
  rintro s act t ⟨clients, hopen⟩ hstep
  obtain ⟨henabled, rfl⟩ := step_eq_some.mp hstep
  cases act with
  | move move => exact ⟨clients, fun client hclient => hopen client hclient⟩
  | turn reader turn =>
      refine ⟨insert reader clients, ?_⟩
      intro client hclient
      rw [Finset.mem_insert, not_or] at hclient
      rw [State.clients_next_turn_of_ne env s hclient.1]
      exact hopen client hclient.2

/-- **The timeline drains.** From every reachable state, whatever the order in which
the server answers, completion blocks run and events are delivered: there is a bound
on how many such steps can follow one another, the next one can be taken as long as
anything is under way, and so some sequence of them leaves nothing under way. -/
theorem timeline_drains {env : Env} {s : State} (h : (timeline env).Reachable s) :
    (∃ bound, ∀ acts t, (∀ act ∈ acts, act.Settles) → (timeline env).runFrom s acts = some t →
        acts.length ≤ bound ∧
          (t.Drained ∨ ∃ act u, act.Settles ∧ (timeline env).step t act = some u)) ∧
      ∃ acts t, (∀ act ∈ acts, act.Settles) ∧ (timeline env).runFrom s acts = some t ∧
        t.Drained := by
  obtain ⟨clients, hopen⟩ := openWithin h
  have hstep : ∀ s act t, (s.WellKeyed ∧ s.OpenWithin clients) → act.Settles →
      (timeline env).step s act = some t →
        (t.WellKeyed ∧ t.OpenWithin clients) ∧ t.load clients < s.load clients := by
    rintro s act t ⟨hwell, hopen⟩ hsettles hstep
    obtain ⟨henabled, rfl⟩ := step_eq_some.mp hstep
    obtain ⟨hopen', hload⟩ := State.load_next hwell hopen hsettles henabled
    exact ⟨⟨hwell.next henabled, hopen'⟩, hload⟩
  refine ⟨⟨s.load clients, fun acts t hacts hrun => ⟨?_, State.drained_or_settles env t⟩⟩, ?_⟩
  · have hle := (TSys.length_le_of_descent hstep ⟨wellKeyed h, hopen⟩ hacts hrun).1
    omega
  · exact TSys.exists_run_of_descent hstep (fun t _ => State.drained_or_settles env t)
      ⟨wellKeyed h, hopen⟩

/-- After a device has posted to an open one, some steps deliver it all. -/
theorem timeline_drains_posting :
    ∃ s, (timeline (devices .committed)).run (opening ++ posting) = some s ∧ ¬ s.Drained ∧
      ∃ acts t, (∀ act ∈ acts, act.Settles) ∧
        (timeline (devices .committed)).runFrom s acts = some t ∧ t.Drained := by
  have hrun : ((timeline (devices .committed)).run (opening ++ posting)).map
      (fun s => (s.clients 1).inbox.length) = some 1 := by rfl
  obtain ⟨s, hs, hinbox⟩ := Option.map_eq_some_iff.mp hrun
  refine ⟨s, hs, fun hdrained => ?_, (timeline_drains ⟨_, hs⟩).2⟩
  rw [hdrained.delivered 1] at hinbox
  cases hinbox

end SocialTimeline
