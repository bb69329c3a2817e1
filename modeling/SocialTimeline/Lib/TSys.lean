import Mathlib.Data.List.Basic
import Mathlib.Data.List.Infix

/-!
# Labelled transition systems and their runs

A deterministic, partial, labelled transition system: one initial state and a
step that either refuses a label or moves to the next state. A run is a list of
labels; the state reached is a function of it.

* **run rules** — `run_append`, `run_snoc` take a run apart at any point;
* **history induction** (`run_induction`) — a relation between the labels so
  far and the state reached, kept by every accepted step, holds of every run;
* **properties of whole runs** — `Always` (every state along the run) and
  `EachStep` (every step of the run, seen from the state before it), with the
  rule that turns a guarded step lemma into a run lemma
  (`always_of_eachStep`);
* **simulation** (`run_of_simulation`) — steps that another system matches make
  runs that it matches;
* **descent** (`length_le_of_descent`, `exists_run_of_descent`) — a measure that
  falls bounds the runs, and with progress leads some run to its end;
* **history variables** (`history`) — values recorded along a run that the
  system itself does not read.
-/

namespace SocialTimeline.Lib

/-- A deterministic labelled transition system. -/
structure TSys (σ α : Type*) where
  init : σ
  step : σ → α → Option σ

namespace TSys

variable {σ α η : Type*} (M : TSys σ α)

/-- The state after a list of labels, if every one of them is accepted. -/
def runFrom (s : σ) : List α → Option σ
  | [] => some s
  | a :: as => (M.step s a).bind fun t => runFrom t as

/-- A run starts in the initial state. -/
def run (as : List α) : Option σ := M.runFrom M.init as

/-- The states some run ends in. -/
def Reachable (s : σ) : Prop := ∃ as, M.run as = some s

@[simp] theorem runFrom_nil (s : σ) : M.runFrom s [] = some s := rfl

theorem runFrom_cons (s : σ) (a : α) (as : List α) :
    M.runFrom s (a :: as) = (M.step s a).bind fun t => M.runFrom t as := rfl

@[simp] theorem run_nil : M.run [] = some M.init := rfl

theorem runFrom_append (s : σ) (as bs : List α) :
    M.runFrom s (as ++ bs) = (M.runFrom s as).bind fun t => M.runFrom t bs := by
  induction as generalizing s with
  | nil => rfl
  | cons a as ih =>
      simp only [List.cons_append, runFrom_cons, Option.bind_assoc]
      congr 1
      funext t
      exact ih t

theorem run_append (as bs : List α) :
    M.run (as ++ bs) = (M.run as).bind fun t => M.runFrom t bs :=
  M.runFrom_append M.init as bs

theorem run_snoc (as : List α) (a : α) :
    M.run (as ++ [a]) = (M.run as).bind fun t => M.step t a := by
  rw [run_append]
  congr 1
  funext t
  rw [runFrom_cons]
  cases M.step t a <;> rfl

theorem run_snoc_eq_some {as : List α} {a : α} {s : σ} :
    M.run (as ++ [a]) = some s ↔ ∃ t, M.run as = some t ∧ M.step t a = some s := by
  rw [run_snoc, Option.bind_eq_some_iff]

/-! ## Induction over runs -/

variable {M}

/-- **History induction.** What holds of the empty run and is kept by each
accepted step holds of every run, of its labels and its last state together. -/
theorem run_induction {P : List α → σ → Prop} (init : P [] M.init)
    (step : ∀ as a s t, M.run as = some s → P as s → M.step s a = some t → P (as ++ [a]) t)
    {as : List α} {s : σ} (hrun : M.run as = some s) : P as s := by
  induction as using List.reverseRecOn generalizing s with
  | nil =>
      rw [run_nil, Option.some.injEq] at hrun
      exact hrun ▸ init
  | append_singleton as a ih =>
      obtain ⟨t, ht, hstep⟩ := M.run_snoc_eq_some.mp hrun
      exact step as a t s ht (ih ht) hstep

/-- An invariant of the steps holds in every reachable state. -/
theorem Reachable.invariant {I : σ → Prop} (init : I M.init)
    (step : ∀ s a t, I s → M.step s a = some t → I t) {s : σ} (h : M.Reachable s) : I s := by
  obtain ⟨as, hrun⟩ := h
  exact run_induction (P := fun _ s => I s) init
    (fun _ a s t _ hs hstep => step s a t hs hstep) hrun

/-! ## Properties of whole runs -/

variable (M)

/-- `P` holds in every state along the run. -/
def Always (P : List α → σ → Prop) (as : List α) : Prop :=
  ∀ pre, pre <+: as → ∀ s, M.run pre = some s → P pre s

/-- Every step the run takes meets `C`, a condition on the labels so far, the
state before the step and the label. -/
def EachStep (C : List α → σ → α → Prop) (as : List α) : Prop :=
  ∀ pre a, pre ++ [a] <+: as → ∀ s t, M.run pre = some s → M.step s a = some t → C pre s a

variable {M}

/-- **Guarded runs.** If every step that meets `C` keeps `P`, then `P` holds in
every state of every run whose steps all meet `C`. -/
theorem always_of_eachStep {P : List α → σ → Prop} {C : List α → σ → α → Prop}
    (init : P [] M.init)
    (step : ∀ as a s t, M.run as = some s → P as s → C as s a → M.step s a = some t →
      P (as ++ [a]) t)
    {as : List α} (h : M.EachStep C as) : M.Always P as := by
  intro pre hpre
  induction pre using List.reverseRecOn with
  | nil =>
      intro s hs
      rw [run_nil, Option.some.injEq] at hs
      exact hs ▸ init
  | append_singleton pre a ih =>
      intro t ht
      obtain ⟨s, hs, hstep⟩ := M.run_snoc_eq_some.mp ht
      have hprev : P pre s := ih ((List.prefix_append pre [a]).trans hpre) s hs
      exact step pre a s t hs hprev (h pre a hpre s t hs hstep) hstep

/-- A condition on each step, one step longer. -/
theorem eachStep_snoc {C : List α → σ → α → Prop} {as : List α} {a : α} (h : M.EachStep C as)
    (hlast : ∀ s, M.run as = some s → C as s a) : M.EachStep C (as ++ [a]) := by
  intro pre b hpre s t hrun hstep
  rcases List.prefix_concat_iff.mp hpre with heq | hold
  · obtain ⟨rfl, hb⟩ := List.append_inj' heq rfl
    cases hb
    exact hlast s hrun
  · exact h pre b hold s t hrun hstep

/-- A condition that the labels meet by themselves. -/
theorem eachStep_of_forall {C : List α → σ → α → Prop} {as : List α}
    (h : ∀ a ∈ as, ∀ pre s, C pre s a) : M.EachStep C as :=
  fun pre a hpre s _ _ _ => h a (hpre.subset (List.mem_append_right _ List.mem_cons_self)) pre s

/-- **Simulation.** If another system can match every step that meets `C` from related
states, it can match every run whose steps all meet `C`. -/
theorem run_of_simulation {τ : Type*} {N : TSys τ α} {R : List α → σ → τ → Prop}
    {C : List α → σ → α → Prop} (init : R [] M.init N.init)
    (step : ∀ as a s t u, M.run as = some s → R as s u → C as s a → M.step s a = some t →
      ∃ v, N.step u a = some v ∧ R (as ++ [a]) t v)
    {as : List α} {s : σ} (h : M.EachStep C as) (hrun : M.run as = some s) :
    ∃ u, N.run as = some u ∧ R as s u := by
  induction as using List.reverseRecOn generalizing s with
  | nil =>
      rw [run_nil, Option.some.injEq] at hrun
      exact ⟨N.init, rfl, hrun ▸ init⟩
  | append_singleton as a ih =>
      obtain ⟨t, ht, hstep⟩ := M.run_snoc_eq_some.mp hrun
      have hbefore : M.EachStep C as := fun pre b hpre =>
        h pre b (hpre.trans (List.prefix_append as [a]))
      obtain ⟨u, hu, hrelated⟩ := ih hbefore ht
      obtain ⟨v, hmatch, hrelated'⟩ :=
        step as a t s u ht hrelated (h as a (List.prefix_refl _) t s ht hstep) hstep
      exact ⟨v, N.run_snoc_eq_some.mpr ⟨u, hu, hmatch⟩, hrelated'⟩

/-! ## Descent -/

/-- **Descent.** Where an invariant is kept and a measure falls with every step whose
label is in `C`, a run of such labels is no longer than the measure it starts from. -/
theorem length_le_of_descent {I : σ → Prop} {C : α → Prop} {μ : σ → Nat}
    (step : ∀ s a t, I s → C a → M.step s a = some t → I t ∧ μ t < μ s)
    {as : List α} {s t : σ} (hs : I s) (has : ∀ a ∈ as, C a) (hrun : M.runFrom s as = some t) :
    as.length + μ t ≤ μ s ∧ I t := by
  induction as generalizing s with
  | nil =>
      cases hrun
      exact ⟨by simp, hs⟩
  | cons a as ih =>
      rw [runFrom_cons, Option.bind_eq_some_iff] at hrun
      obtain ⟨u, hstep, hrest⟩ := hrun
      obtain ⟨hu, hlt⟩ := step s a u hs (has a List.mem_cons_self) hstep
      obtain ⟨hle, ht⟩ := ih hu (fun b hb => has b (List.mem_cons_of_mem a hb)) hrest
      refine ⟨?_, ht⟩
      rw [List.length_cons]
      omega

/-- If moreover such a step can be taken until `D` holds, some run of them ends with
`D`. -/
theorem exists_run_of_descent {I : σ → Prop} {C : α → Prop} {D : σ → Prop} {μ : σ → Nat}
    (step : ∀ s a t, I s → C a → M.step s a = some t → I t ∧ μ t < μ s)
    (progress : ∀ s, I s → D s ∨ ∃ a t, C a ∧ M.step s a = some t) {s : σ} (hs : I s) :
    ∃ as t, (∀ a ∈ as, C a) ∧ M.runFrom s as = some t ∧ D t := by
  induction hn : μ s using Nat.strong_induction_on generalizing s with
  | h n ih =>
      rcases progress s hs with hdone | ⟨a, u, ha, hstep⟩
      · exact ⟨[], s, nofun, rfl, hdone⟩
      · obtain ⟨hu, hlt⟩ := step s a u hs ha hstep
        obtain ⟨as, t, has, hrun, hdone⟩ := ih (μ u) (hn ▸ hlt) hu rfl
        refine ⟨a :: as, t, List.forall_mem_cons.mpr ⟨ha, has⟩, ?_, hdone⟩
        rw [runFrom_cons, hstep]
        exact hrun

/-! ## History variables -/

variable (M)

/-- The value of a history variable after some labels: `record` sees each
accepted step with the states on both sides of it. -/
def historyFrom (record : η → σ → α → σ → η) (h : η) (s : σ) : List α → η
  | [] => h
  | a :: as =>
      match M.step s a with
      | none => h
      | some t => historyFrom record (record h s a t) t as

/-- A history variable recorded from the start of the run. -/
def history (record : η → σ → α → σ → η) (h : η) (as : List α) : η :=
  M.historyFrom record h M.init as

theorem historyFrom_append (record : η → σ → α → σ → η) {as : List α} {s t : σ}
    (hrun : M.runFrom s as = some t) (h : η) (bs : List α) :
    M.historyFrom record h s (as ++ bs) =
      M.historyFrom record (M.historyFrom record h s as) t bs := by
  induction as generalizing h s with
  | nil =>
      rw [runFrom_nil, Option.some.injEq] at hrun
      subst hrun
      rfl
  | cons a as ih =>
      rw [runFrom_cons, Option.bind_eq_some_iff] at hrun
      obtain ⟨u, hstep, hrest⟩ := hrun
      simp only [List.cons_append, historyFrom, hstep]
      exact ih hrest (record h s a u)

/-- One more step records once more. -/
theorem history_snoc (record : η → σ → α → σ → η) (h : η) {as : List α} {a : α} {s t : σ}
    (hrun : M.run as = some s) (hstep : M.step s a = some t) :
    M.history record h (as ++ [a]) = record (M.history record h as) s a t := by
  unfold history
  rw [historyFrom_append M record hrun]
  simp only [historyFrom, hstep]

end TSys

end SocialTimeline.Lib
