import SocialTimeline.App.Forms

/-!
# The submit buttons and what they submit

* **buttons** — each button observable follows the validity of its form
  (`combined_follows`, `isLoginButtonEnabled_follows`,
  `isPostButtonEnabled_follows`), and the create-account button shows nothing in
  between although an edited password reaches it twice
  (`create_account_button_received`);
* **submitting** — the submit functions test for nil where the buttons test for
  emptiness; `submit_agrees_iff` says when the two agree.
-/

namespace SocialTimeline

open Lib Lib.Observable

/-- A field with text in it: neither nil nor empty. -/
def Filled (text : Option String) : Prop := text ≠ none ∧ text ≠ some ""

instance (text : Option String) : Decidable (Filled text) :=
  inferInstanceAs (Decidable (text ≠ none ∧ text ≠ some ""))

theorem count_pos_iff (text : Option String) : 0 < count text ↔ Filled text := by
  cases text with
  | none => simp [count, Filled]
  | some text => simp [count, Filled, Nat.pos_iff_ne_zero]

/-! ## The create-account button -/

namespace CreateAccountViewModel

/-- All fields filled, and the passwords equal. -/
def Complete (value : Relay → Option String) : Prop :=
  Filled (value .email) ∧ Filled (value .password) ∧ Filled (value .confirmPassword) ∧
    value .password = value .confirmPassword

instance (value : Relay → Option String) : Decidable (Complete value) :=
  inferInstanceAs (Decidable (_ ∧ _ ∧ _ ∧ _))

theorem canCreateAccount_eq (value : Relay → Option String) :
    canCreateAccount (value .email) (value .password) (value .confirmPassword)
      (value .password == value .confirmPassword) = decide (Complete value) := by
  rw [Bool.eq_iff_iff, decide_eq_true_iff]
  simp only [canCreateAccount, Complete, ← count_pos_iff, gt_iff_lt, Bool.and_eq_true,
    decide_eq_true_iff, beq_iff_eq, and_assoc]

/-- `passwordMatches` sends one element at most to an edit, before
`distinctUntilChanged` too. -/
theorem passwordMatches_glitchFree :
    GlitchFree passwordMatches fun v => v .password == v .confirmPassword := by
  apply ((Follows.relay _).combineLatest (Follows.relay _) _).glitchFree
  rintro v ⟨relay, value⟩
  apply ((Follows.relay _).combineLatest (Follows.relay _) _).settles
  rw [(Follows.relay _).sent_combineLatest (Follows.relay _), sent_relay, sent_relay]
  cases relay <;> simp

/-- **The stale match.** The button's closure, run on a new password and the old
match, gives what it gave before the edit or what it gives after it: an old
mismatch disables, and an old match was of a confirmation that, if it is empty,
disables too. -/
theorem canCreateAccount_stale (email password confirm new : Option String) :
    let stale := canCreateAccount email new confirm (password == confirm)
    stale = canCreateAccount email password confirm (password == confirm) ∨
      stale = canCreateAccount email new confirm (new == confirm) := by
  intro stale
  by_cases hold : password = confirm
  · subst hold
    by_cases hnew : count new > 0
    · by_cases hconfirm : count password > 0 <;>
        simp [stale, canCreateAccount, hnew, hconfirm]
    · simp [stale, canCreateAccount, hnew]
  · have hmismatch : (password == confirm) = false := beq_eq_false_iff_ne.mpr hold
    simp [stale, canCreateAccount, hmismatch]

theorem canCreateAccount_swap (email password confirm : Option String) (matching : Bool) :
    canCreateAccount email password confirm matching =
      canCreateAccount email confirm password matching := by
  simp only [canCreateAccount, Bool.and_right_comm]

/-- The stale match after an edit of the confirmation. -/
theorem canCreateAccount_stale_confirm (email password confirm new : Option String) :
    let stale := canCreateAccount email password new (password == confirm)
    stale = canCreateAccount email password confirm (password == confirm) ∨
      stale = canCreateAccount email password new (password == new) := by
  have h := canCreateAccount_stale email confirm password new
  rw [BEq.comm (a := confirm), BEq.comm (a := new)] at h
  rw [canCreateAccount_swap email password new, canCreateAccount_swap email password confirm,
    canCreateAccount_swap email password new]
  exact h

/-- The observable before `distinctUntilChanged`. -/
theorem combined_follows :
    Follows (combineLatest4 (relay .email) (relay .password) (relay .confirmPassword)
      passwordMatches canCreateAccount) fun v => decide (Complete v) := by
  have h := (Follows.relay Relay.email).combineLatest4 (Follows.relay Relay.password)
    (Follows.relay Relay.confirmPassword) passwordMatches_glitchFree.toFollows canCreateAccount
  simpa only [canCreateAccount_eq] using h

/-- What an edit sends before `distinctUntilChanged`: the closure's value at the
edited field, with the old match, and its value at a changed match. -/
theorem combined_sent (v : Relay → Option String) (e : Relay × Option String) :
    (combineLatest4 (relay .email) (relay .password) (relay .confirmPassword) passwordMatches
      canCreateAccount).sent v e =
      canCreateAccount (edit v e .email) (edit v e .password) (edit v e .confirmPassword)
          (v .password == v .confirmPassword) ::
        if (v .password == v .confirmPassword) =
            (edit v e .password == edit v e .confirmPassword) then []
        else [decide (Complete (edit v e))] := by
  rw [(Follows.relay Relay.email).sent_combineLatest4 (Follows.relay Relay.password)
    (Follows.relay Relay.confirmPassword) passwordMatches_glitchFree.toFollows,
    sent_relay, sent_relay, sent_relay, passwordMatches_glitchFree.quiet,
    ← canCreateAccount_eq]
  by_cases hmatch : (v .password == v .confirmPassword) =
      (edit v e .password == edit v e .confirmPassword)
  all_goals
    simp only [hmatch, if_true, if_false, List.map_nil, List.map_cons]
    obtain ⟨relay, value⟩ := e
    cases relay <;> rfl

/-- **Glitch freedom of the create-account button.** -/
theorem isCreateAccountButtonEnabled_glitchFree :
    GlitchFree isCreateAccountButtonEnabled fun v => decide (Complete v) := by
  apply combined_follows.glitchFree
  intro v e
  by_cases hmatch : (v .password == v .confirmPassword) =
      (edit v e .password == edit v e .confirmPassword)
  -- an unchanged match is not sent again, so the edited field sends alone
  · apply combined_follows.settles
    rw [combined_sent, if_pos hmatch]
    exact Nat.le_refl 1
  -- a changed match follows the value computed with the old one
  · rw [combined_sent, if_neg hmatch]
    refine ⟨?_, .inr rfl, rfl⟩
    rw [← canCreateAccount_eq, ← canCreateAccount_eq]
    obtain ⟨relay, value⟩ := e
    cases relay with
    | email => exact absurd rfl hmatch
    | password => exact canCreateAccount_stale _ _ _ _
    | confirmPassword => exact canCreateAccount_stale_confirm _ _ _ _

/-- **What the create-account button receives.** Whatever was edited before the
subscription and whatever is edited after it, the subscriber receives the
validity of the form at its subscription and after each edit, without
consecutive repetitions; and each further edit sends it the new validity, if it
changed, and nothing else. -/
theorem create_account_button_received (before after : List (Relay × Option String)) :
    let atSubscription := values initialFields before
    let received := isCreateAccountButtonEnabled.received atSubscription
    received after =
        ((atSubscription :: valuesAlong atSubscription after).map
          fun v => decide (Complete v)).destutter (· ≠ ·) ∧
      ∀ e, received (after ++ [e]) = received after ++
        if Complete (values atSubscription after) ↔ Complete (values atSubscription (after ++ [e]))
        then [] else [decide (Complete (values atSubscription (after ++ [e])))] := by
  intro atSubscription received
  refine ⟨isCreateAccountButtonEnabled_glitchFree.received_eq atSubscription after, ?_⟩
  intro e
  have hsnoc := isCreateAccountButtonEnabled_glitchFree.received_snoc atSubscription after e
  rw [isCreateAccountButtonEnabled_glitchFree.quiet] at hsnoc
  simp only [received, hsnoc, values_append, decide_eq_decide]
  rfl

/-- The repository's own test of the button. -/
example : isCreateAccountButtonEnabled.received initialFields
    [(.email, some "test@email.com"), (.password, some "password"),
      (.confirmPassword, some "password")] = [false, true] := by decide

end CreateAccountViewModel

/-! ## The other buttons -/

namespace SignInViewModel

/-- Both fields filled. -/
def Complete (value : Relay → Option String) : Prop :=
  Filled (value .email) ∧ Filled (value .password)

instance (value : Relay → Option String) : Decidable (Complete value) :=
  inferInstanceAs (Decidable (_ ∧ _))

theorem canLogin_eq (value : Relay → Option String) :
    canLogin (value .email) (value .password) = decide (Complete value) := by
  rw [Bool.eq_iff_iff, decide_eq_true_iff]
  simp only [canLogin, Complete, ← count_pos_iff, gt_iff_lt, Bool.and_eq_true,
    decide_eq_true_iff]

theorem isLoginButtonEnabled_follows :
    Follows isLoginButtonEnabled fun v => decide (Complete v) := by
  have h := ((Follows.relay Relay.email).combineLatest (Follows.relay Relay.password)
    canLogin).distinctUntilChanged
  simp only [canLogin_eq] at h
  exact h

end SignInViewModel

namespace NewPostViewModel

/-- The message is filled. -/
def Complete (value : Relay → Option String) : Prop := Filled (value .postMessage)

instance (value : Relay → Option String) : Decidable (Complete value) :=
  inferInstanceAs (Decidable (Filled _))

theorem isPostButtonEnabled_follows :
    Follows isPostButtonEnabled fun v => decide (Complete v) := by
  have h := (Follows.relay Relay.postMessage).map fun text : Option String =>
    decide (count text > 0)
  have hcomplete : ∀ v, decide (count (v Relay.postMessage) > 0) = decide (Complete v) :=
    fun v => decide_eq_decide.mpr (count_pos_iff _)
  simp only [hcomplete] at h
  exact h

end NewPostViewModel

/-! ## Submitting -/

/-- After edits before and after the subscription of the button, the submit
function hands a call to a service exactly if the last value of the button is
true, the call carries the current fields, and it ends in an error of its own
otherwise. -/
def SubmitAgrees {ρ : Type} [DecidableEq ρ] (button : Observable ρ (Option String) Bool)
    (submit : (ρ → Option String) → Except TimelineError ServiceCall)
    (Carries : (ρ → Option String) → ServiceCall → Prop)
    (before after : List (ρ × Option String)) : Prop :=
  let current := values initialFields (before ++ after)
  let lastEnabled := (button.received (values initialFields before) after).getLast?
  match submit current with
  | .ok call => lastEnabled = some true ∧ Carries current call
  | .error _ => lastEnabled ≠ some true

/-- Where a submit function carries what it reads, agreement is that it passes
exactly the complete forms on. -/
theorem submitAgrees_iff_passes {ρ : Type} [DecidableEq ρ]
    {button : Observable ρ (Option String) Bool}
    {submit : (ρ → Option String) → Except TimelineError ServiceCall}
    {Carries : (ρ → Option String) → ServiceCall → Prop}
    {Complete : (ρ → Option String) → Prop} [DecidablePred Complete]
    (hfollows : Follows button fun v => decide (Complete v))
    (hcarries : ∀ v call, submit v = .ok call → Carries v call)
    (before after : List (ρ × Option String)) :
    SubmitAgrees button submit Carries before after ↔
      ((∃ call, submit (values initialFields (before ++ after)) = .ok call) ↔
        Complete (values initialFields (before ++ after))) := by
  have hlast := hfollows.getLast?_received (values initialFields before) after
  rw [← values_append] at hlast
  simp only [SubmitAgrees, hlast, Option.some.injEq, decide_eq_true_iff]
  cases hsubmit : submit (values initialFields (before ++ after)) with
  | ok call =>
      have hcall := hcarries _ call hsubmit
      simp [hcall]
  | error error => simp

namespace CreateAccountViewModel

/-- The call carries the three fields as they are. -/
def Carries (value : Relay → Option String) : ServiceCall → Prop
  | .createAccount username password confirmPassword =>
      value .email = some username ∧ value .password = some password ∧
        value .confirmPassword = some confirmPassword
  | _ => False

theorem createAccount_ok {value : Relay → Option String} {call : ServiceCall}
    (h : createAccount value = .ok call) : Carries value call := by
  unfold createAccount at h
  split at h
  · next email password confirm hemail hpassword hconfirm =>
      split at h
      · cases h
        exact ⟨hemail, hpassword, hconfirm⟩
      · cases h
  · cases h

theorem Relay.forall_iff {P : Relay → Prop} :
    (∀ relay, P relay) ↔ P .email ∧ P .password ∧ P .confirmPassword := by
  constructor
  · exact fun h => ⟨h _, h _, h _⟩
  · rintro ⟨hemail, hpassword, hconfirm⟩ relay
    cases relay <;> assumption

/-- Nothing but a nil field or different passwords is turned down. -/
theorem createAccount_passes_iff (value : Relay → Option String) :
    (∃ call, createAccount value = .ok call) ↔
      (∀ relay, value relay ≠ none) ∧ value .password = value .confirmPassword := by
  rw [Relay.forall_iff, createAccount]
  cases value .email <;> cases hpassword : value .password <;>
    cases hconfirm : value .confirmPassword <;> simp
  next password confirm =>
    by_cases hmatch : password = confirm <;> simp [hmatch]

theorem complete_iff (value : Relay → Option String) :
    Complete value ↔ (∀ relay, value relay ≠ none) ∧ (∀ relay, value relay ≠ some "") ∧
      value .password = value .confirmPassword := by
  rw [Relay.forall_iff, Relay.forall_iff]
  simp only [Complete, Filled]
  tauto

/-- Agreement of `createAccount` with its button. -/
theorem createAccount_agrees_iff (before after : List (Relay × Option String)) :
    let value := values initialFields (before ++ after)
    SubmitAgrees isCreateAccountButtonEnabled createAccount Carries before after ↔
      (∃ relay, value relay = none) ∨ value .password ≠ value .confirmPassword ∨
        ∀ relay, value relay ≠ some "" := by
  intro value
  rw [submitAgrees_iff_passes isCreateAccountButtonEnabled_glitchFree.toFollows
    (fun _ _ => createAccount_ok), createAccount_passes_iff, complete_iff, ← not_forall_not]
  tauto

end CreateAccountViewModel

namespace SignInViewModel

/-- The call carries the two fields as they are. -/
def Carries (value : Relay → Option String) : ServiceCall → Prop
  | .signIn username password => value .email = some username ∧ value .password = some password
  | _ => False

theorem login_ok {value : Relay → Option String} {call : ServiceCall}
    (h : login value = .ok call) : Carries value call := by
  unfold login at h
  split at h
  · next email password hemail hpassword =>
      cases h
      exact ⟨hemail, hpassword⟩
  · cases h

theorem Relay.forall_iff {P : Relay → Prop} : (∀ relay, P relay) ↔ P .email ∧ P .password := by
  constructor
  · exact fun h => ⟨h _, h _⟩
  · rintro ⟨hemail, hpassword⟩ relay
    cases relay <;> assumption

/-- Nothing but a nil field is turned down. -/
theorem login_passes_iff (value : Relay → Option String) :
    (∃ call, login value = .ok call) ↔ ∀ relay, value relay ≠ none := by
  rw [Relay.forall_iff, login]
  cases value .email <;> cases value .password <;> simp

theorem complete_iff (value : Relay → Option String) :
    Complete value ↔ (∀ relay, value relay ≠ none) ∧ ∀ relay, value relay ≠ some "" := by
  rw [Relay.forall_iff, Relay.forall_iff]
  simp only [Complete, Filled]
  tauto

/-- Agreement of `login` with its button. -/
theorem login_agrees_iff (before after : List (Relay × Option String)) :
    let value := values initialFields (before ++ after)
    SubmitAgrees isLoginButtonEnabled login Carries before after ↔
      (∃ relay, value relay = none) ∨ ∀ relay, value relay ≠ some "" := by
  intro value
  rw [submitAgrees_iff_passes isLoginButtonEnabled_follows (fun _ _ => login_ok), login_passes_iff,
    complete_iff, ← not_forall_not]
  tauto

end SignInViewModel

namespace NewPostViewModel

/-- The call carries the message as it is, and the poster. -/
def Carries (user : User) (value : Relay → Option String) : ServiceCall → Prop
  | .createPost message poster => value .postMessage = some message ∧ poster = user
  | _ => False

theorem addPost_ok {user : User} {value : Relay → Option String} {call : ServiceCall}
    (h : addPost user value = .ok call) : Carries user value call := by
  unfold addPost at h
  split at h
  · next message hmessage =>
      cases h
      exact ⟨hmessage, rfl⟩
  · cases h

/-- Nothing but a nil message is turned down. -/
theorem addPost_passes_iff (user : User) (value : Relay → Option String) :
    (∃ call, addPost user value = .ok call) ↔ value .postMessage ≠ none := by
  rw [addPost]
  cases value .postMessage <;> simp

/-- Agreement of `addPost` with its button. -/
theorem addPost_agrees_iff (user : User) (before after : List (Relay × Option String)) :
    let value := values initialFields (before ++ after)
    SubmitAgrees isPostButtonEnabled (addPost user) (Carries user) before after ↔
      value .postMessage ≠ some "" := by
  intro value
  rw [submitAgrees_iff_passes isPostButtonEnabled_follows (fun _ _ => addPost_ok),
    addPost_passes_iff, Complete, Filled]
  cases hmessage : value .postMessage <;> simp [value, hmessage]

end NewPostViewModel

section Forms

open CreateAccountViewModel SignInViewModel NewPostViewModel

/-- **When submitting agrees with the button.** At every point of every history
of edits: creating an account agrees if and only if a field is nil, or the
passwords differ, or no field is the empty string; signing in if and only if a
field is nil or none is the empty string; posting if and only if the message is
not the empty string. -/
theorem submit_agrees_iff
    (createBefore createAfter : List (CreateAccountViewModel.Relay × Option String))
    (signInBefore signInAfter : List (SignInViewModel.Relay × Option String))
    (user : User) (postBefore postAfter : List (NewPostViewModel.Relay × Option String)) :
    (SubmitAgrees isCreateAccountButtonEnabled createAccount CreateAccountViewModel.Carries
        createBefore createAfter ↔
      let value := values initialFields (createBefore ++ createAfter)
      (∃ relay, value relay = none) ∨ value .password ≠ value .confirmPassword ∨
        ∀ relay, value relay ≠ some "") ∧
    (SubmitAgrees isLoginButtonEnabled login SignInViewModel.Carries signInBefore signInAfter ↔
      let value := values initialFields (signInBefore ++ signInAfter)
      (∃ relay, value relay = none) ∨ ∀ relay, value relay ≠ some "") ∧
    (SubmitAgrees isPostButtonEnabled (addPost user) (NewPostViewModel.Carries user)
        postBefore postAfter ↔
      values initialFields (postBefore ++ postAfter) .postMessage ≠ some "") :=
  ⟨createAccount_agrees_iff createBefore createAfter, login_agrees_iff signInBefore signInAfter,
    addPost_agrees_iff user postBefore postAfter⟩

/-- Three new forms, their buttons disabled, hand empty strings to the services. -/
theorem empty_forms_submitted :
    createAccount initialFields = .ok (.createAccount "" "" "") ∧
    (isCreateAccountButtonEnabled.received initialFields []).getLast? = some false ∧
    ¬ SubmitAgrees isCreateAccountButtonEnabled createAccount CreateAccountViewModel.Carries
      [] [] ∧
    login initialFields = .ok (.signIn "" "") ∧
    (isLoginButtonEnabled.received initialFields []).getLast? = some false ∧
    ¬ SubmitAgrees isLoginButtonEnabled login SignInViewModel.Carries [] [] ∧
    addPost ⟨"mia", "1"⟩ initialFields = .ok (.createPost "" ⟨"mia", "1"⟩) ∧
    (isPostButtonEnabled.received initialFields []).getLast? = some false ∧
    ¬ SubmitAgrees isPostButtonEnabled (addPost ⟨"mia", "1"⟩)
      (NewPostViewModel.Carries ⟨"mia", "1"⟩) [] [] := by
  refine ⟨rfl, rfl, fun h => ?_, rfl, rfl, fun h => ?_, rfl, rfl, fun h => ?_⟩
  all_goals
    have henabled : some false = some true := h.1
    cases henabled

end Forms

end SocialTimeline
