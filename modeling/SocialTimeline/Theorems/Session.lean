import SocialTimeline.App.Session

/-!
# The session over whole runs

`Screens` lists the situations the app can be in: a form at rest, a form whose request
is out and whose HUD covers it, and the timeline of the user who signed in. Every step
leads from one of them to another (`Consistent.next`), so every run ends in one
(`consistent_of_run`).

The app keeps to the user who signed in (`signedIn`); `Auth` does, or it has signed that
user out by force.
-/

namespace SocialTimeline

open FirebaseTimelineService Lib

/-- A request to `Auth`. -/
def Request.auth (request : Request) : Bool :=
  match request.call with
  | .createPost _ _ => false
  | _ => true

namespace Session

/-- No new post is presented. -/
def NoPost : Option Presented → Prop
  | some (.newPost _ _ _) => False
  | _ => True

/-- What is presented over the timeline of a user. -/
def PostOf (user : User) : Option Presented → Prop
  | some (.newPost _ author _) => author = user
  | _ => True

/-- Whom the app takes to be signed in after a label: the last to sign in, until log-out. -/
def Act.signs (owner : Option AuthUser) : Act → Option AuthUser
  | .answer request (some user) _ => if request.auth then some user else owner
  | .logoutPressed none => none
  | _ => owner

/-- Whom the app takes to be signed in after a run. -/
def signedIn (currentUser : Option AuthUser) (acts : List Act) : Option AuthUser :=
  acts.foldl Act.signs currentUser

/-- The situations: requests to `Auth` that are out, and the navigation stack. -/
inductive Screens (owner : Option AuthUser) (presented : Option Presented) :
    List Request → List ViewController → Prop
  | signIn (id viewModel) (h : NoPost presented) :
      Screens owner presented [] [⟨id, .signIn viewModel, 0⟩]
  | signingIn (id viewModel username password) (h : presented = none) :
      Screens owner presented [⟨id, .signIn username password⟩]
        [⟨id, .signIn viewModel, 1⟩]
  | account (id viewModel root fields) (hid : id ≠ root) (h : NoPost presented) :
      Screens owner presented []
        [⟨id, .createAccount viewModel, 0⟩, ⟨root, .signIn fields, 0⟩]
  | creatingAccount (id viewModel root fields username password confirmPassword)
      (hid : id ≠ root) (h : presented = none) :
      Screens owner presented [⟨id, .createAccount username password confirmPassword⟩]
        [⟨id, .createAccount viewModel, 1⟩, ⟨root, .signIn fields, 0⟩]
  | timeline (id controller root fields user) (hid : id ≠ root)
      (howner : owner = some user) (huser : controller.viewModel.user = firebaseUser user)
      (h : PostOf (firebaseUser user) presented) :
      Screens owner presented []
        [⟨id, .timeline controller, 0⟩, ⟨root, .signIn fields, 0⟩]

/-- The screens of a session, with ids that were given out. -/
structure Consistent (owner : Option AuthUser) (s : Session) : Prop where
  screens : Screens owner s.presented (s.requests.filter Request.auth) s.viewControllers
  ids : ∀ vc ∈ s.viewControllers, vc.id < s.nextId

/-! ## Requests -/

theorem filter_auth_snoc (requests : List Request) (request : Request) :
    (requests ++ [request]).filter Request.auth =
      requests.filter Request.auth ++ if request.auth then [request] else [] := by
  rw [List.filter_append]
  cases h : request.auth <;> simp [h]

/-- A request to `Auth` that is out is the only one, and none is left without it. -/
theorem filter_auth_erase {requests : List Request} {request other : Request}
    (hmem : request ∈ requests) (hauth : request.auth = true)
    (hout : requests.filter Request.auth = [other]) :
    request = other ∧ (requests.erase request).filter Request.auth = [] := by
  have hperm := (List.perm_cons_erase hmem).filter Request.auth
  rw [hout, List.filter_cons_of_pos hauth, List.singleton_perm] at hperm
  obtain ⟨rfl, htail⟩ := List.cons.inj hperm
  exact ⟨rfl, htail.symm⟩

theorem filter_erase_post {requests : List Request} {request : Request}
    (hpost : request.auth = false) :
    (requests.erase request).filter Request.auth = requests.filter Request.auth := by
  induction requests with
  | nil => rfl
  | cons other requests ih =>
      rw [List.erase_cons]
      split
      · rename_i heq
        rw [List.filter_cons_of_neg]
        simp [eq_of_beq heq, hpost]
      · rw [List.filter_cons, List.filter_cons, ih]

theorem signs_answer {request : Request} (hauth : request.auth = true) (owner : Option AuthUser)
    (user : AuthUser) (error : Option String) :
    Act.signs owner (.answer request (some user) error) = some user := if_pos hauth

theorem signs_answer_post {request : Request} (hpost : request.auth = false)
    (owner result : Option AuthUser) (error : Option String) :
    Act.signs owner (.answer request result error) = owner := by
  cases result with
  | none => rfl
  | some user => exact if_neg (by simp [hpost])

/-! ## Calls -/

theorem login_ok {viewModel : SignInViewModel.Relay → Option String} {call : ServiceCall}
    (h : SignInViewModel.login viewModel = .ok call) :
    ∃ username password, call = .signIn username password := by
  unfold SignInViewModel.login at h
  split at h
  · cases h
    exact ⟨_, _, rfl⟩
  · cases h

theorem createAccount_ok {viewModel : CreateAccountViewModel.Relay → Option String}
    {call : ServiceCall} (h : CreateAccountViewModel.createAccount viewModel = .ok call) :
    ∃ username password confirmPassword,
      call = .createAccount username password confirmPassword := by
  unfold CreateAccountViewModel.createAccount at h
  split at h
  · split at h
    · cases h
      exact ⟨_, _, _, rfl⟩
    · cases h
  · cases h

theorem addPost_ok {user : User} {viewModel : NewPostViewModel.Relay → Option String}
    {call : ServiceCall} (h : NewPostViewModel.addPost user viewModel = .ok call) :
    ∃ message, call = .createPost message user := by
  unfold NewPostViewModel.addPost at h
  split at h
  · cases h
    exact ⟨_, rfl⟩
  · cases h

/-! ## Steps -/

theorem touchable_eq_some {s : Session} {vc : ViewController} :
    s.touchable = some vc ↔
      (∃ vcs, s.viewControllers = vc :: vcs) ∧ s.presented = none ∧ vc.huds = 0 := by
  unfold touchable
  split
  · rename_i top vcs htop hnone
    rw [htop, hnone]
    by_cases hhuds : top.huds = 0
    · simp only [hhuds, if_true, Option.some.injEq, List.cons.injEq, true_and]
      constructor
      · rintro rfl
        exact ⟨⟨vcs, rfl, rfl⟩, hhuds⟩
      · rintro ⟨⟨_, heq, -⟩, -⟩
        exact heq
    · simp only [hhuds, if_false, List.cons.injEq, true_and]
      refine iff_of_false nofun ?_
      rintro ⟨⟨_, rfl, -⟩, hzero⟩
      exact hhuds hzero
  · rename_i hother
    refine iff_of_false nofun ?_
    rintro ⟨⟨vcs, htop⟩, hnone, -⟩
    exact hother vc vcs htop hnone

/-- An alert is not a new post. -/
theorem Consistent.alert {owner : Option AuthUser} {s : Session} (h : s.Consistent owner)
    (error : TimelineError) (hidle : s.requests.filter Request.auth = []) :
    (s.displayAppErrorAlert error).Consistent owner := by
  rcases s with ⟨currentUser, viewControllers, presented, requests, nextId⟩
  cases presented with
  | some p => exact h
  | none =>
      refine ⟨?_, h.ids⟩
      have hscreens := h.screens
      simp only at hidle hscreens
      show Screens owner _ (requests.filter Request.auth) viewControllers
      rw [hidle] at hscreens ⊢
      cases hscreens with
      | signIn id viewModel => exact .signIn id viewModel trivial
      | account id viewModel root fields hid => exact .account id viewModel root fields hid trivial
      | timeline id controller root fields user hid howner huser =>
          exact .timeline id controller root fields user hid howner huser trivial

/-- Typing keeps the screens. -/
theorem Screens.map {owner : Option AuthUser} {presented : Option Presented}
    {out : List Request} {vcs : List ViewController} (h : Screens owner presented out vcs)
    {f : ViewController → ViewController}
    (hsignIn : ∀ id viewModel huds, ∃ typed,
      f ⟨id, .signIn viewModel, huds⟩ = ⟨id, .signIn typed, huds⟩)
    (haccount : ∀ id viewModel huds, ∃ typed,
      f ⟨id, .createAccount viewModel, huds⟩ = ⟨id, .createAccount typed, huds⟩)
    (htimeline : ∀ id controller huds,
      f ⟨id, .timeline controller, huds⟩ = ⟨id, .timeline controller, huds⟩) :
    Screens owner presented out (vcs.map f) := by
  cases h with
  | signIn id viewModel h =>
      obtain ⟨typed, hf⟩ := hsignIn id viewModel 0
      rw [List.map_singleton, hf]
      exact .signIn id typed h
  | signingIn id viewModel username password h =>
      obtain ⟨typed, hf⟩ := hsignIn id viewModel 1
      rw [List.map_singleton, hf]
      exact .signingIn id typed username password h
  | account id viewModel root fields hid h =>
      obtain ⟨typed, hf⟩ := haccount id viewModel 0
      obtain ⟨typed', hf'⟩ := hsignIn root fields 0
      rw [List.map_cons, List.map_singleton, hf, hf']
      exact .account id typed root typed' hid h
  | creatingAccount id viewModel root fields username password confirmPassword hid h =>
      obtain ⟨typed, hf⟩ := haccount id viewModel 1
      obtain ⟨typed', hf'⟩ := hsignIn root fields 0
      rw [List.map_cons, List.map_singleton, hf, hf']
      exact .creatingAccount id typed root typed' username password confirmPassword hid h
  | timeline id controller root fields user hid howner huser h =>
      obtain ⟨typed', hf'⟩ := hsignIn root fields 0
      rw [List.map_cons, List.map_singleton, htimeline, hf']
      exact .timeline id controller root typed' user hid howner huser h

theorem Consistent.edit {owner : Option AuthUser} {s : Session} (h : s.Consistent owner)
    (id : Nat) {f : ScreenContent → ScreenContent}
    (hsignIn : ∀ viewModel, ∃ typed, f (.signIn viewModel) = .signIn typed)
    (haccount : ∀ viewModel, ∃ typed, f (.createAccount viewModel) = .createAccount typed)
    (htimeline : ∀ controller, f (.timeline controller) = .timeline controller) :
    (s.update id fun vc => { vc with content := f vc.content }).Consistent owner := by
  refine ⟨h.screens.map ?_ ?_ ?_, ?_⟩
  · intro id' viewModel huds
    obtain ⟨typed, hf⟩ := hsignIn viewModel
    by_cases hid : id' = id
    · exact ⟨typed, by simp only [hid, if_true, hf]⟩
    · exact ⟨viewModel, by simp only [hid, if_false]⟩
  · intro id' viewModel huds
    obtain ⟨typed, hf⟩ := haccount viewModel
    by_cases hid : id' = id
    · exact ⟨typed, by simp only [hid, if_true, hf]⟩
    · exact ⟨viewModel, by simp only [hid, if_false]⟩
  · intro id' controller huds
    simp only [htimeline, ite_self]
  · intro vc hvc
    obtain ⟨old, hold, rfl⟩ := List.mem_map.mp hvc
    have hlt := h.ids old hold
    simp only
    split <;> exact hlt

/-! ### HUDs -/

/-- A HUD that goes up and down again leaves nothing. -/
theorem update_hide_display (s : Session) (id : Nat) :
    (s.update id .displayLoadingHUD).update id .hideLoadingHUD = s := by
  unfold update
  rw [List.map_map]
  have hid : ((fun vc : ViewController => if vc.id = id then vc.hideLoadingHUD else vc) ∘
      fun vc => if vc.id = id then vc.displayLoadingHUD else vc) = fun vc => vc := by
    funext vc
    simp only [Function.comp]
    by_cases h : vc.id = id
    · rw [if_pos h, if_pos (show vc.displayLoadingHUD.id = id from h)]
      rfl
    · rw [if_neg h, if_neg h]
  rw [hid, List.map_id']

theorem submit_error (s : Session) (id : Nat) (error : TimelineError) :
    s.submit id (.error error) = s.displayAppErrorAlert error := by
  unfold submit
  simp only [update_hide_display]

theorem ids_update {s : Session} {id : Nat} {f : ViewController → ViewController}
    (hf : ∀ vc, (f vc).id = vc.id) (h : ∀ vc ∈ s.viewControllers, vc.id < s.nextId) :
    ∀ vc ∈ (s.update id f).viewControllers, vc.id < s.nextId := by
  intro vc hvc
  obtain ⟨old, hold, rfl⟩ := List.mem_map.mp hvc
  split
  · rw [hf]
    exact h old hold
  · exact h old hold

/-! ### Buttons -/

section

variable {owner : Option AuthUser} {s : Session} {id huds : Nat}

/-- Where the buttons of the sign-in screen can be pressed. -/
theorem Consistent.atSignIn (h : s.Consistent owner)
    {viewModel : SignInViewModel.Relay → Option String}
    (htouch : s.touchable = some ⟨id, .signIn viewModel, huds⟩) :
    s.viewControllers = [⟨id, .signIn viewModel, 0⟩] ∧ s.requests.filter Request.auth = [] ∧
      s.presented = none := by
  obtain ⟨⟨vcs, hvcs⟩, hpresented, hhuds⟩ := touchable_eq_some.mp htouch
  simp only at hhuds
  subst hhuds
  have hscreens := h.screens
  rw [hvcs, hpresented] at hscreens
  rw [hvcs]
  generalize s.requests.filter Request.auth = out at hscreens
  cases hscreens with
  | signIn => exact ⟨rfl, rfl, hpresented⟩

theorem Consistent.atAccount (h : s.Consistent owner)
    {viewModel : CreateAccountViewModel.Relay → Option String}
    (htouch : s.touchable = some ⟨id, .createAccount viewModel, huds⟩) :
    ∃ root fields, id ≠ root ∧
      s.viewControllers = [⟨id, .createAccount viewModel, 0⟩, ⟨root, .signIn fields, 0⟩] ∧
      s.requests.filter Request.auth = [] ∧ s.presented = none := by
  obtain ⟨⟨vcs, hvcs⟩, hpresented, hhuds⟩ := touchable_eq_some.mp htouch
  simp only at hhuds
  subst hhuds
  have hscreens := h.screens
  rw [hvcs, hpresented] at hscreens
  rw [hvcs]
  generalize s.requests.filter Request.auth = out at hscreens
  cases hscreens with
  | account _ _ root fields hid => exact ⟨root, fields, hid, rfl, rfl, hpresented⟩

theorem Consistent.atTimeline (h : s.Consistent owner) {controller : TimelineViewController}
    (htouch : s.touchable = some ⟨id, .timeline controller, huds⟩) :
    ∃ root fields user, id ≠ root ∧
      s.viewControllers = [⟨id, .timeline controller, 0⟩, ⟨root, .signIn fields, 0⟩] ∧
      s.requests.filter Request.auth = [] ∧ s.presented = none ∧ owner = some user ∧
      controller.viewModel.user = firebaseUser user := by
  obtain ⟨⟨vcs, hvcs⟩, hpresented, hhuds⟩ := touchable_eq_some.mp htouch
  have hscreens := h.screens
  rw [hvcs, hpresented] at hscreens
  rw [hvcs]
  generalize s.requests.filter Request.auth = out at hscreens
  cases hscreens with
  | timeline _ _ root fields user hid howner huser =>
      exact ⟨root, fields, user, hid, rfl, rfl, hpresented, howner, huser⟩

/-- A form at rest is submitted: its HUD goes up with the request, or its error is
shown at once. -/
theorem Consistent.loginPressed (h : s.Consistent owner)
    {viewModel : SignInViewModel.Relay → Option String}
    (htouch : s.touchable = some ⟨id, .signIn viewModel, huds⟩) :
    (s.loginPressed id viewModel).Consistent owner := by
  obtain ⟨hvcs, hout, hpresented⟩ := h.atSignIn htouch
  unfold Session.loginPressed
  cases hlogin : SignInViewModel.login viewModel with
  | error error =>
      rw [submit_error]
      exact h.alert error hout
  | ok call =>
      obtain ⟨username, password, rfl⟩ := login_ok hlogin
      refine ⟨?_, ids_update (fun _ => rfl) h.ids⟩
      simp only [submit, update, hvcs, List.map_singleton, if_true, filter_auth_snoc, hout]
      exact .signingIn id viewModel username password hpresented

theorem Consistent.createAccountPressed (h : s.Consistent owner)
    {viewModel : CreateAccountViewModel.Relay → Option String}
    (htouch : s.touchable = some ⟨id, .createAccount viewModel, huds⟩) :
    (s.createAccountPressed id viewModel).Consistent owner := by
  obtain ⟨root, fields, hid, hvcs, hout, hpresented⟩ := h.atAccount htouch
  unfold Session.createAccountPressed
  cases hcreate : CreateAccountViewModel.createAccount viewModel with
  | error error =>
      rw [submit_error]
      exact h.alert error hout
  | ok call =>
      obtain ⟨username, password, confirmPassword, rfl⟩ := createAccount_ok hcreate
      refine ⟨?_, ids_update (fun _ => rfl) h.ids⟩
      simp only [submit, update, hvcs, List.map_cons, List.map_nil, if_true, if_neg hid.symm,
        filter_auth_snoc, hout]
      exact .creatingAccount id viewModel root fields username password confirmPassword hid
        hpresented

theorem Consistent.showCreateAccount (h : s.Consistent owner)
    {viewModel : SignInViewModel.Relay → Option String}
    (htouch : s.touchable = some ⟨id, .signIn viewModel, huds⟩) :
    (s.pushViewController (.createAccount initialFields)).Consistent owner := by
  obtain ⟨hvcs, hout, hpresented⟩ := h.atSignIn htouch
  have hlt : id < s.nextId := h.ids ⟨id, .signIn viewModel, 0⟩ (hvcs ▸ List.mem_singleton_self _)
  refine ⟨?_, ?_⟩
  · simp only [pushViewController, hvcs, hout]
    refine .account s.nextId initialFields id viewModel (by omega) ?_
    rw [hpresented]
    trivial
  · intro vc hvc
    rcases List.mem_cons.mp hvc with rfl | hvc
    · exact Nat.lt_succ_self _
    · exact (h.ids vc hvc).trans (Nat.lt_succ_self _)

theorem popViewController_pair {top root : ViewController}
    (hvcs : s.viewControllers = [top, root]) :
    s.popViewController = { s with viewControllers := [root] } := by
  unfold popViewController
  rw [hvcs]

theorem Consistent.backPressed (h : s.Consistent owner)
    {viewModel : CreateAccountViewModel.Relay → Option String}
    (htouch : s.touchable = some ⟨id, .createAccount viewModel, huds⟩) :
    s.popViewController.Consistent owner := by
  obtain ⟨root, fields, hid, hvcs, hout, hpresented⟩ := h.atAccount htouch
  rw [popViewController_pair hvcs]
  refine ⟨?_, ?_⟩
  · simp only [hout, hpresented]
    exact .signIn root fields trivial
  · intro vc hvc
    exact h.ids vc (hvcs ▸ List.mem_cons_of_mem _ hvc)

theorem Consistent.logoutPressed (h : s.Consistent owner) {controller : TimelineViewController}
    (htouch : s.touchable = some ⟨id, .timeline controller, huds⟩) (thrown : Option String) :
    (s.logoutPressed thrown).Consistent (Act.signs owner (.logoutPressed thrown)) := by
  obtain ⟨root, fields, user, hid, hvcs, hout, hpresented, howner, huser⟩ := h.atTimeline htouch
  cases thrown with
  | some localizedDescription => exact h.alert _ hout
  | none =>
      show Consistent none (popViewController { s with currentUser := none })
      rw [popViewController_pair (s := { s with currentUser := none }) hvcs]
      refine ⟨?_, ?_⟩
      · simp only [hout, hpresented]
        exact .signIn root fields trivial
      · intro vc hvc
        exact h.ids vc (hvcs ▸ List.mem_cons_of_mem _ hvc)

theorem Consistent.newPostPressed (h : s.Consistent owner) {controller : TimelineViewController}
    (htouch : s.touchable = some ⟨id, .timeline controller, huds⟩) :
    (s.newPostPressed controller).Consistent owner := by
  obtain ⟨root, fields, user, hid, hvcs, hout, hpresented, howner, huser⟩ := h.atTimeline htouch
  unfold Session.newPostPressed present
  rw [if_neg (by simp [hpresented])]
  refine ⟨?_, fun vc hvc => (h.ids vc hvc).trans (Nat.lt_succ_self _)⟩
  simp only [hvcs, hout]
  exact .timeline id controller root fields user hid howner huser huser

/-! ### Answers -/

theorem mem_filter_auth {request : Request} (hmem : request ∈ s.requests)
    (hauth : request.auth = true) : request ∈ s.requests.filter Request.auth :=
  List.mem_filter.mpr ⟨hmem, hauth⟩

/-- The answer to a sign-in request finds its screen under its HUD, with nothing
presented; it opens the timeline or shows the error. -/
theorem Consistent.answer_signIn (h : s.Consistent owner) {request : Request}
    {username password : String} (hmem : request ∈ s.requests)
    (hcall : request.call = .signIn username password) :
    ∃ id viewModel, s.viewControllers = [⟨id, .signIn viewModel, 1⟩] ∧
      (s.requests.erase request).filter Request.auth = [] ∧
      (∀ user error, s.answer request (some user) error =
        { currentUser := some user
          viewControllers := [⟨s.nextId, .timeline (.opened (firebaseUser user)), 0⟩,
            ⟨id, .signIn viewModel, 0⟩]
          presented := none
          requests := s.requests.erase request
          nextId := s.nextId + 1 }) ∧
      ∀ error, s.answer request none error =
        { s with
          viewControllers := [⟨id, .signIn viewModel, 0⟩]
          presented := some (.alert "Authentication Error" error)
          requests := s.requests.erase request } := by
  have hauth : request.auth = true := by
    unfold Request.auth
    rw [hcall]
  have hscreens := h.screens
  have hin := mem_filter_auth hmem hauth
  generalize hout : s.requests.filter Request.auth = out at hscreens hin
  generalize hvcs : s.viewControllers = vcs at hscreens
  cases hscreens with
  | signingIn id viewModel username' password' hpresented =>
      obtain ⟨rfl, herase⟩ := filter_auth_erase hmem hauth hout
      refine ⟨id, viewModel, rfl, herase, ?_, ?_⟩
      · intro user error
        simp [answer, FirebaseAccountService.signIn, loggedIn, alive, update, pushViewController,
          ViewController.hideLoadingHUD, hvcs, hpresented]
      · intro error
        simp [answer, FirebaseAccountService.signIn, loggedIn, alive, update, displayAppErrorAlert,
          present, ErrorCode.title, ViewController.hideLoadingHUD, hvcs, hpresented]
  | creatingAccount id viewModel root fields username' password' confirmPassword =>
      obtain ⟨rfl, -⟩ := filter_auth_erase hmem hauth hout
      cases hcall
  | signIn => cases hin
  | account => cases hin
  | timeline => cases hin

/-- The answer to an account request finds its screen on top, under its HUD; it pops
that very screen or shows the error. -/
theorem Consistent.answer_createAccount (h : s.Consistent owner) {request : Request}
    {username password confirmPassword : String} (hmem : request ∈ s.requests)
    (hcall : request.call = .createAccount username password confirmPassword) :
    ∃ id viewModel root fields, id ≠ root ∧
      s.viewControllers = [⟨id, .createAccount viewModel, 1⟩, ⟨root, .signIn fields, 0⟩] ∧
      (s.requests.erase request).filter Request.auth = [] ∧
      (∀ user error, s.answer request (some user) error =
        { s with
          currentUser := some user
          viewControllers := [⟨root, .signIn fields, 0⟩]
          presented := none
          requests := s.requests.erase request }) ∧
      ∀ error, s.answer request none error =
        { s with
          viewControllers := [⟨id, .createAccount viewModel, 0⟩, ⟨root, .signIn fields, 0⟩]
          presented := some (.alert "Authentication Error" error)
          requests := s.requests.erase request } := by
  have hauth : request.auth = true := by
    unfold Request.auth
    rw [hcall]
  have hscreens := h.screens
  have hin := mem_filter_auth hmem hauth
  generalize hout : s.requests.filter Request.auth = out at hscreens hin
  generalize hvcs : s.viewControllers = vcs at hscreens
  cases hscreens with
  | signingIn id viewModel username' password' =>
      obtain ⟨rfl, -⟩ := filter_auth_erase hmem hauth hout
      cases hcall
  | creatingAccount id viewModel root fields username' password' confirmPassword' hid hpresented =>
      obtain ⟨rfl, herase⟩ := filter_auth_erase hmem hauth hout
      refine ⟨id, viewModel, root, fields, hid, rfl, herase, ?_, ?_⟩
      · intro user error
        simp [answer, FirebaseAccountService.createAccount, createdAccount, alive, update,
          popViewController, ViewController.hideLoadingHUD, hvcs, hpresented, hid.symm]
      · intro error
        simp [answer, FirebaseAccountService.createAccount, createdAccount, alive, update,
          displayAppErrorAlert, present, ErrorCode.title, ViewController.hideLoadingHUD, hvcs,
          hpresented, hid.symm]
  | signIn => cases hin
  | account => cases hin
  | timeline => cases hin

/-- What is presented may go away at any time. -/
theorem Screens.dismiss {owner : Option AuthUser} {presented : Option Presented}
    {out : List Request} {vcs : List ViewController} (h : Screens owner presented out vcs) :
    Screens owner none out vcs := by
  cases h with
  | signIn id viewModel => exact .signIn id viewModel trivial
  | signingIn id viewModel username password =>
      exact .signingIn id viewModel username password rfl
  | account id viewModel root fields hid => exact .account id viewModel root fields hid trivial
  | creatingAccount id viewModel root fields username password confirmPassword hid =>
      exact .creatingAccount id viewModel root fields username password confirmPassword hid rfl
  | timeline id controller root fields user hid howner huser =>
      exact .timeline id controller root fields user hid howner huser trivial

theorem Consistent.dismiss (h : s.Consistent owner) :
    ({ s with presented := none } : Session).Consistent owner :=
  ⟨h.screens.dismiss, h.ids⟩

theorem Consistent.answer_createPost (h : s.Consistent owner) {request : Request} {message : String}
    {user : User} (hcall : request.call = .createPost message user) (result : Option AuthUser)
    (error : Option String) :
    (s.answer request result error).Consistent
      (Act.signs owner (.answer request result error)) := by
  have hpost : request.auth = false := by
    unfold Request.auth
    rw [hcall]
  have herase : ({ s with requests := s.requests.erase request } : Session).Consistent owner :=
    ⟨by simpa only [filter_erase_post hpost] using h.screens, h.ids⟩
  rw [signs_answer_post hpost]
  simp only [answer, hcall]
  unfold addedPost
  split
  · split
    · split
      · exact herase.dismiss
      · exact herase
    · exact herase
  · exact herase

theorem Consistent.answer (h : s.Consistent owner) {request : Request} (hmem : request ∈ s.requests)
    (result : Option AuthUser) (error : Option String) :
    (s.answer request result error).Consistent
      (Act.signs owner (.answer request result error)) := by
  cases hcall : request.call with
  | createPost message user => exact h.answer_createPost hcall result error
  | signIn username password =>
      obtain ⟨id, viewModel, hvcs, hout, hsome, hnone⟩ := h.answer_signIn hmem hcall
      have hauth : request.auth = true := by
        rw [Request.auth, hcall]
      have hlt : id < s.nextId :=
        h.ids ⟨id, .signIn viewModel, 1⟩ (hvcs ▸ List.mem_singleton_self _)
      cases result with
      | some user =>
          rw [hsome, signs_answer hauth]
          refine ⟨?_, ?_⟩
          · simp only [hout]
            exact .timeline s.nextId _ id viewModel user (by omega) rfl rfl trivial
          · intro vc hvc
            simp only [List.mem_cons, List.not_mem_nil, or_false] at hvc
            rcases hvc with rfl | rfl
            · exact Nat.lt_succ_self _
            · exact hlt.trans (Nat.lt_succ_self _)
      | none =>
          rw [hnone]
          refine ⟨?_, ?_⟩
          · simp only [hout]
            exact .signIn id viewModel trivial
          · intro vc hvc
            rw [List.mem_singleton.mp hvc]
            exact hlt
  | createAccount username password confirmPassword =>
      obtain ⟨id, viewModel, root, fields, hid, hvcs, hout, hsome, hnone⟩ :=
        h.answer_createAccount hmem hcall
      have hlt : id < s.nextId :=
        h.ids ⟨id, .createAccount viewModel, 1⟩ (hvcs ▸ List.mem_cons_self)
      have hroot : root < s.nextId :=
        h.ids ⟨root, .signIn fields, 0⟩ (hvcs ▸ List.mem_cons_of_mem _ (List.mem_singleton_self _))
      cases result with
      | some user =>
          rw [hsome]
          refine ⟨?_, ?_⟩
          · simp only [hout]
            exact .signIn root fields trivial
          · intro vc hvc
            rw [List.mem_singleton.mp hvc]
            exact hroot
      | none =>
          rw [hnone]
          refine ⟨?_, ?_⟩
          · simp only [hout]
            exact .account id viewModel root fields hid trivial
          · intro vc hvc
            simp only [List.mem_cons, List.not_mem_nil, or_false] at hvc
            rcases hvc with rfl | rfl
            · exact hlt
            · exact hroot

/-! ### One step -/

/-- The app is not told of it. -/
theorem Consistent.signOutByForce (h : s.Consistent owner) (userID : String) :
    (s.signOutByForce userID).Consistent owner := by
  unfold Session.signOutByForce
  split
  · split
    · exact ⟨h.screens, h.ids⟩
    · exact h
  · exact h

theorem Consistent.timelineFails (h : s.Consistent owner) {controller : TimelineViewController}
    {vcs : List ViewController} (htop : s.viewControllers = ⟨id, .timeline controller, huds⟩ :: vcs)
    (error : TimelineError) : (s.displayAppErrorAlert error).Consistent owner := by
  refine h.alert error ?_
  have hscreens := h.screens
  rw [htop] at hscreens
  generalize s.requests.filter Request.auth = out at hscreens
  cases hscreens with
  | timeline => rfl

theorem Consistent.postPressed (h : s.Consistent owner) {user : User}
    (viewModel : NewPostViewModel.Relay → Option String) :
    (s.postPressed id user viewModel).Consistent owner := by
  unfold Session.postPressed
  split
  · exact h
  · rename_i call hcall
    obtain ⟨message, rfl⟩ := addPost_ok hcall
    refine ⟨?_, h.ids⟩
    simp only [filter_auth_snoc]
    simpa [Request.auth] using h.screens

theorem Consistent.editPost (h : s.Consistent owner) {user : User}
    {viewModel typed : NewPostViewModel.Relay → Option String}
    (hpresented : s.presented = some (.newPost id user viewModel)) :
    ({ s with presented := some (.newPost id user typed) } : Session).Consistent owner := by
  have hscreens := h.screens
  refine ⟨?_, h.ids⟩
  simp only
  rw [hpresented] at hscreens
  generalize s.requests.filter Request.auth = out at hscreens
  generalize s.viewControllers = vcs at hscreens
  cases hscreens with
  | signIn _ _ hpost => exact hpost.elim
  | signingIn _ _ _ _ hnone => cases hnone
  | account _ _ _ _ _ hpost => exact hpost.elim
  | creatingAccount _ _ _ _ _ _ _ _ hnone => cases hnone
  | timeline id controller root fields user hid howner huser hpost =>
      exact .timeline id controller root fields user hid howner huser hpost

theorem Consistent.next (h : s.Consistent owner) {act : Act} {t : Session}
    (hstep : s.next act = some t) : t.Consistent (Act.signs owner act) := by
  cases act with
  | editSignIn id relay text =>
      cases hstep
      exact h.edit id (fun _ => ⟨_, rfl⟩) (fun _ => ⟨_, rfl⟩) (fun _ => rfl)
  | editCreateAccount id relay text =>
      cases hstep
      exact h.edit id (fun _ => ⟨_, rfl⟩) (fun _ => ⟨_, rfl⟩) (fun _ => rfl)
  | editPost text =>
      simp only [Session.next] at hstep
      split at hstep
      · rename_i hpresented
        cases hstep
        exact h.editPost hpresented
      · cases hstep
  | loginPressed =>
      simp only [Session.next] at hstep
      split at hstep
      · rename_i htouch
        cases hstep
        exact h.loginPressed htouch
      · cases hstep
  | showCreateAccount =>
      simp only [Session.next] at hstep
      split at hstep
      · rename_i htouch
        cases hstep
        exact h.showCreateAccount htouch
      · cases hstep
  | createAccountPressed =>
      simp only [Session.next] at hstep
      split at hstep
      · rename_i htouch
        cases hstep
        exact h.createAccountPressed htouch
      · cases hstep
  | backPressed =>
      simp only [Session.next] at hstep
      split at hstep
      · rename_i htouch
        cases hstep
        exact h.backPressed htouch
      · cases hstep
  | logoutPressed thrown =>
      simp only [Session.next] at hstep
      split at hstep
      · rename_i htouch
        cases hstep
        exact h.logoutPressed htouch thrown
      · cases hstep
  | newPostPressed =>
      simp only [Session.next] at hstep
      split at hstep
      · rename_i htouch
        cases hstep
        exact h.newPostPressed htouch
      · cases hstep
  | postPressed =>
      simp only [Session.next] at hstep
      split at hstep
      · cases hstep
        exact h.postPressed _
      · cases hstep
  | cancelPressed =>
      simp only [Session.next] at hstep
      split at hstep
      · cases hstep
        exact h.dismiss
      · cases hstep
  | okPressed =>
      simp only [Session.next] at hstep
      split at hstep
      · cases hstep
        exact h.dismiss
      · cases hstep
  | answer request result error =>
      simp only [Session.next] at hstep
      split at hstep
      · rename_i hmem
        cases hstep
        exact h.answer hmem result error
      · cases hstep
  | timelineFails error =>
      simp only [Session.next] at hstep
      split at hstep
      · rename_i htop
        cases hstep
        exact h.timelineFails htop error
      · cases hstep
  | signOutByForce userID =>
      cases hstep
      exact h.signOutByForce userID

end

/-! ## Runs -/

theorem consistent_of_run {currentUser : Option AuthUser} {acts : List Act} {s : Session}
    (hrun : (session currentUser).run acts = some s) :
    s.Consistent (signedIn currentUser acts) := by
  refine TSys.run_induction (M := session currentUser)
    (P := fun acts s => s.Consistent (signedIn currentUser acts)) ?_ ?_ hrun
  · refine ⟨.signIn 0 initialFields trivial, ?_⟩
    intro vc hvc
    rw [List.mem_singleton.mp hvc]
    exact Nat.zero_lt_one
  · intro acts act s t _ h hstep
    have hsigned : signedIn currentUser (acts ++ [act]) =
        Act.signs (signedIn currentUser acts) act := List.foldl_concat _ _ _ _
    rw [hsigned]
    exact h.next hstep

/-! ### The user of `Auth` -/

section

variable {s : Session}

theorem currentUser_displayAppErrorAlert (error : TimelineError) :
    (s.displayAppErrorAlert error).currentUser = s.currentUser := by
  unfold displayAppErrorAlert present
  split <;> rfl

theorem currentUser_popViewController : s.popViewController.currentUser = s.currentUser := by
  unfold popViewController
  split <;> rfl

theorem currentUser_submit (id : Nat) (result : Except TimelineError ServiceCall) :
    (s.submit id result).currentUser = s.currentUser := by
  unfold submit
  cases result with
  | error error => exact currentUser_displayAppErrorAlert error
  | ok call => rfl

theorem currentUser_loggedIn (id : Nat) (result : Except TimelineError User) :
    (s.loggedIn id result).currentUser = s.currentUser := by
  cases result with
  | ok user =>
      simp only [loggedIn]
      split <;> rfl
  | error error =>
      simp only [loggedIn]
      split
      · exact currentUser_displayAppErrorAlert error
      · rfl

theorem currentUser_createdAccount (id : Nat) (result : Completion) :
    (s.createdAccount id result).currentUser = s.currentUser := by
  cases result with
  | completed =>
      simp only [createdAccount]
      split
      · exact currentUser_popViewController
      · rfl
  | error error =>
      simp only [createdAccount]
      split
      · exact currentUser_displayAppErrorAlert error
      · rfl

theorem currentUser_addedPost (id : Nat) (result : Completion) :
    (s.addedPost id result).currentUser = s.currentUser := by
  unfold addedPost
  split
  · split
    · split <;> rfl
    · rfl
  · rfl

theorem currentUser_answer (request : Request) (result : Option AuthUser)
    (error : Option String) :
    (s.answer request result error).currentUser =
      Act.signs s.currentUser (.answer request result error) := by
  have hauth : ∀ auth, request.auth = auth → (auth = true → ∀ owner : Option AuthUser,
      Act.signs owner (.answer request result error) = result.or owner) := by
    rintro auth hauth rfl owner
    cases result with
    | none => rfl
    | some user => exact signs_answer hauth owner user error
  cases hcall : request.call with
  | signIn username password =>
      rw [hauth true (by rw [Request.auth, hcall]) rfl]
      simp only [answer, hcall]
      exact currentUser_loggedIn _ _
  | createAccount username password confirmPassword =>
      rw [hauth true (by rw [Request.auth, hcall]) rfl]
      simp only [answer, hcall]
      exact currentUser_createdAccount _ _
  | createPost message user =>
      rw [signs_answer_post (by rw [Request.auth, hcall])]
      simp only [answer, hcall]
      exact currentUser_addedPost _ _

/-- A label signs someone in or out, or leaves it as it was. -/
theorem signs_cases (act : Act) :
    (∃ user, ∀ owner, Act.signs owner act = user) ∨ ∀ owner, Act.signs owner act = owner := by
  cases act with
  | answer request result error =>
      cases hauth : request.auth with
      | false => exact .inr fun owner => signs_answer_post hauth owner result error
      | true =>
          cases result with
          | none => exact .inr fun _ => rfl
          | some user => exact .inl ⟨some user, fun owner => signs_answer hauth owner user error⟩
  | logoutPressed thrown =>
      cases thrown with
      | none => exact .inl ⟨none, fun _ => rfl⟩
      | some localizedDescription => exact .inr fun _ => rfl
  | _ => exact .inr fun _ => rfl

/-- **Step.** `Auth` goes along with the app, but for a sign-out by force. -/
theorem currentUser_next {act : Act} {t : Session} (hstep : s.next act = some t) :
    t.currentUser = Act.signs s.currentUser act ∨
      t.currentUser = none ∧ ∃ userID, act = .signOutByForce userID := by
  cases act with
  | signOutByForce userID =>
      cases hstep
      unfold Session.signOutByForce
      split
      · split
        · exact .inr ⟨rfl, userID, rfl⟩
        · exact .inl rfl
      · exact .inl rfl
  | answer request result error =>
      obtain ⟨-, ht⟩ := Option.ite_none_right_eq_some.mp hstep
      cases ht
      exact .inl (currentUser_answer request result error)
  | logoutPressed thrown =>
      simp only [Session.next] at hstep
      split at hstep
      · cases hstep
        cases thrown with
        | none => exact .inl currentUser_popViewController
        | some localizedDescription => exact .inl (currentUser_displayAppErrorAlert _)
      · cases hstep
  | editSignIn id relay text =>
      cases hstep
      exact .inl rfl
  | editCreateAccount id relay text =>
      cases hstep
      exact .inl rfl
  | showCreateAccount | cancelPressed | okPressed | editPost =>
      simp only [Session.next] at hstep
      split at hstep <;> cases hstep
      exact .inl rfl
  | loginPressed | createAccountPressed =>
      simp only [Session.next] at hstep
      split at hstep <;> cases hstep
      exact .inl (currentUser_submit _ _)
  | backPressed =>
      simp only [Session.next] at hstep
      split at hstep <;> cases hstep
      exact .inl currentUser_popViewController
  | newPostPressed =>
      simp only [Session.next] at hstep
      split at hstep <;> cases hstep
      refine .inl ?_
      unfold Session.newPostPressed present
      split <;> rfl
  | postPressed =>
      simp only [Session.next] at hstep
      split at hstep <;> cases hstep
      refine .inl ?_
      unfold Session.postPressed
      split <;> rfl
  | timelineFails error =>
      simp only [Session.next] at hstep
      split at hstep <;> cases hstep
      exact .inl (currentUser_displayAppErrorAlert _)

end

/-- **The user of `Auth`** is the one who signed in, or was signed out by force. -/
theorem currentUser_of_run {currentUser : Option AuthUser} {acts : List Act} {s : Session}
    (hrun : (session currentUser).run acts = some s) :
    s.currentUser = signedIn currentUser acts ∨
      s.currentUser = none ∧ ∃ userID, .signOutByForce userID ∈ acts := by
  refine TSys.run_induction (M := session currentUser)
    (P := fun acts s => s.currentUser = signedIn currentUser acts ∨
      s.currentUser = none ∧ ∃ userID, .signOutByForce userID ∈ acts) (.inl rfl) ?_ hrun
  intro acts act s t _ h hstep
  have hsigned : signedIn currentUser (acts ++ [act]) =
      Act.signs (signedIn currentUser acts) act := List.foldl_concat _ _ _ _
  rcases currentUser_next hstep with hnext | ⟨hnone, userID, rfl⟩
  · rcases h with heq | ⟨hnone, userID, hmem⟩
    · exact .inl (hnext.trans (heq ▸ hsigned.symm))
    · rcases signs_cases act with ⟨user, hsigns⟩ | hkeeps
      · exact .inl (hnext.trans ((hsigns _).trans (hsigned.trans (hsigns _)).symm))
      · exact .inr ⟨hnext.trans ((hkeeps _).trans hnone), userID, List.mem_append_left _ hmem⟩
  · exact .inr ⟨hnone, userID, List.mem_append_right _ (List.mem_singleton_self _)⟩

/-- **One request, one HUD, one user.** In every run at most one request to `Auth` is
out; each screen has as many HUDs as requests of its own are out; the timeline, and a
new post over it, belong to the user who signed in and has not logged out; and `Auth` has
that user, or has signed a user out by force and has none. -/
theorem session_consistent {currentUser : Option AuthUser} {acts : List Act} {s : Session}
    (hrun : (session currentUser).run acts = some s) :
    (s.requests.filter Request.auth).length ≤ 1 ∧
      (∀ vc ∈ s.viewControllers,
        vc.huds = ((s.requests.filter Request.auth).filter (·.owner = vc.id)).length) ∧
      (∀ vc ∈ s.viewControllers, ∀ controller, vc.content = .timeline controller →
        ∃ user, signedIn currentUser acts = some user ∧
          controller.viewModel.user = firebaseUser user) ∧
      (∀ id author viewModel, s.presented = some (.newPost id author viewModel) →
        ∃ user, signedIn currentUser acts = some user ∧ author = firebaseUser user) ∧
      (s.currentUser = signedIn currentUser acts ∨
        s.currentUser = none ∧ ∃ userID, .signOutByForce userID ∈ acts) := by
  have hscreens := (consistent_of_run hrun).screens
  have hcurrent := currentUser_of_run hrun
  generalize s.requests.filter Request.auth = out at hscreens
  generalize s.viewControllers = vcs at hscreens
  cases hscreens with
  | signIn id viewModel hpost =>
      refine ⟨by simp, by simp, by simp, ?_, hcurrent⟩
      intro id author viewModel hpresented
      rw [hpresented] at hpost
      exact hpost.elim
  | signingIn id viewModel username password hnone =>
      refine ⟨by simp, by simp, by simp, ?_, hcurrent⟩
      intro id author viewModel hpresented
      cases hnone.symm.trans hpresented
  | account id viewModel root fields hid hpost =>
      refine ⟨by simp, by simp, by simp, ?_, hcurrent⟩
      intro id author viewModel hpresented
      rw [hpresented] at hpost
      exact hpost.elim
  | creatingAccount id viewModel root fields username password confirmPassword hid hnone =>
      refine ⟨by simp, by simp [hid], by simp, ?_, hcurrent⟩
      intro id author viewModel hpresented
      cases hnone.symm.trans hpresented
  | timeline id controller root fields user hid howner huser hpost =>
      refine ⟨by simp, by simp, ?_, ?_, hcurrent⟩
      · intro vc hvc controller' hcontent
        simp only [List.mem_cons, List.not_mem_nil, or_false] at hvc
        rcases hvc with rfl | rfl
        · cases hcontent
          exact ⟨user, howner, huser⟩
        · cases hcontent
      · intro id author viewModel hpresented
        rw [hpresented] at hpost
        exact ⟨user, howner, hpost⟩

/-- A user types and logs in. -/
def submitting : List Act :=
  [.editSignIn 0 .email (some "mia@mail"), .editSignIn 0 .password (some "secret"), .loginPressed]

/-- `Auth` signs the user in, who starts a new post. -/
def loggingIn : List Act :=
  submitting ++
    [.answer ⟨0, .signIn "mia@mail" "secret"⟩ (some ⟨some "mia@mail", "uid"⟩) none,
      .newPostPressed]

/-- `Auth` then signs the user out by itself, and the new post keeps its author. -/
theorem session_consistent_loggingIn :
    ∃ s, (session none).run (loggingIn ++ [.signOutByForce "uid"]) = some s ∧
      (s.requests.filter Request.auth).length ≤ 1 ∧ s.currentUser = none ∧
      ∃ viewModel, s.presented = some (.newPost 2 ⟨"mia@mail", "uid"⟩ viewModel) ∧
        ∃ user, signedIn none (loggingIn ++ [.signOutByForce "uid"]) = some user ∧
          (⟨"mia@mail", "uid"⟩ : User) = firebaseUser user := by
  obtain ⟨s, hs⟩ : ∃ s, (session none).run (loggingIn ++ [.signOutByForce "uid"]) = some s :=
    ⟨_, rfl⟩
  obtain ⟨hone, -, -, hauthor, -⟩ := session_consistent hs
  have hpresented : s.presented = some (.newPost 2 ⟨"mia@mail", "uid"⟩ initialFields) := by
    cases hs
    rfl
  have hcurrent : s.currentUser = none := by
    cases hs
    rfl
  exact ⟨s, hs, hone, hcurrent, initialFields, hpresented, hauthor _ _ _ hpresented⟩

/-- **No answer is lost.** In every run the answer to a request takes down the HUD of the
screen that asked. An error is shown there; otherwise its user is signed in, and a
sign-in opens that user's timeline over the form as it stands, an account screen gives
way to the sign-in form below it. -/
theorem request_answered {currentUser : Option AuthUser} {acts : List Act} {s : Session}
    (hrun : (session currentUser).run acts = some s) {request : Request}
    (hmem : request ∈ s.requests) (hauth : request.auth = true) (result : Option AuthUser)
    (error : Option String) :
    ∃ t, (session currentUser).step s (.answer request result error) = some t ∧
      t.requests.filter Request.auth = [] ∧ (∀ vc ∈ t.viewControllers, vc.huds = 0) ∧
      (result = none → t.presented = some (.alert "Authentication Error" error) ∧
        t.currentUser = s.currentUser ∧
        t.viewControllers.map ViewController.content =
          s.viewControllers.map ViewController.content) ∧
      ∀ user, result = some user → t.presented = none ∧ t.currentUser = some user ∧
        ∃ fields,
          ((∃ username password, request.call = .signIn username password) ∧
            s.viewControllers.map ViewController.content = [.signIn fields] ∧
            t.viewControllers.map ViewController.content =
              [.timeline (.opened (firebaseUser user)), .signIn fields]) ∨
          ((∃ username password confirm, request.call = .createAccount username password confirm) ∧
            (∃ viewModel, s.viewControllers.map ViewController.content =
              [.createAccount viewModel, .signIn fields]) ∧
            t.viewControllers.map ViewController.content = [.signIn fields]) := by
  have h := consistent_of_run hrun
  refine ⟨s.answer request result error, ?_, ?_⟩
  · show Session.next s (.answer request result error) = _
    simp only [Session.next, if_pos hmem]
  cases hcall : request.call with
  | createPost message user =>
      unfold Request.auth at hauth
      rw [hcall] at hauth
      cases hauth
  | signIn username password =>
      obtain ⟨id, viewModel, hvcs, hout, hsome, hnone⟩ := h.answer_signIn hmem hcall
      cases result with
      | none =>
          rw [hnone]
          exact ⟨hout, by simp, fun _ => ⟨rfl, rfl, by simp [hvcs]⟩, by simp⟩
      | some user =>
          rw [hsome]
          refine ⟨hout, by simp, by simp, ?_⟩
          rintro _ ⟨⟩
          exact ⟨rfl, rfl, viewModel, .inl ⟨⟨username, password, rfl⟩, by simp [hvcs], by simp⟩⟩
  | createAccount username password confirmPassword =>
      obtain ⟨id, viewModel, root, fields, hid, hvcs, hout, hsome, hnone⟩ :=
        h.answer_createAccount hmem hcall
      cases result with
      | none =>
          rw [hnone]
          exact ⟨hout, by simp, fun _ => ⟨rfl, rfl, by simp [hvcs]⟩, by simp⟩
      | some user =>
          rw [hsome]
          refine ⟨hout, by simp, by simp, ?_⟩
          rintro _ ⟨⟩
          exact ⟨rfl, rfl, fields, .inr ⟨⟨username, password, confirmPassword, rfl⟩,
            ⟨viewModel, by simp [hvcs]⟩, by simp⟩⟩

/-- A sign-in that `Auth` refuses. -/
theorem request_answered_refused :
    ∃ s t, (session none).run submitting = some s ∧
      (session none).step s
        (.answer ⟨0, .signIn "mia@mail" "secret"⟩ none (some "wrong password")) = some t ∧
      t.presented = some (.alert "Authentication Error" (some "wrong password")) ∧
      t.viewControllers.map ViewController.content =
        s.viewControllers.map ViewController.content := by
  obtain ⟨s, hs, hrequests⟩ := Option.map_eq_some_iff.mp
    (show ((session none).run submitting).map Session.requests =
      some [⟨0, .signIn "mia@mail" "secret"⟩] from rfl)
  obtain ⟨t, ht, -, -, hnone, -⟩ := request_answered hs
    (hrequests ▸ List.mem_singleton_self (⟨0, .signIn "mia@mail" "secret"⟩ : Request)) rfl none
    (some "wrong password")
  exact ⟨s, t, hs, ht, (hnone rfl).1, (hnone rfl).2.2⟩

end Session

end SocialTimeline
