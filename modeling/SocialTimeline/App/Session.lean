import SocialTimeline.App.Forms
import SocialTimeline.App.TimelineViewController
import SocialTimeline.Lib.TSys

/-!
# Signing in, signing out and what is on screen

The sign-in screen at the bottom of the navigation stack, the account screen or the
timeline above it, a new post or an alert presented over them; and the requests to
the services that have not been answered.

A loading HUD covers the screen it is added to, and what is presented covers
everything: a button is pressed only where nothing covers it, enabled or not. The
keyboard is not covered, so text is typed at any time. A view controller has an `id`;
callbacks hold theirs weakly and do nothing once it is gone. `Auth` may sign its user
out by itself; the app is not told.
-/

namespace SocialTimeline

open FirebaseTimelineService Lib

def ErrorCode.title : ErrorCode → String
  | .genericError => "Error"
  | .authError => "Authentication Error"
  | .timelineError => "Timeline Error"

/-- What the app reads of a `Firebase.User`. -/
structure AuthUser where
  email : Option String
  uid : String
  deriving DecidableEq

/-- `FirebaseUser(user:)`. -/
def firebaseUser (user : AuthUser) : User where
  username := user.email.getD ""
  identifier := user.uid

/-! ## `FirebaseAccountService`

The callbacks, by what `Auth` hands them: a result and the description of an error. -/

namespace FirebaseAccountService

def signIn (result : Option AuthUser) (error : Option String) : Except TimelineError User :=
  match result with
  | none => .error { message := error, code := .authError }
  | some responseUser => .ok (firebaseUser responseUser)

def createAccount (result : Option AuthUser) (error : Option String) : Completion :=
  match result with
  | none => .error { message := error, code := .authError }
  | some _ => .completed

/-- `logout`, by what `signOut` throws. -/
def logout (thrown : Option String) : Completion :=
  match thrown with
  | some localizedDescription =>
      .error { message := some localizedDescription, code := .authError }
  | none => .completed

end FirebaseAccountService

/-! ## Screens -/

inductive ScreenContent
  | signIn (viewModel : SignInViewModel.Relay → Option String)
  | createAccount (viewModel : CreateAccountViewModel.Relay → Option String)
  | timeline (controller : TimelineViewController)

/-- A view controller on the navigation stack, with the HUDs on its view that have not
finished. -/
structure ViewController where
  id : Nat
  content : ScreenContent
  huds : Nat := 0

def ViewController.displayLoadingHUD (controller : ViewController) : ViewController :=
  { controller with huds := controller.huds + 1 }

def ViewController.hideLoadingHUD (controller : ViewController) : ViewController :=
  { controller with huds := controller.huds - 1 }

inductive Presented
  | newPost (id : Nat) (user : User) (viewModel : NewPostViewModel.Relay → Option String)
  | alert (title : String) (message : Option String)

/-- A call to a service whose answer its view controller waits for. -/
structure Request where
  owner : Nat
  call : ServiceCall
  deriving DecidableEq

structure Session where
  /-- `Auth.auth().currentUser`. -/
  currentUser : Option AuthUser
  /-- The navigation stack, the top first. -/
  viewControllers : List ViewController
  presented : Option Presented := none
  requests : List Request := []
  nextId : Nat

namespace Session

/-- `self?`, in a callback. -/
def alive (s : Session) (id : Nat) : Bool := s.viewControllers.any (·.id = id)

def update (s : Session) (id : Nat) (f : ViewController → ViewController) : Session :=
  { s with viewControllers := s.viewControllers.map fun vc => if vc.id = id then f vc else vc }

def pushViewController (s : Session) (content : ScreenContent) : Session :=
  { s with
    viewControllers := { id := s.nextId, content } :: s.viewControllers
    nextId := s.nextId + 1 }

/-- The one at the bottom is never popped. -/
def popViewController (s : Session) : Session :=
  match s.viewControllers with
  | _ :: vc :: vcs => { s with viewControllers := vc :: vcs }
  | _ => s

/-- Nothing is presented over what is presented already. -/
def present (s : Session) (presented : Presented) : Session :=
  if s.presented.isSome then s else { s with presented := some presented }

def displayAppErrorAlert (s : Session) (error : TimelineError) : Session :=
  s.present (.alert error.code.title error.message)

/-! ## Buttons -/

/-- `displayLoadingHUD`, then the request; an error of the form itself comes at
once. -/
def submit (s : Session) (id : Nat) (result : Except TimelineError ServiceCall) : Session :=
  let s := s.update id .displayLoadingHUD
  match result with
  | .error error => (s.update id .hideLoadingHUD).displayAppErrorAlert error
  | .ok call => { s with requests := s.requests ++ [{ owner := id, call }] }

def loginPressed (s : Session) (id : Nat) (viewModel : SignInViewModel.Relay → Option String) :
    Session :=
  s.submit id (SignInViewModel.login viewModel)

def createAccountPressed (s : Session) (id : Nat)
    (viewModel : CreateAccountViewModel.Relay → Option String) : Session :=
  s.submit id (CreateAccountViewModel.createAccount viewModel)

def logoutPressed (s : Session) (thrown : Option String) : Session :=
  match FirebaseAccountService.logout thrown with
  | .completed => { s with currentUser := none }.popViewController
  | .error error => s.displayAppErrorAlert error

def newPostPressed (s : Session) (controller : TimelineViewController) : Session :=
  { s.present (.newPost s.nextId controller.viewModel.user initialFields) with
    nextId := s.nextId + 1 }

/-- `postPressed`; an error of the form itself is printed. -/
def postPressed (s : Session) (id : Nat) (user : User)
    (viewModel : NewPostViewModel.Relay → Option String) : Session :=
  match NewPostViewModel.addPost user viewModel with
  | .error _ => s
  | .ok call => { s with requests := s.requests ++ [{ owner := id, call }] }

/-- `signOutByForceWithUserID:`, which a failed token refresh calls for its user. -/
def signOutByForce (s : Session) (userID : String) : Session :=
  match s.currentUser with
  | some user => if user.uid = userID then { s with currentUser := none } else s
  | none => s

/-! ## Answers -/

/-- The callback of `login()`. -/
def loggedIn (s : Session) (id : Nat) : Except TimelineError User → Session
  | .ok user =>
      if s.alive id then
        (s.update id .hideLoadingHUD).pushViewController (.timeline (.opened user))
      else s
  | .error error =>
      if s.alive id then (s.update id .hideLoadingHUD).displayAppErrorAlert error else s

/-- The callback of `createAccount()`. -/
def createdAccount (s : Session) (id : Nat) : Completion → Session
  | .completed =>
      if s.alive id then (s.update id .hideLoadingHUD).popViewController else s
  | .error error =>
      if s.alive id then (s.update id .hideLoadingHUD).displayAppErrorAlert error else s

/-- The callback of `addPost()`; an error is printed. -/
def addedPost (s : Session) (id : Nat) : Completion → Session
  | .completed =>
      match s.presented with
      | some (.newPost presented _ _) => if presented = id then { s with presented := none } else s
      | _ => s
  | .error _ => s

/-- An answer to a request. `Auth` signs a new user in, whoever asked for it. -/
def answer (s : Session) (request : Request) (result : Option AuthUser) (error : Option String) :
    Session :=
  let s := { s with requests := s.requests.erase request }
  match request.call with
  | .signIn _ _ =>
      { s with currentUser := result.or s.currentUser }.loggedIn request.owner
        (FirebaseAccountService.signIn result error)
  | .createAccount _ _ _ =>
      { s with currentUser := result.or s.currentUser }.createdAccount request.owner
        (FirebaseAccountService.createAccount result error)
  -- the error of the first write, if it failed
  | .createPost _ _ =>
      s.addedPost request.owner (createPostCompletion "" error 0).2

/-! ## The session as a system -/

inductive Act
  | editSignIn (id : Nat) (relay : SignInViewModel.Relay) (text : Option String)
  | editCreateAccount (id : Nat) (relay : CreateAccountViewModel.Relay) (text : Option String)
  | editPost (text : Option String)
  | loginPressed
  /-- `createAccountPressed` of the sign-in screen. -/
  | showCreateAccount
  | createAccountPressed
  | backPressed
  | logoutPressed (thrown : Option String)
  | newPostPressed
  | postPressed
  | cancelPressed
  | okPressed
  | answer (request : Request) (result : Option AuthUser) (error : Option String)
  /-- `retrieveAllPosts` or `newPosts` of the timeline fails. -/
  | timelineFails (error : TimelineError)
  /-- A token refresh fails; the app does not listen for it. -/
  | signOutByForce (userID : String)

def ScreenContent.editSignIn (relay : SignInViewModel.Relay) (text : Option String) :
    ScreenContent → ScreenContent
  | .signIn viewModel => .signIn (Function.update viewModel relay text)
  | content => content

def ScreenContent.editCreateAccount (relay : CreateAccountViewModel.Relay) (text : Option String) :
    ScreenContent → ScreenContent
  | .createAccount viewModel => .createAccount (Function.update viewModel relay text)
  | content => content

/-- The view controller whose buttons can be pressed. -/
def touchable (s : Session) : Option ViewController :=
  match s.viewControllers, s.presented with
  | vc :: _, none => if vc.huds = 0 then some vc else none
  | _, _ => none

def next (s : Session) : Act → Option Session
  | .editSignIn id relay text =>
      some (s.update id fun vc =>
        { vc with content := ScreenContent.editSignIn relay text vc.content })
  | .editCreateAccount id relay text =>
      some (s.update id fun vc =>
        { vc with content := ScreenContent.editCreateAccount relay text vc.content })
  | .editPost text =>
      match s.presented with
      | some (.newPost id user _) =>
          some { s with presented := some (.newPost id user fun _ => text) }
      | _ => none
  | .loginPressed =>
      match s.touchable with
      | some ⟨id, .signIn viewModel, _⟩ => some (s.loginPressed id viewModel)
      | _ => none
  | .showCreateAccount =>
      match s.touchable with
      | some ⟨_, .signIn _, _⟩ => some (s.pushViewController (.createAccount initialFields))
      | _ => none
  | .createAccountPressed =>
      match s.touchable with
      | some ⟨id, .createAccount viewModel, _⟩ => some (s.createAccountPressed id viewModel)
      | _ => none
  | .backPressed =>
      match s.touchable with
      | some ⟨_, .createAccount _, _⟩ => some s.popViewController
      | _ => none
  | .logoutPressed thrown =>
      match s.touchable with
      | some ⟨_, .timeline _, _⟩ => some (s.logoutPressed thrown)
      | _ => none
  | .newPostPressed =>
      match s.touchable with
      | some ⟨_, .timeline controller, _⟩ => some (s.newPostPressed controller)
      | _ => none
  | .postPressed =>
      match s.presented with
      | some (.newPost id user viewModel) => some (s.postPressed id user viewModel)
      | _ => none
  | .cancelPressed =>
      match s.presented with
      | some (.newPost _ _ _) => some { s with presented := none }
      | _ => none
  | .okPressed =>
      match s.presented with
      | some (.alert _ _) => some { s with presented := none }
      | _ => none
  | .answer request result error =>
      if request ∈ s.requests then some (s.answer request result error) else none
  | .timelineFails error =>
      match s.viewControllers with
      | ⟨_, .timeline _, _⟩ :: _ => some (s.displayAppErrorAlert error)
      | _ => none
  | .signOutByForce userID => some (s.signOutByForce userID)

end Session

/-- The app from its launch on. `Auth` may still hold the user of an earlier launch. -/
def session (currentUser : Option AuthUser) : TSys Session Session.Act where
  init :=
    { currentUser, viewControllers := [{ id := 0, content := .signIn initialFields }], nextId := 1 }
  step := Session.next

end SocialTimeline
