import SocialTimeline.Lib.Rx
import SocialTimeline.App.FirebaseTimelineService

/-!
# The three forms

`CreateAccountViewModel`, `SignInViewModel` and `NewPostViewModel`: fields held
in relays that start at the empty string, an observable that enables the submit
button, and a submit function that reads the relays once.

A submit function either ends in an error of its own or hands the fields to a
service (`ServiceCall`). Strings stand for Swift's up to canonical equivalence,
which is what `==` compares.
-/

namespace SocialTimeline

open Lib Lib.Observable

namespace AppStrings

def missingEmailPassword : String := "Missing email/password"

def passwordMismatch : String := "Password and Confirm Password mismatch"

end AppStrings

/-- A request handed to `AccountService` or `TimelineService`. -/
inductive ServiceCall
  | createAccount (username password confirmPassword : String)
  | signIn (username password : String)
  | createPost (message : String) (user : User)
  deriving DecidableEq

/-- `text?.count ?? 0`. Characters are counted; all that is ever asked of the
count is whether it is zero. -/
def count (text : Option String) : Nat := (text.map String.length).getD 0

/-- The relays of a new view model: `BehaviorRelay<String?>(value: "")`. -/
def initialFields {ρ : Type} : ρ → Option String := fun _ => some ""

namespace CreateAccountViewModel

inductive Relay
  | email
  | password
  | confirmPassword
  deriving DecidableEq

def passwordMatches : Observable Relay (Option String) Bool :=
  (combineLatest (relay .password) (relay .confirmPassword) fun password confirmation =>
    password == confirmation).distinctUntilChanged

/-- The closure of `isCreateAccountButtonEnabled`. -/
def canCreateAccount (email password confirm : Option String) (matchingPassword : Bool) : Bool :=
  let emailCount := count email
  let passwordCount := count password
  let confirmCount := count confirm
  emailCount > 0 && passwordCount > 0 && confirmCount > 0 && matchingPassword

def isCreateAccountButtonEnabled : Observable Relay (Option String) Bool :=
  (combineLatest4 (relay .email) (relay .password) (relay .confirmPassword) passwordMatches
    canCreateAccount).distinctUntilChanged

def createAccount (value : Relay → Option String) : Except TimelineError ServiceCall :=
  match value .email, value .password, value .confirmPassword with
  | some email, some password, some confirmPassword =>
      if password = confirmPassword then .ok (.createAccount email password confirmPassword)
      else .error { message := some AppStrings.passwordMismatch, code := .genericError }
  | _, _, _ => .error { message := some AppStrings.missingEmailPassword, code := .genericError }

end CreateAccountViewModel

namespace SignInViewModel

inductive Relay
  | email
  | password
  deriving DecidableEq

/-- The closure of `isLoginButtonEnabled`. -/
def canLogin (email password : Option String) : Bool :=
  let emailCount := count email
  let passwordCount := count password
  emailCount > 0 && passwordCount > 0

def isLoginButtonEnabled : Observable Relay (Option String) Bool :=
  (combineLatest (relay .email) (relay .password) canLogin).distinctUntilChanged

def login (value : Relay → Option String) : Except TimelineError ServiceCall :=
  match value .email, value .password with
  | some email, some password => .ok (.signIn email password)
  | _, _ => .error { message := some AppStrings.missingEmailPassword, code := .genericError }

end SignInViewModel

namespace NewPostViewModel

inductive Relay
  | postMessage
  deriving DecidableEq

def isPostButtonEnabled : Observable Relay (Option String) Bool :=
  (relay .postMessage).map fun text =>
    let textCount := count text
    textCount > 0

def addPost (user : User) (value : Relay → Option String) : Except TimelineError ServiceCall :=
  match value .postMessage with
  | some message => .ok (.createPost message user)
  | none => .error { message := some "", code := .timelineError }

end NewPostViewModel

end SocialTimeline
