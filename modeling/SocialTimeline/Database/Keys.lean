import SocialTimeline.Lib.Numeral
import SocialTimeline.Logic.BulkRead

/-!
# Keys: how they are compared and how they are made

The children of a node are kept in the order of `FUtilities compareKey:toKey:`:
keys that spell a 32-bit integer come first, by their number and then by their
length, all others after them, code unit by code unit. `childByAutoId` asks
`FNextPushId` for a key: the milliseconds of its clock and twelve random digits,
counted up as long as the millisecond lasts.
-/

namespace SocialTimeline

open Lib

/-! ## Comparing -/

/-- The UTF-16 code units of a character. -/
def utf16 (c : Char) : List Nat :=
  if c.toNat < 0x10000 then [c.toNat]
  else [0xD800 + (c.toNat - 0x10000) / 0x400, 0xDC00 + (c.toNat - 0x10000) % 0x400]

/-- An `NSString`, by its code units. -/
def units (string : String) : List Nat := string.toList.flatMap utf16

namespace FUtilities

/-- The digits that follow are read into the value. -/
def parseDigits (value : Nat) : List Nat → Option Nat
  | [] => some value
  | c :: str => if c < 48 ∨ 57 < c then none else parseDigits (value * 10 + (c - 48)) str

/-- A value that is not a 32-bit integer is none. -/
def inRange (value : Int) : Option Int :=
  if value < -2147483648 ∨ 2147483647 < value then none else some value

/-- The integer a string spells: eleven units at most, digits, and perhaps a sign in
front of them. -/
def tryParseStringToInt (str : List Nat) : Option Int :=
  if 11 < str.length ∨ str.length = 0 then none
  else
    match str with
    | 45 :: digits =>
        if digits.length = 0 then none
        else (parseDigits 0 digits).bind fun value => inRange (-value)
    | digits => (parseDigits 0 digits).bind fun value => inRange value

/-- A key as it is compared: of a child, or one of the two bounds. -/
inductive Name
  | minName
  | key (key : String)
  | maxName
  deriving DecidableEq

/-- `compareKey:toKey:`. It starts from `a == b` for the same object; equal strings
that are two objects compare as the same further down. -/
def compareKey (a b : Name) : Ordering :=
  if a = b then .eq
  else if a = .minName ∨ b = .maxName then .lt
  else
    match a, b with
    | .key a, .key b =>
        match tryParseStringToInt (units a), tryParseStringToInt (units b) with
        | some aAsInt, some bAsInt =>
            if aAsInt > bAsInt then .gt
            else if aAsInt < bAsInt then .lt
            else if (units a).length > (units b).length then .gt
            else if (units a).length < (units b).length then .lt
            else .eq
        | some _, none => .lt
        | none, some _ => .gt
        -- "literal character by character search"
        | none, none => cmp (units a) (units b)
    | _, _ => .gt

end FUtilities

/-! ## Making -/

/-- Twelve digits, as `arc4random() % 64` draws them. -/
structure RandomChars where
  chars : List (Fin 64)
  length_eq : chars.length = 12
  deriving DecidableEq

def RandomChars.zeros : RandomChars := ⟨List.replicate 12 0, rfl⟩

/-- From the right, digits that are 63 are reset, and the first that is not is counted
up. When all are 63 the loop runs past the array, and what it counts up is the `int`
before it. -/
def RandomChars.countUp (random : RandomChars) : RandomChars where
  chars := Numeral.increment random.chars
  length_eq := (Numeral.length_increment random.chars).trans random.length_eq

/-- The state of `FNextPushId`: the millisecond of the last key and its random
digits. -/
structure FNextPushId where
  lastPushTime : Nat := 0
  lastRandChars : RandomChars := .zeros

namespace FNextPushId

/-- `[PUSH_CHARS characterAtIndex:]`. -/
def pushChar (digit : Fin 64) : Char := pushChars.get (digit.cast (by decide))

/-- The digits of the milliseconds, by `now % 64` from the right. -/
def timeStampChars (now : Nat) : List (Fin 64) := Numeral.ofNat 8 now

def pushId (timeStampChars randChars : List (Fin 64)) : String :=
  String.ofList ((timeStampChars ++ randChars).map pushChar)

/-- `get:`, with the clock in milliseconds. In the millisecond of the last key its
random digits are counted up, otherwise they are drawn. -/
def get (generator : FNextPushId) (now : Nat) (random : RandomChars) : String × FNextPushId :=
  let duplicateTime := now = generator.lastPushTime
  let lastRandChars := if duplicateTime then generator.lastRandChars.countUp else random
  (pushId (timeStampChars now) lastRandChars.chars, { lastPushTime := now, lastRandChars })

/-- The keys of some calls, each with the reading of its clock and its draws. -/
def generate (generator : FNextPushId) : List (Nat × RandomChars) → List String
  | [] => []
  | (now, random) :: calls =>
      let (key, generator) := generator.get now random
      key :: generate generator calls

/-- The digits of a millisecond are used up: all are 63, and it is not over. -/
def UsedUp (generator : FNextPushId) (now : Nat) : Prop :=
  now = generator.lastPushTime ∧ ∀ digit ∈ generator.lastRandChars.chars, digit = 63

instance (generator : FNextPushId) (now : Nat) : Decidable (generator.UsedUp now) :=
  inferInstanceAs (Decidable (_ ∧ _))

/-- None of the calls finds the digits used up. -/
def Supplied (generator : FNextPushId) : List (Nat × RandomChars) → Prop
  | [] => True
  | (now, random) :: calls =>
      ¬ generator.UsedUp now ∧ Supplied (generator.get now random).2 calls

end FNextPushId

end SocialTimeline
