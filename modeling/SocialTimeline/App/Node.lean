import Mathlib.Algebra.Order.Ring.Rat
import Mathlib.Data.List.TakeWhile

/-!
# Database nodes and the Foundation objects they export

A child of `/posts` is a tree of nodes (`FLeafNode`, `FChildrenNode`); what the
app is handed is the Foundation object `snapshot.value`, computed from the tree
by `val` (`valForExport:NO`). The export of an inner node is an `NSDictionary`
unless its keys look like the indices of an array, in which case it is an
`NSArray`, and `NSNull` when there is nothing there. What digits there are beyond
the ASCII ones is Foundation's to say (`Foundation`).

The map of children is a list here. Its order carries no meaning: every
statement about a map of children holds for each order of the list.
-/

namespace SocialTimeline

/-- A finite `Double`, by its value. JSON has no NaN and no infinities, and the
clock yields none. -/
abbrev Double := ℚ

/-- The value of a leaf. JSON integers arrive as 64-bit `NSNumber`s, all other
numbers as doubles. -/
inductive Leaf
  | bool (b : Bool)
  | int (n : Int)
  | double (x : Double)
  | string (s : String)
  deriving DecidableEq

/-- A node of the database: `FLeafNode` or `FChildrenNode`; an inner node
without children is `FEmptyNode`. -/
inductive Node
  | leaf (value : Leaf)
  | children (children : List (String × Node))

/-- The Foundation objects a snapshot's value is built of. -/
inductive AnyObject
  | null
  | bool (b : Bool)
  | int (n : Int)
  | double (x : Double)
  | string (s : String)
  | array (items : List AnyObject)
  | dictionary (entries : List (String × AnyObject))

/-- An `NSDictionary` with `String` keys, by its entries. -/
abbrev NSDictionary := List (String × AnyObject)

/-! ## Equality of nodes

`childChanged` is raised for a value that differs (`isEqual:`), so equality of
nodes is decided. -/

mutual

def Node.decideEq : (a b : Node) → Decidable (a = b)
  | .leaf v, .leaf w =>
      match decEq v w with
      | isTrue h => isTrue (congrArg Node.leaf h)
      | isFalse h => isFalse fun e => h (Node.leaf.inj e)
  | .leaf _, .children _ => isFalse nofun
  | .children _, .leaf _ => isFalse nofun
  | .children cs, .children ds =>
      match Node.decideEqChildren cs ds with
      | isTrue h => isTrue (congrArg Node.children h)
      | isFalse h => isFalse fun e => h (Node.children.inj e)

def Node.decideEqChildren : (cs ds : List (String × Node)) → Decidable (cs = ds)
  | [], [] => isTrue rfl
  | [], _ :: _ => isFalse nofun
  | _ :: _, [] => isFalse nofun
  | (k, a) :: cs, (l, b) :: ds =>
      match decEq k l, Node.decideEq a b, Node.decideEqChildren cs ds with
      | isTrue hk, isTrue ha, isTrue hcs => isTrue (by rw [hk, ha, hcs])
      | isFalse hk, _, _ => isFalse fun e => hk (Prod.mk.inj (List.cons.inj e).1).1
      | _, isFalse ha, _ => isFalse fun e => ha (Prod.mk.inj (List.cons.inj e).1).2
      | _, _, isFalse hcs => isFalse fun e => hcs (List.cons.inj e).2

end

instance : DecidableEq Node := Node.decideEq

/-! ## Foundation -/

/-- `NSIntegerMax`. -/
def NSIntegerMax : Int := 2 ^ 63 - 1

/-- The number that digits from `0` to `9` spell, as a scanner reports it. -/
def spelled (digits : List Char) : Int :=
  min (digits.foldl (fun n c => 10 * n + (c.toNat - '0'.toNat)) 0 : Nat) NSIntegerMax

/-- What the export and the service ask of Foundation. Which characters beyond ASCII are
decimal digits, what a scanner makes of them, and which properties a dictionary object
has, is the platform's business. -/
structure Foundation where
  /-- Membership in `[NSCharacterSet decimalDigitCharacterSet]`. -/
  decimalDigit : Char → Bool
  /-- `scanInteger:` at the start of a string; what follows the integer is left. -/
  scanInteger : String → Option Int
  /-- The properties of dictionary objects, by name; `none` raises. -/
  property : NSDictionary → String → Option AnyObject
  decimalDigit_ascii : ∀ c : Char, c.toNat < 128 → decimalDigit c = c.isDigit
  scanInteger_ascii : ∀ string : String, string ≠ "" →
    (∀ c ∈ string.toList, c.isDigit = true) →
      scanInteger string = some (spelled string.toList)

/-- A scanner that reads the digits from `0` to `9` in front. -/
def scanPrefix (string : String) : Option Int :=
  match string.toList.takeWhile Char.isDigit with
  | [] => none
  | digits => some (spelled digits)

theorem scanPrefix_of_digits {string : String} (hne : string ≠ "")
    (h : ∀ c ∈ string.toList, c.isDigit = true) :
    scanPrefix string = some (spelled string.toList) := by
  have hwhole : string.toList.takeWhile Char.isDigit = string.toList :=
    List.takeWhile_eq_self_iff.mpr h
  unfold scanPrefix
  rw [hwhole]
  split
  · rename_i hnil
    exact absurd (String.toList_eq_nil_iff.mp hnil) hne
  · rfl

/-- Foundation with a set of decimal digits, a scanner that knows the ASCII ones, and
dictionaries without properties. -/
def Foundation.withDigits (decimalDigit : Char → Bool)
    (h : ∀ c : Char, c.toNat < 128 → decimalDigit c = c.isDigit) : Foundation where
  decimalDigit
  scanInteger := scanPrefix
  property _ _ := none
  decimalDigit_ascii := h
  scanInteger_ascii _ := scanPrefix_of_digits

/-- Foundation as far as ASCII goes. -/
def Foundation.ascii : Foundation := .withDigits Char.isDigit fun _ _ => rfl

/-! ## Export: `valForExport:` -/

section

variable (foundation : Foundation)

/-- `FUtilities intForString:` — the integer scanned, if all characters are decimal
digits. -/
def intForString (string : String) : Option Int :=
  if string.toList.all foundation.decimalDigit then foundation.scanInteger string else none

/-- A key as an array index; leading zeroes that are not exactly "0" make it a
string. -/
def integerKey (key : String) : Option Int :=
  if key.toList.head? = some '0' ∧ 1 < key.toList.length then none
  else intForString foundation key

def maxKey (keys : List String) : Int := (keys.filterMap (integerKey foundation)).foldl max 0

/-- All keys are integers and the greatest is below twice their number. -/
def exportsArray (keys : List String) : Bool :=
  keys.all (fun key => (integerKey foundation key).isSome) &&
    decide (maxKey foundation keys < 2 * keys.length)

/-- The object for an inner node, from the objects of its children. -/
def exportChildren (obj : NSDictionary) : AnyObject :=
  if obj.isEmpty then .null
  else if exportsArray foundation (obj.map Prod.fst) then
    .array ((List.range ((maxKey foundation (obj.map Prod.fst)).toNat + 1)).map fun i =>
      (obj.lookup (toString i)).getD .null)
  else .dictionary obj

def Leaf.val : Leaf → AnyObject
  | .bool b => .bool b
  | .int n => .int n
  | .double x => .double x
  | .string s => .string s

mutual

/-- `snapshot.value`. -/
def Node.val : Node → AnyObject
  | .leaf v => v.val
  | .children cs => exportChildren foundation (Node.vals cs)

def Node.vals : List (String × Node) → NSDictionary
  | [] => []
  | (key, child) :: cs => (key, child.val) :: Node.vals cs

end

theorem Node.vals_eq_map (cs : List (String × Node)) :
    Node.vals foundation cs = cs.map fun e => (e.1, e.2.val foundation) := by
  induction cs with
  | nil => rfl
  | cons e cs ih => rw [Node.vals, ih, List.map_cons]

/-- The keys of the exported object are the keys of the node. -/
theorem Node.vals_keys (cs : List (String × Node)) :
    (Node.vals foundation cs).map Prod.fst = cs.map Prod.fst := by
  rw [vals_eq_map, List.map_map]
  rfl

theorem Node.lookup_vals (cs : List (String × Node)) (key : String) :
    (Node.vals foundation cs).lookup key = (cs.lookup key).map (Node.val foundation) := by
  induction cs with
  | nil => rfl
  | cons e cs ih =>
      rw [Node.vals, List.lookup_cons, List.lookup_cons, ih]
      cases key == e.1 <;> rfl

end

section

variable {foundation : Foundation}

/-- A key that starts with an ASCII character other than a digit is no array index. -/
theorem integerKey_eq_none {key : String} {c : Char} {cs : List Char} (hkey : key.toList = c :: cs)
    (hascii : c.toNat < 128) (hdigit : c.isDigit = false) : integerKey foundation key = none := by
  have hnot : foundation.decimalDigit c = false :=
    (foundation.decimalDigit_ascii c hascii).trans hdigit
  simp only [integerKey, intForString, hkey, List.all_cons, hnot, Bool.false_and,
    Bool.false_eq_true, if_false, ite_self]

/-- A key that is not an array index keeps a node from exporting an array. -/
theorem exportsArray_eq_false {keys : List String} {key : String} (hmem : key ∈ keys)
    (hkey : integerKey foundation key = none) : exportsArray foundation keys = false := by
  have hall : keys.all (fun k => (integerKey foundation k).isSome) = false := by
    rw [List.all_eq_false]
    exact ⟨key, hmem, by simp [hkey]⟩
  simp [exportsArray, hall]

theorem exportChildren_of_not_array {obj : NSDictionary} (hne : obj ≠ [])
    (h : exportsArray foundation (obj.map Prod.fst) = false) :
    exportChildren foundation obj = .dictionary obj := by
  have hempty : obj.isEmpty = false := by simpa using hne
  simp [exportChildren, hempty, h]

end

/-! ## Import and update: `nodeFrom:`, `updateImmediateChild:withNewChild:` -/

mutual

/-- `FSnapshotUtilities nodeFrom:`; children that would be empty are left out.
The app writes no metadata keys (".value", ".priority"), so there is no branch
for them. -/
def nodeFrom : AnyObject → Node
  | .null => .children []
  | .bool b => .leaf (.bool b)
  | .int n => .leaf (.int n)
  | .double x => .leaf (.double x)
  | .string s => .leaf (.string s)
  | .array items => .children (nodesFromItems 0 items)
  | .dictionary entries => .children (nodesFromEntries entries)

def nodesFromItems (i : Nat) : List AnyObject → List (String × Node)
  | [] => []
  | item :: items =>
      match nodeFrom item with
      | .children [] => nodesFromItems (i + 1) items
      | child => (toString i, child) :: nodesFromItems (i + 1) items

def nodesFromEntries : NSDictionary → List (String × Node)
  | [] => []
  | (key, value) :: entries =>
      match nodeFrom value with
      | .children [] => nodesFromEntries entries
      | child => (key, child) :: nodesFromEntries entries

end

/-- Set one child in a map of children. -/
def setChild (key : String) (child : Node) : List (String × Node) → List (String × Node)
  | [] => [(key, child)]
  | (k, n) :: cs => if k = key then (k, child) :: cs else (k, n) :: setChild key child cs

/-- `updateImmediateChild:withNewChild:` for a child that is not empty: a leaf
gives way to an inner node. -/
def Node.updateImmediateChild (node : Node) (key : String) (child : Node) : Node :=
  match node with
  | .leaf _ => .children (setChild key child [])
  | .children cs => .children (setChild key child cs)

end SocialTimeline
