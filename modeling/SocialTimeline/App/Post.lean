import SocialTimeline.App.Node

/-!
# Posts

`Post`, its dictionary form and the decoder that both read paths of the service
share. The decoder reads three fields of a dictionary and casts each; a
dictionary that lacks one, or holds a value of another kind there, decodes to
nothing.

* `decodeSnapshot` is what the live observers make of a child's own snapshot, the
  same for every `Foundation` (`decodeObject_val`);
* `Post.toNode` is the child a `setValue` of a post leaves in the database, and
  `stampNode` the child a lone timestamp update leaves where there was none;
* `decodeSnapshot_toNode`, `decodeSnapshot_stampNode` say what each decodes to.

Swift compares strings up to canonical equivalence; a `String` of the model
stands for the normal form.
-/

namespace SocialTimeline

structure Post where
  message : String
  user : String
  timestamp : Double
  databaseKey : Option String := none
  deriving DecidableEq

inductive PostUpdateType
  | added
  | removed
  deriving DecidableEq

/-! ## Casts -/

/-- `as? String`. -/
def AnyObject.asString : AnyObject → Option String
  | .string s => some s
  | _ => none

/-- `Double(exactly:)` of an integer: 53 significant bits. -/
def exactly (n : Int) : Option Double :=
  if n.natAbs % 2 ^ (Nat.log2 n.natAbs - 52) = 0 then some n else none

/-- `as? Double`. An `NSNumber` casts when its value is exactly a double; a
boolean is the number 0 or 1. -/
def AnyObject.asDouble : AnyObject → Option Double
  | .double x => some x
  | .int n => exactly n
  | .bool b => some (if b then 1 else 0)
  | _ => none

/-- `as? NSDictionary`. -/
def AnyObject.asDictionary : AnyObject → Option NSDictionary
  | .dictionary entries => some entries
  | _ => none

namespace Post

def Keys.message : String := "message"

def Keys.user : String := "user"

def Keys.timestamp : String := "timestamp"

def toAnyObject (post : Post) : AnyObject :=
  .dictionary
    [(Keys.message, .string post.message),
     (Keys.user, .string post.user),
     (Keys.timestamp, .double post.timestamp)]

def fromDictionary (dict : NSDictionary) (key : String) : Option Post := do
  let message ← (dict.lookup Keys.message).bind AnyObject.asString
  let user ← (dict.lookup Keys.user).bind AnyObject.asString
  let timestamp ← (dict.lookup Keys.timestamp).bind AnyObject.asDouble
  return { message, user, timestamp, databaseKey := some key }

/-- Every decoded post carries the key it was decoded under. -/
theorem fromDictionary_databaseKey {dict : NSDictionary} {key : String} {post : Post}
    (h : fromDictionary dict key = some post) : post.databaseKey = some key := by
  simp only [fromDictionary, Option.bind_eq_bind, Option.bind_eq_some_iff, Option.pure_def,
    Option.some.injEq] at h
  obtain ⟨_, _, _, _, _, _, rfl⟩ := h
  rfl

end Post

/-! ## A child and its own snapshot -/

/-- What an observer makes of an object under a key: `as? NSDictionary`, then
`Post.fromDictionary`. -/
def decodeObject (key : String) (value : AnyObject) : Option Post :=
  value.asDictionary.bind fun dict => Post.fromDictionary dict key

/-- What the live observers make of a child's snapshot. What Foundation takes for a digit
makes no difference to it (`decodeObject_val`). -/
def decodeSnapshot (key : String) (node : Node) : Option Post :=
  decodeObject key (node.val .ascii)

theorem decodeObject_databaseKey {key : String} {value : AnyObject} {post : Post}
    (h : decodeObject key value = some post) : post.databaseKey = some key := by
  obtain ⟨dict, _, hdict⟩ := Option.bind_eq_some_iff.mp h
  exact Post.fromDictionary_databaseKey hdict

theorem decodeSnapshot_databaseKey {key : String} {node : Node} {post : Post}
    (h : decodeSnapshot key node = some post) : post.databaseKey = some key :=
  decodeObject_databaseKey h

/-! ### The export of a child that decodes -/

section

variable {foundation foundation' : Foundation}

/-- Only a leaf exports as a string or a number. -/
theorem asString_val (node : Node) :
    (node.val foundation).asString = (node.val foundation').asString ∧
      (node.val foundation).asDouble = (node.val foundation').asDouble := by
  have hinner : ∀ (foundation : Foundation) (obj : NSDictionary),
      (exportChildren foundation obj).asString = none ∧
        (exportChildren foundation obj).asDouble = none := by
    intro foundation obj
    unfold exportChildren
    split
    · exact ⟨rfl, rfl⟩
    · split <;> exact ⟨rfl, rfl⟩
  cases node with
  | leaf value => exact ⟨rfl, rfl⟩
  | children cs =>
      obtain ⟨hstring, hdouble⟩ := hinner foundation (Node.vals foundation cs)
      obtain ⟨hstring', hdouble'⟩ := hinner foundation' (Node.vals foundation' cs)
      exact ⟨hstring.trans hstring'.symm, hdouble.trans hdouble'.symm⟩

theorem fromDictionary_vals (cs : List (String × Node)) (key : String) :
    Post.fromDictionary (Node.vals foundation cs) key =
      Post.fromDictionary (Node.vals foundation' cs) key := by
  have hstring : ∀ field, ((Node.vals foundation cs).lookup field).bind AnyObject.asString =
      ((Node.vals foundation' cs).lookup field).bind AnyObject.asString := by
    intro field
    rw [Node.lookup_vals, Node.lookup_vals]
    cases cs.lookup field with
    | none => rfl
    | some node => exact (asString_val node).1
  have hdouble : ∀ field, ((Node.vals foundation cs).lookup field).bind AnyObject.asDouble =
      ((Node.vals foundation' cs).lookup field).bind AnyObject.asDouble := by
    intro field
    rw [Node.lookup_vals, Node.lookup_vals]
    cases cs.lookup field with
    | none => rfl
    | some node => exact (asString_val node).2
  simp only [Post.fromDictionary, hstring, hdouble]

/-- What decodes has a message, so its keys are no array indices. -/
theorem exportsArray_of_fromDictionary {cs : List (String × Node)} {key : String} {post : Post}
    (h : Post.fromDictionary (Node.vals foundation cs) key = some post) :
    exportsArray foundation (cs.map Prod.fst) = false := by
  simp only [Post.fromDictionary, Option.bind_eq_bind, Option.bind_eq_some_iff] at h
  obtain ⟨_, ⟨value, hvalue, -⟩, -⟩ := h
  rw [Node.lookup_vals, Option.map_eq_some_iff] at hvalue
  obtain ⟨node, hnode, -⟩ := hvalue
  obtain ⟨before, after, rfl, -⟩ := List.lookup_eq_some_iff.mp hnode
  have hkey : Post.Keys.message.toList = 'm' :: "essage".toList := by decide
  exact exportsArray_eq_false (List.mem_map_of_mem (List.mem_append_right _ List.mem_cons_self))
    (integerKey_eq_none hkey (by decide) rfl)

theorem decodeObject_children (cs : List (String × Node)) (key : String) :
    decodeObject key ((Node.children cs).val foundation) =
      Post.fromDictionary (Node.vals foundation cs) key := by
  have hval : (Node.children cs).val foundation =
      exportChildren foundation (Node.vals foundation cs) := rfl
  rw [hval]
  cases hpost : Post.fromDictionary (Node.vals foundation cs) key with
  | none =>
      unfold exportChildren
      split
      · rfl
      · split
        · rfl
        · exact hpost
  | some post =>
      have hne : Node.vals foundation cs ≠ [] := by
        intro hnil
        rw [hnil] at hpost
        cases hpost
      have harray := exportsArray_of_fromDictionary hpost
      rw [← Node.vals_keys foundation] at harray
      rw [exportChildren_of_not_array hne harray]
      exact hpost

/-- **Every Foundation exports a child to the same post**, or to none. -/
theorem decodeObject_val (foundation : Foundation) (key : String) (node : Node) :
    decodeObject key (node.val foundation) = decodeSnapshot key node := by
  unfold decodeSnapshot
  cases node with
  | leaf value => rfl
  | children cs => rw [decodeObject_children, decodeObject_children, fromDictionary_vals]

end

/-! ### The children that the app writes -/

/-- The child that `setValue(post.toAnyObject())` leaves. -/
def Post.toNode (post : Post) : Node := nodeFrom post.toAnyObject

/-- The child that a timestamp update leaves where there was none. -/
def stampNode (timestamp : Double) : Node :=
  .children [(Post.Keys.timestamp, .leaf (.double timestamp))]

/-- A written post decodes to itself, under its key. -/
theorem decodeSnapshot_toNode (post : Post) (key : String) :
    decodeSnapshot key post.toNode = some { post with databaseKey := some key } := by
  unfold decodeSnapshot
  exact decodeObject_children _ key

/-- A lone timestamp does not decode. -/
@[simp] theorem decodeSnapshot_stampNode (timestamp : Double) (key : String) :
    decodeSnapshot key (stampNode timestamp) = none := by
  unfold decodeSnapshot
  exact decodeObject_children _ key

/-- The timestamp update changes the timestamp of a written post, and nothing
else. -/
theorem updateImmediateChild_toNode (post : Post) (timestamp : Double) :
    post.toNode.updateImmediateChild Post.Keys.timestamp (.leaf (.double timestamp)) =
      ({ post with timestamp } : Post).toNode := rfl

end SocialTimeline
