import SocialTimeline.Logic.BulkRead

/-!
# The bulk read and the live path

`bulk_read_agrees` says for which contents of `/posts` the one-shot read lists
the posts that the live observers would build child by child.
-/

namespace SocialTimeline

open FirebaseTimelineService

/-- A key the database admits. -/
def admissibleKey (key : String) : Bool :=
  key ≠ "" && key.toList.all fun c => c ∉ ['.', '#', '$', '[', ']', '/']

/-- The content of `/posts`: a map from admissible keys to values. -/
structure Content where
  children : List (String × Node)
  nodup : (children.map Prod.fst).Nodup
  admissible : ∀ key ∈ children.map Prod.fst, admissibleKey key = true

namespace Content

def node (content : Content) : Node := .children content.children

def keys (content : Content) : List String := content.children.map Prod.fst

/-- The children as the entries of a dictionary. -/
def dictionary (content : Content) (foundation : Foundation) : NSDictionary :=
  Node.vals foundation content.children

end Content

/-- Where the fullwidth digits are decimal digits, a key may spell an integer without being
one of the array's own indices. -/
example : exportsArray (.withDigits (fun c => c.isDigit || c == '１')
    (fun c hc => by
      have hne : c ≠ '１' := by
        rintro rfl
        exact absurd hc (by decide)
      simp [hne])) ["0", "1", "2", "3", "4", "1１"] = true := by decide

end SocialTimeline
