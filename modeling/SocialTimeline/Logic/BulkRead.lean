import SocialTimeline.App.FirebaseTimelineService
import Mathlib.Data.List.Nodup

/-!
# The bulk read, child by child

`retrievePosts` gets at a child through the exported object of the whole node
and key-value coding; the live observers get at it through its own snapshot.

* `retrievePost_eq_decodeSnapshot` — when the lookup of one key gives what the
  child's own snapshot gives;
* `retrievePosts_eq_ok`, `retrievePosts_of_array` — the bulk read lists what the
  lookups of the keys give, or nothing at all;
* `retrievePosts_pushIds` — under keys that `childByAutoId` makes, the bulk read
  is the child by child decoding.
-/

namespace SocialTimeline

open FirebaseTimelineService

/-! ## The live path -/

/-- The posts among the children, each decoded from its own snapshot. -/
def decodeChildren (children : List (String × Node)) : List Post :=
  children.filterMap fun e => decodeSnapshot e.1 e.2

/-- What the lookup of one key gives; nothing when it raises. -/
def foundPost (foundation : Foundation) (dict : NSDictionary) (key : String) : Option Post :=
  match retrievePost foundation dict key with
  | .ok post => post
  | .error _ => none

theorem foundPost_of_ok {foundation : Foundation} {dict : NSDictionary} {key : String}
    {post : Option Post} (h : retrievePost foundation dict key = .ok post) :
    foundPost foundation dict key = post := by
  unfold foundPost
  rw [h]

theorem foundPost_databaseKey {foundation : Foundation} {dict : NSDictionary} {key : String}
    {post : Post} (h : foundPost foundation dict key = some post) :
    post.databaseKey = some key := by
  unfold foundPost at h
  split at h
  · rename_i found hfound
    simp only [retrievePost, bind, Except.bind, pure, Except.pure] at hfound
    split at hfound
    · cases hfound
    · rw [← Except.ok.inj hfound] at h
      exact decodeObject_databaseKey h
  · cases h

/-- The bulk read goes through exactly when the lookup of every key does. -/
theorem retrieveAll_eq_ok {foundation : Foundation} {dict : NSDictionary} {keys : List String}
    {posts : List Post} :
    retrieveAll foundation dict keys = .ok posts ↔
      (∀ key ∈ keys, ∃ post, retrievePost foundation dict key = .ok post) ∧
        posts = keys.filterMap (foundPost foundation dict) := by
  induction keys generalizing posts with
  | nil => simp [retrieveAll, eq_comm]
  | cons key keys ih =>
      show (retrievePost foundation dict key >>= fun post =>
        retrieveAll foundation dict keys >>= fun rest => pure (post.toList ++ rest)) = _ ↔ _
      cases hpost : retrievePost foundation dict key with
      | error crash =>
          refine ⟨nofun, ?_⟩
          rintro ⟨hall, -⟩
          obtain ⟨post, hok⟩ := hall key List.mem_cons_self
          rw [hpost] at hok
          cases hok
      | ok post =>
          have hfound := foundPost_of_ok hpost
          have hlist : (key :: keys).filterMap (foundPost foundation dict) =
              post.toList ++ keys.filterMap (foundPost foundation dict) := by
            rw [List.filterMap_cons, hfound]
            cases post <;> rfl
          rw [hlist]
          constructor
          · intro h
            cases hrest : retrieveAll foundation dict keys with
            | error crash =>
                rw [hrest] at h
                cases h
            | ok rest =>
                rw [hrest] at h
                cases h
                obtain ⟨hkeys, rfl⟩ := ih.mp hrest
                exact ⟨List.forall_mem_cons.mpr ⟨⟨post, hpost⟩, hkeys⟩, rfl⟩
          · rintro ⟨hkeys, rfl⟩
            have hrest := ih.mpr ⟨(List.forall_mem_cons.mp hkeys).2, rfl⟩
            rw [hrest]
            rfl

/-! ## One key -/

theorem valueForKey_plain (foundation : Foundation) (dict : NSDictionary) {key : String}
    (h : key.toList.head? ≠ some '@') :
    valueForKey foundation dict key = .ok ((dict.lookup key).getD .null) := by
  unfold valueForKey
  split
  · rename_i name hname
    rw [hname] at h
    exact absurd rfl h
  · rfl

theorem valueForKey_property (foundation : Foundation) (dict : NSDictionary) {key : String}
    {name : List Char} (h : key.toList = '@' :: name) :
    valueForKey foundation dict key =
      match foundation.property dict (String.ofList name) with
      | some value => .ok value
      | none => .error (.undefinedKey key) := by
  unfold valueForKey
  split
  · rename_i name' hname
    rw [h] at hname
    cases hname
    rfl
  · rename_i hplain
    exact absurd h (hplain name)

/-- A key of key-value coding that is not a plain lookup resolves to a property
that decodes as the child does. -/
def Resolves (foundation : Foundation) (dict : NSDictionary) (key : String) (node : Node) : Prop :=
  ∀ name, key.toList = '@' :: name → ∃ value,
    foundation.property dict (String.ofList name) = some value ∧
      decodeObject key value = decodeSnapshot key node

theorem resolves_of_head_ne {foundation : Foundation} {dict : NSDictionary} {key : String}
    {node : Node} (h : key.toList.head? ≠ some '@') : Resolves foundation dict key node := by
  intro name hname
  rw [hname] at h
  exact absurd rfl h

/-- **One key.** Its lookup in the exported object gives the post of the child's
own snapshot exactly when it resolves. -/
theorem retrievePost_eq_decodeSnapshot {foundation : Foundation} {dict : NSDictionary}
    {key : String} {node : Node}
    (hlookup : dict.lookup key = some (node.val foundation)) :
    retrievePost foundation dict key = .ok (decodeSnapshot key node) ↔
      Resolves foundation dict key node := by
  by_cases hhead : key.toList.head? = some '@'
  · obtain ⟨name, hname⟩ := List.head?_eq_some_iff.mp hhead
    have hresolves : Resolves foundation dict key node ↔ ∃ value,
        foundation.property dict (String.ofList name) = some value ∧
          decodeObject key value = decodeSnapshot key node := by
      refine ⟨fun h => h name hname, ?_⟩
      intro h name' hname'
      rw [hname] at hname'
      cases hname'
      exact h
    rw [hresolves, retrievePost, valueForKey_property foundation dict hname]
    cases foundation.property dict (String.ofList name) with
    | none => simp [bind, Except.bind]
    | some value => simp [bind, Except.bind, pure, Except.pure]
  · refine iff_of_true ?_ (resolves_of_head_ne hhead)
    rw [retrievePost, valueForKey_plain foundation dict hhead, hlookup,
      ← decodeObject_val foundation]
    rfl

theorem lookup_vals {foundation : Foundation} {children : List (String × Node)}
    (hnodup : (children.map Prod.fst).Nodup) {key : String} {node : Node}
    (hmem : (key, node) ∈ children) :
    (Node.vals foundation children).lookup key = some (node.val foundation) := by
  suffices hlookup : children.lookup key = some node by
    rw [Node.lookup_vals, hlookup, Option.map_some]
  induction children with
  | nil => cases hmem
  | cons e children ih =>
      obtain ⟨hhead, htail⟩ := List.nodup_cons.mp hnodup
      rcases List.mem_cons.mp hmem with rfl | hmem
      · exact List.lookup_cons_self
      · have hne : key ≠ e.1 := by
          rintro rfl
          exact hhead (List.mem_map.mpr ⟨_, hmem, rfl⟩)
        have hbeq : (key == e.1) = false := by simp [hne]
        rw [List.lookup_cons, hbeq]
        exact ih htail hmem

/-! ## The whole node -/

/-- A node that does not export as an array is read key by key. -/
theorem retrievePosts_eq_ok {foundation : Foundation} {children : List (String × Node)}
    (h : exportsArray foundation (children.map Prod.fst) = false) {posts : List Post} :
    retrievePosts foundation (.value (.children children)) = .ok posts ↔
      (∀ e ∈ children, ∃ post,
        retrievePost foundation (Node.vals foundation children) e.1 = .ok post) ∧
      posts = children.filterMap fun e =>
        foundPost foundation (Node.vals foundation children) e.1 := by
  by_cases hnil : children = []
  · subst hnil
    show Except.ok [] = Except.ok posts ↔ _
    simp [eq_comm]
  · have hkeys := Node.vals_keys foundation children
    have hne : Node.vals foundation children ≠ [] := by
      intro hvals
      rw [hvals] at hkeys
      exact hnil (List.map_eq_nil_iff.mp hkeys.symm)
    have hval : (Node.children children).val foundation =
        .dictionary (Node.vals foundation children) :=
      exportChildren_of_not_array hne (by rw [hkeys, h])
    have hread : retrievePosts foundation (.value (.children children)) = .ok posts ↔
        retrieveAll foundation (Node.vals foundation children) (children.map Prod.fst) =
          .ok posts := by
      simp only [retrievePosts, hval, AnyObject.asDictionary, hkeys]
      cases retrieveAll foundation (Node.vals foundation children) (children.map Prod.fst) with
      | ok posts' => simp
      | error crash => simp
    rw [hread, retrieveAll_eq_ok, List.filterMap_map, List.forall_mem_map]
    rfl

/-- The characters of `FNextPushId`. -/
def pushChars : List Char :=
  "-0123456789ABCDEFGHIJKLMNOPQRSTUVWXYZ_abcdefghijklmnopqrstuvwxyz".toList

/-- The keys `FNextPushId get:` makes: eight characters of milliseconds, which
start with the digit zero until 2109, and twelve random ones. -/
def isPushId (key : String) : Bool :=
  key.toList.length = 20 && key.toList.head? = some '-' && key.toList.all (pushChars.contains ·)

theorem head_of_isPushId {key : String} (h : isPushId key = true) :
    key.toList.head? = some '-' := by
  simp only [isPushId, Bool.and_eq_true, decide_eq_true_eq] at h
  exact h.1.2

/-- A push id is not an array index. -/
theorem integerKey_of_isPushId {foundation : Foundation} {key : String}
    (h : isPushId key = true) : integerKey foundation key = none := by
  obtain ⟨cs, hkey⟩ := List.head?_eq_some_iff.mp (head_of_isPushId h)
  exact integerKey_eq_none hkey (by decide) rfl

/-- Under push ids the bulk read lists the posts child by child. -/
theorem retrievePosts_pushIds (foundation : Foundation) {children : List (String × Node)}
    (hnodup : (children.map Prod.fst).Nodup)
    (hpush : ∀ key ∈ children.map Prod.fst, isPushId key = true) :
    retrievePosts foundation (.value (.children children)) = .ok (decodeChildren children) := by
  have hexport : exportsArray foundation (children.map Prod.fst) = false := by
    cases hkeys : children.map Prod.fst with
    | nil => rfl
    | cons key keys =>
        rw [hkeys] at hpush
        exact exportsArray_eq_false List.mem_cons_self
          (integerKey_of_isPushId (hpush key List.mem_cons_self))
  have hchild : ∀ e ∈ children, retrievePost foundation (Node.vals foundation children) e.1 =
      .ok (decodeSnapshot e.1 e.2) := by
    intro e he
    refine (retrievePost_eq_decodeSnapshot (lookup_vals hnodup he)).mpr (resolves_of_head_ne ?_)
    rw [head_of_isPushId (hpush e.1 (List.mem_map_of_mem he))]
    decide
  refine (retrievePosts_eq_ok hexport).mpr ⟨fun e he => ⟨_, hchild e he⟩, ?_⟩
  exact List.filterMap_congr fun e he => (foundPost_of_ok (hchild e he)).symm

end SocialTimeline
