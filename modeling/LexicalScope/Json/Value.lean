import LexicalScope.Json.Number

set_option autoImplicit false

/-! # JSON values

A document is a JSON value whose objects keep their members in the order of the text. The keys
of an object are distinct in every value that is read (`Json.put` keeps them so), but the type
does not ask for it; look-ups take the first member of a key.
-/

namespace LexicalScope

/-- A JSON value. -/
inductive Json where
  | null
  | bool (value : Bool)
  | number (value : Number)
  | string (value : String)
  | array (items : List Json)
  | object (members : List (String × Json))
deriving Repr, Inhabited

namespace Json

/-- The member of an object under `key`; other values have no members. -/
def member? (key : String) : Json → Option Json
  | object members => members.lookup key
  | _ => none

/-- The text of a string. -/
def string? : Json → Option String
  | string s => some s
  | _ => none

/-- The items of an array. -/
def array? : Json → Option (List Json)
  | array items => some items
  | _ => none

/-- The unsigned 64-bit integer that a value is. -/
def uint64? : Json → Option UInt64
  | number n => n.toUInt64?
  | _ => none

/-- Whether the value is `null`. -/
def isNull : Json → Bool
  | null => true
  | _ => false

/-- Whether the value is an object. -/
def isObject : Json → Bool
  | object _ => true
  | _ => false

/-- Sets the member under `key`: in its place if there is one, else at the end. -/
def put (key : String) (value : Json) : List (String × Json) → List (String × Json)
  | [] => [(key, value)]
  | (k, v) :: rest => if k = key then (key, value) :: rest else (k, v) :: put key value rest

mutual

/-- The number of objects in a value, itself included. -/
def objectCount : Json → Nat
  | array items => itemObjects items
  | object members => memberObjects members + 1
  | _ => 0

/-- The number of objects in the items of an array. -/
def itemObjects : List Json → Nat
  | [] => 0
  | v :: rest => v.objectCount + itemObjects rest

/-- The number of objects in the members of an object. -/
def memberObjects : List (String × Json) → Nat
  | [] => 0
  | (_, v) :: rest => v.objectCount + memberObjects rest

end

theorem objectCount_le_itemObjects {v : Json} {items : List Json} (h : v ∈ items) :
    v.objectCount ≤ itemObjects items := by
  induction items with
  | nil => cases h
  | cons w rest ih =>
    rw [itemObjects]
    rcases List.mem_cons.1 h with rfl | h
    · omega
    · have := ih h
      omega

theorem objectCount_le_memberObjects {key : String} {v : Json} {members : List (String × Json)}
    (h : members.lookup key = some v) : v.objectCount ≤ memberObjects members := by
  induction members with
  | nil => cases h
  | cons m rest ih =>
    obtain ⟨k, w⟩ := m
    rw [memberObjects]
    rw [List.lookup_cons] at h
    split at h
    · cases h
      omega
    · have := ih h
      omega

/-- A member holds fewer objects than the object it is in. -/
theorem objectCount_lt_of_member? {n v : Json} {key : String} (h : n.member? key = some v) :
    v.objectCount < n.objectCount := by
  cases n with
  | object members =>
    have := objectCount_le_memberObjects h
    rw [objectCount]
    omega
  | _ => cases h

end Json

end LexicalScope
