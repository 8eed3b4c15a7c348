import LexicalScope.Json.Writer
import LexicalScope.Listing.Paint
import LexicalScope.Tree.Rows

set_option autoImplicit false

/-! # Listings of rows

A listing is the text of a report: one line for each row, indented by its depth, or one JSON
array with an object for each row.
-/

namespace LexicalScope

/-- The format of a listing. -/
inductive Format where
  | text
  | json
deriving DecidableEq, Repr

/-- How a listing is written. Colour is for text only. -/
structure Style where
  format : Format
  color : Bool
deriving DecidableEq, Repr

/-- An indentation of two spaces for each level. -/
def indentation (depth : Nat) : String := String.ofList (List.replicate (2 * depth) ' ')

/-! ## Lines -/

/-- What follows the kind in a digest; a digest that does not start with the kind is kept. -/
def NodeRow.afterKind (r : NodeRow) : String :=
  match r.kind.toList.isPrefixOf? r.digest.toList with
  | some rest => String.ofList rest
  | none => r.digest

/-- The line of a node: its digest, with the kind painted. -/
def NodeRow.line (r : NodeRow) (color : Bool) : String :=
  indentation r.depth.toNat ++ Paint.kind.apply color r.kind ++ r.afterKind ++ "\n"

/-- The line of a scope: its kind, its name if it has one, and the names declared in it. -/
def ScopeRow.line (r : ScopeRow) (color : Bool) : String :=
  indentation r.depth.toNat ++ Paint.kind.apply color r.kind ++
    r.name.elim "" (fun name => " " ++ Paint.name.apply color name) ++ ":" ++
    (if r.identifiers.isEmpty then "" else " " ++ ", ".intercalate r.identifiers) ++ "\n"

/-! ## Objects -/

/-- A natural number in JSON. -/
def Json.nat (n : Nat) : Json := .number (.int n)

/-- A member that is left out when there is no value. -/
def Json.member (key : String) (value : Option Json) : List (String × Json) :=
  value.toList.map fun v => (key, v)

/-- The object of a node. A root has no parent. -/
def NodeRow.toJson (r : NodeRow) : Json :=
  .object <|
    [("index", .nat r.index.toNat)] ++
    Json.member "parent" (r.parent.map fun p => .nat p.toNat) ++
    [("depth", .nat r.depth.toNat), ("kind", .string r.kind), ("digest", .string r.digest)]

/-- The object of a scope. -/
def ScopeRow.toJson (r : ScopeRow) : Json :=
  .object <|
    [("id", .nat r.id.toNat), ("kind", .string r.kind)] ++
    Json.member "name" (r.name.map .string) ++
    [("node", .nat r.node.toNat)] ++
    Json.member "parent" (r.parent.map fun p => .nat p.toNat) ++
    [("depth", .nat r.depth.toNat), ("identifiers", .array (r.identifiers.map .string))]

/-! ## Listings -/

namespace Style

/-- A listing of rows, given the line and the object of one row. -/
def list {α : Type} (style : Style) (line : α → Bool → String) (object : α → Json)
    (rows : List α) : String :=
  match style.format with
  | .text => String.join (rows.map fun r => line r style.color)
  | .json => (Json.array (rows.map object)).pretty ++ "\n"

/-- The listing of nodes. -/
def nodes (style : Style) (rows : List NodeRow) : String :=
  style.list NodeRow.line NodeRow.toJson rows

/-- The listing of scopes. -/
def scopes (style : Style) (rows : List ScopeRow) : String :=
  style.list ScopeRow.line ScopeRow.toJson rows

end Style

end LexicalScope
