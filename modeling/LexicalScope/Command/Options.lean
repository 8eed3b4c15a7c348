import LexicalScope.Listing.Style

set_option autoImplicit false

/-! # Options of a run

The file that is read, the report that is made of it and how that is written.
-/

namespace LexicalScope

/-- What a run reports. -/
inductive Mode where
  /-- All scopes with their names. -/
  | scopes
  /-- All nodes. -/
  | tree
  /-- The nodes under a source offset. -/
  | chain (offset : UInt64)
deriving DecidableEq, Repr

/-- What the arguments ask for. -/
structure Options where
  file : String
  tree : Bool
  offset : Option UInt64
  format : Format
  noColor : Bool
deriving DecidableEq, Repr

/-- The report that the options choose. -/
def Options.mode (o : Options) : Mode :=
  match o.offset with
  | some offset => .chain offset
  | none => if o.tree then .tree else .scopes

end LexicalScope
