import LexicalScope.Tree.Basic

set_option autoImplicit false

/-! # Failures of a run

A run fails for one cause, and each step around it adds what it was doing. The texts of causes
that are not decided here, the JSON reader's and the operating system's, are left open as
`<json>` and `<io>`.
-/

namespace LexicalScope

/-- Why a run failed. -/
inductive Cause where
  /-- The text could not be read, or is not UTF-8. -/
  | unreadable
  /-- The text is not JSON. -/
  | notJson
  /-- The document is of another JSON type than an object. -/
  | notObject (found : String)
  /-- The walk over the document failed. -/
  | query (error : QueryError)
deriving DecidableEq, Repr

/-- The text of a cause. -/
def Cause.message : Cause → String
  | unreadable => "<io>"
  | notJson => "<json>"
  | notObject found => "AST document must be a JSON object, found " ++ found
  | query e => e.message

/-- A failure: its cause, and what was being done, outermost first. -/
structure Failure where
  context : List String
  cause : Cause
deriving DecidableEq, Repr

namespace Failure

/-- A failure without context. -/
def ofCause (cause : Cause) : Failure := ⟨[], cause⟩

/-- Adds what was being done around the failure. -/
def within (f : Failure) (doing : String) : Failure := { f with context := doing :: f.context }

/-- The texts of a failure, outermost first. -/
def texts (f : Failure) : List String := f.context ++ [f.cause.message]

/-- A failure on one line. -/
def message (f : Failure) : String := ": ".intercalate f.texts

/-! ## Reports of failures -/

/-- A text whose first line follows `first` and whose other lines are indented by `margin`. -/
def hang (first margin text : String) : String :=
  first ++ String.ofList (text.toList.flatMap fun c =>
    if c = '\n' then '\n' :: margin.toList else [c])

/-- The lines of one cause alone. -/
def lone (text : String) : String := hang "    " "    " text

/-- The lines of one of several causes, with its number to the right of five places. -/
def numbered (n : Nat) (text : String) : String :=
  let number := toString n
  hang (String.ofList (List.replicate (5 - number.length) ' ') ++ number ++ ": ") "       " text

/-- The lines of the causes. -/
def causes : List String → List String
  | [text] => [lone text]
  | texts => texts.mapIdx numbered

/-- A failure as it is shown to the user: what failed, then why. -/
def report (f : Failure) : String :=
  match f.texts with
  | [] => ""
  | [text] => "Error: " ++ text ++ "\n"
  | text :: rest =>
    "Error: " ++ text ++ "\n\nCaused by:\n" ++ "\n".intercalate (causes rest) ++ "\n"

end Failure

end LexicalScope
