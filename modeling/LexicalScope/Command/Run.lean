import LexicalScope.Command.Document
import LexicalScope.Command.Options

set_option autoImplicit false

/-! # A run of the program

From the bytes of a document to the listing that the options ask for.
-/

namespace LexicalScope

/-- The answer to a question asked of a fresh tree over a document. -/
def Query.ask {α : Type} (question : Query α) (document : SyntaxNode) : Except QueryError α :=
  match question.run (Tree.ofDocument document) with
  | .ok answer _ => .ok answer
  | .error e _ => .error e

/-- The listing of a report on a document. -/
def Mode.listing (mode : Mode) (style : Style) (document : SyntaxNode) :
    Except QueryError String :=
  match mode with
  | .scopes => (Query.ask Tree.scopeReport document).map style.scopes
  | .tree => (Query.ask Tree.nodeReport document).map style.nodes
  | .chain offset => (Query.ask (Tree.chainReport offset) document).map style.nodes

namespace Options

/-- Where the document is read from. -/
def source (o : Options) : Source := Source.ofPath o.file

/-- How the listing is written. Colour is used when the caller allows it and the options do not
forbid it. -/
def style (o : Options) (color : Bool) : Style :=
  { format := o.format, color := color && !o.noColor }

/-- The listing that the options ask for on the bytes at their source. -/
def run (o : Options) (color : Bool) (content : Option ByteArray) : Except Failure String := do
  let document ← Document.ofBytes o.file content
  (o.mode.listing (o.style color) document).mapError fun e =>
    (Failure.ofCause (.query e)).within ("failed to walk " ++ o.file)

end Options

end LexicalScope
