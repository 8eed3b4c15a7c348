import LexicalScope.Command.Failure
import LexicalScope.Json.Reader

set_option autoImplicit false

/-! # Documents

A document is one JSON object, read from a file or from the standard input. Getting the bytes is
left to the caller; `Source.ofPath` says where they are.
-/

namespace LexicalScope

/-! ## Sources -/

/-- Where a document is read from. -/
inductive Source where
  | standardInput
  | file (path : String)
deriving DecidableEq, Repr

namespace Source

/-- The source of a path. The path `-` is the standard input; slashes and dots after it name no
other file. -/
def ofPath (path : String) : Source :=
  match path.splitOn "/" with
  | "-" :: rest => if rest.all (fun s => s = "" || s = ".") then standardInput else file path
  | _ => file path

/-- What has failed when the source cannot be read. -/
def readFailure : Source → String
  | standardInput => "failed to read AST from stdin"
  | file path => "failed to read " ++ path

end Source

/-! ## Reading -/

/-- The JSON type of a value, in words. -/
def Json.typeInWords : Json → String
  | .null => "null"
  | .bool _ => "a boolean"
  | .number _ => "a number"
  | .string _ => "a string"
  | .array _ => "an array"
  | .object _ => "an object"

namespace Document

/-- The document that a text holds: one JSON object and nothing else. -/
def ofText (text : String) : Except Failure Json :=
  match Json.parse? text with
  | none => .error ((Failure.ofCause .notJson).within "AST document is not valid JSON")
  | some value =>
    if value.isObject then .ok value
    else .error (Failure.ofCause (.notObject value.typeInWords))

/-- The document in the bytes at a path; nothing stands for bytes that could not be read. -/
def ofBytes (path : String) (content : Option ByteArray) : Except Failure Json :=
  match content.bind String.fromUTF8? with
  | none => .error ((Failure.ofCause .unreadable).within (Source.ofPath path).readFailure)
  | some text => (ofText text).mapError fun f => f.within ("failed to load " ++ path)

end Document

end LexicalScope
