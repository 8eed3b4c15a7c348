set_option autoImplicit false

/-! # Usage

How the program is used, and what can be wrong with its arguments.
-/

namespace LexicalScope

/-- What is wrong with the arguments. -/
inductive UsageError where
  /-- An option that is not known, or a second file. -/
  | unknownArgument
  /-- A value that is missing, or not one of the possible values, or an empty file name. -/
  | invalidValue
  /-- An offset that is not a number. -/
  | invalidNumber
  /-- A value for an option that takes none. -/
  | unexpectedValue
  /-- An option given twice, or two that exclude each other. -/
  | conflict
  /-- No file. -/
  | missingFile
deriving DecidableEq, Repr

/-- The text of a usage error. -/
def UsageError.message : UsageError → String
  | unknownArgument => "unexpected argument"
  | invalidValue => "invalid or missing value"
  | invalidNumber => "the offset is not a number"
  | unexpectedValue => "unexpected value for an option without one"
  | conflict => "an argument cannot be used with another one"
  | missingFile => "no file given"

/-- Why the arguments lead to no report. -/
inductive Stop where
  | help
  | version
  | usage (error : UsageError)
deriving DecidableEq, Repr

/-! ## Texts -/

/-- The name and version of the program. -/
def versionText : String := "scopewalk 0.1.0\n"

/-- How the program is used. -/
def helpText : String :=
  String.join [
    "Walk a SpiderMonkey-style JavaScript AST and report its lexical scopes\n",
    "\n",
    "Usage: scopewalk [OPTIONS] <FILE>\n",
    "\n",
    "Arguments:\n",
    "  <FILE>  JSON file holding the parser's AST (`-` reads stdin)\n",
    "\n",
    "Options:\n",
    "      --tree             Print every node of the wrapped tree in pre-order instead of scopes\n",
    "      --at <OFFSET>      Print the chain of nodes whose source range contains OFFSET\n",
    "      --format <FORMAT>  Output format [default: text] [possible values: text, json]\n",
    "      --no-color         Disable colored text output\n",
    "  -h, --help             Print help\n",
    "  -V, --version          Print version\n"]

end LexicalScope
