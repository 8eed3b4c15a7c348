import LexicalScope.Command.Options
import LexicalScope.Command.Usage

set_option autoImplicit false

/-! # The command line

The arguments name one file and choose the report. They are taken from left to right. The value
of an option, and the file, are checked when the next known argument or the end is reached; an
argument that nothing can be made of is refused at once, also before a value that waits to be
checked. That an option is given twice shows when its second use is checked, and that two
options exclude each other, or that the file is missing, only at the end.
-/

namespace LexicalScope

namespace CommandLine

/-! ## Words -/

/-- The options without a value. -/
inductive Flag where
  | tree
  | noColor
deriving DecidableEq, Repr

/-- The options with a value. -/
inductive Valued where
  | offset
  | format
deriving DecidableEq, Repr

/-- What an argument is before the mark that ends the options. -/
inductive Word where
  /-- The mark that ends the options. -/
  | endOfOptions
  | help
  | version
  | flag (flag : Flag)
  /-- An option with a value, which is part of the argument or the next one. -/
  | valued (option : Valued) (attached : Option String)
  /-- An option without a value that is given one. -/
  | needlessValue
  | unknown
  /-- A file, or the value of the option before. -/
  | plain
deriving DecidableEq, Repr

/-- An option that takes no value. -/
def Word.bare (word : Word) (attached : Option String) : Word :=
  if attached.isSome then needlessValue else word

/-- The option of a long name. Names are not abbreviated. -/
def Word.long (name : String) (attached : Option String) : Word :=
  if name = "tree" then bare (flag .tree) attached
  else if name = "no-color" then bare (flag .noColor) attached
  else if name = "help" then bare help attached
  else if name = "version" then bare version attached
  else if name = "at" then valued .offset attached
  else if name = "format" then valued .format attached
  else unknown

/-- The option of a letter. What follows the letter is not looked at, since both letters stop. -/
def Word.short (letter : Char) : Word :=
  if letter = 'h' then help else if letter = 'V' then version else unknown

/-- What an argument is. A value is attached to a long name by an equals sign. -/
def Word.ofArgument (argument : String) : Word :=
  match argument.toList with
  | ['-', '-'] => endOfOptions
  | '-' :: '-' :: cs =>
    let name := String.ofList (cs.takeWhile (· ≠ '='))
    match cs.dropWhile (· ≠ '=') with
    | [] => long name none
    | _ :: value => long name (some (String.ofList value))
  | '-' :: letter :: _ => short letter
  | _ => plain

/-! ## Values -/

/-- An offset: decimal digits that fit 64 bits, with or without a plus sign. -/
def offset? (value : String) : Option UInt64 :=
  let digits := match value.toList with
    | '+' :: cs => cs
    | cs => cs
  if !digits.isEmpty && digits.all Char.isDigit && Number.ofDigits digits < UInt64.size then
    some (Number.ofDigits digits).toUInt64
  else none

/-- A format, by its exact name. -/
def format? (value : String) : Option Format :=
  if value = "text" then some .text else if value = "json" then some .json else none

/-! ## Taking the arguments -/

/-- What has been accepted. -/
structure Draft where
  file : Option String := none
  tree : Bool := false
  offset : Option UInt64 := none
  format : Option Format := none
  noColor : Bool := false
deriving DecidableEq, Repr

/-- A value that waits to be checked. -/
inductive Held where
  | file (name : String)
  /-- An option, with its value if that has come. -/
  | option (option : Valued) (value : Option String)
deriving DecidableEq, Repr

/-- The state between two arguments. -/
structure Intake where
  draft : Draft := {}
  held : Option Held := none
  /-- Whether the options have ended. -/
  filesOnly : Bool := false
deriving DecidableEq, Repr

namespace Draft

/-- Accepts a flag. -/
def setFlag (d : Draft) : Flag → Except Stop Draft
  | .tree => if d.tree then .error (.usage .conflict) else .ok { d with tree := true }
  | .noColor => if d.noColor then .error (.usage .conflict) else .ok { d with noColor := true }

/-- Accepts an option with its value. -/
def setValued (d : Draft) (value : String) : Valued → Except Stop Draft
  | .offset =>
    if d.offset.isSome then .error (.usage .conflict)
    else
      match offset? value with
      | some n => .ok { d with offset := some n }
      | none => .error (.usage .invalidNumber)
  | .format =>
    if d.format.isSome then .error (.usage .conflict)
    else
      match format? value with
      | some f => .ok { d with format := some f }
      | none => .error (.usage .invalidValue)

/-- Accepts what was held back. -/
def accept (d : Draft) : Held → Except Stop Draft
  | .file name =>
    if name.isEmpty then .error (.usage .invalidValue) else .ok { d with file := some name }
  | .option _ none => .error (.usage .invalidValue)
  | .option o (some value) => d.setValued value o

/-- The options that the accepted arguments make. -/
def finish (d : Draft) : Except Stop Options :=
  if d.tree && d.offset.isSome then .error (.usage .conflict)
  else
    match d.file with
    | none => .error (.usage .missingFile)
    | some file =>
      .ok {
        file := file
        tree := d.tree
        offset := d.offset
        format := d.format.getD .text
        noColor := d.noColor }

end Draft

namespace Intake

/-- What is accepted once the held value is checked. -/
def settle (i : Intake) : Except Stop Draft :=
  match i.held with
  | none => .ok i.draft
  | some held => i.draft.accept held

/-- Whether a file has been given, checked or not. -/
def hasFile (i : Intake) : Bool :=
  i.draft.file.isSome || i.held.any fun
    | .file _ => true
    | .option _ _ => false

/-- Takes an argument as the file. -/
def takeFile (i : Intake) (name : String) : Except Stop Intake :=
  if i.hasFile then .error (.usage .unknownArgument)
  else i.settle.map fun draft => { i with draft, held := some (.file name) }

/-- Takes an argument that is no option: the value that is waited for, or the file. -/
def takePlain (i : Intake) (argument : String) : Except Stop Intake :=
  match i.held with
  | some (.option o none) => .ok { i with held := some (.option o (some argument)) }
  | _ => i.takeFile argument

/-- Takes one argument. -/
def take (i : Intake) (argument : String) : Except Stop Intake :=
  if i.filesOnly then i.takeFile argument
  else
    match Word.ofArgument argument with
    | .endOfOptions => .ok { i with filesOnly := true }
    | .unknown => .error (.usage .unknownArgument)
    | .needlessValue => .error (.usage .unexpectedValue)
    | .plain => i.takePlain argument
    | .help => i.settle.bind fun _ => .error .help
    | .version => i.settle.bind fun _ => .error .version
    | .flag f => do
      let draft ← (← i.settle).setFlag f
      return { i with draft, held := none }
    | .valued o (some value) => do
      let draft ← (← i.settle).setValued value o
      return { i with draft, held := none }
    | .valued o none => do
      let draft ← i.settle
      return { i with draft, held := some (.option o none) }

end Intake

end CommandLine

/-- The options that a list of arguments asks for. -/
def Options.ofArguments (arguments : List String) : Except Stop Options := do
  let intake ← arguments.foldlM CommandLine.Intake.take {}
  let draft ← intake.settle
  draft.finish

end LexicalScope
