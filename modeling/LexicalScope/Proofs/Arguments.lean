import LexicalScope.Proofs.Spellings

set_option autoImplicit false

/-! # The grammar of the command line

A command line is a list of groups: flags, options with their values, and a file. The groups may
stand in any order; what they state, they state at most once. The arguments themselves are taken
one at a time, and a value is checked only when a later argument is reached, of which the grammar
knows nothing. A value that is held may as well be checked at once, though
(`Intake.outcome_eq_ok_iff`), so that a group is taken as a whole (`Intake.outcome_group`); and
what is accepted always begins with a group (`Intake.begins_of_outcome`).

The main statements:

* `CommandLine.Intake.exists_spells`: what is accepted is spelled by groups;
* `CommandLine.Spells.ofArguments_eq_ok_iff`: arguments that are spelled by groups make exactly
  the options that the groups state, if these are admissible;
* `CommandLine.follows_grammar`: a command line is accepted exactly when it follows the grammar,
  and then only its groups matter, not their order.
-/

namespace LexicalScope

namespace CommandLine

/-! ## Groups -/

/-- What a group of arguments states. -/
inductive Group where
  | flag (flag : Flag)
  | offset (n : UInt64)
  | format (format : Format)
  | file (name : String)
deriving DecidableEq, Repr

/-- What is stated at most once. -/
inductive Key where
  | flag (flag : Flag)
  | option (option : Valued)
  | file
deriving DecidableEq, Repr

/-- What a group is about. -/
def Group.key : Group → Key
  | .flag f => .flag f
  | .offset _ => .option .offset
  | .format _ => .option .format
  | .file _ => .file

/-- What an option states with a value. -/
inductive Valued.Means : Valued → String → Group → Prop where
  | offset {value : String} {n : UInt64} (h : OffsetText value n) : Means .offset value (.offset n)
  | text : Means .format "text" (.format .text)
  | json : Means .format "json" (.format .json)

/-- The arguments of a group: a flag, an option with its value apart or attached, or a file. -/
inductive Group.Spelled : Group → List String → Prop where
  | flag (f : Flag) : Spelled (.flag f) [f.argument]
  | apart {o : Valued} {value : String} {g : Group} (h : o.Means value g) :
      Spelled g [o.argument, value]
  | attached {o : Valued} {value : String} {g : Group} (h : o.Means value g) :
      Spelled g [o.argument ++ "=" ++ value]
  | file {name : String} (hne : name ≠ "") (h : Plain name) : Spelled (.file name) [name]

/-- The arguments of a list of groups. A mark may end the options; after it stands at most one
file, which may look like an option. -/
inductive Spells : List Group → List String → Prop where
  | nil : Spells [] []
  | group {g : Group} {gs : List Group} {words arguments : List String} (hg : g.Spelled words)
      (h : Spells gs arguments) : Spells (g :: gs) (words ++ arguments)
  | mark : Spells [] ["--"]
  | markFile {name : String} (hne : name ≠ "") : Spells [.file name] ["--", name]

/-- The groups make up a command line: nothing is stated twice, a file is given, and the list of
all nodes is not asked for together with that at an offset. -/
structure Admissible (gs : List Group) : Prop where
  once : (gs.map Group.key).Nodup
  file : ∃ name, .file name ∈ gs
  apart : ¬ (.flag .tree ∈ gs ∧ ∃ n, .offset n ∈ gs)

/-- The options are those that the groups state. -/
structure States (gs : List Group) (o : Options) : Prop where
  file : .file o.file ∈ gs
  tree : o.tree = true ↔ .flag .tree ∈ gs
  noColor : o.noColor = true ↔ .flag .noColor ∈ gs
  offset : ∀ n, o.offset = some n ↔ .offset n ∈ gs
  format : .format o.format ∈ gs ∨ o.format = .text ∧ ∀ f, .format f ∉ gs
  chain : ∀ n, .offset n ∈ gs → o.mode = .chain n
  nodes : .flag .tree ∈ gs → o.mode = .tree
  scopes : .flag .tree ∉ gs → (∀ n, .offset n ∉ gs) → o.mode = .scopes

/-! ## What has been accepted -/

/-- The group that a value of an option states. -/
def Valued.group? (value : String) : Valued → Option Group
  | .offset => (offset? value).map .offset
  | .format => (format? value).map .format

theorem Valued.group?_eq_some_iff {o : Valued} {value : String} {g : Group} :
    o.group? value = some g ↔ o.Means value g := by
  constructor
  · intro h
    cases o with
    | offset =>
        obtain ⟨n, hn, rfl⟩ := Option.map_eq_some_iff.mp h
        exact .offset (offset?_eq_some_iff.mp hn)
    | format =>
        obtain ⟨f, hf, rfl⟩ := Option.map_eq_some_iff.mp h
        unfold format? at hf
        split_ifs at hf with htext hjson
        · rw [htext, ← Option.some.inj hf]
          exact .text
        · rw [hjson, ← Option.some.inj hf]
          exact .json
  · intro h
    cases h with
    | offset h => simp [group?, offset?_eq_some_iff.mpr h]
    | text => rfl
    | json => rfl

theorem Valued.Means.plain {o : Valued} {value : String} {g : Group} (h : o.Means value g) :
    Plain value := by
  cases h with
  | offset h =>
      obtain ⟨digits, hnumeral, hvalue | hvalue⟩ := h
      · refine Or.inr fun hhead => ?_
        rw [hvalue] at hhead
        exact absurd (hnumeral.isDigit (List.mem_of_head? hhead)) (by decide)
      · exact Or.inr (by simp [hvalue])
  | text => exact Or.inr (by decide)
  | json => exact Or.inr (by decide)

namespace Draft

/-- The group is part of what has been accepted. -/
def Has (d : Draft) : Group → Prop
  | .flag .tree => d.tree = true
  | .flag .noColor => d.noColor = true
  | .offset n => d.offset = some n
  | .format f => d.format = some f
  | .file name => d.file = some name

/-- What is accepted with one more group. -/
def set (d : Draft) : Group → Draft
  | .flag .tree => { d with tree := true }
  | .flag .noColor => { d with noColor := true }
  | .offset n => { d with offset := some n }
  | .format f => { d with format := some f }
  | .file name => { d with file := some name }

/-- Whether something has been accepted of what the key is about. -/
def given (d : Draft) : Key → Bool
  | .flag .tree => d.tree
  | .flag .noColor => d.noColor
  | .option .offset => d.offset.isSome
  | .option .format => d.format.isSome
  | .file => d.file.isSome

theorem has_set {d : Draft} {g h : Group} :
    (d.set g).Has h ↔ h = g ∨ h.key ≠ g.key ∧ d.Has h := by
  rcases g with (_ | _) | _ | _ | _ <;> rcases h with (_ | _) | _ | _ | _ <;>
    simp [set, Has, Group.key] <;> exact eq_comm

theorem given_set {d : Draft} {g : Group} {k : Key} :
    (d.set g).given k = false ↔ k ≠ g.key ∧ d.given k = false := by
  rcases g with (_ | _) | _ | _ | _ <;> rcases k with (_ | _) | (_ | _) | _ <;>
    simp [set, given, Group.key]

theorem setFlag_eq_ok_iff {d d' : Draft} {f : Flag} :
    d.setFlag f = .ok d' ↔ d.given (.flag f) = false ∧ d.set (.flag f) = d' := by
  cases f with
  | tree => cases htree : d.tree <;> simp [setFlag, set, given, htree]
  | noColor => cases hcolor : d.noColor <;> simp [setFlag, set, given, hcolor]

theorem setValued_eq_ok_iff {d d' : Draft} {o : Valued} {value : String} :
    d.setValued value o = .ok d' ↔
      ∃ g, o.group? value = some g ∧ d.given g.key = false ∧ d.set g = d' := by
  cases o with
  | offset =>
      cases hoffset : d.offset <;> cases hvalue : offset? value <;>
        simp [setValued, Valued.group?, set, given, Group.key, hoffset, hvalue]
  | format =>
      cases hformat : d.format <;> cases hvalue : format? value <;>
        simp [setValued, Valued.group?, set, given, Group.key, hformat, hvalue]

theorem file_of_setValued {d d' : Draft} {o : Valued} {value : String}
    (h : d.setValued value o = .ok d') : d'.file = d.file := by
  obtain ⟨g, hg, -, rfl⟩ := setValued_eq_ok_iff.mp h
  cases o <;> obtain ⟨_, -, rfl⟩ := Option.map_eq_some_iff.mp hg <;> rfl

theorem finish_eq_ok_iff {d : Draft} {o : Options} : d.finish = .ok o ↔
    ¬ (d.tree = true ∧ d.offset.isSome = true) ∧ d.file = some o.file ∧ d.tree = o.tree ∧
      d.offset = o.offset ∧ d.format.getD .text = o.format ∧ d.noColor = o.noColor := by
  unfold finish
  split_ifs with hboth
  · simp_all
  · cases o
    cases hfile : d.file <;> simp_all

end Draft

/-! ## Values that wait -/

namespace Intake

/-- The options that come of an intake and the arguments after it. -/
def outcome (i : Intake) (arguments : List String) : Except Stop Options := do
  let intake ← arguments.foldlM take i
  let draft ← intake.settle
  draft.finish

/-- The intake after what is held has been checked. -/
def settled (i : Intake) (d : Draft) : Intake := { i with draft := d, held := none }

/-- The next argument is not taken as a value. -/
def Ready (i : Intake) : Prop := i.filesOnly = true ∨ ∀ o, i.held ≠ some (.option o none)

theorem outcome_nil (i : Intake) : i.outcome [] = i.settle.bind Draft.finish := rfl

theorem outcome_cons_of_ok {i j : Intake} {argument : String} (h : i.take argument = .ok j)
    (arguments : List String) : i.outcome (argument :: arguments) = j.outcome arguments := by
  unfold outcome
  rw [List.foldlM_cons, h]
  rfl

theorem outcome_cons_eq_ok_iff {i : Intake} {argument : String} {arguments : List String}
    {o : Options} : i.outcome (argument :: arguments) = .ok o ↔
      ∃ j, i.take argument = .ok j ∧ j.outcome arguments = .ok o := by
  cases h : i.take argument with
  | error e =>
      unfold outcome
      rw [List.foldlM_cons, h]
      simp [bind, Except.bind]
  | ok j => simp [outcome_cons_of_ok h]

/-- A file that is held counts as given already. -/
theorem hasFile_settled {i : Intake} {d : Draft} (h : i.settle = .ok d) :
    (i.settled d).hasFile = i.hasFile := by
  unfold settle at h
  unfold hasFile
  cases hheld : i.held with
  | none =>
      rw [hheld] at h
      cases h
      simp [settled]
  | some held =>
      rw [hheld] at h
      cases held with
      | file name =>
          simp only [Draft.accept] at h
          split_ifs at h
          cases h
          simp [settled]
      | option o value =>
          cases value with
          | none => cases h
          | some value => simp [settled, Draft.file_of_setValued h]

theorem takeFile_settled {i : Intake} {d : Draft} (h : i.settle = .ok d) (name : String) :
    (i.settled d).takeFile name = i.takeFile name := by
  unfold takeFile
  rw [hasFile_settled h, h]
  rfl

theorem takePlain_of_ready {i : Intake} (hi : ∀ o, i.held ≠ some (.option o none))
    (argument : String) : i.takePlain argument = i.takeFile argument := by
  unfold takePlain
  split
  · rename_i o hheld
    exact absurd hheld (hi o)
  · rfl

theorem take_mark {i : Intake} (h : ¬ i.filesOnly = true) :
    i.take "--" = .ok { i with filesOnly := true } := by
  unfold take
  rw [if_neg h]
  rfl

/-- Once what is held is right, it does not matter when it is checked. -/
theorem take_settled {i : Intake} {d : Draft} (hi : i.Ready) (h : i.settle = .ok d)
    {argument : String} (hmark : i.filesOnly = true ∨ argument ≠ "--") :
    (i.settled d).take argument = i.take argument := by
  unfold take
  rw [show (i.settled d).filesOnly = i.filesOnly from rfl,
    show (i.settled d).settle = .ok d from rfl, h]
  split_ifs with hfiles
  · exact takeFile_settled h argument
  · have hwritten := Word.ofArgument_written argument
    cases hword : Word.ofArgument argument with
    | endOfOptions =>
        rw [hword] at hwritten
        exact absurd hwritten (hmark.resolve_left hfiles)
    | plain =>
        show (i.settled d).takePlain argument = i.takePlain argument
        rw [takePlain_of_ready (hi.resolve_left hfiles),
          takePlain_of_ready (i := i.settled d) (by simp [settled]), takeFile_settled h]
    | valued o value => cases value <;> rfl
    | _ => rfl

/-- Also over all arguments to come. The mark alone leaves the value unchecked. -/
theorem outcome_settled {i : Intake} {d : Draft} (hi : i.Ready) (h : i.settle = .ok d)
    (arguments : List String) : (i.settled d).outcome arguments = i.outcome arguments := by
  induction arguments generalizing i with
  | nil =>
      rw [outcome_nil, outcome_nil, h]
      rfl
  | cons argument arguments ih =>
      by_cases hmark : i.filesOnly = true ∨ argument ≠ "--"
      · unfold outcome
        rw [List.foldlM_cons, List.foldlM_cons, take_settled hi h hmark]
      · obtain ⟨hfiles, hargument⟩ := not_or.mp hmark
        rw [not_not.mp hargument, outcome_cons_of_ok (take_mark hfiles),
          outcome_cons_of_ok (take_mark (i := i.settled d) hfiles)]
        exact @ih { i with filesOnly := true } (Or.inl rfl) h

/-- While what is held is wrong, only the mark and the value that is waited for are taken. -/
theorem take_eq_ok_of_settle {i j : Intake} {e : Stop} (h : i.settle = .error e)
    {argument : String} (htake : i.take argument = .ok j) : i.filesOnly = false ∧
      (argument = "--" ∧ j = { i with filesOnly := true } ∨
        Plain argument ∧ ∃ o, i.held = some (.option o none) ∧
          j = { i with held := some (.option o (some argument)) }) := by
  have hfile : ∀ j, i.takeFile argument ≠ .ok j := by
    intro j
    unfold takeFile
    rw [h]
    split_ifs <;> exact nofun
  unfold take at htake
  split_ifs at htake with hfiles
  · exact absurd htake (hfile j)
  refine ⟨Bool.eq_false_iff.mpr hfiles, ?_⟩
  rw [h] at htake
  have hwritten := Word.ofArgument_written argument
  generalize Word.ofArgument argument = word at htake hwritten
  cases word with
  | endOfOptions => exact Or.inl ⟨hwritten, (Except.ok.inj htake).symm⟩
  | plain =>
      change i.takePlain argument = .ok j at htake
      refine Or.inr ⟨hwritten, ?_⟩
      unfold takePlain at htake
      split at htake
      · rename_i o hheld
        exact ⟨o, hheld, (Except.ok.inj htake).symm⟩
      · exact absurd htake (hfile j)
  | valued o value => cases value <;> cases htake
  | _ => cases htake

/-- What is held and wrong is found out in the end. -/
theorem outcome_ne_ok {i : Intake} {e : Stop} (hi : i.Ready) (h : i.settle = .error e)
    (arguments : List String) (o : Options) : i.outcome arguments ≠ .ok o := by
  induction arguments generalizing i with
  | nil =>
      rw [outcome_nil, h]
      exact nofun
  | cons argument arguments ih =>
      intro hok
      obtain ⟨j, htake, hrest⟩ := outcome_cons_eq_ok_iff.mp hok
      obtain ⟨hfiles, ⟨-, rfl⟩ | ⟨-, o, hheld, -⟩⟩ := take_eq_ok_of_settle h htake
      · exact @ih { i with filesOnly := true } (Or.inl rfl) h hrest
      · exact hi.resolve_left (by simp [hfiles]) o hheld

/-- **What is held may as well be checked at once.** -/
theorem outcome_eq_ok_iff {i : Intake} (hi : i.Ready) {arguments : List String} {o : Options} :
    i.outcome arguments = .ok o ↔
      ∃ d, i.settle = .ok d ∧ (i.settled d).outcome arguments = .ok o := by
  cases h : i.settle with
  | error e => simp [outcome_ne_ok hi h]
  | ok d => simp [outcome_settled hi h]

end Intake

/-! ## Groups are taken one by one -/

namespace Intake

theorem bind_draft_eq_ok_iff {x : Except Stop Draft} {j : Intake} :
    (x.bind fun draft => .ok { draft }) = .ok j ↔ ∃ d, x = .ok d ∧ { draft := d } = j := by
  cases x <;> simp [Except.bind]

theorem take_of_flag {d : Draft} {argument : String} {f : Flag}
    (hword : Word.ofArgument argument = .flag f) {j : Intake} :
    ({ draft := d } : Intake).take argument = .ok j ↔
      ∃ d', d.setFlag f = .ok d' ∧ { draft := d' } = j := by
  unfold take
  rw [hword]
  exact bind_draft_eq_ok_iff

theorem take_of_attached {d : Draft} {argument value : String} {o : Valued}
    (hword : Word.ofArgument argument = .valued o (some value)) {j : Intake} :
    ({ draft := d } : Intake).take argument = .ok j ↔
      ∃ d', d.setValued value o = .ok d' ∧ { draft := d' } = j := by
  unfold take
  rw [hword]
  exact bind_draft_eq_ok_iff

theorem take_of_option {d : Draft} {argument : String} {o : Valued}
    (hword : Word.ofArgument argument = .valued o none) :
    ({ draft := d } : Intake).take argument =
      .ok { draft := d, held := some (.option o none) } := by
  unfold take
  rw [hword]
  rfl

theorem take_value {d : Draft} {value : String} {o : Valued} (h : Plain value) :
    ({ draft := d, held := some (.option o none) } : Intake).take value =
      .ok { draft := d, held := some (.option o (some value)) } := by
  unfold take
  rw [Word.ofArgument_of_plain h]
  rfl

/-- A file is held back, after the mark as before it. -/
theorem takeFile_eq_ok_iff {d : Draft} {filesOnly : Bool} {name : String} {j : Intake} :
    ({ draft := d, filesOnly } : Intake).takeFile name = .ok j ↔
      d.given .file = false ∧ { draft := d, held := some (.file name), filesOnly } = j := by
  cases hfile : d.file <;> simp [takeFile, hasFile, settle, Draft.given, Except.map, hfile]

theorem take_of_plain {d : Draft} {argument : String} (h : Plain argument) :
    ({ draft := d } : Intake).take argument = ({ draft := d } : Intake).takeFile argument := by
  unfold take
  rw [Word.ofArgument_of_plain h]
  rfl

/-- What is held of an option counts when the option and its value may be accepted. -/
theorem outcome_of_value {d : Draft} {value : String} {o : Valued} {arguments : List String}
    {r : Options} :
    ({ draft := d, held := some (.option o (some value)) } : Intake).outcome arguments = .ok r ↔
      ∃ d', d.setValued value o = .ok d' ∧
        ({ draft := d' } : Intake).outcome arguments = .ok r :=
  outcome_eq_ok_iff (Or.inr (by simp))

theorem outcome_of_file {d : Draft} {filesOnly : Bool} {name : String} {arguments : List String}
    {r : Options} :
    ({ draft := d, held := some (.file name), filesOnly } : Intake).outcome arguments = .ok r ↔
      name ≠ "" ∧
        ({ draft := d.set (.file name), filesOnly } : Intake).outcome arguments = .ok r := by
  rw [outcome_eq_ok_iff (Or.inr (by simp))]
  by_cases hname : name = "" <;> simp [settle, Draft.accept, settled, Draft.set, hname]

/-- **A group is taken as a whole.** It is refused when what it states has been given before. -/
theorem outcome_group {d : Draft} {g : Group} {words rest : List String} (hg : g.Spelled words)
    {r : Options} : ({ draft := d } : Intake).outcome (words ++ rest) = .ok r ↔
      d.given g.key = false ∧ ({ draft := d.set g } : Intake).outcome rest = .ok r := by
  cases hg with
  | flag f =>
      rw [List.singleton_append, outcome_cons_eq_ok_iff]
      simp only [take_of_flag (Word.ofArgument_flag f), Draft.setFlag_eq_ok_iff]
      simp [Group.key]
  | @apart o value g h =>
      rw [List.cons_append, outcome_cons_of_ok (take_of_option (Word.ofArgument_option o)),
        List.singleton_append, outcome_cons_of_ok (take_value h.plain), outcome_of_value]
      simp [Draft.setValued_eq_ok_iff, Valued.group?_eq_some_iff.mpr h]
  | @attached o value g h =>
      rw [List.singleton_append, outcome_cons_eq_ok_iff]
      simp only [take_of_attached (Word.ofArgument_attached o value), Draft.setValued_eq_ok_iff,
        Valued.group?_eq_some_iff.mpr h]
      simp
  | @file name hne h =>
      rw [List.singleton_append, outcome_cons_eq_ok_iff]
      simp only [take_of_plain h, takeFile_eq_ok_iff]
      simp [outcome_of_file, hne, Group.key]

theorem outcome_mark (d : Draft) (arguments : List String) :
    ({ draft := d } : Intake).outcome ("--" :: arguments) =
      ({ draft := d, filesOnly := true } : Intake).outcome arguments :=
  outcome_cons_of_ok (take_mark (by simp)) arguments

theorem outcome_marked_file {d : Draft} {name : String} {arguments : List String} {r : Options} :
    ({ draft := d, filesOnly := true } : Intake).outcome (name :: arguments) = .ok r ↔
      d.given .file = false ∧ name ≠ "" ∧ ({ draft := d.set (.file name), filesOnly := true } :
        Intake).outcome arguments = .ok r := by
  have htake : ({ draft := d, filesOnly := true } : Intake).take name =
      ({ draft := d, filesOnly := true } : Intake).takeFile name := rfl
  rw [outcome_cons_eq_ok_iff, htake]
  simp only [takeFile_eq_ok_iff]
  simp [outcome_of_file]

/-- After the mark, what is accepted is nothing or a file. -/
theorem spells_of_mark {d : Draft} {arguments : List String} {r : Options}
    (h : ({ draft := d, filesOnly := true } : Intake).outcome arguments = .ok r) :
    ∃ gs, Spells gs ("--" :: arguments) := by
  match arguments with
  | [] => exact ⟨_, .mark⟩
  | [name] =>
      obtain ⟨-, hne, -⟩ := outcome_marked_file.mp h
      exact ⟨_, .markFile hne⟩
  | name :: name' :: arguments =>
      obtain ⟨-, -, hrest⟩ := outcome_marked_file.mp h
      obtain ⟨htwice, -⟩ := outcome_marked_file.mp hrest
      cases htwice

/-- An option is accepted with the argument after it, which is one of its values. -/
theorem means_of_outcome {d : Draft} {o : Valued} {value : String} {rest : List String}
    {r : Options} (h : ({ draft := d, held := some (.option o none) } : Intake).outcome
      (value :: rest) = .ok r) : ∃ g, o.Means value g := by
  obtain ⟨j, htake, hrest⟩ := outcome_cons_eq_ok_iff.mp h
  have hwait : ({ draft := d, held := some (.option o none) } : Intake).settle =
      .error (.usage .invalidValue) := rfl
  obtain ⟨-, ⟨-, rfl⟩ | ⟨-, o', hheld, rfl⟩⟩ := take_eq_ok_of_settle hwait htake
  · -- the value is still missing after the mark, and then nothing can supply it
    exact absurd hrest (outcome_ne_ok (Or.inl rfl) rfl rest r)
  · cases hheld
    obtain ⟨d', hset, -⟩ := outcome_of_value.mp hrest
    obtain ⟨g, hg, -⟩ := Draft.setValued_eq_ok_iff.mp hset
    exact ⟨g, Valued.group?_eq_some_iff.mp hg⟩

/-- **What is accepted begins with a group**, unless it is empty or begins with the mark. -/
theorem begins_of_outcome {d : Draft} {argument : String} {rest : List String} {r : Options}
    (h : ({ draft := d } : Intake).outcome (argument :: rest) = .ok r) :
    (∃ gs, Spells gs (argument :: rest)) ∨
      ∃ g words rest', Group.Spelled g words ∧ words ≠ [] ∧ argument :: rest = words ++ rest' := by
  obtain ⟨j, htake, hrest⟩ := outcome_cons_eq_ok_iff.mp h
  have hwritten := Word.ofArgument_written argument
  cases hword : Word.ofArgument argument with
  | endOfOptions =>
      rw [hword] at hwritten
      obtain rfl : argument = "--" := hwritten
      rw [outcome_mark] at h
      exact Or.inl (spells_of_mark h)
  | flag f =>
      rw [hword] at hwritten
      obtain rfl : argument = f.argument := hwritten
      exact Or.inr ⟨_, _, rest, .flag f, by simp, rfl⟩
  | valued o value =>
      rw [hword] at hwritten
      cases value with
      | none =>
          obtain rfl : argument = o.argument := hwritten
          rw [outcome_cons_of_ok (take_of_option hword)] at h
          match rest with
          | [] => cases h
          | value :: rest =>
              obtain ⟨g, hg⟩ := means_of_outcome h
              exact Or.inr ⟨g, _, rest, .apart hg, by simp, rfl⟩
      | some value =>
          obtain rfl : argument = o.argument ++ "=" ++ value := hwritten
          obtain ⟨d', hset, -⟩ := (take_of_attached hword).mp htake
          obtain ⟨g, hg, -⟩ := Draft.setValued_eq_ok_iff.mp hset
          exact Or.inr ⟨g, _, rest, .attached (Valued.group?_eq_some_iff.mp hg), by simp, rfl⟩
  | plain =>
      rw [hword] at hwritten
      rw [take_of_plain hwritten, takeFile_eq_ok_iff] at htake
      obtain ⟨-, rfl⟩ := htake
      obtain ⟨hne, -⟩ := outcome_of_file.mp hrest
      exact Or.inr ⟨_, _, rest, .file hne hwritten, by simp, rfl⟩
  | _ => simp [take, hword, settle, Except.bind] at htake

/-- **What is accepted is spelled by groups.** -/
theorem exists_spells {d : Draft} {arguments : List String} {r : Options}
    (h : ({ draft := d } : Intake).outcome arguments = .ok r) : ∃ gs, Spells gs arguments := by
  induction hlength : arguments.length using Nat.strong_induction_on generalizing d arguments with
  | _ n ih =>
      match arguments with
      | [] => exact ⟨[], .nil⟩
      | argument :: rest =>
          rcases begins_of_outcome h with hspells | ⟨g, words, rest', hg, hne, hsplit⟩
          · exact hspells
          · rw [hsplit] at h hlength ⊢
            obtain ⟨-, hrest⟩ := (outcome_group hg).mp h
            have hpos := List.length_pos_iff.mpr hne
            rw [List.length_append] at hlength
            obtain ⟨gs, hgs⟩ := ih rest'.length (by omega) hrest rfl
            exact ⟨g :: gs, .group hg hgs⟩

end Intake

theorem Spells.outcome_eq_ok_iff {gs : List Group} {arguments : List String}
    (h : Spells gs arguments) {d : Draft} {r : Options} :
    ({ draft := d } : Intake).outcome arguments = .ok r ↔
      (gs.map Group.key).Nodup ∧ (∀ g ∈ gs, d.given g.key = false) ∧
        (gs.foldl Draft.set d).finish = .ok r := by
  induction h generalizing d with
  | nil => simp [Intake.outcome_nil, Intake.settle, Except.bind]
  | @group g gs words arguments hg _ ih =>
      rw [Intake.outcome_group hg, ih]
      simp only [Draft.given_set, List.map_cons, List.nodup_cons, List.mem_map,
        List.forall_mem_cons, List.foldl_cons]
      grind
  | mark => simp [Intake.outcome_mark, Intake.outcome_nil, Intake.settle, Except.bind]
  | @markFile name hne =>
      rw [Intake.outcome_mark, Intake.outcome_marked_file]
      simp [Intake.outcome_nil, Intake.settle, Except.bind, hne, Group.key]

/-! ## The options that groups state -/

namespace Draft

/-- Groups of distinct keys are all accepted. -/
theorem has_foldl_set {gs : List Group} (hnodup : (gs.map Group.key).Nodup) {d : Draft}
    {h : Group} : (gs.foldl set d).Has h ↔ h ∈ gs ∨ d.Has h ∧ ∀ g ∈ gs, h.key ≠ g.key := by
  induction gs generalizing d with
  | nil => simp
  | cons g gs ih =>
      rw [List.map_cons, List.nodup_cons] at hnodup
      obtain ⟨hnew, hnodup⟩ := hnodup
      have hother : ∀ g' ∈ gs, g.key ≠ g'.key := fun g' hmem heq =>
        hnew (heq ▸ List.mem_map_of_mem hmem)
      rw [List.foldl_cons, ih hnodup, has_set]
      rw [List.forall_mem_cons, List.mem_cons]
      constructor
      · rintro (hmem | ⟨rfl | ⟨hkey, hhas⟩, hrest⟩)
        · exact Or.inl (Or.inr hmem)
        · exact Or.inl (Or.inl rfl)
        · exact Or.inr ⟨hhas, hkey, hrest⟩
      · rintro ((rfl | hmem) | ⟨hhas, hkey, hrest⟩)
        · exact Or.inr ⟨Or.inl rfl, hother⟩
        · exact Or.inl hmem
        · exact Or.inr ⟨Or.inr ⟨hkey, hhas⟩, hrest⟩

theorem given_empty (k : Key) : ({} : Draft).given k = false := by
  rcases k with (_ | _) | (_ | _) | _ <;> rfl

theorem has_foldl_set_empty {gs : List Group} (hnodup : (gs.map Group.key).Nodup) (g : Group) :
    (gs.foldl set {}).Has g ↔ g ∈ gs := by
  have hempty : ¬ ({} : Draft).Has g := by
    rcases g with (_ | _) | _ | _ | _ <;> simp [Has]
  rw [has_foldl_set hnodup]
  simp [hempty]

theorem states_of_finish {d : Draft} {gs : List Group} (h : ∀ g, d.Has g ↔ g ∈ gs)
    {r : Options} (hfinish : d.finish = .ok r) : States gs r := by
  obtain ⟨hapart, hfile, htree, hoffset, hformat, hcolor⟩ := finish_eq_ok_iff.mp hfinish
  have htrees : r.tree = true ↔ .flag .tree ∈ gs := htree ▸ h (.flag .tree)
  have hoffsets : ∀ n, r.offset = some n ↔ .offset n ∈ gs := fun n => hoffset ▸ h (.offset n)
  refine ⟨(h _).mp hfile, htrees, hcolor ▸ h (.flag .noColor), hoffsets, ?_, ?_, ?_, ?_⟩
  · cases hgiven : d.format with
    | some f =>
        rw [hgiven] at hformat
        exact Or.inl (hformat ▸ (h (.format f)).mp hgiven)
    | none =>
        rw [hgiven] at hformat
        refine Or.inr ⟨hformat.symm, fun f hmem => ?_⟩
        exact absurd (hgiven.symm.trans ((h (.format f)).mpr hmem)) nofun
  · intro n hn
    unfold Options.mode
    rw [(hoffsets n).mpr hn]
  · intro hmem
    unfold Options.mode
    cases hn : r.offset with
    | none => simp [htrees.mpr hmem]
    | some n => exact absurd ⟨(h (.flag .tree)).mpr hmem, by simp [hoffset, hn]⟩ hapart
  · intro htree hnone
    unfold Options.mode
    rw [Option.eq_none_iff_forall_ne_some.mpr fun n hn => hnone n ((hoffsets n).mp hn)]
    simp [mt htrees.mp htree]

theorem finish_of_states {d : Draft} {gs : List Group} (h : ∀ g, d.Has g ↔ g ∈ gs)
    (hapart : ¬ (.flag .tree ∈ gs ∧ ∃ n, .offset n ∈ gs)) {r : Options} (hr : States gs r) :
    d.finish = .ok r := by
  refine finish_eq_ok_iff.mpr ⟨?_, (h _).mpr hr.file, ?_, ?_, ?_, ?_⟩
  · rintro ⟨htree, hoffset⟩
    obtain ⟨n, hn⟩ := Option.isSome_iff_exists.mp hoffset
    exact hapart ⟨(h (.flag .tree)).mp htree, n, (h (.offset n)).mp hn⟩
  · exact Bool.eq_iff_iff.mpr ((h (.flag .tree)).trans hr.tree.symm)
  · exact Option.ext fun n => (h (.offset n)).trans (hr.offset n).symm
  · rcases hr.format with hmem | ⟨htext, hnone⟩
    · rw [(h (.format r.format)).mpr hmem]
      rfl
    · rw [htext, Option.eq_none_iff_forall_ne_some.mpr fun f hf => hnone f ((h (.format f)).mp hf)]
      rfl
  · exact Bool.eq_iff_iff.mpr ((h (.flag .noColor)).trans hr.noColor.symm)

end Draft

/-- Admissible groups state options. -/
theorem Admissible.exists_states {gs : List Group} (h : Admissible gs) : ∃ r, States gs r := by
  have hhas := Draft.has_foldl_set_empty h.once
  obtain ⟨name, hname⟩ := h.file
  generalize gs.foldl Draft.set {} = d at hhas
  refine ⟨⟨name, d.tree, d.offset, d.format.getD .text, d.noColor⟩, Draft.states_of_finish hhas ?_⟩
  refine Draft.finish_eq_ok_iff.mpr ⟨?_, (hhas _).mpr hname, rfl, rfl, rfl, rfl⟩
  rintro ⟨htree, hoffset⟩
  obtain ⟨n, hn⟩ := Option.isSome_iff_exists.mp hoffset
  exact h.apart ⟨(hhas (.flag .tree)).mp htree, n, (hhas (.offset n)).mp hn⟩

/-- **The options are those that the groups of the arguments state.** -/
theorem Spells.ofArguments_eq_ok_iff {gs : List Group} {arguments : List String}
    (h : Spells gs arguments) {r : Options} :
    Options.ofArguments arguments = .ok r ↔ Admissible gs ∧ States gs r := by
  have hrun : Options.ofArguments arguments = ({ draft := {} } : Intake).outcome arguments := rfl
  rw [hrun, h.outcome_eq_ok_iff]
  constructor
  · rintro ⟨hnodup, -, hfinish⟩
    have hhas := Draft.has_foldl_set_empty hnodup
    have hstates := Draft.states_of_finish hhas hfinish
    refine ⟨⟨hnodup, ⟨_, hstates.file⟩, ?_⟩, hstates⟩
    rintro ⟨htree, n, hn⟩
    have hmode := (hstates.nodes htree).symm.trans (hstates.chain n hn)
    cases hmode
  · rintro ⟨hgs, hstates⟩
    exact ⟨hgs.once, fun g _ => Draft.given_empty g.key,
      Draft.finish_of_states (Draft.has_foldl_set_empty hgs.once) hgs.apart hstates⟩

theorem Admissible.perm {gs gs' : List Group} (h : Admissible gs) (hperm : gs.Perm gs') :
    Admissible gs' := by
  refine ⟨(hperm.map _).nodup h.once, ?_, ?_⟩
  · obtain ⟨name, hname⟩ := h.file
    exact ⟨name, hperm.mem_iff.mp hname⟩
  · simpa only [hperm.mem_iff] using h.apart

theorem States.perm {gs gs' : List Group} {r : Options} (h : States gs r) (hperm : gs.Perm gs') :
    States gs' r where
  file := hperm.mem_iff.mp h.file
  tree := h.tree.trans hperm.mem_iff
  noColor := h.noColor.trans hperm.mem_iff
  offset n := (h.offset n).trans hperm.mem_iff
  format := by simpa only [hperm.mem_iff] using h.format
  chain n hn := h.chain n (hperm.mem_iff.mpr hn)
  nodes htree := h.nodes (hperm.mem_iff.mpr htree)
  scopes htree hnone :=
    h.scopes (mt hperm.mem_iff.mp htree) fun n => mt hperm.mem_iff.mp (hnone n)

/-- **The command line is accepted exactly when it follows its grammar.** The options are then
those that the groups state, and the order of the groups does not matter. -/
theorem follows_grammar (arguments : List String) :
    ((∃ r, Options.ofArguments arguments = .ok r) ↔
      ∃ gs, Spells gs arguments ∧ Admissible gs) ∧
    (∀ gs, Spells gs arguments → ∀ r,
      Options.ofArguments arguments = .ok r ↔ Admissible gs ∧ States gs r) ∧
    ∀ gs gs' arguments', Spells gs arguments → Spells gs' arguments' → gs.Perm gs' → ∀ r,
      Options.ofArguments arguments = .ok r ↔ Options.ofArguments arguments' = .ok r := by
  refine ⟨⟨?_, ?_⟩, fun gs h r => h.ofArguments_eq_ok_iff, ?_⟩
  · rintro ⟨r, hr⟩
    obtain ⟨gs, hgs⟩ := Intake.exists_spells hr
    exact ⟨gs, hgs, (hgs.ofArguments_eq_ok_iff.mp hr).1⟩
  · rintro ⟨gs, hgs, hadmissible⟩
    obtain ⟨r, hr⟩ := hadmissible.exists_states
    exact ⟨r, hgs.ofArguments_eq_ok_iff.mpr ⟨hadmissible, hr⟩⟩
  · intro gs gs' arguments' h h' hperm r
    rw [h.ofArguments_eq_ok_iff, h'.ofArguments_eq_ok_iff]
    exact ⟨fun ⟨ha, hs⟩ => ⟨ha.perm hperm, hs.perm hperm⟩,
      fun ⟨ha, hs⟩ => ⟨ha.perm hperm.symm, hs.perm hperm.symm⟩⟩

/-- The same groups in two orders and two spellings, with the file once behind the mark. -/
theorem follows_grammar_reordered :
    Spells [.offset 7, .file "a", .format .json] ["--at", "+07", "a", "--format=json"] ∧
    Spells [.format .json, .offset 7, .file "a"] ["--format", "json", "--at=7", "--", "a"] ∧
    ∃ r, Options.ofArguments ["--at", "+07", "a", "--format=json"] = .ok r ∧
      Options.ofArguments ["--format", "json", "--at=7", "--", "a"] = .ok r ∧
      r.mode = .chain 7 := by
  have hseven : OffsetText "+07" 7 := ⟨_, ⟨1, rfl⟩, Or.inr rfl⟩
  have hplain : OffsetText "7" 7 := ⟨_, ⟨0, rfl⟩, Or.inl rfl⟩
  have hone : Spells [.offset 7, .file "a", .format .json] ["--at", "+07", "a", "--format=json"] :=
    .group (.apart (.offset hseven))
      (.group (.file (by decide) (Or.inr (by decide))) (.group (.attached .json) .nil))
  have htwo : Spells [.format .json, .offset 7, .file "a"]
      ["--format", "json", "--at=7", "--", "a"] :=
    .group (.apart .json) (.group (.attached (.offset hplain)) (.markFile (by decide)))
  obtain ⟨-, hstate, hreorder⟩ := follows_grammar ["--at", "+07", "a", "--format=json"]
  have hok : Options.ofArguments ["--at", "+07", "a", "--format=json"] =
      .ok ⟨"a", false, some 7, .json, false⟩ := by decide +kernel
  exact ⟨hone, htwo, _, hok, (hreorder _ _ _ hone htwo (by decide) _).mp hok,
    ((hstate _ hone _).mp hok).2.chain 7 (by decide)⟩

end CommandLine

end LexicalScope
