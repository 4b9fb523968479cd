import Zpl.Lexeme
import Zpl.Text.Decimal

/-! What the arguments of the program ask for. Arguments are read from left to
right, so the first fault or the first request for help or the version decides.
An option takes its value behind an equals sign or from the next argument, which
may start with a dash only if it is a dash. -/

namespace Zpl.CommandLine

inductive Format where
  /-- Reports for people. -/
  | pretty
  | json
deriving DecidableEq

def Format.ofName? : String → Option Format
  | "pretty" => some .pretty
  | "json" => some .json
  | _ => none

/-- What to do with a label. -/
inductive Task where
  | parse
  | tokens
  | check
deriving DecidableEq

def Task.ofName? : String → Option Task
  | "parse" => some .parse
  | "tokens" => some .tokens
  | "check" | "syntax-check" => some .check
  | _ => none

/-- A label to read, and how to read it. -/
structure Source where
  /-- The name of a file, or a dash for standard input. -/
  file : String
  marks : Marks
  padding : Int32
deriving DecidableEq

inductive Request where
  | label (task : Task) (source : Source) (format : Option Format)
  | explain (code : String) (format : Option Format)
deriving DecidableEq

/-- Why arguments make no request. -/
inductive Stop where
  | usage
  | help
  | version
deriving DecidableEq

/-! ## Options -/

/-- Options by name, each at most once. -/
abbrev Options := List (String × String)

/-- What an argument is: the end of options, an option with its value if it is
attached, a bundle of one-letter flags, or a plain value. -/
inductive Argument where
  | endOfOptions
  | option (name : String) (value : Option String)
  | flags (letters : List Char)
  | plain (value : String)

/-- A text split at its first equals sign. -/
def splitEquals (cs : List Char) : String × Option String :=
  match cs.dropWhile (· != '=') with
  | [] => (.ofList cs, none)
  | _ :: value => (.ofList (cs.takeWhile (· != '=')), some (.ofList value))

def Argument.of (text : String) : Argument :=
  match text.toList with
  | ['-', '-'] => .endOfOptions
  | '-' :: '-' :: body => .option (splitEquals body).1 (splitEquals body).2
  | '-' :: c :: letters => .flags (c :: letters)
  | _ => .plain text

/-- Whether an argument can be the value of the option before it. -/
def isDetachedValue (text : String) : Bool :=
  match Argument.of text with
  | .plain _ => true
  | _ => false

/-- The one character of a text. -/
def oneChar? (text : String) : Option Char :=
  match text.toList with
  | [c] => some c
  | _ => none

/-- Whether an option takes a value. -/
def accepts (name value : String) : Bool :=
  match name with
  | "output" => (Format.ofName? value).isSome
  | "prefix" | "delimiter" => (oneChar? value).isSome
  | "width-padding" => (Text.readInt32? value.toList).isSome
  | _ => false

/-- Adds an option, unless it is there already or does not take the value. -/
def addOption (options : Options) (name value : String) : Except Stop Options :=
  if accepts name value && (options.lookup name).isNone then .ok ((name, value) :: options)
  else .error .usage

/-- The value of an option, attached or from the next argument, and the arguments
behind it. -/
def optionValue (value : Option String) (rest : List String) :
    Except Stop (String × List String) :=
  match value, rest with
  | some value, rest => .ok (value, rest)
  | none, next :: rest => if isDetachedValue next then .ok (next, rest) else .error .usage
  | none, [] => .error .usage

theorem optionValue_length {value : Option String} {rest behind : List String} {text : String}
    (h : optionValue value rest = .ok (text, behind)) : behind.length ≤ rest.length := by
  unfold optionValue at h
  split at h
  · obtain ⟨_, rfl⟩ := Prod.mk.inj (Except.ok.inj h); exact Nat.le_refl _
  · split at h
    · obtain ⟨_, rfl⟩ := Prod.mk.inj (Except.ok.inj h); exact Nat.le_succ _
    · cases h
  · cases h

/-! ## Commands -/

/-- The options of a command and its one plain argument, if it is there. -/
structure Arguments where
  options : Options
  operand : Option String

/-- Takes a plain argument; there may be only one. -/
def Arguments.addOperand (a : Arguments) (value : String) : Except Stop Arguments :=
  if a.operand.isNone then .ok { a with operand := some value } else .error .usage

/-- Reads the arguments behind the name of a command that has the given options. -/
def readArguments (known : List String) (a : Arguments) : List String → Except Stop Arguments
  | [] => .ok a
  | text :: rest =>
    match Argument.of text with
    | .endOfOptions => rest.foldlM Arguments.addOperand a
    | .flags ('h' :: _) | .option "help" none => .error .help
    | .flags _ => .error .usage
    | .option name value =>
      if known.contains name then
        match _h : optionValue value rest with
        | .error stop => .error stop
        | .ok (value, behind) =>
          match addOption a.options name value with
          | .error stop => .error stop
          | .ok options => readArguments known { a with options } behind
      else .error .usage
    | .plain value =>
      match a.addOperand value with
      | .error stop => .error stop
      | .ok a => readArguments known a rest
termination_by args => args.length
decreasing_by
  · exact Nat.lt_succ_of_le (optionValue_length _h)
  · exact Nat.lt_succ_self _

def labelOptions : List String := ["output", "prefix", "delimiter", "width-padding"]

def charOption (options : Options) (name : String) (default : Char) : Char :=
  ((options.lookup name).bind oneChar?).getD default

/-- The format that a command asks for, else the one asked for before it. -/
def formatOption (outer inner : Options) : Option Format :=
  ((inner.lookup "output").or (outer.lookup "output")).bind Format.ofName?

/-- Whether help can be given on what is asked: on all, or on one command. -/
def isHelpTopic : List String → Bool
  | [] => true
  | [name] => (Task.ofName? name).isSome || name == "explain" || name == "help"
  | _ => false

/-- The request of a command and the arguments behind its name. -/
def readCommand (outer : Options) (name : String) (args : List String) :
    Except Stop Request :=
  match Task.ofName? name with
  | some task => do
    let a ← readArguments labelOptions ⟨[], none⟩ args
    let some file := a.operand | throw .usage
    let padding := ((a.options.lookup "width-padding").bind fun text =>
      Text.readInt32? text.toList).getD 100
    let marks : Marks :=
      { marker := charOption a.options "prefix" Marks.standard.marker
        delimiter := charOption a.options "delimiter" Marks.standard.delimiter }
    return .label task { file, marks, padding } (formatOption outer a.options)
  | none =>
    if name = "explain" then do
      let a ← readArguments ["output"] ⟨[], none⟩ args
      let some code := a.operand | throw .usage
      return .explain code (formatOption outer a.options)
    else if name = "help" && isHelpTopic args then throw .help
    else throw .usage

/-- The request of all arguments of the program. -/
def readRequest (outer : Options) : List String → Except Stop Request
  | [] => .error .usage
  | text :: rest =>
    match Argument.of text with
    | .endOfOptions => .error .usage
    | .flags ('h' :: _) | .option "help" none => .error .help
    | .flags ('V' :: _) | .option "version" none => .error .version
    | .flags _ => .error .usage
    | .option "output" value =>
      match _h : optionValue value rest with
      | .error stop => .error stop
      | .ok (value, behind) =>
        match addOption outer "output" value with
        | .error stop => .error stop
        | .ok options => readRequest options behind
    | .option _ _ => .error .usage
    | .plain name => readCommand outer name rest
termination_by args => args.length
decreasing_by exact Nat.lt_succ_of_le (optionValue_length _h)

def Request.ofArguments (args : List String) : Except Stop Request :=
  readRequest [] args

end Zpl.CommandLine
