import Zpl.Diagnostic
import Zpl.Token

/-! The problems that reading a label can meet, each with its code, severity,
wording and details. A diagnostic of this library is a problem at a position. -/

namespace Zpl

inductive Problem where
  /-- A character that is part of no command, comment or white space. -/
  | strayCharacter (found : Char)
  /-- A marker without a command code behind it. -/
  | missingCode (marker : Char) (found : Option Char)
  /-- A block comment that the source does not close. -/
  | openComment
  /-- A grammar needs one kind of token and finds another. -/
  | unexpectedToken (expected : TokenKind) (found : Token)
  /-- A command that needs two coordinates has fewer parameters. -/
  | missingCoordinates (command : String) (given : Nat) (missing : List String)
  /-- A command without a grammar; `nearest` is the one known code close to it. -/
  | unsupportedCommand (command : String) (nearest : Option String)
  /-- A field separator that closes no field. -/
  | orphanedSeparator (command : String)

namespace Problem

/-- Codes of the command set that no grammar is defined for. -/
def pendingCodes : List String :=
  ["FR", "CF", "GF"]

def code : Problem → String
  | strayCharacter _ => "ZPL0001"
  | missingCode _ _ => "ZPL0002"
  | openComment => "ZPL0003"
  | unexpectedToken _ _ => "ZPL0101"
  | missingCoordinates _ _ _ => "ZPL0102"
  | unsupportedCommand _ _ => "ZPL0201"
  | orphanedSeparator _ => "ZPL0202"

def severity : Problem → Severity
  | unsupportedCommand _ _ | orphanedSeparator _ => .warning
  | _ => .error

/-- How a message names the character behind a marker. -/
def describeNext : Option Char → String
  | none => "end of input"
  | some c => s!"'{c}'"

def listNames (names : List String) : String :=
  ",".intercalate names

/-- The wording of a problem at a position. -/
def message (p : Position) : Problem → String
  | strayCharacter found => s!"unexpected character '{found}' outside of a command"
  | missingCode marker found =>
    s!"expected command code after '{marker}', found {describeNext found}"
  | openComment => "block comment is not closed before end of input"
  | unexpectedToken expected found =>
    if found.kind = .finish then s!"expected {expected.describe}, found end of input"
    else s!"expected {expected.describe}, found {found.kind.describe} '{found.raw}'"
  | missingCoordinates command _ missing =>
    s!"^{command} expects x and y parameters; missing {listNames missing}"
  | unsupportedCommand command _ =>
    s!"unsupported command ^{command} at line {p.line}, column {p.column}"
  | orphanedSeparator command =>
    s!"^{command} at line {p.line}, column {p.column} does not close any field data"

def suggestion : Problem → Option String
  | unsupportedCommand command nearest =>
    if command ∈ pendingCodes then
      some s!"no grammar is defined for ^{command} yet; its parameters are kept in source order"
    else nearest.map fun known => s!"did you mean ^{known}?"
  | orphanedSeparator _ => some "remove it, or put field data (^FD) before it"
  | _ => none

def context : Problem → KeyMap String
  | strayCharacter found => .ofList [("found", found.toString)]
  | missingCode _ found => .ofList [("found", describeNext found)]
  | openComment => .ofList [("expected", "*/")]
  | unexpectedToken expected _ => .ofList [("expected", expected.describe)]
  | missingCoordinates command given missing =>
    .ofList [("command", command), ("expected", "2"), ("found", toString given),
      ("missing", listNames missing)]
  | unsupportedCommand command _ => .ofList [("command", command)]
  | orphanedSeparator command => .ofList [("command", command)]

/-- The diagnostic for a problem at a position. -/
def diagnose (problem : Problem) (p : Position) : Diagnostic :=
  { code := problem.code
    severity := problem.severity
    message := problem.message p
    position := p
    suggestion := problem.suggestion
    context := some problem.context }

@[simp] theorem diagnose_position (problem : Problem) (p : Position) :
    (problem.diagnose p).position = p := rfl

@[simp] theorem diagnose_code (problem : Problem) (p : Position) :
    (problem.diagnose p).code = problem.code := rfl

@[simp] theorem diagnose_severity (problem : Problem) (p : Position) :
    (problem.diagnose p).severity = problem.severity := rfl

end Problem
end Zpl
