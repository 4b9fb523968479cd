import Zpl.KeyMap
import Zpl.Position

/-! Diagnostics: what a reader of a label is told about one place in it. -/

namespace Zpl

inductive Severity where
  /-- The text is wrong there; reading goes on behind it. -/
  | error
  /-- The text is fine but worth a remark. -/
  | warning
deriving DecidableEq

namespace Severity

def tag : Severity → String
  | error => "error"
  | warning => "warn"

def ofTag? : String → Option Severity
  | "error" => some error
  | "warn" => some warning
  | _ => none

end Severity

structure Diagnostic where
  code : String
  severity : Severity
  message : String
  position : Position
  /-- A hint how to mend the text. -/
  suggestion : Option String
  /-- Details for tools, listed by key. -/
  context : Option (KeyMap String)
deriving DecidableEq

namespace Diagnostic

def isError (d : Diagnostic) : Bool :=
  d.severity == .error

def display (d : Diagnostic) : String :=
  s!"{d.severity.tag}[{d.code}]: {d.message} at {d.position.display}"

end Diagnostic
end Zpl
