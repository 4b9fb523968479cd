import Zpl.Grammar

/-! Rules given as data. A script is a list of steps over the tokens behind a
head; it collects parameters on the way and ends with a fixed kind of command. -/

namespace Zpl

inductive ScriptStep where
  /-- Takes a token of one kind as a parameter, or fails. -/
  | expect (kind : TokenKind)
  /-- Takes the next token as a parameter if it has the kind. -/
  | eat (kind : TokenKind)
  /-- Takes the next token as a parameter, even the one for the end. -/
  | advance
  | takeParameters
  /-- Passes the next command, over line breaks, if it has the code. -/
  | eatCommand (code : String)
  /-- Passes the marker and the code of a command, or fails. -/
  | beginCommand
  /-- Records an error at the head. -/
  | error (message : String)
  /-- Records a warning at the next token. -/
  | warn (message : String)

structure Script where
  steps : List ScriptStep
  kind : CommandKind

namespace Script

/-- A diagnostic that a script records: it has a message and no details. -/
def note (code : String) (severity : Severity) (message : String) (p : Position) : Diagnostic :=
  ⟨code, severity, message, p, none, none⟩

/-- What a step does, and the parameters it takes. -/
def perform (head : Head) : ScriptStep → Grammar (List Token)
  | .expect kind => return [← .expect kind .done]
  | .eat kind => return (← Grammar.eat kind).toList
  | .advance => return [← .advance .done]
  | .takeParameters => Grammar.takeParameters
  | .eatCommand code => do let _ ← Grammar.skipCommand code; return []
  | .beginCommand => do let _ ← Grammar.beginCommand; return []
  | .error message => .error (note "X0001" .error message head.position) (.done [])
  | .warn message => do
    let next ← Grammar.peek .done
    .warn (note "X0002" .warning message next.position) (.done [])

def performAll (head : Head) : List ScriptStep → Grammar (List Token)
  | [] => return []
  | step :: rest => return (← perform head step) ++ (← performAll head rest)

/-- The rule that a script describes. -/
def rule (s : Script) : Rule := fun head => do
  return ⟨← performAll head s.steps, s.kind⟩

end Script
end Zpl
