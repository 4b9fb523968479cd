import Zpl.Reader

/-! Grammars of single commands, as programs over the token cursor. A program
looks at tokens and passes them, records diagnostics, and fails only where a
token it requires is missing. Whatever the program, running it never turns the
cursor back (`run_advances`). -/

namespace Zpl

inductive Grammar (α : Type) where
  | done (result : α)
  /-- Looks at the next token. -/
  | peek (next : Token → Grammar α)
  /-- Passes the next token, unless it stands for the end. -/
  | advance (next : Token → Grammar α)
  /-- Passes a token of one kind, or fails. -/
  | expect (kind : TokenKind) (next : Token → Grammar α)
  /-- Passes the longest run of tokens of accepted kinds. -/
  | takeWhile (accepts : TokenKind → Bool) (next : List Token → Grammar α)
  /-- Passes the next command, over line breaks, if it has the code. -/
  | eatCommand (code : String) (next : Option Head → Grammar α)
  | error (d : Diagnostic) (next : Grammar α)
  | warn (d : Diagnostic) (next : Grammar α)

namespace Grammar

variable {α β : Type}

def bind : Grammar α → (α → Grammar β) → Grammar β
  | done result, f => f result
  | peek next, f => peek fun t => (next t).bind f
  | advance next, f => advance fun t => (next t).bind f
  | expect kind next, f => expect kind fun t => (next t).bind f
  | takeWhile accepts next, f => takeWhile accepts fun ts => (next ts).bind f
  | eatCommand code next, f => eatCommand code fun head => (next head).bind f
  | error d next, f => error d (next.bind f)
  | warn d next, f => warn d (next.bind f)

instance : Monad Grammar where
  pure := done
  bind := bind

@[simp] theorem bind_eq (g : Grammar α) (f : α → Grammar β) : g >>= f = g.bind f := rfl

@[simp] theorem pure_eq (a : α) : (pure a : Grammar α) = done a := rfl

/-- Runs a program; the reader keeps what happened before a failure. -/
def run : Grammar α → Reader → Except SyntaxError α × Reader
  | done result, r => (.ok result, r)
  | peek next, r => (next r.cursor.peek).run r
  | advance next, r => (next r.cursor.advance.1).run (r.moveTo r.cursor.advance.2)
  | expect kind next, r =>
    match r.cursor.expect kind with
    | .error e => (.error e, r)
    | .ok (t, c) => (next t).run (r.moveTo c)
  | takeWhile accepts next, r =>
    (next (r.cursor.takeWhile accepts).1).run (r.moveTo (r.cursor.takeWhile accepts).2)
  | eatCommand code next, r =>
    match r.cursor.eatCommand code with
    | none => (next none).run r
    | some (head, c) => (next (some head)).run (r.moveTo c)
  | error d next, r => next.run (r.recordError d)
  | warn d next, r => next.run (r.recordWarning d)

/-- A sequence of two programs runs the second where the first one ends. -/
theorem run_bind (g : Grammar α) (f : α → Grammar β) (r : Reader) :
    (g.bind f).run r =
      match g.run r with
      | (.ok a, s) => (f a).run s
      | (.error e, s) => (.error e, s) := by
  induction g generalizing r with
  | done result => rfl
  | peek next ih => exact ih _ r
  | advance next ih => exact ih _ _
  | expect kind next ih =>
    simp only [bind, run]
    split
    · rfl
    · exact ih _ _
  | takeWhile accepts next ih => exact ih _ _
  | eatCommand code next ih =>
    simp only [bind, run]
    split
    · exact ih _ r
    · exact ih _ _
  | error d next ih => exact ih _
  | warn d next ih => exact ih _

/-- Running a program is a move forward, whatever the program. -/
theorem run_advances (g : Grammar α) (r : Reader) :
    ∃ ts, r.Advances ts (g.run r).2 := by
  induction g generalizing r with
  | done result => exact ⟨[], .refl r⟩
  | peek next ih => exact ih _ r
  | advance next ih =>
    obtain ⟨ts, hts⟩ := r.cursor.advance_advances
    exact (Reader.Advances.moveTo hts).followed (ih _ _)
  | expect kind next ih =>
    simp only [run]
    split
    · exact ⟨[], .refl r⟩
    · next h =>
      obtain ⟨ts, hts⟩ := Cursor.expect_advances h
      exact (Reader.Advances.moveTo hts).followed (ih _ _)
  | takeWhile accepts next ih =>
    have hrun := r.cursor.takeWhile_advances accepts
    exact (Reader.Advances.moveTo hrun).followed (ih _ _)
  | eatCommand code next ih =>
    simp only [run]
    split
    · exact ih _ r
    · next h =>
      obtain ⟨marker, word, -, -, hcommand⟩ := Cursor.eatCommand_some h
      exact (Reader.Advances.moveTo hcommand).followed (ih _ _)
  | error d next ih => exact (Reader.Advances.recordError r d).followed (ih _)
  | warn d next ih => exact (Reader.Advances.recordWarning r d).followed (ih _)

/-! ## Derived steps -/

/-- Passes the next token if it has the kind. -/
def eat (kind : TokenKind) : Grammar (Option Token) :=
  .peek fun t => if t.kind = kind then .advance fun t => .done (some t) else .done none

def takeParameters : Grammar (List Token) :=
  .takeWhile (· == .parameter) .done

/-- Passes the next command if it has the code, and tells whether it had. -/
def skipCommand (code : String) : Grammar Bool :=
  .eatCommand code fun head => .done head.isSome

/-- Passes the marker and the code of a command, or fails. -/
def beginCommand : Grammar Head :=
  .expect .marker fun marker => .expect .code fun code => .done ⟨code.value, marker.position⟩

def report (problem : Problem) (p : Position) : Grammar Unit :=
  if problem.severity = .error then .error (problem.diagnose p) (.done ())
  else .warn (problem.diagnose p) (.done ())

end Grammar

/-- What a grammar reads behind the head of a command. -/
structure Reading where
  parameters : List Token
  kind : CommandKind

/-- The grammar of a command code: it reads what follows the head. It has no step that looks any
number of tokens ahead or that synchronizes, so a procedure that does so is no rule. The built-in
rules need neither, nor do scripts. -/
abbrev Rule := Head → Grammar Reading

/-- The program that reads a whole command: the head and what a rule reads
behind it. -/
def Rule.program (rule : Rule) : Grammar (Head × Reading) := do
  let head ← Grammar.beginCommand
  return (head, ← rule head)

/-- Reads one command with a rule. Its text reaches from the head to the last
token passed. -/
def Rule.parse (rule : Rule) (r : Reader) : Except SyntaxError Command × Reader :=
  match rule.program.run r with
  | (.error e, s) => (.error e, s)
  | (.ok (head, reading), s) =>
    (.ok (s.finish head (reading.parameters.map Token.value) reading.kind), s)

theorem Rule.parse_advances (rule : Rule) (r : Reader) : ∃ ts, r.Advances ts (rule.parse r).2 := by
  obtain ⟨ts, hts⟩ := rule.program.run_advances r
  refine ⟨ts, ?_⟩
  unfold Rule.parse
  split
  · next h => rwa [h] at hts
  · next h => rwa [h] at hts

end Zpl
