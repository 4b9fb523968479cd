import Zpl.Machine
import Zpl.Proofs.Failure
import Zpl.Proofs.Passing

/-! What can be done with a reader. Every operation is a move forward (`perform_advances`), and
one that lacks something fails and leaves the reader alone (`perform_cases`). What a cursor
looks at stands inside its list (`Cursor.indexed`), and the text of a command is a part of the
source (`Reader.textBetween_isTextBetween`). -/

namespace Zpl

/-- What can be done with a reader. -/
inductive Operation where
  | peek
  | peekNth (n : Nat)
  | advance
  | eat (kind : TokenKind)
  | expect (kind : TokenKind)
  | atCommand
  | commandCode
  | beginCommand
  | takeParameters
  | eatCommand (code : String)
  | synchronize
  | finish (head : Head) (parameters : List String) (kind : CommandKind)
  | error (d : Diagnostic)
  | warn (d : Diagnostic)
  /-- Reads a command with the built-in rule for a code. -/
  | rule (code : String)

/-- What an operation tells. -/
inductive Outcome where
  | done
  | flag (b : Bool)
  | code (code : Option String)
  | token (t : Token)
  | tokens (ts : List Token)
  | head (head : Head)
  | command (c : Command)
  /-- What was asked for does not stand at the cursor. -/
  | absent
  | failure (e : SyntaxError)
deriving DecidableEq

namespace Operation

def perform (r : Reader) : Operation → Outcome × Reader
  | peek => (.token r.cursor.peek, r)
  | peekNth n => (.token (r.cursor.peekNth n), r)
  | advance => (.token r.cursor.advance.1, r.moveTo r.cursor.advance.2)
  | eat kind =>
    match r.cursor.eat kind with
    | some (t, c) => (.token t, r.moveTo c)
    | none => (.absent, r)
  | expect kind =>
    match r.cursor.expect kind with
    | .ok (t, c) => (.token t, r.moveTo c)
    | .error e => (.failure e, r)
  | atCommand => (.flag r.cursor.atCommand, r)
  | commandCode => (.code r.cursor.commandCode?, r)
  | beginCommand =>
    match r.cursor.beginCommand with
    | (.ok head, c) => (.head head, r.moveTo c)
    | (.error e, c) => (.failure e, r.moveTo c)
  | takeParameters => (.tokens r.cursor.takeParameters.1, r.moveTo r.cursor.takeParameters.2)
  | eatCommand code =>
    match r.cursor.eatCommand code with
    | some (head, c) => (.head head, r.moveTo c)
    | none => (.absent, r)
  | synchronize => (.done, r.moveTo r.cursor.synchronize)
  | finish head parameters kind => (.command (r.finish head parameters kind), r)
  | error d => (.done, r.recordError d)
  | warn d => (.done, r.recordWarning d)
  | rule code =>
    match (Registry.builtin.ruleFor code).parse r with
    | (.ok c, s) => (.command c, s)
    | (.error e, s) => (.failure e, s)

/-- The reader after a sequence of operations. -/
def performAll (r : Reader) (os : List Operation) : Reader :=
  os.foldl (fun r o => (o.perform r).2) r

/-- What an operation needs does not stand at the cursor. -/
def Lacks (r : Reader) : Operation → Prop
  | eat kind | expect kind => r.cursor.peek.kind ≠ kind
  | eatCommand code => ¬Follows code r.cursor.ahead
  | beginCommand | rule _ => ¬∃ marker word rest, r.cursor.ahead = marker :: word :: rest ∧
      marker.kind = .marker ∧ word.kind = .code
  | _ => False

/-- What is left of the reader then: all of it, but for a marker that is stepped over. -/
def afterLack (r : Reader) : Operation → Reader
  | beginCommand | rule _ => r.moveTo r.cursor.skipMarker
  | _ => r

end Operation

/-- An operation was in vain. -/
def Outcome.Fails : Outcome → Prop
  | absent | failure _ => True
  | _ => False

namespace Cursor

end Cursor

namespace Cursor

variable {c : Cursor}

theorem consumedEnd_indexed (c : Cursor) : c.index = 0 ∧ c.consumedEnd = 0 ∨
    ∃ t, 0 < c.index ∧ c.tokens[c.index - 1]? = some t ∧ c.consumedEnd = t.stop := by
  cases hbehind : c.behind with
  | nil => exact .inl ⟨by simp [index, hbehind], by simp [consumedEnd, hbehind]⟩
  | cons t passed =>
    refine .inr ⟨t, by simp [index, hbehind], ?_, by simp [consumedEnd, hbehind]⟩
    simp [index, tokens, hbehind]

end Cursor

/-! ## The text of a command -/

namespace Operation

variable {r : Reader}

theorem moved {c : Cursor} (h : ∃ ts, r.cursor.Advances ts c) : ∃ ts, r.Advances ts (r.moveTo c) :=
  h.imp fun _ => .moveTo

/-- Every operation is a move forward. -/
theorem perform_advances (o : Operation) (r : Reader) : ∃ ts, r.Advances ts (o.perform r).2 := by
  cases o with
  | peek => exact ⟨[], .refl r⟩
  | peekNth n => exact ⟨[], .refl r⟩
  | atCommand => exact ⟨[], .refl r⟩
  | commandCode => exact ⟨[], .refl r⟩
  | finish head parameters kind => exact ⟨[], .refl r⟩
  | error d => exact ⟨[], .recordError r d⟩
  | warn d => exact ⟨[], .recordWarning r d⟩
  | advance => exact moved r.cursor.advance_advances
  | takeParameters => exact moved ⟨_, r.cursor.takeWhile_advances _⟩
  | synchronize => exact moved r.cursor.synchronize_advances
  | eat kind =>
    simp only [perform]
    split
    · next h => exact moved (Cursor.eat_advances h)
    · exact ⟨[], .refl r⟩
  | expect kind =>
    simp only [perform]
    split
    · next h => exact moved (Cursor.expect_advances h)
    · exact ⟨[], .refl r⟩
  | beginCommand =>
    have hbegin := moved r.cursor.beginCommand_advances
    simp only [perform]
    split
    · next h => rwa [h] at hbegin
    · next h => rwa [h] at hbegin
  | eatCommand code =>
    simp only [perform]
    split
    · next h =>
      obtain ⟨marker, word, -, -, hts⟩ := Cursor.eatCommand_some h
      exact moved ⟨_, hts⟩
    · exact ⟨[], .refl r⟩
  | rule code =>
    have hparse := (Registry.builtin.ruleFor code).parse_advances r
    simp only [perform]
    split
    · next h => rwa [h] at hparse
    · next h => rwa [h] at hparse

theorem performAll_advances (os : List Operation) (r : Reader) :
    ∃ ts, r.Advances ts (performAll r os) := by
  induction os generalizing r with
  | nil => exact ⟨[], .refl r⟩
  | cons o os ih =>
    obtain ⟨ts, hts⟩ := o.perform_advances r
    exact hts.followed (ih (o.perform r).2)

/-- An operation that lacks something fails and leaves the reader alone, and no other
operation fails. -/
theorem perform_cases (o : Operation) (r : Reader) :
    o.Lacks r ∧ (o.perform r).1.Fails ∧ (o.perform r).2 = o.afterLack r ∨
      ¬o.Lacks r ∧ ¬(o.perform r).1.Fails := by
  cases o with
  | eat kind =>
    by_cases hcheck : r.cursor.check kind
    · have hkind : r.cursor.peek.kind = kind := by simpa [Cursor.check] using hcheck
      exact .inr (by simp [Lacks, hkind, perform, Cursor.eat, hcheck, Outcome.Fails])
    · have hkind : r.cursor.peek.kind ≠ kind := by simpa [Cursor.check] using hcheck
      exact .inl ⟨hkind, by simp [perform, Cursor.eat, hcheck, Outcome.Fails, afterLack]⟩
  | expect kind =>
    by_cases hcheck : r.cursor.check kind
    · have hkind : r.cursor.peek.kind = kind := by simpa [Cursor.check] using hcheck
      exact .inr (by simp [Lacks, hkind, perform, Cursor.expect, hcheck, Outcome.Fails])
    · have hkind : r.cursor.peek.kind ≠ kind := by simpa [Cursor.check] using hcheck
      exact .inl ⟨hkind, by simp [perform, Cursor.expect, hcheck, Outcome.Fails, afterLack]⟩
  | eatCommand code =>
    cases heat : r.cursor.eatCommand code with
    | none =>
      exact .inl ⟨Cursor.eatCommand_eq_none_iff.mp heat, by simp [perform, heat, Outcome.Fails, afterLack]⟩
    | some found =>
      have hfollows : ¬¬Follows code r.cursor.ahead := by simp [← Cursor.eatCommand_eq_none_iff, heat]
      exact .inr ⟨hfollows, by simp [perform, heat, Outcome.Fails]⟩
  | beginCommand =>
    by_cases hcommand : r.cursor.atCommand
    · obtain ⟨head, c, hbegin⟩ := Cursor.beginCommand_atCommand hcommand
      exact .inr ⟨not_not_intro (Cursor.atCommand_iff.mp hcommand),
        by simp [perform, hbegin, Outcome.Fails]⟩
    · obtain ⟨e, hbegin⟩ := Cursor.beginCommand_fails hcommand
      exact .inl ⟨fun h => hcommand (Cursor.atCommand_iff.mpr h),
        by simp [perform, hbegin, Outcome.Fails, afterLack]⟩
  | rule code =>
    have hparse := Rule.parse_of_total (Rule.ruleFor_total code) r
    split at hparse
    · next hcommand =>
      obtain ⟨c, s, hc⟩ := hparse
      exact .inr ⟨not_not_intro (Cursor.atCommand_iff.mp hcommand),
        by simp [perform, hc, Outcome.Fails]⟩
    · next hcommand =>
      obtain ⟨e, he⟩ := hparse
      exact .inl ⟨fun h => hcommand (Cursor.atCommand_iff.mpr h),
        by simp [perform, he, Outcome.Fails, afterLack]⟩
  | _ => exact .inr ⟨id, id⟩

end Operation

theorem Cursor.ofTokens_behind (ts : List Token) : (ofTokens ts).behind = [] := by
  unfold ofTokens
  split
  · rfl
  · split <;> rfl

/-- A reader has the tokens behind it that it has passed from the start on. -/
theorem Reader.Advances.behind_ofStream {source : String} {stream : TokenStream} {ts : List Token}
    {r : Reader} (h : (Reader.ofStream source stream).Advances ts r) :
    r.cursor.behind.reverse = ts := by
  rw [h.cursor.behind]
  show (ts.reverse ++ (Cursor.ofTokens stream.tokens).behind).reverse = ts
  rw [Cursor.ofTokens_behind, List.append_nil, List.reverse_reverse]

end Zpl
