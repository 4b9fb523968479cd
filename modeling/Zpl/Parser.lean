import Zpl.Registry

/-! Reading whole labels. The parser passes over the tokens of a source; where a
command starts, the rule of its code reads it. A rule that fails is reported and
reading goes on at the next line break or marker. Reading a label never fails:
every problem is part of the document. -/

namespace Zpl

theorem Rule.parse_ahead_lt (rule : Rule) {r : Reader} (h : r.cursor.check .marker) :
    (rule.parse r).2.cursor.ahead.length < r.cursor.ahead.length := by
  have hrun : (rule.program.run r).2.cursor.ahead.length < r.cursor.ahead.length := by
    show (Grammar.run (.expect .marker _) r).2.cursor.ahead.length < _
    simp only [Grammar.run]
    split
    · next he => simp [Cursor.expect, h] at he
    · next he =>
      obtain ⟨ts, hts⟩ := Grammar.run_advances _ _
      exact Nat.lt_of_le_of_lt hts.cursor.ahead_le (Cursor.expect_ahead_lt he (by decide))
  unfold Rule.parse
  split
  · next he => rwa [he] at hrun
  · next he => rwa [he] at hrun

namespace Reader

/-- Reads the command at the cursor with a rule. If the rule fails, the failure
is recorded and the reader moves on to a place where a command may start. -/
def dispatch (r : Reader) (rule : Rule) : Option Command × Reader :=
  match rule.parse r with
  | (.ok command, s) => (some command, s)
  | (.error e, s) => (none, (s.recordError e.diagnostic).moveTo s.cursor.synchronize)

theorem dispatch_ahead_lt (r : Reader) (rule : Rule) (h : r.cursor.check .marker) :
    (r.dispatch rule).2.cursor.ahead.length < r.cursor.ahead.length := by
  have hlt := rule.parse_ahead_lt h
  unfold dispatch
  split
  · next he => rwa [he] at hlt
  · next he =>
    rw [he] at hlt
    obtain ⟨ts, hts⟩ := Cursor.synchronize_advances _
    exact Nat.lt_of_le_of_lt hts.ahead_le hlt

theorem dispatch_advances (rule : Rule) (r : Reader) : ∃ ts, r.Advances ts (r.dispatch rule).2 := by
  obtain ⟨ts, hts⟩ := rule.parse_advances r
  unfold dispatch
  split
  · next h =>
    rw [h] at hts
    exact ⟨ts, hts⟩
  · next e s h =>
    rw [h] at hts
    obtain ⟨us, hus⟩ := s.cursor.synchronize_advances
    have hnoted := hts.trans (.recordError s e.diagnostic)
    exact hnoted.followed ⟨us, .moveTo hus⟩

/-- The commands from the cursor to the end, and the reader there. -/
def commands (r : Reader) (ruleFor : String → Rule) : List Command × Reader :=
  if r.cursor.atEnd then ([], r)
  else match _hcode : r.cursor.commandCode? with
    | none => (r.moveTo r.cursor.advance.2).commands ruleFor
    | some code =>
      let first := r.dispatch (ruleFor code)
      let rest := first.2.commands ruleFor
      (first.1.toList ++ rest.1, rest.2)
termination_by r.cursor.ahead.length
decreasing_by
  · exact Cursor.advance_ahead_lt (by simp_all)
  · exact dispatch_ahead_lt r _ (Cursor.check_of_commandCode? _hcode)

section Commands

variable {r : Reader} {ruleFor : String → Rule}

theorem commands_end (hend : r.cursor.atEnd) : r.commands ruleFor = ([], r) := by
  rw [commands, if_pos hend]

/-- Where no command starts, the loop passes a token. -/
theorem commands_pass (hend : r.cursor.atEnd = false) (hcode : r.cursor.commandCode? = none) :
    r.commands ruleFor = (r.moveTo r.cursor.advance.2).commands ruleFor := by
  rw [commands, hend]
  simp only [Bool.false_eq_true, if_false]
  split
  · rfl
  · next hsome => simp [hcode] at hsome

theorem commands_dispatch {code : String} (hend : r.cursor.atEnd = false)
    (hcode : r.cursor.commandCode? = some code) :
    r.commands ruleFor =
      ((r.dispatch (ruleFor code)).1.toList ++
          ((r.dispatch (ruleFor code)).2.commands ruleFor).1,
        ((r.dispatch (ruleFor code)).2.commands ruleFor).2) := by
  rw [commands, hend]
  simp only [Bool.false_eq_true, if_false]
  split
  · next hnone => simp [hcode] at hnone
  · next hsome =>
    obtain rfl := Option.some.inj (hcode.symm.trans hsome)
    rfl

end Commands

end Reader

/-- A command set with the settings to read labels by. It keeps no state: each
source is read alike, whatever was read before. -/
structure Parser where
  registry : Registry
  marks : Marks
  /-- The room beside the rightmost field that the label width includes. -/
  padding : Int32

namespace Parser

def standard : Parser := ⟨.builtin, .standard, 100⟩

/-- The document of a stream of tokens for a source. -/
def documentOf (p : Parser) (source : String) (stream : TokenStream) : Document :=
  let (commands, r) := (Reader.ofStream source stream).commands p.registry.ruleFor
  { commands
    metadata :=
      { sourceText := source
        errors := r.errors
        warnings := r.warnings
        labelWidth := labelWidth? commands p.padding
        labelLength := labelLength? commands } }

def parse (p : Parser) (source : String) : Document :=
  p.documentOf source (.ofText p.marks source)

end Parser
end Zpl
