import Zpl.Parser

/-! When reading a command fails. The head of a command is there or it is not, and behind
it a grammar fails only for want of a token that it requires. The grammars of the built-in
set require none, so they fail where no command starts and nowhere else
(`ruleFor_parse`). The token list is arbitrary. -/

namespace Zpl

namespace Cursor

/-- A marker at the cursor is stepped over. -/
def skipMarker (c : Cursor) : Cursor :=
  if c.check .marker then c.advance.2 else c

variable {c : Cursor}

theorem beginCommand_atCommand (h : c.atCommand) : ∃ head d, c.beginCommand = (.ok head, d) := by
  obtain ⟨hfirst, hword⟩ := Bool.and_eq_true_iff.mp h
  obtain ⟨marker, rest, hahead, -, hadvance⟩ := advance_of_check hfirst (by decide)
  have hsecond : c.advance.2.check .code := by
    rw [peekNth, hahead] at hword
    rwa [hadvance]
  simp only [beginCommand, expect, hfirst, if_true, hsecond]
  exact ⟨_, _, rfl⟩

/-- Where no command starts, a marker without a code is stepped over. -/
theorem beginCommand_fails (h : ¬c.atCommand) :
    ∃ e, c.beginCommand = (.error e, c.skipMarker) := by
  by_cases hfirst : c.check .marker
  · obtain ⟨marker, rest, hahead, -, hadvance⟩ := advance_of_check hfirst (by decide)
    have hsecond : ¬c.advance.2.check .code := by
      rw [hadvance]
      intro hcode
      refine h (Bool.and_eq_true_iff.mpr ⟨hfirst, ?_⟩)
      rwa [peekNth, hahead]
    simp only [beginCommand, expect, skipMarker, hfirst, if_true, hsecond]
    exact ⟨_, rfl⟩
  · simp only [beginCommand, expect, skipMarker, hfirst]
    exact ⟨_, rfl⟩

end Cursor

namespace Grammar

variable {α β : Type}

/-- The program requires no token. -/
def Total : Grammar α → Prop
  | done _ => True
  | peek next => ∀ t, (next t).Total
  | advance next => ∀ t, (next t).Total
  | expect _ _ => False
  | takeWhile _ next => ∀ ts, (next ts).Total
  | eatCommand _ next => ∀ head, (next head).Total
  | error _ next => next.Total
  | warn _ next => next.Total

theorem Total.bind {g : Grammar α} {f : α → Grammar β} (hg : g.Total) (hf : ∀ a, (f a).Total) :
    (g.bind f).Total := by
  induction g with
  | done result => exact hf result
  | peek next ih => exact fun t => ih t (hg t)
  | advance next ih => exact fun t => ih t (hg t)
  | expect kind next => exact hg.elim
  | takeWhile accepts next ih => exact fun ts => ih ts (hg ts)
  | eatCommand code next ih => exact fun head => ih head (hg head)
  | error d next ih => exact ih hg
  | warn d next ih => exact ih hg

theorem Total.run_ok {g : Grammar α} (h : g.Total) (r : Reader) : ∃ a s, g.run r = (.ok a, s) := by
  induction g generalizing r with
  | done result => exact ⟨result, r, rfl⟩
  | peek next ih => exact ih _ (h _) r
  | advance next ih => exact ih _ (h _) _
  | expect kind next => exact h.elim
  | takeWhile accepts next ih => exact ih _ (h _) _
  | eatCommand code next ih =>
    simp only [run]
    split
    · exact ih _ (h _) r
    · exact ih _ (h _) _
  | error d next ih => exact ih h _
  | warn d next ih => exact ih h _

theorem eat_total (kind : TokenKind) : (eat kind).Total := by
  intro t
  show (if t.kind = kind then _ else _ : Grammar (Option Token)).Total
  split
  · exact fun _ => trivial
  · trivial

theorem takeParameters_total : takeParameters.Total :=
  fun _ => trivial

theorem skipCommand_total (code : String) : (skipCommand code).Total :=
  fun _ => trivial

theorem report_total (problem : Problem) (p : Position) : (report problem p).Total := by
  unfold report
  split <;> trivial

theorem beginCommand_run (r : Reader) :
    beginCommand.run r = (r.cursor.beginCommand.1, r.moveTo r.cursor.beginCommand.2) := by
  simp only [beginCommand, run, Cursor.beginCommand]
  cases r.cursor.expect .marker with
  | error e => rfl
  | ok first =>
    obtain ⟨marker, d⟩ := first
    simp only [Reader.moveTo]
    cases d.expect .code with
    | error e => rfl
    | ok second => rfl

end Grammar

namespace Rule

open Grammar

theorem simple_total (read : List Token → CommandKind) (head : Head) : (simple read head).Total :=
  takeParameters_total.bind fun _ => trivial

theorem coordinates_total (make : Int32 → Int32 → CommandKind) (head : Head) :
    (coordinates make head).Total := by
  refine takeParameters_total.bind fun parameters => ?_
  by_cases hmissing : (missingCoordinates parameters).isEmpty
  · simp only [hmissing]
    trivial
  · simp only [hmissing]
    exact (report_total _ _).bind fun _ => trivial

theorem fieldContent_total : fieldContent.Total := by
  refine (eat_total .content).bind fun content => ?_
  cases content with
  | none => exact eat_total .parameter
  | some t => trivial

theorem closingSeparator_total : closingSeparator.Total := by
  refine (skipCommand_total "FS").bind fun closes => ?_
  cases closes with
  | false => trivial
  | true => exact takeParameters_total.bind fun _ => trivial

theorem fieldData_total (head : Head) : (fieldData head).Total :=
  fieldContent_total.bind fun _ => closingSeparator_total.bind fun _ => trivial

theorem barcodeData_total : barcodeData.Total := by
  refine (skipCommand_total "FD").bind fun data => ?_
  cases data with
  | false => trivial
  | true => exact fieldContent_total.bind fun _ => closingSeparator_total.bind fun _ => trivial

theorem barcode_total (head : Head) : (barcode head).Total :=
  takeParameters_total.bind fun _ => barcodeData_total.bind fun _ => trivial

theorem fieldSeparator_total (head : Head) : (fieldSeparator head).Total :=
  takeParameters_total.bind fun _ => (report_total _ _).bind fun _ => trivial

theorem unsupported_total (nearest : String → Option String) (head : Head) :
    (unsupported nearest head).Total :=
  fun _ => (report_total _ _).bind fun _ => trivial

/-- No built-in rule requires a token behind the head. -/
theorem builtin_total : ∀ entry ∈ builtinRules, ∀ head, (entry.2 head).Total := by
  simp only [builtinRules, List.forall_mem_cons]
  exact ⟨simple_total _, simple_total _, simple_total _, coordinates_total _, coordinates_total _,
    simple_total _, fieldData_total, fieldSeparator_total, barcode_total, barcode_total,
    barcode_total, simple_total _, by simp⟩

theorem ruleFor_total (code : String) (head : Head) :
    (Registry.builtin.ruleFor code head).Total := by
  rw [Registry.ruleFor]
  cases hrule : Registry.builtin.find? code with
  | none => exact unsupported_total _ head
  | some rule => exact builtin_total _ (KeyMap.mem_of_find?_ofList hrule) head

/-- A rule that requires no token behind the head fails where no command starts, and
then no more than a marker has been passed. -/
theorem parse_of_total {rule : Rule} (h : ∀ head, (rule head).Total) (r : Reader) :
    if r.cursor.atCommand then ∃ c s, rule.parse r = (.ok c, s)
    else ∃ e, rule.parse r = (.error e, r.moveTo r.cursor.skipMarker) := by
  unfold Rule.parse Rule.program
  rw [bind_eq, run_bind, beginCommand_run]
  split
  · next hcommand =>
    obtain ⟨head, d, hbegin⟩ := Cursor.beginCommand_atCommand hcommand
    have htotal : ((rule head).bind fun reading => .done (head, reading)).Total :=
      (h head).bind fun _ => trivial
    obtain ⟨reading, s, hrun⟩ := htotal.run_ok (r.moveTo d)
    rw [hbegin]
    simp only [bind_eq, pure_eq, hrun]
    exact ⟨_, s, rfl⟩
  · next hcommand =>
    obtain ⟨e, hbegin⟩ := Cursor.beginCommand_fails hcommand
    rw [hbegin]
    exact ⟨e, rfl⟩

end Rule
end Zpl
