import Zpl.Proofs.Account
import Zpl.Proofs.Slices
import Zpl.Proofs.Telling

/-! Recovery from failures. Each command that is dispatched becomes one command of the
document, or else one error at the token where its rule failed; what is discarded then
ends before the next line break or marker. So a command of the source is lost only to a
rule that passed its marker or failed on it (`parse_recovers`). The rules are arbitrary,
but for the code of that error, which they leave to the parser. -/

namespace Zpl

/-! ## Failures -/

namespace Grammar

/-- A program that fails stops at the token it complains of. -/
theorem run_error {α : Type} {g : Grammar α} {r s : Reader} {e : SyntaxError}
    (h : g.run r = (.error e, s)) : e.found = s.cursor.peek := by
  induction g generalizing r with
  | done result => simp [run] at h
  | peek next ih => exact ih _ h
  | advance next ih => exact ih _ h
  | expect kind next ih =>
    simp only [run] at h
    split at h
    · next hexpect =>
      obtain ⟨he, rfl⟩ := Prod.mk.inj h
      unfold Cursor.expect at hexpect
      split at hexpect
      · cases hexpect
      · rw [← Except.error.inj he, ← Except.error.inj hexpect]
    · exact ih _ h
  | takeWhile accepts next ih => exact ih _ h
  | eatCommand code next ih =>
    simp only [run] at h
    split at h
    · exact ih _ h
    · exact ih _ h
  | error d next ih => exact ih h
  | warn d next ih => exact ih h

end Grammar

/-- The tokens from one cursor to a later one. -/
def Cursor.between (c d : Cursor) : List Token :=
  c.ahead.take (c.ahead.length - d.ahead.length)

theorem Cursor.Advances.between_eq {c d : Cursor} {ts : List Token} (h : c.Advances ts d) :
    c.between d = ts := by
  simp [Cursor.between, h.ahead]

/-- What is discarded by recovery: the token at the cursor, unless it is the end, and behind
it no line break and no marker. -/
theorem Cursor.between_synchronize (c : Cursor) : ∃ rest,
    c.between c.synchronize = (if c.peek.kind = .finish then [] else c.peek :: rest) ∧
      ∀ t ∈ rest, t.kind ≠ .lineBreak ∧ t.kind ≠ .marker := by
  let between := c.advance.2.takeWhile fun kind => kind != .lineBreak && kind != .marker
  have hrest : ∀ t ∈ between.1, t.kind ≠ .lineBreak ∧ t.kind ≠ .marker := by
    intro t ht
    have hall := List.all_eq_true.mp (List.all_takeWhile (l := c.advance.2.ahead)) t ht
    simp only [Bool.and_eq_true, bne_iff_ne] at hall
    exact hall.1
  by_cases hfinish : c.peek.kind = .finish
  · refine ⟨[], ?_, List.forall_mem_nil _⟩
    have hstay : c.synchronize.ahead = c.ahead := by
      unfold synchronize advance takeWhile
      cases hahead : c.ahead with
      | nil => simp [hahead]
      | cons t ts =>
        have ht : t.kind = .finish := by simpa [peek, peekNth, hahead] using hfinish
        simp [ht, hahead]
    rw [if_pos hfinish, Cursor.between, hstay, Nat.sub_self, List.take_zero]
  · refine ⟨between.1, ?_, hrest⟩
    rw [if_neg hfinish]
    exact ((advance_peek hfinish).trans (takeWhile_advances _ _)).between_eq

namespace Rule

open Grammar

/-- Whatever is read with the rule, no error with the code is recorded. -/
def RecordsNo (code : String) (rule : Rule) : Prop :=
  ∀ r : Reader, ∃ own, (rule.parse r).2.errors = r.errors ++ own ∧ ∀ d ∈ own, d.code ≠ code

theorem recordsNo_of_tells {code : String} {rule : Rule}
    (h : ∀ head, (rule head).Tells (·.code ≠ code) fun _ => True) : rule.RecordsNo code := by
  have hprogram : rule.program.Tells (·.code ≠ code) fun _ => True :=
    beginCommand_tells.bind fun head => (h head).bind fun _ => trivial
  intro r
  obtain ⟨own, -, herrors, hown, -⟩ := hprogram.run r
  refine ⟨own, ?_, hown⟩
  rw [← herrors]
  unfold Rule.parse
  split
  · next hrun => rw [hrun]
  · next hrun => rw [hrun]

/-- A rule that fails stops at the token it complains of. -/
theorem found_of_parse {rule : Rule} {r s : Reader} {e : SyntaxError}
    (h : rule.parse r = (.error e, s)) : e.found = s.cursor.peek := by
  unfold Rule.parse at h
  split at h
  · next hrun =>
    obtain ⟨he, rfl⟩ := Prod.mk.inj h
    rw [← Except.error.inj he]
    exact run_error hrun
  · simp at h

end Rule

/-- A script reports its own errors only. -/
theorem Script.rule_recordsNo (s : Script) {code : String} (h : "X0001" ≠ code) :
    s.rule.RecordsNo code :=
  Rule.recordsNo_of_tells fun head =>
    (s.rule_tells head).mono (fun _ hd => hd.1 ▸ h) fun _ _ => trivial

/-- A rule that tells of its head only reports no failure. -/
theorem Rule.TellsOfHead.recordsNo {rule : Rule} (h : ∀ head, TellsOfHead head (rule head)) :
    rule.RecordsNo "ZPL0101" :=
  recordsNo_of_tells fun head =>
    (h head).mono (fun _ hd => hd.1 ▸ by decide) fun _ _ => trivial

/-- The rule that reads the commands of a code reports no failure itself. -/
theorem Registry.ruleFor_recordsNo {registry : Registry}
    (h : ∀ code rule, registry.find? code = some rule →
      rule ∈ builtinRules.map Prod.snd ∨ rule.RecordsNo "ZPL0101") (code : String) :
    (registry.ruleFor code).RecordsNo "ZPL0101" :=
  ruleFor_of_tells (fun _ => Rule.TellsOfHead.recordsNo) h code

/-! ## Dispatched commands -/

/-- A command that is dispatched: the reader in front of it and the rule of its code. -/
structure Dispatch where
  reader : Reader
  rule : Rule

namespace Dispatch

/-- The marker and the code of the command. -/
def head (d : Dispatch) : Token × Token :=
  (d.reader.cursor.peek, d.reader.cursor.peekNth 1)

/-- The reader where the rule is done or fails. -/
def stopped (d : Dispatch) : Reader :=
  (d.rule.parse d.reader).2

/-- The reader where reading goes on. -/
def next (d : Dispatch) : Reader :=
  (d.reader.dispatch d.rule).2

def command? (d : Dispatch) : Option Command :=
  (d.reader.dispatch d.rule).1

/-- The token at which the rule fails. -/
def failing? (d : Dispatch) : Option Token :=
  match (d.rule.parse d.reader).1 with
  | .ok _ => none
  | .error e => some e.found

/-- The tokens that the rule passes. -/
def taken (d : Dispatch) : List Token :=
  d.reader.cursor.between d.stopped.cursor

/-- The tokens that are discarded when the rule has failed. -/
def dropped (d : Dispatch) : List Token :=
  d.stopped.cursor.between d.next.cursor

/-- The errors of the rule and of its failure. -/
def errors (d : Dispatch) : List Diagnostic :=
  d.next.errors.drop d.reader.errors.length

def failures (d : Dispatch) : List Diagnostic :=
  d.errors.filter (·.code == "ZPL0101")

/-- A dispatch gives a command and no failure, or no command and one failure, at the token
where the rule stopped. That token is discarded with all up to the next line break or
marker, unless it is the end. -/
inductive Settles (d : Dispatch) : Prop where
  | command (c : Command) : d.command? = some c → d.failing? = none → d.failures = [] →
      d.dropped = [] → d.Settles
  | failure (e : SyntaxError) (rest : List Token) : d.command? = none →
      d.failing? = some e.found → d.failures = [e.diagnostic] →
      e.diagnostic.position = e.found.position → e.found = d.stopped.cursor.peek →
      d.dropped = (if e.found.kind = .finish then [] else e.found :: rest) →
      (∀ t ∈ rest, t.kind ≠ .lineBreak ∧ t.kind ≠ .marker) → d.Settles

/-- What became of a command of the source: it was dispatched, its marker was passed by the
rule of an earlier command, or such a rule failed on the marker. -/
inductive Accounts (d : Dispatch) (pair : Token × Token) : Prop where
  | dispatched : d.head = pair → d.Accounts pair
  | passed : pair.1 ∈ d.taken.tail → d.Accounts pair
  | failed : d.failing? = some pair.1 → d.Accounts pair

end Dispatch

/-- The commands that are dispatched from the cursor to the end. -/
def Reader.dispatches (r : Reader) (ruleFor : String → Rule) : List Dispatch :=
  if r.cursor.atEnd then []
  else match _hcode : r.cursor.commandCode? with
    | none => (r.moveTo r.cursor.advance.2).dispatches ruleFor
    | some code => ⟨r, ruleFor code⟩ :: (r.dispatch (ruleFor code)).2.dispatches ruleFor
termination_by r.cursor.ahead.length
decreasing_by
  · exact Cursor.advance_ahead_lt (by simp_all)
  · exact dispatch_ahead_lt r _ (Cursor.check_of_commandCode? _hcode)

def Parser.dispatches (p : Parser) (source : String) : List Dispatch :=
  (Reader.ofStream source (.ofText p.marks source)).dispatches p.registry.ruleFor

/-- The dispatched commands account for a document and for the commands of its source. -/
structure Parser.Recovers (p : Parser) (source : String) (log : List Dispatch) : Prop where
  commands : (p.parse source).commands = log.filterMap Dispatch.command?
  errors : (p.parse source).metadata.errors =
    (TokenStream.ofText p.marks source).errors ++ log.flatMap Dispatch.errors
  /-- Failures are told by dispatches only. -/
  failures : (p.parse source).metadata.errors.filter (·.code == "ZPL0101") =
    log.flatMap Dispatch.failures
  settles : ∀ d ∈ log, d.Settles
  rule : ∀ d ∈ log, d.rule = p.registry.ruleFor d.head.2.value
  /-- A dispatched command is one of the source, and none is dispatched twice. -/
  heads : (log.map Dispatch.head).Sublist (commandPairs (TokenStream.ofText p.marks source).tokens)
  /-- The rule passes the command, and what is discarded stands behind what it passes. -/
  place : ∀ d ∈ log, ∃ before own behind, d.taken = d.head.1 :: d.head.2 :: own ∧
    (TokenStream.ofText p.marks source).tokens = before ++ (d.taken ++ (d.dropped ++ behind))
  pairs : ∀ pair ∈ commandPairs (TokenStream.ofText p.marks source).tokens,
    ∃ d ∈ log, d.Accounts pair
  /-- A failure discards at most one command. -/
  loses : ∀ d ∈ log, (commandPairs (TokenStream.ofText p.marks source).tokens).countP
    (fun pair => decide (pair.1 ∈ d.dropped)) ≤ 1

/-! ## Commands in a list of tokens -/

theorem kinds_of_mem_commandPairs {ts : List Token} {pair : Token × Token}
    (h : pair ∈ commandPairs ts) : pair.1.kind = .marker ∧ pair.2.kind = .code := by
  simpa using (List.mem_filter.mp h).2

theorem commandPairs_sublist (ts us : List Token) :
    (commandPairs us).Sublist (commandPairs (ts ++ us)) := by
  induction ts with
  | nil => exact .refl _
  | cons t ts ih =>
    refine ih.trans ?_
    rw [List.cons_append]
    cases ts ++ us with
    | nil => exact .refl _
    | cons u vs =>
      rw [commandPairs_cons_cons]
      split
      · exact List.sublist_cons_self _ _
      · exact .refl _

theorem mem_commandPairs_append {ts us : List Token} {pair : Token × Token}
    (h : pair ∈ commandPairs (ts ++ us)) : pair.1 ∈ ts ∨ pair ∈ commandPairs us := by
  induction ts with
  | nil => exact .inr h
  | cons t ts ih =>
    have hrest : pair ∈ commandPairs (ts ++ us) → pair.1 ∈ t :: ts ∨ pair ∈ commandPairs us :=
      fun hpair => (ih hpair).imp (List.mem_cons_of_mem t) id
    rw [List.cons_append] at h
    cases hmore : ts ++ us with
    | nil =>
      rw [hmore] at h
      exact absurd h List.not_mem_nil
    | cons u vs =>
      rw [hmore, commandPairs_cons_cons] at h
      rw [hmore] at hrest
      split at h
      · rcases List.mem_cons.mp h with rfl | h
        · exact .inl List.mem_cons_self
        · exact hrest h
      · exact hrest h

/-- Where no command starts, none is passed with the next token. -/
theorem Cursor.commandPairs_pass (c : Cursor) {t : Token} {rest : List Token}
    (hahead : c.ahead = t :: rest) (h : ¬c.atCommand) :
    commandPairs (t :: rest) = commandPairs rest := by
  refine commandPairs_skip (or_iff_not_imp_left.mpr fun hmarker => ?_)
  intro u hu
  obtain ⟨more, rfl⟩ := List.head?_eq_some_iff.mp hu
  rw [Bool.eq_false_iff]
  intro hword
  exact h (Cursor.atCommand_iff.mpr
    ⟨t, u, more, hahead, not_not.mp hmarker, eq_of_beq hword⟩)

theorem commandPairs_map_fst (ts : List Token) : ((commandPairs ts).map Prod.fst).Sublist ts := by
  induction ts with
  | nil => exact .slnil
  | cons t ts ih =>
    cases ts with
    | nil => exact List.nil_sublist _
    | cons u ts =>
      rw [commandPairs_cons_cons]
      split
      · exact ih.cons_cons t
      · exact ih.cons t

/-- No marker starts two commands. -/
theorem commandPairs_count_le {ts : List Token} (h : ts.Nodup) (t : Token) :
    (commandPairs ts).countP (fun pair => pair.1 == t) ≤ 1 := by
  have hcount := List.nodup_iff_count.mp ((commandPairs_map_fst ts).nodup h) t
  rwa [List.count, List.countP_map] at hcount

/-! ## One dispatch -/

namespace Dispatch

variable {d : Dispatch}

theorem exists_head (h : d.reader.cursor.atCommand) :
    ∃ rest, d.reader.cursor.ahead = d.head.1 :: d.head.2 :: rest ∧ d.head.1.kind = .marker ∧
      d.head.2.kind = .code := by
  obtain ⟨marker, word, rest, hahead, hmarker, hword⟩ := Cursor.atCommand_iff.mp h
  refine ⟨rest, ?_⟩
  simp only [head, Cursor.peek, Cursor.peekNth, hahead]
  exact ⟨rfl, hmarker, hword⟩

/-- What the rule passes. -/
theorem stopped_advances (h : d.reader.cursor.atCommand) :
    ∃ own, d.reader.Advances (d.head.1 :: d.head.2 :: own) d.stopped ∧
      d.taken = d.head.1 :: d.head.2 :: own := by
  obtain ⟨rest, hahead, hmarker, hword⟩ := exists_head h
  obtain ⟨own, hown⟩ := d.rule.parse_advances_command hahead hmarker hword
  exact ⟨own, hown, hown.cursor.between_eq⟩

theorem next_advances (d : Dispatch) : d.stopped.Advances d.dropped d.next := by
  obtain ⟨ts, hts⟩ : ∃ ts, d.stopped.Advances ts d.next := by
    unfold stopped next Reader.dispatch
    split
    · next h =>
      rw [h]
      exact ⟨[], .refl _⟩
    · next e s h =>
      rw [h]
      obtain ⟨ts, hts⟩ := s.cursor.synchronize_advances
      exact ⟨ts, (Reader.Advances.recordError s e.diagnostic).trans (.moveTo hts)⟩
  rwa [dropped, hts.cursor.between_eq]

/-- Nothing is discarded behind a rule that succeeds; behind one that fails, what recovery
discards. -/
theorem dropped_cases (d : Dispatch) : d.failing? = none ∧ d.dropped = [] ∨
    ∃ rest, d.failing? = some d.stopped.cursor.peek ∧
      d.dropped = (if d.stopped.cursor.peek.kind = .finish then []
        else d.stopped.cursor.peek :: rest) ∧
      ∀ t ∈ rest, t.kind ≠ .lineBreak ∧ t.kind ≠ .marker := by
  cases hparse : d.rule.parse d.reader with
  | mk result s =>
    have hstopped : d.stopped = s := by rw [stopped, hparse]
    cases result with
    | ok c =>
      have hnext : d.next = s := by rw [next, Reader.dispatch, hparse]
      refine .inl ⟨by rw [failing?, hparse], ?_⟩
      rw [dropped, hnext, hstopped, Cursor.between, Nat.sub_self, List.take_zero]
    | error e =>
      have hnext : d.next = (s.recordError e.diagnostic).moveTo s.cursor.synchronize := by
        rw [next, Reader.dispatch, hparse]
      obtain ⟨rest, hdropped, hrest⟩ := s.cursor.between_synchronize
      refine .inr ⟨rest, ?_, ?_, hrest⟩
      · rw [failing?, hparse, hstopped, ← Rule.found_of_parse hparse]
      · rw [dropped, hnext, hstopped]
        exact hdropped

/-- A marker is discarded only if the rule failed on it. -/
theorem failing_of_dropped {t : Token} (ht : t ∈ d.dropped) (hmarker : t.kind = .marker) :
    d.failing? = some t := by
  rcases d.dropped_cases with ⟨-, hnil⟩ | ⟨rest, hfailing, hdropped, hrest⟩
  · rw [hnil] at ht
    exact absurd ht List.not_mem_nil
  · rw [hdropped] at ht
    split at ht
    · exact absurd ht List.not_mem_nil
    · rcases List.mem_cons.mp ht with rfl | ht
      · exact hfailing
      · exact absurd hmarker (hrest t ht).2

theorem settles (h : d.rule.RecordsNo "ZPL0101") : d.Settles := by
  obtain ⟨own, herrors, hown⟩ := h d.reader
  have hquiet : own.filter (·.code == "ZPL0101") = [] := by
    rw [List.filter_eq_nil_iff]
    intro x hx
    simpa using hown x hx
  have hcases := d.dropped_cases
  cases hparse : d.rule.parse d.reader with
  | mk result s =>
    rw [hparse] at herrors
    have hstopped : d.stopped = s := by rw [stopped, hparse]
    cases result with
    | ok c =>
      have hfailing : d.failing? = none := by rw [failing?, hparse]
      have herrs : d.errors = own := by
        rw [errors, next, Reader.dispatch, hparse]
        exact herrors ▸ List.drop_left
      rcases hcases with ⟨-, hdropped⟩ | ⟨-, hsome, -⟩
      · refine .command c ?_ hfailing ?_ hdropped
        · rw [command?, Reader.dispatch, hparse]
        · rw [failures, herrs, hquiet]
      · rw [hfailing] at hsome
        cases hsome
    | error e =>
      have hfound : e.found = d.stopped.cursor.peek := hstopped ▸ Rule.found_of_parse hparse
      have hfailing : d.failing? = some e.found := by rw [failing?, hparse]
      have herrs : d.errors = own ++ [e.diagnostic] := by
        rw [errors, next, Reader.dispatch, hparse]
        show (s.errors ++ [e.diagnostic]).drop _ = _
        rw [herrors, List.append_assoc, List.drop_left]
      rcases hcases with ⟨hnone, -⟩ | ⟨rest, -, hdropped, hrest⟩
      · rw [hfailing] at hnone
        cases hnone
      · refine .failure e rest ?_ hfailing ?_ rfl hfound (hfound ▸ hdropped) hrest
        · rw [command?, Reader.dispatch, hparse]
        · rw [failures, herrs, List.filter_append, hquiet]
          rfl

/-- In front of a dispatch are the tokens that its rule passes, those that are discarded behind
them, and what is left for the next one. -/
theorem ahead_eq (h : d.reader.cursor.atCommand) : ∃ own,
    d.taken = d.head.1 :: d.head.2 :: own ∧
      d.reader.cursor.ahead = d.taken ++ (d.dropped ++ d.next.cursor.ahead) := by
  obtain ⟨own, hown, htaken⟩ := d.stopped_advances h
  refine ⟨own, htaken, ?_⟩
  rw [htaken, ← d.next_advances.cursor.ahead]
  exact hown.cursor.ahead

/-- The tokens that the rule passes, and those discarded behind them, in the stream. -/
theorem exists_place (h : d.reader.cursor.atCommand) : ∃ before own behind,
    d.taken = d.head.1 :: d.head.2 :: own ∧
      d.reader.cursor.tokens = before ++ (d.taken ++ (d.dropped ++ behind)) := by
  obtain ⟨own, htaken, hahead⟩ := d.ahead_eq h
  refine ⟨d.reader.cursor.behind.reverse, own,
    d.next.cursor.ahead ++ [d.reader.cursor.last], htaken, ?_⟩
  rw [Cursor.tokens, hahead]
  simp only [List.append_assoc]

/-- The command that is dispatched is the first one in front. -/
theorem commandPairs_ahead (h : d.reader.cursor.atCommand) :
    commandPairs d.reader.cursor.ahead =
      d.head :: commandPairs (d.taken.tail ++ (d.dropped ++ d.next.cursor.ahead)) := by
  obtain ⟨own, htaken, hahead⟩ := d.ahead_eq h
  obtain ⟨-, -, hmarker, hword⟩ := d.exists_head h
  rw [hahead, htaken]
  exact (commandPairs_cons_cons _ _ _).trans (if_pos ⟨hmarker, hword⟩)

/-- A dispatch accounts for every command in front that it does not leave to the next one. -/
theorem accounts_or_ahead (h : d.reader.cursor.atCommand) {pair : Token × Token}
    (hpair : pair ∈ commandPairs d.reader.cursor.ahead) :
    d.Accounts pair ∨ pair ∈ commandPairs d.next.cursor.ahead := by
  rw [d.commandPairs_ahead h] at hpair
  rcases List.mem_cons.mp hpair with rfl | hpair
  · exact .inl (.dispatched rfl)
  rcases mem_commandPairs_append hpair with hpassed | hpair
  · exact .inl (.passed hpassed)
  rcases mem_commandPairs_append hpair with hdropped | hnext
  · exact .inl (.failed (d.failing_of_dropped hdropped (kinds_of_mem_commandPairs hpair).1))
  · exact .inr hnext

/-- Of the commands of a stream at most one starts in what is discarded. -/
theorem loses_le (d : Dispatch) {ts : List Token} (h : ts.Nodup) :
    (commandPairs ts).countP (fun pair => decide (pair.1 ∈ d.dropped)) ≤ 1 := by
  have hsame : ∀ pair ∈ commandPairs ts, decide (pair.1 ∈ d.dropped) →
      (pair.1 == d.stopped.cursor.peek) = true := by
    intro pair hpair hmem
    have hfailing := d.failing_of_dropped (of_decide_eq_true hmem)
      (kinds_of_mem_commandPairs hpair).1
    rcases d.dropped_cases with ⟨hnone, -⟩ | ⟨-, hsome, -⟩
    · rw [hfailing] at hnone
      cases hnone
    · exact beq_iff_eq.mpr (Option.some.inj (hfailing.symm.trans hsome))
  exact Nat.le_trans (List.countP_mono_left hsame) (commandPairs_count_le h _)

end Dispatch

/-! ## The loop -/

namespace Reader

variable {r : Reader} {ruleFor : String → Rule} {d : Dispatch}

/-- The loop is its dispatches, one after the other. -/
theorem commands_eq (r : Reader) (ruleFor : String → Rule) :
    (r.commands ruleFor).1 = (r.dispatches ruleFor).filterMap Dispatch.command? ∧
      (r.commands ruleFor).2.errors =
        r.errors ++ (r.dispatches ruleFor).flatMap Dispatch.errors := by
  fun_induction dispatches r ruleFor with
  | case1 r hend =>
    rw [commands, if_pos hend]
    exact ⟨rfl, (List.append_nil _).symm⟩
  | case2 r hend hcode ih =>
    rw [commands_pass (by simpa using hend) hcode]
    exact ih
  | case3 r hend code hcode ih =>
    obtain ⟨ts, hts⟩ := r.dispatch_advances (ruleFor code)
    obtain ⟨own, hown⟩ := hts.errors
    have herrors : Dispatch.errors ⟨r, ruleFor code⟩ = own := by
      show (r.dispatch (ruleFor code)).2.errors.drop r.errors.length = own
      rw [← hown, List.drop_left]
    have hcommands : ∀ ds : List Dispatch, (⟨r, ruleFor code⟩ :: ds).filterMap Dispatch.command? =
        (r.dispatch (ruleFor code)).1.toList ++ ds.filterMap Dispatch.command? := by
      intro ds
      rw [List.filterMap_cons, Dispatch.command?]
      cases (r.dispatch (ruleFor code)).1 <;> rfl
    rw [commands_dispatch (by simpa using hend) hcode, List.flatMap_cons, herrors, ih.2, ← hown,
      ih.1, hcommands, List.append_assoc]
    exact ⟨rfl, rfl⟩

theorem mem_dispatches (h : d ∈ r.dispatches ruleFor) :
    (∃ ts, r.Advances ts d.reader) ∧ d.reader.cursor.atCommand ∧
      d.rule = ruleFor d.head.2.value := by
  fun_induction dispatches r ruleFor with
  | case1 => simp at h
  | case2 r hend hcode ih =>
    obtain ⟨hmoved, hcommand⟩ := ih h
    obtain ⟨ts, hts⟩ := r.cursor.advance_advances
    exact ⟨(Advances.moveTo hts).followed hmoved, hcommand⟩
  | case3 r hend code hcode ih =>
    have hcommand := Cursor.atCommand_of_commandCode? hcode
    rcases List.mem_cons.mp h with rfl | h
    · refine ⟨⟨[], .refl r⟩, hcommand, congrArg ruleFor ?_⟩
      rw [Cursor.commandCode?, if_pos hcommand] at hcode
      exact (Option.some.inj hcode).symm
    · obtain ⟨hmoved, hcommand⟩ := ih h
      obtain ⟨ts, hts⟩ := r.dispatch_advances (ruleFor code)
      exact ⟨hts.followed hmoved, hcommand⟩

/-- The commands in front of the reader are dispatched in order, and each of them is
accounted for. -/
theorem dispatches_pairs (r : Reader) (ruleFor : String → Rule)
    (h : ∀ t ∈ r.cursor.ahead, t.kind ≠ .finish) :
    ((r.dispatches ruleFor).map Dispatch.head).Sublist (commandPairs r.cursor.ahead) ∧
      ∀ pair ∈ commandPairs r.cursor.ahead, ∃ d ∈ r.dispatches ruleFor, d.Accounts pair := by
  fun_induction dispatches r ruleFor with
  | case1 r hend =>
    rw [Cursor.ahead_of_atEnd hend h]
    exact ⟨.slnil, List.forall_mem_nil _⟩
  | case2 r hend hcode ih =>
    have hpass := Cursor.advance_peek (Cursor.atEnd_eq_false_iff.mp (by simpa using hend))
    have hcommand : ¬r.cursor.atCommand := by simpa [Cursor.commandCode?] using hcode
    have hahead : r.cursor.ahead = r.cursor.peek :: r.cursor.advance.2.ahead := hpass.ahead
    rw [hahead, r.cursor.commandPairs_pass hahead hcommand]
    exact ih fun t ht => h t (hahead ▸ List.mem_cons_of_mem _ ht)
  | case3 r hend code hcode ih =>
    let d : Dispatch := ⟨r, ruleFor code⟩
    have hcommand : d.reader.cursor.atCommand := Cursor.atCommand_of_commandCode? hcode
    obtain ⟨-, -, hahead⟩ := d.ahead_eq hcommand
    obtain ⟨hsublist, haccounts⟩ := ih fun t ht =>
      h t (hahead ▸ List.mem_append_right _ (List.mem_append_right _ ht))
    constructor
    · rw [d.commandPairs_ahead hcommand, ← List.append_assoc]
      exact .cons_cons d.head (hsublist.trans (commandPairs_sublist _ _))
    · intro pair hpair
      rcases d.accounts_or_ahead hcommand hpair with haccount | hnext
      · exact ⟨d, List.mem_cons_self, haccount⟩
      · obtain ⟨e, he, haccount⟩ := haccounts pair hnext
        exact ⟨e, List.mem_cons_of_mem _ he, haccount⟩

end Reader

/-- Every command of a source is dispatched, passed by a rule, or failed on by one, and every
dispatch gives a command or tells one failure. -/
theorem parse_recovers (registry : Registry) (m : Marks) (padding : Int32) (source : String)
    (h : ∀ code rule, registry.find? code = some rule →
      rule ∈ builtinRules.map Prod.snd ∨ rule.RecordsNo "ZPL0101") :
    (Parser.mk registry m padding).Recovers source
      ((Parser.mk registry m padding).dispatches source) := by
  obtain ⟨front, p, htokens, -, hfront⟩ := TokenStream.ofText_ending m source
  have hahead : (Reader.ofStream source (.ofText m source)).cursor.ahead = front := by
    simp [Reader.ofStream, Cursor.ofTokens, htokens, Token.finishAt]
  have hpairs : commandPairs (TokenStream.ofText m source).tokens = commandPairs front := by
    have hend : StartsWithout (· == .code) [Token.finishAt p] := by
      intro t ht
      rw [← Option.some.inj ht]
      rfl
    rw [htokens, commandPairs_append hend]
    exact List.append_nil _
  have hreads := Reader.reads_ofText m source
  obtain ⟨hcommands, herrors⟩ :=
    (Reader.ofStream source (.ofText m source)).commands_eq registry.ruleFor
  obtain ⟨hheads, haccounts⟩ :=
    (Reader.ofStream source (.ofText m source)).dispatches_pairs registry.ruleFor
      (by rw [hahead]; exact fun t ht => (hfront t ht).1)
  rw [hahead, ← hpairs] at hheads haccounts
  refine ⟨hcommands, herrors, ?_, ?_, ?_, hheads, ?_, haccounts, ?_⟩
  · have hlexical : (TokenStream.ofText m source).errors.filter (·.code == "ZPL0101") = [] := by
      rw [List.filter_eq_nil_iff]
      intro d hd
      simpa using TokenStream.ofText_errors_code hd
    show ((Reader.ofStream source (.ofText m source)).commands registry.ruleFor).2.errors.filter _ = _
    rw [herrors, List.filter_append, List.filter_flatMap]
    show (TokenStream.ofText m source).errors.filter _ ++ _ = _
    rw [hlexical]
    rfl
  · intro d hd
    obtain ⟨-, -, hrule⟩ := Reader.mem_dispatches hd
    refine d.settles ?_
    rw [hrule]
    exact Registry.ruleFor_recordsNo h _
  · intro d hd
    exact (Reader.mem_dispatches hd).2.2
  · intro d hd
    obtain ⟨⟨ts, hts⟩, hcommand, -⟩ := Reader.mem_dispatches hd
    rw [← (hreads.advance hts).tokens]
    exact d.exists_place hcommand
  · intro d _
    exact d.loses_le (TokenStream.ofText_nodup m source)

/-- A graphic field that must have an operand fails on the marker of the next command, which
is lost with it; the end of the label, on the next line, is not. -/
theorem parse_recovers_script :
    let registry := Registry.builtin.insert "GF" (Script.rule ⟨[.expect .parameter], .generic⟩)
    let p := Parser.mk registry .standard 100
    (∀ code rule, registry.find? code = some rule →
      rule ∈ builtinRules.map Prod.snd ∨ rule.RecordsNo "ZPL0101") ∧
    p.Recovers "^GF^FO1,2\n^XZ" (p.dispatches "^GF^FO1,2\n^XZ") ∧
    ((p.parse "^GF^FO1,2\n^XZ").commands.map Command.code,
      (p.parse "^GF^FO1,2\n^XZ").metadata.errors.map Diagnostic.summary) =
        (["XZ"], [("ZPL0101", .error, ⟨1, 4, 3⟩)]) := by
  intro registry p
  have hrules : ∀ code rule, registry.find? code = some rule →
      rule ∈ builtinRules.map Prod.snd ∨ rule.RecordsNo "ZPL0101" := by
    intro code rule hrule
    refine (Registry.find?_builtin_insert hrule).imp_right ?_
    rintro rfl
    exact Script.rule_recordsNo _ (by decide)
  exact ⟨hrules, parse_recovers registry .standard 100 _ hrules, by decide +kernel⟩

end Zpl
