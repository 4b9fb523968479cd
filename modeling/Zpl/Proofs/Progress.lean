import Zpl.Proofs.Operation
import Zpl.Proofs.Slices

/-! The loop over a source ends. A turn of it passes a token, or reads a command; the reading
may do anything to the reader that operations can do, once it has passed the head of the
command. No operation turns back, so each turn goes forward (`turn_index_lt`), and after at most
as many turns as there are tokens the reader stands at the end (`parse_ends`). -/

namespace Zpl

namespace Operation

/-- From one reader the other is reached by operations. -/
def Leads (r s : Reader) : Prop :=
  ∃ os, performAll r os = s

end Operation

namespace Reader

/-- Reads a command from a reader, or fails, and tells where it leaves the reader. -/
abbrev Procedure := Reader → Except SyntaxError Command × Reader

/-- The procedure begins with the head of a command and goes on by operations only. Whether it
succeeds, and with what, is up to it. -/
def Procedure.Operates (read : Procedure) : Prop :=
  ∀ r, Operation.Leads (Operation.beginCommand.perform r).2 (read r).2

/-- One turn of the loop: a command that starts at the cursor is read by the procedure for its
code, behind a failure the reader moves on to the next place for a command, and anything else
is passed. -/
def turn (procedureFor : String → Procedure) (r : Reader) : Option Command × Reader :=
  match r.cursor.commandCode? with
  | none => (none, r.moveTo r.cursor.advance.2)
  | some code =>
    match procedureFor code r with
    | (.ok command, s) => (some command, s)
    | (.error e, s) => (none, (s.recordError e.diagnostic).moveTo s.cursor.synchronize)

/-- The loop from a reader to the end, with what each of its turns gives. -/
inductive Loops (procedureFor : String → Procedure) :
    Reader → List (Option Command) → Reader → Prop where
  | stop {r} : r.cursor.atEnd → Loops procedureFor r [] r
  | turn {r given s} : r.cursor.atEnd = false →
      Loops procedureFor (r.turn procedureFor).2 given s →
      Loops procedureFor r ((r.turn procedureFor).1 :: given) s

/-- The loop over a source ends in time. -/
structure LoopEnds (m : Marks) (source : String) (procedureFor : String → Procedure) : Prop where
  /-- Wherever the reader stands, a turn is a step forward. -/
  forward : ∀ r : Reader, r.cursor.atEnd = false →
    r.cursor.index < (r.turn procedureFor).2.cursor.index
  /-- There are no more turns than tokens before the end. All of those have been passed then,
  and the token for the end is the next one. -/
  ends : ∃ front p given s, (TokenStream.ofText m source).tokens = front ++ [.finishAt p] ∧
    (ofStream source (.ofText m source)).Loops procedureFor given s ∧
    given.length ≤ front.length ∧ s.cursor.behind.reverse = front ∧ s.cursor.peek = .finishAt p

end Reader

/-! ## What operations can reach -/

theorem Cursor.Advances.eq_of_nil {c d : Cursor} (h : c.Advances [] d) : d = c := by
  obtain ⟨behind, ahead, last, hlast⟩ := c
  obtain ⟨hahead, hbehind, rfl, -⟩ := h
  cases d
  simp_all

namespace Operation

variable {r s t : Reader}

theorem Leads.refl (r : Reader) : Leads r r :=
  ⟨[], rfl⟩

theorem Leads.first (o : Operation) : Leads (o.perform r).2 s → Leads r s
  | ⟨os, hos⟩ => ⟨o :: os, hos⟩

theorem Leads.trans : Leads r s → Leads s t → Leads r t
  | ⟨os, hos⟩, ⟨us, hus⟩ => ⟨os ++ us, by rw [performAll, List.foldl_append, ← hus, ← hos]; rfl⟩

/-- Tokens are passed one by one. -/
theorem Leads.moveTo {ts : List Token} {c : Cursor} (h : r.cursor.Advances ts c) :
    Leads r (r.moveTo c) := by
  induction ts generalizing r with
  | nil =>
    rw [h.eq_of_nil]
    exact .refl r
  | cons u ts ih =>
    have hkind : u.kind ≠ .finish := h.inside u List.mem_cons_self
    have hadvance : r.cursor.advance.2 =
        { r.cursor with behind := u :: r.cursor.behind, ahead := ts ++ c.ahead } := by
      simp [Cursor.advance, h.ahead, hkind]
    have hrest : r.cursor.advance.2.Advances ts c := by
      rw [hadvance]
      refine ⟨rfl, ?_, h.last, fun t ht => h.inside t (List.mem_cons_of_mem _ ht)⟩
      rw [h.behind, List.reverse_cons, List.append_assoc]
      rfl
    exact .first .advance (ih (r := r.moveTo r.cursor.advance.2) hrest)

theorem Leads.errors (r : Reader) (ds : List Diagnostic) :
    Leads r { r with errors := r.errors ++ ds } := by
  induction ds generalizing r with
  | nil =>
    rw [List.append_nil]
    exact .refl r
  | cons d ds ih =>
    rw [List.append_cons]
    exact .first (.error d) (ih (r.recordError d))

theorem Leads.warnings (r : Reader) (ds : List Diagnostic) :
    Leads r { r with warnings := r.warnings ++ ds } := by
  induction ds generalizing r with
  | nil =>
    rw [List.append_nil]
    exact .refl r
  | cons d ds ih =>
    rw [List.append_cons]
    exact .first (.warn d) (ih (r.recordWarning d))

/-- What operations can do is to move forward and to record. -/
theorem leads_iff : Leads r s ↔ ∃ ts, r.Advances ts s := by
  constructor
  · rintro ⟨os, rfl⟩
    exact performAll_advances os r
  · rintro ⟨ts, hcursor, hsource, ⟨errors, herrors⟩, warnings, hwarnings⟩
    have hmoved := Leads.moveTo hcursor
    have hnoted := (hmoved.trans (.errors _ errors)).trans (.warnings _ warnings)
    cases s
    simp_all [Reader.moveTo]

end Operation

theorem Operation.beginCommand_perform (r : Reader) :
    (Operation.beginCommand.perform r).2 = r.moveTo r.cursor.beginCommand.2 := by
  simp only [perform]
  split <;> next h => rw [h]

/-- A rule begins with the head of its command, and all that its program does behind it is to
move forward and to record. -/
theorem Rule.parse_operates (rule : Rule) : Reader.Procedure.Operates rule.parse := by
  intro r
  have hprogram : (rule.parse r).2 = (rule.program.run r).2 := by
    unfold Rule.parse
    split
    · next h => rw [h]
    · next h => rw [h]
  rw [hprogram, Rule.program, Grammar.bind_eq, Grammar.run_bind, Grammar.beginCommand_run,
    Operation.beginCommand_perform]
  split
  · next hbegin =>
    obtain ⟨-, rfl⟩ := Prod.mk.inj hbegin
    exact Operation.leads_iff.mpr (Grammar.run_advances _ _)
  · next hbegin =>
    obtain ⟨-, rfl⟩ := Prod.mk.inj hbegin
    exact .refl _

/-! ## Turns -/

namespace Reader

variable {procedureFor : String → Procedure} {r s : Reader} {given : List (Option Command)}

theorem Procedure.Operates.advances {read : Procedure} (h : read.Operates)
    (hcommand : r.cursor.atCommand) : ∃ ts, ts ≠ [] ∧ r.Advances ts (read r).2 := by
  obtain ⟨marker, word, rest, hahead, hmarker, hword⟩ := Cursor.atCommand_iff.mp hcommand
  have hbegin : (Operation.beginCommand.perform r).2 = r.passed [marker, word] rest [] [] := by
    have hrun := Grammar.beginCommand_passes hmarker hword r hahead
    rw [Grammar.beginCommand_run] at hrun
    rw [Operation.beginCommand_perform]
    exact congrArg Prod.snd hrun
  obtain ⟨ts, hts⟩ := Operation.leads_iff.mp (h r)
  rw [hbegin] at hts
  exact ⟨[marker, word] ++ ts, by simp, (passed_command hahead hmarker hword).trans hts⟩

/-- A turn passes at least one token. -/
theorem turn_advances (h : ∀ code, (procedureFor code).Operates) (hend : r.cursor.atEnd = false) :
    ∃ ts, ts ≠ [] ∧ r.Advances ts (r.turn procedureFor).2 := by
  unfold turn
  split
  · have hpass := Cursor.advance_peek (Cursor.atEnd_eq_false_iff.mp hend)
    exact ⟨[r.cursor.peek], by simp, .moveTo hpass⟩
  · next code hcode =>
    obtain ⟨ts, hne, hts⟩ := (h code).advances (Cursor.atCommand_of_commandCode? hcode)
    split
    · next hread =>
      rw [hread] at hts
      exact ⟨ts, hne, hts⟩
    · next e s hread =>
      rw [hread] at hts
      obtain ⟨us, hus⟩ := s.cursor.synchronize_advances
      have hnoted := hts.trans (.recordError s e.diagnostic)
      exact ⟨(ts ++ []) ++ us, by simp [hne], hnoted.trans (.moveTo hus)⟩

theorem index_lt_of_advances {ts : List Token} (hne : ts ≠ []) (h : r.Advances ts s) :
    r.cursor.index < s.cursor.index := by
  rw [Cursor.index, Cursor.index, h.cursor.behind, List.length_append, List.length_reverse]
  have := List.length_pos_iff.mpr hne
  omega

/-- Every turn is a step forward. -/
theorem turn_index_lt (h : ∀ code, (procedureFor code).Operates) (hend : r.cursor.atEnd = false) :
    r.cursor.index < (r.turn procedureFor).2.cursor.index := by
  obtain ⟨ts, hne, hts⟩ := turn_advances h hend
  exact index_lt_of_advances hne hts

/-! ## Loops -/

/-- The loop ends, and each of its turns has passed a token. -/
theorem exists_loops (h : ∀ code, (procedureFor code).Operates) (r : Reader) :
    ∃ given s ts, r.Loops procedureFor given s ∧ s.cursor.atEnd ∧ r.Advances ts s ∧
      given.length ≤ ts.length := by
  induction hn : r.cursor.ahead.length using Nat.strongRecOn generalizing r with
  | ind n ih =>
    cases hend : r.cursor.atEnd with
    | true => exact ⟨[], r, [], .stop hend, hend, .refl r, Nat.le_refl _⟩
    | false =>
      obtain ⟨ts, hne, hts⟩ := turn_advances h hend
      have hpos := List.length_pos_iff.mpr hne
      have hlt : (r.turn procedureFor).2.cursor.ahead.length < n := by
        rw [← hn, hts.cursor.ahead, List.length_append]
        omega
      obtain ⟨given, s, us, hloops, hs, hus, hle⟩ := ih _ hlt _ rfl
      refine ⟨_, s, ts ++ us, .turn hend hloops, hs, hts.trans hus, ?_⟩
      rw [List.length_cons, List.length_append]
      omega

/-- The loop of a registry is made of these turns. -/
theorem commands_of_loops {ruleFor : String → Rule}
    (h : r.Loops (fun code => (ruleFor code).parse) given s) :
    r.commands ruleFor = (given.filterMap id, s) := by
  induction h with
  | stop hend => exact commands_end hend
  | @turn r given s hend _ ih =>
    cases hcode : r.cursor.commandCode? with
    | none =>
      have hturn : r.turn (fun code => (ruleFor code).parse) =
          (none, r.moveTo r.cursor.advance.2) := by
        rw [Reader.turn, hcode]
      rw [hturn] at ih ⊢
      rw [commands_pass hend hcode, ih]
      rfl
    | some code =>
      have hturn : r.turn (fun code => (ruleFor code).parse) = r.dispatch (ruleFor code) := by
        rw [Reader.turn, hcode]
        rfl
      rw [hturn] at ih ⊢
      rw [commands_dispatch hend hcode, ih]
      cases (r.dispatch (ruleFor code)).1 with
      | none => rfl
      | some command => rfl

/-- A reader that stands at the end has passed all tokens of its source but the one for the
end. -/
theorem Advances.ofText_end {m : Marks} {source : String} {ts : List Token}
    (h : (ofStream source (.ofText m source)).Advances ts s) (hend : s.cursor.atEnd) :
    ∃ p, (TokenStream.ofText m source).tokens = ts ++ [.finishAt p] ∧
      s.cursor.behind.reverse = ts ∧ s.cursor.peek = .finishAt p := by
  obtain ⟨front, p, htokens, -, hfront⟩ := TokenStream.ofText_ending m source
  have hbehind := h.behind_ofStream
  have hsplit : ts ++ s.cursor.ahead ++ [s.cursor.last] = front ++ [.finishAt p] := by
    rw [← htokens, ← ((reads_ofText m source).advance h).tokens, Cursor.tokens, hbehind]
  obtain ⟨hpassed, hlast⟩ := List.append_inj' hsplit rfl
  have hahead : s.cursor.ahead = [] := by
    refine Cursor.ahead_of_atEnd hend fun t ht => (hfront t ?_).1
    rw [← hpassed]
    exact List.mem_append_right _ ht
  rw [hahead, List.append_nil] at hpassed
  refine ⟨p, hpassed ▸ htokens, hbehind, ?_⟩
  rw [Cursor.peek_of_nil hahead]
  exact (List.cons.inj hlast).1

end Reader

/-- Reading a source ends. Whatever the procedures for the codes do behind the head of a command,
every turn of the loop is a step forward, so that the loop stops at the end, after no more turns
than there are tokens. The rules of every registry are such procedures, and a document is what
the loop with them gives. -/
theorem parse_ends (m : Marks) (source : String) :
    (∀ procedureFor : String → Reader.Procedure, (∀ code, (procedureFor code).Operates) →
        Reader.LoopEnds m source procedureFor) ∧
      ∀ (registry : Registry) (padding : Int32),
        (∀ code, Reader.Procedure.Operates (registry.ruleFor code).parse) ∧
        ∀ given s,
          (Reader.ofStream source (.ofText m source)).Loops
            (fun code => (registry.ruleFor code).parse) given s →
          let doc := (Parser.mk registry m padding).parse source
          doc.commands = given.filterMap id ∧ doc.metadata.errors = s.errors ∧
            doc.metadata.warnings = s.warnings := by
  constructor
  · intro procedureFor h
    refine ⟨fun r hend => Reader.turn_index_lt h hend, ?_⟩
    obtain ⟨given, s, ts, hloops, hend, hts, hle⟩ :=
      Reader.exists_loops h (.ofStream source (.ofText m source))
    obtain ⟨p, htokens, hbehind, hpeek⟩ := hts.ofText_end hend
    exact ⟨ts, p, given, s, htokens, hloops, hle, hbehind, hpeek⟩
  · intro registry padding
    refine ⟨fun code => (registry.ruleFor code).parse_operates, ?_⟩
    intro given s hloops
    have hcommands := Reader.commands_of_loops hloops
    exact ⟨congrArg Prod.fst hcommands, congrArg (·.2.errors) hcommands,
      congrArg (·.2.warnings) hcommands⟩

/-- A graphic field that looks two tokens ahead. It fails if no operand stands there, and then
it has gone past the next command by itself. -/
theorem parse_ends_lookahead :
    let graphicField : Reader.Procedure := fun r =>
      let s := (Operation.beginCommand.perform r).2
      if (r.cursor.peekNth 2).kind = .parameter then
        (.ok (s.finish ⟨"GF", r.cursor.peek.position⟩ [] .generic), s)
      else (.error ⟨.parameter, r.cursor.peekNth 2⟩, (Operation.synchronize.perform s).2)
    let procedureFor : String → Reader.Procedure := fun code =>
      if code = "GF" then graphicField else (Registry.builtin.ruleFor code).parse
    (∀ code, (procedureFor code).Operates) ∧
      Reader.LoopEnds .standard "^GF^FO1,2\n^XZ" procedureFor := by
  intro graphicField procedureFor
  have hgraphic : graphicField.Operates := by
    intro r
    simp only [graphicField]
    split
    · exact .refl _
    · exact .first .synchronize (.refl _)
  have hprocedures : ∀ code, (procedureFor code).Operates := by
    intro code
    simp only [procedureFor]
    split
    · exact hgraphic
    · exact Rule.parse_operates _
  exact ⟨hprocedures, (parse_ends .standard "^GF^FO1,2\n^XZ").1 procedureFor hprocedures⟩

end Zpl
