import Zpl.Grammar.Builtin
import Zpl.Proofs.Run

/-! What grammar programs pass. `Passes g taken rest a errors warnings` says that the
program `g`, started before the tokens `taken` and `rest`, passes the first, stops
before the second, gives `a` and records the diagnostics, whatever was read before.
The judgment composes along `bind`; each built-in grammar has its rule here. The
token lists are arbitrary: nothing depends on how they were made. -/

namespace Zpl

/-- The reader that has passed `taken`, stands before `rest` and has recorded more. -/
def Reader.passed (r : Reader) (taken rest : List Token) (errors warnings : List Diagnostic) :
    Reader :=
  { r with
    cursor := { r.cursor with behind := taken.reverse ++ r.cursor.behind, ahead := rest }
    errors := r.errors ++ errors
    warnings := r.warnings ++ warnings }

theorem Reader.passed_nil {r : Reader} {rest : List Token} (h : r.cursor.ahead = rest) :
    r.passed [] rest [] [] = r := by
  subst h
  simp [passed]

theorem Reader.passed_passed (r : Reader) (ts us rest rest' : List Token)
    (es ws es' ws' : List Diagnostic) :
    (r.passed ts rest es ws).passed us rest' es' ws' =
      r.passed (ts ++ us) rest' (es ++ es') (ws ++ ws') := by
  simp [Reader.passed, List.append_assoc]

/-- The next command, over line breaks, has the code. -/
def Follows (code : String) (ts : List Token) : Prop :=
  ∃ breaks marker word more, ts = breaks ++ marker :: word :: more ∧
    (∀ t ∈ breaks, t.kind = .lineBreak) ∧ marker.kind = .marker ∧ word.kind = .code ∧
      word.value = code

/-- The first token, if there is one, has none of the kinds. -/
def StartsWithout (accepts : TokenKind → Bool) (ts : List Token) : Prop :=
  ∀ t, ts.head? = some t → accepts t.kind = false

/-- Every list starts with its longest run of tokens of accepted kinds. -/
theorem exists_run (accepts : TokenKind → Bool) (ts : List Token) :
    ∃ run rest, ts = run ++ rest ∧ (∀ t ∈ run, accepts t.kind) ∧ StartsWithout accepts rest := by
  refine ⟨ts.takeWhile fun t => accepts t.kind, ts.dropWhile fun t => accepts t.kind,
    List.takeWhile_append_dropWhile.symm, ?_, ?_⟩
  · exact List.all_eq_true.mp (List.all_takeWhile (p := fun t => accepts t.kind) (l := ts))
  · intro t ht
    exact head?_dropWhile (p := fun t : Token => accepts t.kind) ht

namespace Cursor

theorem takeWhile_split {accepts : TokenKind → Bool} {ts rest : List Token}
    (hts : ∀ t ∈ ts, accepts t.kind ∧ t.kind ≠ .finish) (hrest : StartsWithout accepts rest)
    {c : Cursor} (h : c.ahead = ts ++ rest) :
    c.takeWhile accepts =
      (ts, { c with behind := ts.reverse ++ c.behind, ahead := rest }) := by
  have haccepts : ∀ t ∈ ts, (accepts t.kind && t.kind != .finish) = true := by
    intro t ht
    simpa using hts t ht
  have hstop : ∀ t, rest.head? = some t → (accepts t.kind && t.kind != .finish) = false := by
    intro t ht
    rw [hrest t ht, Bool.false_and]
  rw [takeWhile, h, takeWhile_run haccepts hstop, dropWhile_run haccepts hstop]

theorem breaks_split {breaks : List Token} {marker : Token} (rest : List Token)
    (hbreaks : ∀ t ∈ breaks, t.kind = .lineBreak) (hmarker : marker.kind ≠ .lineBreak) :
    (breaks ++ marker :: rest).takeWhile (·.kind == .lineBreak) = breaks ∧
      (breaks ++ marker :: rest).dropWhile (·.kind == .lineBreak) = marker :: rest := by
  have hall : ∀ t ∈ breaks, (t.kind == .lineBreak) = true := by simpa using hbreaks
  have hstop : ∀ t, (marker :: rest).head? = some t → (t.kind == .lineBreak) = false := by
    rintro _ ⟨⟩
    simpa using hmarker
  exact ⟨takeWhile_run hall hstop, dropWhile_run hall hstop⟩

theorem eatCommand_follows {code : String} {breaks rest : List Token} {marker word : Token}
    (hbreaks : ∀ t ∈ breaks, t.kind = .lineBreak) (hmarker : marker.kind = .marker)
    (hword : word.kind = .code) (hvalue : word.value = code) {c : Cursor}
    (h : c.ahead = breaks ++ marker :: word :: rest) :
    c.eatCommand code = some (⟨word.value, marker.position⟩,
      { c with behind := (breaks ++ [marker, word]).reverse ++ c.behind, ahead := rest }) := by
  have hne : marker.kind ≠ .lineBreak := by simp [hmarker]
  obtain ⟨htake, hdrop⟩ := breaks_split (word :: rest) hbreaks hne
  simp [eatCommand, h, htake, hdrop, hmarker, hword, hvalue]

theorem eatCommand_none {code : String} {c : Cursor} (h : ¬Follows code c.ahead) :
    c.eatCommand code = none := by
  have hsplit := List.takeWhile_append_dropWhile (p := (·.kind == .lineBreak)) (l := c.ahead)
  simp only [eatCommand]
  split
  · next marker word rest hdrop =>
    split
    · next hk =>
      refine absurd ⟨_, marker, word, rest, (hdrop ▸ hsplit).symm, ?_, hk⟩ h
      simpa using List.all_eq_true.mp (List.all_takeWhile (p := (·.kind == .lineBreak)) (l := c.ahead))
    · rfl
  · rfl

theorem eatCommand_eq_none_iff {c : Cursor} {code : String} :
    c.eatCommand code = none ↔ ¬Follows code c.ahead := by
  constructor
  · rintro hnone ⟨breaks, marker, word, more, hahead, hbreaks, hmarker, hword, hvalue⟩
    rw [eatCommand_follows hbreaks hmarker hword hvalue hahead] at hnone
    cases hnone
  · exact eatCommand_none

end Cursor

/-- The next command, over line breaks, is the first thing behind them. -/
theorem follows_iff {code : String} {ts : List Token} :
    Follows code ts ↔ ∃ marker word more,
      ts.dropWhile (·.kind == .lineBreak) = marker :: word :: more ∧
        marker.kind = .marker ∧ word.kind = .code ∧ word.value = code := by
  constructor
  · rintro ⟨breaks, marker, word, more, rfl, hbreaks, hmarker, hword, hvalue⟩
    have hne : marker.kind ≠ .lineBreak := by simp [hmarker]
    exact ⟨marker, word, more, (Cursor.breaks_split (word :: more) hbreaks hne).2, hmarker, hword,
      hvalue⟩
  · rintro ⟨marker, word, more, hdrop, hmarker, hword, hvalue⟩
    have hsplit := List.takeWhile_append_dropWhile (p := (·.kind == .lineBreak)) (l := ts)
    have hbreaks := List.all_takeWhile (p := (·.kind == .lineBreak)) (l := ts)
    refine ⟨ts.takeWhile (·.kind == .lineBreak), marker, word, more, ?_, ?_, hmarker, hword, hvalue⟩
    · rw [← hdrop, hsplit]
    · intro t ht
      simpa using List.all_eq_true.mp hbreaks t ht

theorem follows_iff_of_dropWhile {code : String} {ts more : List Token} {marker word : Token}
    (hts : ts.dropWhile (·.kind == .lineBreak) = marker :: word :: more) :
    Follows code ts ↔ marker.kind = .marker ∧ word.kind = .code ∧ word.value = code := by
  rw [follows_iff, hts]
  constructor
  · rintro ⟨_, _, _, heq, h⟩
    obtain ⟨rfl, hrest⟩ := List.cons.inj heq
    obtain ⟨rfl, -⟩ := List.cons.inj hrest
    exact h
  · intro h
    exact ⟨marker, word, more, rfl, h⟩

/-- Another token than the last one stands before it. -/
theorem split_concat {ts front behind : List Token} {t word : Token} (hne : t ≠ word)
    (h : ts ++ [t] = front ++ word :: behind) :
    ∃ more, ts = front ++ word :: more ∧ behind = more ++ [t] := by
  rcases List.eq_nil_or_concat behind with rfl | ⟨more, u, rfl⟩
  · exact absurd (List.cons.inj (List.append_inj' h rfl).2).1 hne
  · rw [List.concat_eq_append, ← List.cons_append, ← List.append_assoc] at h
    obtain ⟨hfront, hlast⟩ := List.append_inj' h rfl
    exact ⟨more, hfront, by rw [hlast, List.concat_eq_append]⟩

/-- The token for the end is no part of a command. -/
theorem follows_concat {code : String} {ts : List Token} {t : Token} (h : t.kind ≠ .code) :
    Follows code (ts ++ [t]) ↔ Follows code ts := by
  constructor
  · rintro ⟨breaks, marker, word, more, htokens, hbreaks, hmarker, hword, hvalue⟩
    have hne : t ≠ word := fun heq => h (heq ▸ hword)
    rw [List.append_cons breaks] at htokens
    obtain ⟨more, hts, -⟩ := split_concat hne htokens
    exact ⟨breaks, marker, word, more, by rw [hts]; simp, hbreaks, hmarker, hword, hvalue⟩
  · rintro ⟨breaks, marker, word, more, rfl, hbreaks, hmarker, hword, hvalue⟩
    exact ⟨breaks, marker, word, more ++ [t], by simp, hbreaks, hmarker, hword, hvalue⟩

instance (code : String) (ts : List Token) : Decidable (Follows code ts) :=
  match hts : ts.dropWhile (·.kind == .lineBreak) with
  | marker :: word :: more =>
    decidable_of_iff _ (follows_iff_of_dropWhile hts).symm
  | [_] => .isFalse (by simp [follows_iff, hts])
  | [] => .isFalse (by simp [follows_iff, hts])

namespace Grammar

variable {α β : Type} {ts us rest : List Token}

def Passes (g : Grammar α) (taken rest : List Token) (a : α)
    (errors warnings : List Diagnostic) : Prop :=
  ∀ r : Reader, r.cursor.ahead = taken ++ rest →
    g.run r = (.ok a, r.passed taken rest errors warnings)

theorem Passes.done (a : α) (rest : List Token) : Passes (.done a) [] rest a [] [] := by
  intro r h
  rw [List.nil_append] at h
  rw [run, Reader.passed_nil h]

theorem Passes.bind {g : Grammar α} {f : α → Grammar β} {a : α} {b : β}
    {es ws es' ws' : List Diagnostic} (hg : Passes g ts (us ++ rest) a es ws)
    (hf : Passes (f a) us rest b es' ws') :
    Passes (g.bind f) (ts ++ us) rest b (es ++ es') (ws ++ ws') := by
  intro r h
  rw [run_bind, hg r (by rw [h, List.append_assoc])]
  simp only
  rw [hf _ rfl, Reader.passed_passed]

/-- A second program that passes nothing. -/
theorem Passes.after {g : Grammar α} {f : α → Grammar β} {a : α} {b : β}
    {es ws es' ws' : List Diagnostic} (hg : Passes g ts rest a es ws)
    (hf : Passes (f a) [] rest b es' ws') :
    Passes (g.bind f) ts rest b (es ++ es') (ws ++ ws') := by
  simpa using Passes.bind hg hf

/-- A program that ends with a result made from that of the last step. -/
theorem Passes.finish {g : Grammar α} {f : α → Grammar β} {a : α} {b : β}
    {es ws : List Diagnostic} (hg : Passes g ts rest a es ws) (hf : f a = .done b) :
    Passes (g.bind f) ts rest b es ws := by
  have hdone : Passes (f a) [] rest b [] [] := hf ▸ Passes.done b rest
  simpa using hg.after hdone

theorem takeWhile_passes {accepts : TokenKind → Bool}
    (hts : ∀ t ∈ ts, accepts t.kind ∧ t.kind ≠ .finish) (hrest : StartsWithout accepts rest) :
    Passes (.takeWhile accepts .done) ts rest ts [] [] := by
  intro r h
  simp [run, Cursor.takeWhile_split hts hrest h, Reader.moveTo, Reader.passed]

theorem takeParameters_passes (hts : ∀ t ∈ ts, t.kind = .parameter)
    (hrest : StartsWithout (· == .parameter) rest) :
    Passes takeParameters ts rest ts [] [] :=
  takeWhile_passes (fun t ht => by simp [hts t ht]) hrest

theorem expect_passes {kind : TokenKind} {next : Token → Grammar α} {t : Token} {a : α}
    {es ws : List Diagnostic} (ht : t.kind = kind) (hk : kind ≠ .finish)
    (hnext : Passes (next t) ts rest a es ws) :
    Passes (.expect kind next) (t :: ts) rest a es ws := by
  intro r h
  have hadvance : r.cursor.advance = (t, { r.cursor with
      behind := t :: r.cursor.behind, ahead := ts ++ rest }) := by
    simp [Cursor.advance, h, ht, hk]
  have hcheck : r.cursor.check kind := by
    simp [Cursor.check, Cursor.peek_of_ahead h, ht]
  simp only [run, Cursor.expect, hcheck, if_true, hadvance]
  rw [hnext _ rfl]
  simp [Reader.passed, Reader.moveTo]

theorem beginCommand_passes {marker word : Token} (hmarker : marker.kind = .marker)
    (hword : word.kind = .code) :
    Passes beginCommand [marker, word] rest ⟨word.value, marker.position⟩ [] [] :=
  expect_passes hmarker (by decide) (expect_passes hword (by decide) (.done _ _))

theorem eat_passes {kind : TokenKind} {t : Token} (ht : t.kind = kind) (hk : kind ≠ .finish) :
    Passes (eat kind) [t] rest (some t) [] [] := by
  intro r h
  simp [eat, run, Cursor.peek_of_ahead h, ht, Cursor.advance, h, hk, Reader.moveTo, Reader.passed]

theorem eat_stays {kind : TokenKind} (hk : kind ≠ .finish)
    (hrest : StartsWithout (· == kind) rest) : Passes (eat kind) [] rest none [] [] := by
  intro r h
  rw [List.nil_append] at h
  have hpeek : r.cursor.peek.kind ≠ kind := by
    cases rest with
    | nil => simpa [Cursor.peek_of_nil h, r.cursor.last_kind] using hk.symm
    | cons t rest => simpa [Cursor.peek_of_ahead h] using hrest t rfl
  simp [eat, run, hpeek, Reader.passed_nil h]

theorem skipCommand_passes {code : String} {breaks : List Token} {marker word : Token}
    (hbreaks : ∀ t ∈ breaks, t.kind = .lineBreak) (hmarker : marker.kind = .marker)
    (hword : word.kind = .code) (hvalue : word.value = code) :
    Passes (skipCommand code) (breaks ++ [marker, word]) rest true [] [] := by
  intro r h
  rw [List.append_assoc] at h
  simp [skipCommand, run, Cursor.eatCommand_follows hbreaks hmarker hword hvalue h, Reader.moveTo,
    Reader.passed]

theorem skipCommand_stays {code : String} (h : ¬Follows code rest) :
    Passes (skipCommand code) [] rest false [] [] := by
  intro r hr
  rw [List.nil_append] at hr
  simp [skipCommand, run, Cursor.eatCommand_none (hr ▸ h), Reader.passed_nil hr]

theorem report_error {problem : Problem} (h : problem.severity = .error) (p : Position) :
    Passes (report problem p) [] rest () [problem.diagnose p] [] := by
  intro r hr
  rw [List.nil_append] at hr
  simp [report, h, run, Reader.recordError, Reader.passed, ← hr]

theorem report_warning {problem : Problem} (h : problem.severity = .warning) (p : Position) :
    Passes (report problem p) [] rest () [] [problem.diagnose p] := by
  intro r hr
  rw [List.nil_append] at hr
  simp [report, h, run, Reader.recordWarning, Reader.passed, ← hr]

end Grammar

namespace Rule

open Grammar

variable {ps rest : List Token} {head : Head}

/-! ## Commands of parameters -/

theorem simple_passes (read : List Token → CommandKind) (hps : ∀ t ∈ ps, t.kind = .parameter)
    (hrest : StartsWithout (· == .parameter) rest) :
    Passes (simple read head) ps rest ⟨ps, read ps⟩ [] [] :=
  (takeParameters_passes hps hrest).finish rfl

/-- What a pair of coordinates is blamed for. -/
def coordinateErrors (head : Head) (ps : List Token) : List Diagnostic :=
  if (missingCoordinates ps).isEmpty then []
  else [(Problem.missingCoordinates head.code ps.length (missingCoordinates ps)).diagnose head.position]

theorem coordinates_passes (make : Int32 → Int32 → CommandKind)
    (hps : ∀ t ∈ ps, t.kind = .parameter) (hrest : StartsWithout (· == .parameter) rest) :
    Passes (coordinates make head) ps rest
      ⟨ps, make (Parameter.intOr (slot ps 0) 0) (Parameter.intOr (slot ps 1) 0)⟩
      (coordinateErrors head ps) [] := by
  have hread := takeParameters_passes hps hrest
  by_cases hmissing : (missingCoordinates ps).isEmpty
  · rw [coordinateErrors, if_pos hmissing]
    exact hread.finish (if_pos hmissing)
  · rw [coordinateErrors, if_neg hmissing]
    refine hread.after (?_ : Passes _ [] rest _ [_] [])
    simp only [hmissing]
    exact (report_error rfl head.position).finish rfl

theorem fieldSeparator_passes (hps : ∀ t ∈ ps, t.kind = .parameter)
    (hrest : StartsWithout (· == .parameter) rest) :
    Passes (fieldSeparator head) ps rest ⟨ps, .generic⟩ []
      [(Problem.orphanedSeparator head.code).diagnose head.position] :=
  (takeParameters_passes hps hrest).after ((report_warning rfl head.position).finish rfl)

/-- Whether a token is an operand of a command. -/
def isOperand (kind : TokenKind) : Bool :=
  kind == .parameter || kind == .content

theorem unsupported_passes (nearest : String → Option String)
    (hps : ∀ t ∈ ps, isOperand t.kind) (hrest : StartsWithout isOperand rest) :
    Passes (unsupported nearest head) ps rest ⟨ps, .generic⟩ []
      [(Problem.unsupportedCommand head.code (nearest head.code)).diagnose head.position] :=
  have hread : Passes (.takeWhile isOperand .done) ps rest ps [] [] :=
    takeWhile_passes (fun t ht => ⟨hps t ht, fun hk => by simpa [isOperand, hk] using hps t ht⟩) hrest
  hread.after ((report_warning rfl head.position).finish rfl)

/-! ## Fields -/

/-- The content of a field in front of `rest`, or none if no operand stands there. -/
structure IsContent (content : Option Token) (rest : List Token) : Prop where
  kind : ∀ t, content = some t → t.kind = .content ∨ t.kind = .parameter
  absent : content = none → StartsWithout isOperand rest

/-- The separator that closes a field: the tokens it takes, those behind it, and its
parameters. -/
inductive Closes : List Token → List Token → Option (List Token) → Prop where
  | absent {back} : ¬Follows "FS" back → Closes [] back none
  | present {breaks marker word qs back} : (∀ t ∈ breaks, t.kind = .lineBreak) →
      marker.kind = .marker → word.kind = .code → word.value = "FS" →
      (∀ t ∈ qs, t.kind = .parameter) → StartsWithout (· == .parameter) back →
      Closes (breaks ++ [marker, word] ++ qs) back (some qs)

/-- The field data that a barcode takes along: its value, and the parameters of the
separator behind it. -/
inductive Carries : List Token → List Token → String → List Token → Prop where
  | absent {back} : ¬Follows "FD" back → Carries [] back "" []
  | present {breaks marker word content ts back closing} : (∀ t ∈ breaks, t.kind = .lineBreak) →
      marker.kind = .marker → word.kind = .code → word.value = "FD" →
      IsContent content (ts ++ back) → Closes ts back closing →
      Carries (breaks ++ [marker, word] ++ (content.toList ++ ts)) back (contentValue content)
        (closing.getD [])

theorem fieldContent_passes {content : Option Token} (h : IsContent content rest) :
    Passes fieldContent content.toList rest content [] [] := by
  cases content with
  | none =>
    have hno := h.absent rfl
    have hcontent : StartsWithout (· == .content) rest := fun t ht => by
      have := hno t ht
      simp_all [isOperand]
    have hparameter : StartsWithout (· == .parameter) rest := fun t ht => by
      have := hno t ht
      simp_all [isOperand]
    exact (eat_stays (by decide) hcontent).after (eat_stays (by decide) hparameter)
  | some t =>
    rcases h.kind t rfl with ht | ht
    · exact (eat_passes ht (by decide)).finish rfl
    · have hno : StartsWithout (· == .content) (t :: rest) := fun u hu => by
        obtain rfl := Option.some.inj hu
        simp [ht]
      have hskip : Passes (eat .content) [] ([t] ++ rest) none [] [] := eat_stays (by decide) hno
      exact hskip.bind (eat_passes ht (by decide))

theorem closingSeparator_passes {ts : List Token} {closing : Option (List Token)}
    (h : Closes ts rest closing) : Passes closingSeparator ts rest closing [] [] := by
  cases h with
  | absent hno => exact (skipCommand_stays hno).after (.done none rest)
  | present hbreaks hmarker hword hvalue hps hrest =>
    exact (skipCommand_passes hbreaks hmarker hword hvalue).bind
      ((takeParameters_passes hps hrest).finish rfl)

theorem fieldData_passes {content : Option Token} {ts : List Token}
    {closing : Option (List Token)} (hcontent : IsContent content (ts ++ rest))
    (hclosing : Closes ts rest closing) :
    Passes (fieldData head) (content.toList ++ ts) rest
      ⟨content.toList ++ closing.getD [], .fieldData (contentValue content) closing.isSome⟩ [] [] :=
  (fieldContent_passes hcontent).bind ((closingSeparator_passes hclosing).finish rfl)

theorem barcodeData_passes {ts trailing : List Token} {data : String}
    (h : Carries ts rest data trailing) : Passes barcodeData ts rest (data, trailing) [] [] := by
  cases h with
  | absent hno => exact (skipCommand_stays hno).after (.done _ rest)
  | present hbreaks hmarker hword hvalue hcontent hclosing =>
    refine (skipCommand_passes hbreaks hmarker hword hvalue).bind ?_
    exact (fieldContent_passes hcontent).bind ((closingSeparator_passes hclosing).finish rfl)

theorem barcode_passes {ts trailing : List Token} {data : String}
    (hps : ∀ t ∈ ps, t.kind = .parameter) (hts : StartsWithout (· == .parameter) (ts ++ rest))
    (h : Carries ts rest data trailing) :
    Passes (barcode head) (ps ++ ts) rest
      ⟨ps ++ trailing,
        .barcode (Parameter.orientationOr (slot ps 0)) (Parameter.intOr (slot ps 1) 10)
          (Parameter.boolOr (slot ps 2) true) (Parameter.boolOr (slot ps 3) false) (slot ps 4) data⟩
      [] [] :=
  (takeParameters_passes hps hts).bind ((barcodeData_passes h).finish rfl)

/-! ## Commands -/

/-- Where a marker and a code stand, a rule starts behind them. -/
theorem parse_command (rule : Rule) {r : Reader} {marker word : Token} {rest : List Token}
    (hahead : r.cursor.ahead = marker :: word :: rest) (hmarker : marker.kind = .marker)
    (hword : word.kind = .code) :
    rule.parse r =
      match (rule ⟨word.value, marker.position⟩).run (r.passed [marker, word] rest [] []) with
      | (.error e, s) => (.error e, s)
      | (.ok reading, s) =>
        (.ok (s.finish ⟨word.value, marker.position⟩ (reading.parameters.map Token.value)
          reading.kind), s) := by
  have hbegin : Grammar.beginCommand.run r = (.ok _, r.passed [marker, word] rest [] []) :=
    Grammar.beginCommand_passes hmarker hword r hahead
  unfold Rule.parse Rule.program
  rw [Grammar.bind_eq, Grammar.run_bind, hbegin]
  simp only [Grammar.bind_eq, Grammar.run_bind]
  cases (rule ⟨word.value, marker.position⟩).run (r.passed [marker, word] rest [] []) with
  | mk result s => cases result <;> rfl

/-- What a rule passes behind a marker and a code becomes a command. -/
theorem parse_passes {rule : Rule} {r : Reader} {marker word : Token} {taken rest : List Token}
    {reading : Reading} {es ws : List Diagnostic}
    (h : (rule ⟨word.value, marker.position⟩).Passes taken rest reading es ws)
    (hahead : r.cursor.ahead = marker :: word :: (taken ++ rest)) (hmarker : marker.kind = .marker)
    (hword : word.kind = .code) :
    let s := r.passed (marker :: word :: taken) rest es ws
    rule.parse r = (.ok (s.finish ⟨word.value, marker.position⟩
      (reading.parameters.map Token.value) reading.kind), s) := by
  rw [rule.parse_command hahead hmarker hword, h _ rfl, Reader.passed_passed]
  rfl

end Rule
end Zpl
