import Mathlib.Data.List.Perm.Basic
import Zpl.Proofs.Agreement
import Zpl.Proofs.LexicalGrammar
import Zpl.Proofs.Slices

/-! The order of reports. What is told of a text comes from different stages: the tokenizer
tells of stray characters, of markers without a code and of comments that do not end, the
grammar of commands. No two of these stand at one place, so the reports of an answer are in
the order of the text, strictly, and none is left out (`reports_ordered`). Each report tells
its diagnostic: the code, the severity, the message and the place, in the lines that a display
counts (`Report.Tells`), and they are printed one behind the other. -/

namespace Zpl

namespace CommandLine

/-! ## What a report tells -/

/-- A character ends a line of a display; a carriage return does not before a line feed. -/
def EndsDisplayed (c : Char) (back : List Char) : Prop :=
  c = '\n' ∨ c = '\r' ∧ back.head? ≠ some '\n' ∨ c = '\x0b' ∨ c = '\x0c' ∨ c = '\u0085' ∨
    c = '\u2028' ∨ c = '\u2029'

/-- The line and the column that a display has reached behind the beginning of a text, with
the rest of the text in front. -/
inductive DisplayedAt : List Char → List Char → Nat → Nat → Prop where
  | start {back} : DisplayedAt [] back 1 1
  | nextLine {front c back line column} : DisplayedAt front (c :: back) line column →
      EndsDisplayed c back → DisplayedAt (front ++ [c]) back (line + 1) 1
  | nextColumn {front c back line column} : DisplayedAt front (c :: back) line column →
      ¬EndsDisplayed c back → DisplayedAt (front ++ [c]) back line (column + 1)

/-- The details of a diagnostic by key; it may have none. -/
def detailsOf (d : Diagnostic) : List (String × String) :=
  (d.context.map KeyMap.entries).getD []

/-- The parts of a report tell a diagnostic on a named text. -/
structure Report.Tells (name text : String) (r : Report) (d : Diagnostic) : Prop where
  error : d.severity = .error → r.head = "[" ++ d.code ++ "] " ++ "Error" ++ ": " ++ d.message
  warning : d.severity = .warning →
    r.head = "[" ++ d.code ++ "] " ++ "Warning" ++ ": " ++ d.message
  place : ∃ front back line column, text.toList = front ++ back ∧
    Text.byteLength front = d.position.offset ∧ DisplayedAt front back line column ∧
    r.place = name ++ ":" ++ toString line ++ ":" ++ toString column
  message : detailsOf d = [] → r.label = d.message
  details : detailsOf d ≠ [] →
    r.label = ", ".intercalate ((detailsOf d).map fun (key, value) => key ++ "=" ++ value)
  help (explanation : String) : r.help = some explanation ↔
    ∃ entry ∈ Diagnostic.catalog, entry.code = d.code ∧ entry.explanation = explanation
  note : r.note = d.suggestion

/-- A report as it is printed: a line for each part that it has. -/
def Report.lines (r : Report) : String :=
  r.head ++ "\n" ++ ("  at " ++ r.place ++ "\n") ++ ("  " ++ r.label ++ "\n") ++
    r.help.elim "" ("  Help: " ++ · ++ "\n") ++ r.note.elim "" ("  Note: " ++ · ++ "\n")

/-- A number of things, with the words for one and for more of them. -/
def quantity (one more : String) (n : Nat) : String :=
  toString n ++ " " ++ if n = 1 then one else more

/-- The line that tells how many errors and warnings there are. For none of both there is
no line. -/
def tally : Nat → Nat → String
  | 0, 0 => ""
  | errors, 0 => quantity "error" "errors" errors ++ "\n"
  | 0, warnings => quantity "warning" "warnings" warnings ++ "\n"
  | errors, warnings => quantity "error" "errors" errors ++ ", " ++
      quantity "warning" "warnings" warnings ++ "\n"

/-- The warnings that a task shows. -/
def taskWarnings (m : Marks) (padding : Int32) (text : String) : Task → List Diagnostic
  | .tokens => []
  | .parse | .check => ((Parser.mk .builtin m padding).parse text).metadata.warnings

/-- What a task has to say in the end: a check tells that it found no error. -/
def verdict (task : Task) (errors : List Diagnostic) : String :=
  if task = .check ∧ errors = [] then "syntax ok\n" else ""

/-- The reports of a result tell the diagnostics `shown`: all errors and warnings, each at a
place of its own, in the order of the text. They are printed in this order, and their numbers
follow. -/
structure Result.Shows (result : Result) (name text : String) (task : Task)
    (errors warnings shown : List Diagnostic) : Prop where
  reports : result.reports = shown.map (Report.ofDiagnostic name text)
  tells : List.Forall₂ (Report.Tells name text) result.reports shown
  all : shown.Perm (errors ++ warnings)
  apart : (errors ++ warnings).Pairwise fun d e => d.position ≠ e.position
  ordered : shown.Pairwise fun d e => d.position.Before e.position
  counts : shown.countP (·.severity = .error) = errors.length ∧
    shown.countP (·.severity = .warning) = warnings.length
  tail : result.tail = tally errors.length warnings.length ++ verdict task errors
  printed : (Answer.finished result).stderr =
    String.join (result.reports.map Report.lines) ++ result.tail

end CommandLine

/-! ## Places -/

namespace Position

variable {source : List Char}

theorem IsTrue.before_of_offset {p q : Position} (hp : p.IsTrue source) (hq : q.IsTrue source)
    (h : p.offset < q.offset) : Before p q := by
  rcases hp.trichotomy hq with hlt | rfl | hlt
  · exact hlt
  · exact absurd h (Nat.lt_irrefl _)
  · exact absurd h (Nat.lt_asymm hlt.offset)

theorem le_trans {p q r : Position} (hpq : p.le q) (hqr : q.le r) : p.le r := by
  simp only [le, Bool.or_eq_true, Bool.and_eq_true, decide_eq_true_eq, beq_iff_eq] at *
  omega

theorem le_total (p q : Position) : p.le q || q.le p := by
  simp only [le, Bool.or_eq_true, Bool.and_eq_true, decide_eq_true_eq, beq_iff_eq]
  omega

end Position

/-- Diagnostics at places of their own are sorted strictly. -/
theorem Diagnostic.mergeSort_before {source : List Char} {ds : List Diagnostic}
    (htrue : ∀ d ∈ ds, d.position.IsTrue source)
    (hapart : ds.Pairwise fun d e => d.position ≠ e.position) :
    (ds.mergeSort fun d e => d.position.le e.position).Pairwise
      fun d e => d.position.Before e.position := by
  have hperm := List.mergeSort_perm ds fun d e => d.position.le e.position
  have hsorted : (ds.mergeSort fun d e => d.position.le e.position).Pairwise
      fun d e => d.position.le e.position := by
    refine List.pairwise_mergeSort ?_ ?_ ds
    · exact fun _ _ _ => Position.le_trans
    · exact fun d e => d.position.le_total e.position
  have hstill := hperm.symm.pairwise hapart Ne.symm
  refine (hsorted.and hstill).imp_of_mem ?_
  rintro d e hd he ⟨hle, hne⟩
  rcases (htrue d (hperm.mem_iff.mp hd)).trichotomy (htrue e (hperm.mem_iff.mp he)) with
    hlt | heq | hlt
  · exact hlt
  · exact absurd heq hne
  · exact absurd hle (by simp [hlt.le.2])

namespace TokenStream

variable {m : Marks} {source : String}

theorem ofText_errors_before (m : Marks) (source : String) :
    (ofText m source).errors.Pairwise fun d e => d.position.Before e.position :=
  (ofText_errors_ordered m source).imp_of_mem fun hd he hlt =>
    (error_isTrue hd).before_of_offset (error_isTrue he) hlt

/-- No lexical error stands where a command starts: the lexeme there is a marker with its
code, and nothing is wrong with it. -/
theorem error_apart_command {before behind : List Token} {marker word : Token} {d : Diagnostic}
    (h : (ofText m source).tokens = before ++ marker :: word :: behind)
    (hmarker : marker.kind = .marker) (hword : word.kind = .code)
    (hd : d ∈ (ofText m source).errors) : d.position ≠ marker.position := by
  intro hposition
  obtain ⟨front, x, back, more, p, hxs, hx, -⟩ := exists_lexeme h (by simp [hmarker])
  have hsound : x.problem? (Lexeme.flatten back).head? = none := by
    have hreports := (ofText_marker h hmarker).reported
    rw [hx.reports_length hxs, List.head?_cons, Option.map_some, hword, if_pos rfl] at hreports
    have hfits := (Lexeme.scan_lexemes m source.toList).fits x (by simp [hxs])
    rcases Lexeme.kind_of_marker (hmarker ▸ hx.token_eq.1) with hk | hk
    · simp [Lexeme.problem?, hk]
    · simp [Lexeme.problem?, Lexeme.Fits, hk] at hfits hreports
      simp [hfits, Problem.code] at hreports
  have hlength := hx.reports_length hxs d.code
  rw [hsound, Option.map_none, if_neg (by simp), List.length_eq_zero_iff] at hlength
  have hreport : d ∈ (ofText m source).reports d.code marker.position := by
    simp [reports, hd, hposition]
  rw [hlength] at hreport
  cases hreport

end TokenStream

/-! ## Shares -/

namespace Share

/-- What is told of a share. -/
def told (s : Share) : List Diagnostic :=
  s.errors ++ s.warnings

theorem told_position {s : Share} {d : Diagnostic} (h : d ∈ s.told) :
    d.position = s.head.marker.position := by
  rcases List.mem_append.mp h with h | h
  · exact errors_position h
  · exact warnings_position h

/-- A share gives an error or a warning, or nothing. -/
theorem told_length (s : Share) : s.told.length ≤ 1 := by
  rw [told, List.length_append, errors, warnings, Rule.coordinateErrors]
  by_cases hpair : s.head.code.value ∈ ["LH", "FO"]
  · have hknown : s.head.code.value ≠ "FS" ∧ s.head.code.value ∈ builtinRules.map Prod.fst :=
      (by decide : ∀ x ∈ ["LH", "FO"], x ≠ "FS" ∧ x ∈ builtinRules.map Prod.fst) _ hpair
    rw [if_pos hpair, if_neg hknown.1, if_pos hknown.2]
    split <;> simp
  · rw [if_neg hpair]
    split
    · simp
    · split <;> simp

/-- Marker and code of a share stand together in the stream. -/
theorem head_of_mem_shares {ps : List Phrase} {s : Share} (h : s ∈ shares ps) (p : Position) :
    ∃ before behind, ps.flatMap Phrase.tokens ++ [Token.finishAt p] =
      before ++ s.head.marker :: s.head.code :: behind := by
  obtain ⟨before, behind, hsplit⟩ := tokens_of_mem_shares h
  refine ⟨before, s.head.operands ++ s.folded.flatMap Folded.tokens ++ behind ++ [.finishAt p], ?_⟩
  rw [hsplit]
  simp [tokens, Call.tokens]

/-- Shares stand one behind the other. -/
theorem shares_ordered {m : Marks} {source : String} {ps : List Phrase} {p : Position}
    (h : (TokenStream.ofText m source).tokens = ps.flatMap Phrase.tokens ++ [.finishAt p]) :
    (shares ps).Pairwise fun s t =>
      s.head.marker.position.offset < t.head.marker.position.offset := by
  obtain ⟨hslices, hordered⟩ :=
    (Reader.reads_ofText m source).commands Registry.builtin.ruleFor
  have hcommands : ((Reader.ofStream source (.ofText m source)).commands
      Registry.builtin.ruleFor).1 = (shares ps).map (Share.command source.toList) :=
    congrArg Document.commands (Parser.parse_shares 0 h)
  rw [hcommands] at hslices hordered
  refine (List.pairwise_map.mp hordered).imp_of_mem fun {s t} hs _ hst => ?_
  obtain ⟨hslice, -⟩ := hslices _ (List.mem_map_of_mem hs)
  have hpos : 0 < Text.byteLength (s.command source.toList).rawText.toList :=
    Lexeme.byteLength_pos (by simpa using hslice.nonempty)
  exact Nat.lt_of_lt_of_le (Nat.lt_add_of_pos_right hpos) hst

end Share

/-! ## Documents -/

namespace Parser

variable {m : Marks} {padding : Int32} {source : String}

/-- No two diagnostics of a document stand at one place. -/
theorem diagnostics_apart (m : Marks) (padding : Int32) (source : String) :
    let doc := (Parser.mk .builtin m padding).parse source
    (doc.metadata.errors ++ doc.metadata.warnings).Pairwise
      fun d e => d.position ≠ e.position := by
  obtain ⟨ps, p, htokens⟩ := TokenStream.ofText_phrases m source
  rw [parse_shares padding htokens]
  show ((TokenStream.ofText m source).errors ++ (shares ps).flatMap Share.errors ++
    (shares ps).flatMap Share.warnings).Pairwise _
  have hperm := List.flatMap_append_perm (shares ps) Share.errors Share.warnings
  rw [List.append_assoc]
  refine ((hperm.append_left _).pairwise_iff Ne.symm).mpr ?_
  refine List.pairwise_append.mpr ⟨?_, List.pairwise_flatMap.mpr ⟨fun s _ => ?_, ?_⟩, ?_⟩
  · refine (TokenStream.ofText_errors_ordered m source).imp fun {d e} hlt heq => ?_
    rw [heq] at hlt
    exact Nat.lt_irrefl _ hlt
  · show s.told.Pairwise _
    match s.told, s.told_length with
    | [], _ => exact .nil
    | [d], _ => exact List.pairwise_singleton _ d
  · refine (Share.shares_ordered htokens).imp fun hst d hd e he heq => ?_
    rw [← Share.told_position hd, ← Share.told_position he, heq] at hst
    exact Nat.lt_irrefl _ hst
  · intro d hd e he
    obtain ⟨s, hs, he⟩ := List.mem_flatMap.mp he
    obtain ⟨before, behind, hsplit⟩ := Share.head_of_mem_shares hs p
    rw [Share.told_position he]
    exact TokenStream.error_apart_command (htokens.trans hsplit) s.head.marker_kind
      s.head.code_kind hd

theorem diagnostics_isTrue {d : Diagnostic} :
    let doc := (Parser.mk .builtin m padding).parse source
    d ∈ doc.metadata.errors ++ doc.metadata.warnings → d.position.IsTrue source.toList := by
  intro doc hd
  have hmem : d.position ∈ (Parser.mk .builtin m padding).positions source := by
    simp only [positions, List.mem_append, List.mem_map]
    rcases List.mem_append.mp hd with hd | hd
    · exact .inl (.inr ⟨d, hd, rfl⟩)
    · exact .inr ⟨d, hd, rfl⟩
  exact isTrue_of_mem_positions hmem

end Parser

/-! ## Reports -/

namespace CommandLine

theorem endsDisplayLine_iff {c : Char} {back : List Char} :
    endsDisplayLine c back.head? ↔ EndsDisplayed c back := by
  simp [endsDisplayLine, EndsDisplayed, or_assoc]

/-- A display goes on from the place where it is. -/
theorem displayedAt_displayPlace (cs : List Char) {front back : List Char} {line column : Nat}
    (h : DisplayedAt front (cs ++ back) line column) :
    DisplayedAt (front ++ cs) back
      (displayPlace (cs ++ back) (Text.byteLength cs) (line, column)).1
      (displayPlace (cs ++ back) (Text.byteLength cs) (line, column)).2 := by
  induction cs generalizing front line column with
  | nil =>
    have hstay : displayPlace back 0 (line, column) = (line, column) := by
      cases back with
      | nil => rfl
      | cons c back => exact if_neg (Nat.not_le_of_lt c.utf8Size_pos)
    rw [List.append_nil, List.nil_append, Text.byteLength, hstay]
    exact h
  | cons c cs ih =>
    have hpass : c.utf8Size ≤ Text.byteLength (c :: cs) := Nat.le_add_right _ _
    rw [List.cons_append, displayPlace, if_pos hpass, Text.byteLength, Nat.add_sub_cancel_left,
      List.append_cons]
    split
    · next hends => exact ih (.nextLine h (endsDisplayLine_iff.mp hends))
    · next hends => exact ih (.nextColumn h (mt endsDisplayLine_iff.mpr hends))

theorem explain?_eq_some_iff {code explanation : String} :
    Diagnostic.explain? code = some explanation ↔
      ∃ entry ∈ Diagnostic.catalog, entry.code = code ∧ entry.explanation = explanation := by
  have hknown : ∀ entry ∈ Diagnostic.catalog,
      Diagnostic.explain? entry.code = some entry.explanation := by
    simp only [Diagnostic.catalog, List.forall_mem_cons]
    exact ⟨rfl, rfl, rfl, rfl, rfl, rfl, rfl, List.forall_mem_nil _⟩
  constructor
  · intro h
    obtain ⟨entry, hentry, hexplanation⟩ := Option.map_eq_some_iff.mp h
    have hcode := List.find?_some (p := fun e : Diagnostic.CatalogEntry => e.code == code) hentry
    exact ⟨entry, List.mem_of_find?_eq_some hentry, beq_iff_eq.mp hcode, hexplanation⟩
  · rintro ⟨entry, hentry, rfl, rfl⟩
    exact hknown entry hentry

theorem Report.ofDiagnostic_tells (name : String) {text : String} {d : Diagnostic}
    (h : d.position.IsTrue text.toList) :
    (Report.ofDiagnostic name text d).Tells name text d where
  error hseverity := by
    simp only [ofDiagnostic, hseverity]
    rfl
  warning hseverity := by
    simp only [ofDiagnostic, hseverity]
    rfl
  place := by
    obtain ⟨n, -, hn⟩ := h
    have hsplit := (List.take_append_drop n text.toList).symm
    have hoffset : Text.byteLength (text.toList.take n) = d.position.offset :=
      (congrArg Position.offset hn).symm
    have hplace := displayedAt_displayPlace (text.toList.take n)
      (.start : DisplayedAt [] (text.toList.take n ++ text.toList.drop n) 1 1)
    rw [← hsplit, hoffset] at hplace
    exact ⟨_, _, _, _, hsplit, hoffset, hplace, rfl⟩
  message hnone := by
    unfold detailsOf at hnone
    show labelOf d = d.message
    unfold labelOf
    generalize d.context.map KeyMap.entries = details at hnone ⊢
    rcases details with - | - | ⟨entry, entries⟩
    · rfl
    · rfl
    · cases hnone
  details hsome := by
    unfold detailsOf at hsome ⊢
    show labelOf d = _
    unfold labelOf
    generalize d.context.map KeyMap.entries = details at hsome ⊢
    rcases details with - | - | ⟨entry, entries⟩
    · exact absurd rfl hsome
    · exact absurd rfl hsome
    · rfl
  help _ := explain?_eq_some_iff
  note := rfl

theorem intercalate_newline (line : String) (lines : List String) :
    "\n".intercalate (line :: lines) ++ "\n" =
      line ++ "\n" ++ String.join (lines.map (· ++ "\n")) := by
  induction lines generalizing line with
  | nil => exact (String.append_empty).symm
  | cons next lines ih =>
    show "\n".intercalate ((line ++ "\n" ++ next) :: lines) ++ "\n" = _
    rw [ih, List.map_cons, String.join_cons]
    simp only [String.append_assoc]

theorem Report.render_eq (r : Report) : r.render = r.lines := by
  obtain ⟨head, place, label, help, note⟩ := r
  simp only [render, List.cons_append, intercalate_newline]
  cases help <;> cases note <;> simp [lines, String.append_assoc]

end CommandLine

/-! ## Answers -/

namespace CommandLine

theorem counted_eq (n : Nat) (thing : String) :
    counted n thing = quantity thing (thing ++ "s") n := by
  unfold counted quantity
  split
  · rfl
  · exact String.append_assoc ..

theorem summary_eq (ds : List Diagnostic) :
    summary ds = tally (ds.countP (·.severity = .error)) (ds.countP (·.severity = .warning)) := by
  have herrors : ds.countP Diagnostic.isError = ds.countP (·.severity = .error) := rfl
  have hlength : ds.length =
      ds.countP (·.severity = .error) + ds.countP (·.severity = .warning) := by
    rw [ds.length_eq_countP_add_countP (·.severity = .error)]
    congr 2
    funext d
    cases d.severity <;> rfl
  have hempty : ds.isEmpty = decide (ds.length = 0) := by cases ds <;> rfl
  simp only [summary, herrors, hempty, hlength, Nat.add_sub_cancel_left]
  generalize ds.countP (·.severity = .error) = errors
  generalize ds.countP (·.severity = .warning) = warnings
  have hone : ∀ a : String, ", ".intercalate [a] = a := fun _ => rfl
  have htwo : ∀ a b : String, ", ".intercalate [a, b] = a ++ ", " ++ b := fun _ _ => rfl
  match errors, warnings with
  | 0, 0 => rfl
  | _ + 1, 0 => simp [tally, counted_eq, hone]
  | 0, _ + 1 => simp [tally, counted_eq, hone]
  | _ + 1, _ + 1 => simp [tally, counted_eq, htwo]

theorem verdict_check (d : Document) :
    verdict .check d.metadata.errors = if d.hasErrors then "" else "syntax ok\n" := by
  rw [verdict, Document.hasErrors]
  cases d.metadata.errors <;> rfl

variable {text : String} {m : Marks}

/-- A result that sums up what it shows counts the errors and the warnings. -/
theorem Result.Shows.of_summary {result : Result} {name : String} {task : Task}
    {errors warnings shown : List Diagnostic}
    (hreports : result.reports = shown.map (Report.ofDiagnostic name text))
    (htail : result.tail = summary shown ++ verdict task errors)
    (hall : shown.Perm (errors ++ warnings))
    (hordered : shown.Pairwise fun d e => d.position.Before e.position)
    (hapart : (errors ++ warnings).Pairwise fun d e => d.position ≠ e.position)
    (htrue : ∀ d ∈ shown, d.position.IsTrue text.toList)
    (hsevere : ∀ d ∈ errors, d.severity = .error)
    (hmild : ∀ d ∈ warnings, d.severity = .warning) :
    result.Shows name text task errors warnings shown := by
  have hcounts : shown.countP (·.severity = .error) = errors.length ∧
      shown.countP (·.severity = .warning) = warnings.length := by
    rw [hall.countP_eq, hall.countP_eq, List.countP_append, List.countP_append]
    have hnever : ∀ s t : Severity, s ≠ t → ∀ ds : List Diagnostic, (∀ d ∈ ds, d.severity = s) →
        ds.countP (·.severity = t) = 0 := by
      intro s t hst ds hds
      exact List.countP_eq_zero.mpr fun d hd => by simpa [hds d hd] using hst
    constructor
    · rw [hnever .warning .error (by decide) warnings hmild,
        List.countP_eq_length.mpr fun d hd => decide_eq_true (hsevere d hd), Nat.add_zero]
    · rw [hnever .error .warning (by decide) errors hsevere,
        List.countP_eq_length.mpr fun d hd => decide_eq_true (hmild d hd), Nat.zero_add]
  constructor
  case reports => exact hreports
  case tells =>
    rw [hreports]
    exact List.forall₂_map_left_iff.mpr
      (List.forall₂_same.mpr fun d hd => Report.ofDiagnostic_tells name (htrue d hd))
  case all => exact hall
  case apart => exact hapart
  case ordered => exact hordered
  case counts => exact hcounts
  case tail => rw [htail, summary_eq, hcounts.1, hcounts.2]
  case printed =>
    rw [Answer.stderr, funext Report.render_eq]

theorem taskErrors_severe (m : Marks) (padding : Int32) (text : String) (task : Task) :
    ∀ d ∈ taskErrors m padding text task, d.severity = .error := by
  cases task with
  | tokens => exact fun d hd => (TokenStream.ofText_errors_lexical hd).2
  | parse | check => exact (Parser.diagnosed m padding text).severe

/-- The diagnostics of a document, put in order. -/
theorem diagnosticsInOrder_before (m : Marks) (padding : Int32) (text : String) :
    (diagnosticsInOrder ((Parser.mk .builtin m padding).parse text)).Pairwise
      fun d e => d.position.Before e.position :=
  Diagnostic.mergeSort_before (fun _ => Parser.diagnostics_isTrue)
    (Parser.diagnostics_apart m padding text)

end CommandLine

open CommandLine in
/-- For people, the answer about a text reports all that there is to tell of it, in the
order of the text, strictly, and counts it. -/
theorem reports_ordered {text : String} (a : Asking text) (m : Marks) (padding : Int32)
    (task : Task) (hm : m.marker ≠ m.delimiter) (hmode : a.mode = .pretty) :
    ∃ result shown, a.answer m padding task = .finished result ∧
      result.Shows (if a.file = "-" then "<stdin>" else a.file) text task
        (taskErrors m padding text task) (taskWarnings m padding text task) shown := by
  have hanswer := a.answer_eq padding hm task
  rw [hmode] at hanswer
  have hsevere := taskErrors_severe m padding text task
  have hmild := (Parser.diagnosed m padding text).mild
  have hapart := Parser.diagnostics_apart m padding text
  have hordered := diagnosticsInOrder_before m padding text
  have hlexical := TokenStream.ofText_errors_before m text
  have htrue : ∀ d ∈ diagnosticsInOrder ((Parser.mk .builtin m padding).parse text),
      d.position.IsTrue text.toList := fun d hd =>
    Parser.diagnostics_isTrue ((List.mergeSort_perm _ _).mem_iff.mp hd)
  have hdistinct := hlexical.imp fun hlt => mt (congrArg Position.offset) (Nat.ne_of_lt hlt.offset)
  cases task with
  | parse =>
    exact ⟨_, _, hanswer, .of_summary rfl (by simp [verdict, taskResult, parseResult, resultWith])
      (List.mergeSort_perm _ _) hordered hapart htrue hsevere hmild⟩
  | tokens =>
    refine ⟨_, _, hanswer, .of_summary rfl (by simp [verdict, taskResult, tokensResult, resultWith])
      ?_ hlexical ?_ (fun _ => TokenStream.error_isTrue) hsevere (List.forall_mem_nil _)⟩
    · rw [taskWarnings, List.append_nil]
      rfl
    · rw [taskWarnings, List.append_nil]
      exact hdistinct
  | check =>
    refine ⟨_, _, hanswer, .of_summary rfl ?_ (List.mergeSort_perm _ _) hordered hapart htrue
      hsevere hmild⟩
    rw [taskErrors, verdict_check]
    rfl

open CommandLine in
/-- A warning, a stray character behind it and a missing coordinate in the end, which the
document lists as two errors and then the warning. -/
theorem reports_ordered_mixed :
    let text := "^QQ\n!\n^FO1"
    let stdin : Asking text := ⟨fun _ => .ok text, "-", none, .pretty, rfl⟩
    let errors := taskErrors .standard 100 text .check
    let warnings := taskWarnings .standard 100 text .check
    Marks.standard.marker ≠ Marks.standard.delimiter ∧ stdin.mode = .pretty ∧
      errors.map Diagnostic.summary =
        [("ZPL0001", .error, ⟨2, 1, 4⟩), ("ZPL0102", .error, ⟨3, 1, 6⟩)] ∧
      warnings.map Diagnostic.summary = [("ZPL0201", .warning, ⟨1, 1, 0⟩)] ∧
      ∃ result shown, stdin.answer .standard 100 .check = .finished result ∧
        result.Shows "<stdin>" text .check errors warnings shown ∧
        result.tail = "2 errors, 1 warning\n" := by
  intro text stdin errors warnings
  have hm : Marks.standard.marker ≠ Marks.standard.delimiter := by decide
  obtain ⟨result, shown, hanswer, hshows⟩ := reports_ordered stdin .standard 100 .check hm rfl
  refine ⟨hm, rfl, by decide +kernel, by decide +kernel, result, shown, hanswer, hshows, ?_⟩
  rw [hshows.tail]
  decide +kernel

end Zpl
