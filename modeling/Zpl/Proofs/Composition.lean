import Zpl.Proofs.LabelSize
import Zpl.Proofs.LineBreak
import Zpl.Proofs.RawText

/-! Parsing composes at line breaks. A command reaches over a line break for field data or
a separator only, so a text that starts with neither has its own commands below any other
text (`shares_append`), and the document of two texts with a line feed between them is put
together from theirs (`parse_break`). -/

namespace Zpl

/-! ## Phrases side by side -/

/-- No command before these phrases folds the first call of them. -/
structure Apart (ps : List Phrase) : Prop where
  separator : Phrase.next? "FS" ps = none
  field : Phrase.next? "FD" ps = none

section Append

variable {qs : List Phrase}

theorem next?_append {code : String} (h : Phrase.next? code qs = none) (ps : List Phrase) :
    Phrase.next? code (ps ++ qs) =
      (Phrase.next? code ps).map fun (found, rest) => (found, rest ++ qs) := by
  induction ps with
  | nil => exact h
  | cons p ps ih =>
    cases p with
    | lineBreak t kind =>
      show (Phrase.next? code (ps ++ qs)).map _ = ((Phrase.next? code ps).map _).map _
      rw [ih, Option.map_map, Option.map_map]
      rfl
    | call c =>
      by_cases hcode : c.code.value = code
      · simp only [List.cons_append, Phrase.next?, if_pos hcode]
        rfl
      · simp only [List.cons_append, Phrase.next?, if_neg hcode]
        rfl
    | other t kind => rfl

theorem closing_append (h : Apart qs) (ps : List Phrase) :
    closing (ps ++ qs) = ((closing ps).1, (closing ps).2 ++ qs) := by
  unfold closing
  rw [next?_append h.separator]
  cases Phrase.next? "FS" ps <;> rfl

theorem carried_append (h : Apart qs) (ps : List Phrase) :
    carried (ps ++ qs) = ((carried ps).1, (carried ps).2 ++ qs) := by
  unfold carried
  rw [next?_append h.field]
  cases Phrase.next? "FD" ps with
  | none => rfl
  | some found => simp only [Option.map_some, closing_append h]

theorem fold_append (h : Apart qs) (c : Call) (ps : List Phrase) :
    c.fold (ps ++ qs) = ((c.fold ps).1, (c.fold ps).2 ++ qs) := by
  unfold Call.fold
  split
  · exact closing_append h ps
  split
  · exact carried_append h ps
  · rfl

theorem shares_append (h : Apart qs) (ps : List Phrase) :
    shares (ps ++ qs) = shares ps ++ shares qs := by
  fun_induction shares ps with
  | case1 => rfl
  | case2 c ps ih =>
    rw [List.cons_append, shares, Call.share, fold_append h, ih]
    rfl
  | case3 p ps hp ih =>
    rw [List.cons_append, shares, ih]
    exact hp

end Append

/-- A line break before phrases neither gives a command nor hides one. -/
theorem Apart.lineBreak {ps : List Phrase} (h : Apart ps) (t : Token) (kind : t.kind = .lineBreak) :
    Apart (.lineBreak t kind :: ps) := by
  constructor
  · rw [Phrase.next?, h.separator]
    rfl
  · rw [Phrase.next?, h.field]
    rfl

/-! ## Commands in a longer source -/

def Command.move (f : Position → Position) (c : Command) : Command :=
  { c with position := f c.position }

namespace Share

theorem stop_shift (s : Share) (lines bytes : Nat) :
    (s.move (.shift lines bytes)).stop = s.stop + bytes := by
  obtain ⟨mid, last, hsplit, -⟩ := s.tokens_split
  have hmoved : (s.move (.shift lines bytes)).tokens =
      s.head.marker.move (.shift lines bytes) ::
        (mid.map (Token.move (.shift lines bytes)) ++ [last.move (.shift lines bytes)]) := by
    rw [tokens_move, hsplit]
    simp
  rw [stop_eq hmoved, stop_eq hsplit]
  exact Nat.add_right_comm _ _ _

section Within

variable {m : Marks} {source : String} {ps : List Phrase} {p : Position} {s : Share}

/-- The text of a share stands together in the source. -/
theorem exists_text (h : (TokenStream.ofText m source).tokens =
      ps.flatMap Phrase.tokens ++ [.finishAt p]) (hs : s ∈ shares ps) :
    ∃ front text back, source.toList = front ++ text ++ back ∧
      s.place.position.offset = Text.byteLength front ∧
      s.stop = s.place.position.offset + Text.byteLength text := by
  obtain ⟨mid, last, hsplit, hlast⟩ := s.tokens_split
  obtain ⟨before, behind, hps⟩ := tokens_of_mem_shares hs
  have hstream : (TokenStream.ofText m source).tokens =
      before ++ s.head.marker :: (mid ++ last :: behind) ++ [.finishAt p] := by
    rw [h, hps, hsplit]
    simp
  obtain ⟨front, text, back, -, hsource, hoffset, hstop, -⟩ :=
    TokenStream.ofText_stretch hstream s.head.marker_kind hlast
  exact ⟨front, text, back, hsource, hoffset, stop_eq hsplit ▸ hstop⟩

/-- What follows a source does not change the commands in it. -/
theorem command_above (h : (TokenStream.ofText m source).tokens =
      ps.flatMap Phrase.tokens ++ [.finishAt p]) (hs : s ∈ shares ps) (more : List Char) :
    s.command (source.toList ++ more) = s.command source.toList := by
  obtain ⟨front, text, back, hsource, hoffset, hstop⟩ := exists_text h hs
  have hlonger : source.toList ++ more = front ++ text ++ (back ++ more) := by
    rw [hsource, List.append_assoc]
  have hraw : (s.command (source.toList ++ more)).rawText = (s.command source.toList).rawText := by
    rw [rawText_command hlonger hoffset hstop, rawText_command hsource hoffset hstop]
  have hcommand : ∀ cs, s.command cs = ⟨s.head.code.value, (s.command cs).rawText,
      s.place.position, s.parameters.map Token.value, s.kind⟩ := fun _ => rfl
  rw [hcommand, hraw, ← hcommand]

/-- What stands before a source moves the commands in it. -/
theorem command_below (h : (TokenStream.ofText m source).tokens =
      ps.flatMap Phrase.tokens ++ [.finishAt p]) (hs : s ∈ shares ps) (lines : Nat)
    (before : List Char) :
    (s.move (.shift lines (Text.byteLength before))).command (before ++ source.toList) =
      (s.command source.toList).move (.shift lines (Text.byteLength before)) := by
  obtain ⟨front, text, back, hsource, hoffset, hstop⟩ := exists_text h hs
  have hlonger : before ++ source.toList = (before ++ front) ++ text ++ back := by
    rw [hsource]
    simp
  have hplace : (s.move (.shift lines (Text.byteLength before))).place.position.offset =
      s.place.position.offset + Text.byteLength before := rfl
  refine command_move _ ?_
  rw [rawText_command hsource hoffset hstop]
  refine rawText_command hlonger ?_ ?_
  · rw [hplace, hoffset, Text.byteLength_append, Nat.add_comm]
  · rw [hplace, stop_shift, hstop, Nat.add_right_comm]

end Within
end Share

/-! ## Documents -/

/-- What the grammars report as errors, behind what the tokens of the source give. -/
def Parser.syntaxErrors (p : Parser) (source : String) : List Diagnostic :=
  (p.parse source).metadata.errors.drop (TokenStream.ofText p.marks source).errors.length

/-- What a source says is put together from what two others say, the second moved down.
Diagnostics agree in code, severity and place. -/
structure Parser.Composes (p : Parser) (f : Position → Position) (first second whole : String) :
    Prop where
  commands : (p.parse whole).commands =
    (p.parse first).commands ++ (p.parse second).commands.map (Command.move f)
  errors : ∀ source ∈ [first, second, whole], (p.parse source).metadata.errors =
    (TokenStream.ofText p.marks source).errors ++ p.syntaxErrors source
  lexical : (TokenStream.ofText p.marks whole).errors.map Diagnostic.summary =
    ((TokenStream.ofText p.marks first).errors ++
      (TokenStream.ofText p.marks second).errors.map (Diagnostic.move f)).map Diagnostic.summary
  syntactic : (p.syntaxErrors whole).map Diagnostic.summary =
    (p.syntaxErrors first ++ (p.syntaxErrors second).map (Diagnostic.move f)).map
      Diagnostic.summary
  warnings : (p.parse whole).metadata.warnings.map Diagnostic.summary =
    ((p.parse first).metadata.warnings ++
      (p.parse second).metadata.warnings.map (Diagnostic.move f)).map Diagnostic.summary
  width : (p.parse whole).metadata.labelWidth =
    Option.merge max (p.parse first).metadata.labelWidth (p.parse second).metadata.labelWidth
  length : (p.parse whole).metadata.labelLength =
    (p.parse first).metadata.labelLength.or (p.parse second).metadata.labelLength

/-- The errors of the built-in grammars are those of the shares. -/
theorem Parser.syntaxErrors_shares {m : Marks} {source : String} {ps : List Phrase} {p : Position}
    (padding : Int32)
    (h : (TokenStream.ofText m source).tokens = ps.flatMap Phrase.tokens ++ [.finishAt p]) :
    (Parser.mk .builtin m padding).syntaxErrors source = (shares ps).flatMap Share.errors := by
  rw [syntaxErrors, Parser.parse_shares padding h]
  exact List.drop_left

theorem Parser.errors_eq (m : Marks) (padding : Int32) (source : String) :
    ((Parser.mk .builtin m padding).parse source).metadata.errors =
      (TokenStream.ofText m source).errors ++
        (Parser.mk .builtin m padding).syntaxErrors source := by
  obtain ⟨ps, p, htokens⟩ := TokenStream.ofText_phrases m source
  rw [syntaxErrors_shares padding htokens, Parser.parse_shares padding htokens]

theorem labelSize_move (f : Position → Position) (cs : List Command) (padding : Int32) :
    labelWidth? (cs.map (Command.move f)) padding = labelWidth? cs padding ∧
      labelLength? (cs.map (Command.move f)) = labelLength? cs := by
  refine labelSize_of_kinds ?_ padding
  rw [List.map_map]
  rfl

open TokenStream

section Break

variable {m : Marks} {first second : String}

/-- The phrases of two texts with a line feed between them. -/
theorem phrases_break (h : BreaksOff m first) {ps₁ ps₂ : List Phrase} {p₁ p₂ : Position}
    (h₁ : (ofText m first).tokens = ps₁.flatMap Phrase.tokens ++ [.finishAt p₁])
    (h₂ : (ofText m second).tokens = ps₂.flatMap Phrase.tokens ++ [.finishAt p₂]) :
    ∃ t kind, (ofText m (first ++ "\n" ++ second)).tokens =
      (ps₁ ++ .lineBreak t kind :: ps₂.map (Phrase.move (below first))).flatMap Phrase.tokens ++
        [.finishAt (below first p₂)] := by
  have hend : p₁ = endOf first := by
    have hsame := h₁.symm.trans (ofText_tokens m first)
    have hlast := (List.append_inj' hsame rfl).2
    exact congrArg Token.position (List.cons.inj hlast).1
  subst hend
  refine ⟨⟨.lineBreak, "\n", endOf first, "\n"⟩, rfl, ?_⟩
  rw [h.tokens_eq h₁ second, h₂, List.map_append, List.flatMap_append, List.flatMap_cons,
    Phrase.tokens_move, List.append_assoc]
  rfl

/-- The shares of two texts with a line feed between them, if the second one starts with
nothing that a command of the first takes along. -/
theorem shares_break (ps₁ : List Phrase) {ps₂ : List Phrase} (h : Apart ps₂)
    (f : Position → Position) (t : Token) (kind : t.kind = .lineBreak) :
    shares (ps₁ ++ .lineBreak t kind :: ps₂.map (Phrase.move f)) =
      shares ps₁ ++ (shares ps₂).map (Share.move f) := by
  have hmoved : Apart (ps₂.map (Phrase.move f)) := by
    constructor
    · rw [Phrase.next?_move, h.separator]
      rfl
    · rw [Phrase.next?_move, h.field]
      rfl
  rw [shares_append (hmoved.lineBreak t kind), shares_lineBreak, shares_move]

theorem commands_break {ps₁ ps₂ : List Phrase} {p₁ p₂ : Position}
    (h₁ : (ofText m first).tokens = ps₁.flatMap Phrase.tokens ++ [.finishAt p₁])
    (h₂ : (ofText m second).tokens = ps₂.flatMap Phrase.tokens ++ [.finishAt p₂]) :
    (shares ps₁ ++ (shares ps₂).map (Share.move (below first))).map
        (Share.command (first ++ "\n" ++ second).toList) =
      (shares ps₁).map (Share.command first.toList) ++
        ((shares ps₂).map (Share.command second.toList)).map (Command.move (below first)) := by
  have hlength : Text.byteLength (first.toList ++ ['\n']) = Text.byteLength first.toList + 1 :=
    Text.byteLength_append _ _
  rw [toList_break, List.map_append, List.map_map, List.map_map]
  congr 1
  · exact List.map_congr_left fun s hs => Share.command_above h₁ hs _
  · refine List.map_congr_left fun s hs => ?_
    have hbelow := Share.command_below h₂ hs (endOf first).line (first.toList ++ ['\n'])
    rw [hlength, List.append_assoc] at hbelow
    exact hbelow

theorem errors_move (f : Position → Position) (ss : List Share) :
    (ss.map (Share.move f)).flatMap Share.errors =
      (ss.flatMap Share.errors).map (Diagnostic.move f) := by
  simp only [List.flatMap_map, List.map_flatMap, Share.errors_move]

theorem warnings_move (f : Position → Position) (ss : List Share) :
    ((ss.map (Share.move f)).flatMap Share.warnings).map Diagnostic.summary =
      ((ss.flatMap Share.warnings).map (Diagnostic.move f)).map Diagnostic.summary := by
  simp only [List.flatMap_map, List.map_flatMap, Share.warnings_move]

/-- Two texts with a line feed between them, the second of which starts with no field data
and no separator, have the commands of the first and those of the second, so many lines
and bytes further down. Their problems are those of the two, kind by kind, and the size
of the label is made from the two sizes. -/
theorem parse_break (h : BreaksOff m first) (hFS : ¬Follows "FS" (ofText m second).tokens)
    (hFD : ¬Follows "FD" (ofText m second).tokens) (padding : Int32) :
    (Parser.mk .builtin m padding).Composes
      (.shift (Text.lineCount first.toList) (Text.byteLength first.toList + 1))
      first second (first ++ "\n" ++ second) := by
  obtain ⟨ps₁, p₁, h₁⟩ := ofText_phrases m first
  obtain ⟨ps₂, p₂, h₂⟩ := ofText_phrases m second
  obtain ⟨t, kind, hwhole⟩ := phrases_break h h₁ h₂
  obtain ⟨told, htold, hsummary, -⟩ := h.reports second
  have hfinish : (Token.finishAt p₂).kind ≠ .code := TokenKind.noConfusion
  rw [h₂, follows_concat hfinish, ← Phrase.next?_eq_none_iff] at hFS hFD
  have hapart : Apart ps₂ := ⟨hFS, hFD⟩
  have hshares := shares_break ps₁ hapart (below first) t kind
  have hcommands := commands_break h₁ h₂
  have hparse := Parser.parse_shares padding hwhole
  rw [hshares, hcommands] at hparse
  obtain ⟨hwidth, hlength⟩ := labelSize_move (below first)
    ((shares ps₂).map (Share.command second.toList)) padding
  rw [← endOf_line]
  constructor
  · rw [hparse, Parser.parse_shares padding h₁, Parser.parse_shares padding h₂]
    rfl
  · exact fun source _ => Parser.errors_eq m padding source
  · rw [htold, List.map_append, hsummary, List.map_append]
    rfl
  · rw [Parser.syntaxErrors_shares padding hwhole, Parser.syntaxErrors_shares padding h₁,
      Parser.syntaxErrors_shares padding h₂, hshares, List.flatMap_append, errors_move]
    rfl
  · rw [hparse, Parser.parse_shares padding h₁, Parser.parse_shares padding h₂]
    simp only [List.flatMap_append, List.map_append, warnings_move]
    rfl
  · rw [hparse, Parser.parse_shares padding h₁, Parser.parse_shares padding h₂]
    simp only [labelWidth?_append, hwidth]
  · rw [hparse, Parser.parse_shares padding h₁, Parser.parse_shares padding h₂]
    simp only [labelLength?_append, hlength]

end Break

/-- A field that its separator does not close, above a pair with one coordinate. -/
theorem parse_break_label :
    BreaksOff .standard "^FO7,9^FDa" ∧ ¬Follows "FS" (ofText .standard "^LH5^FS").tokens ∧
      ¬Follows "FD" (ofText .standard "^LH5^FS").tokens ∧
      (Parser.mk .builtin .standard 100).Composes (.shift 1 11) "^FO7,9^FDa" "^LH5^FS"
        ("^FO7,9^FDa" ++ "\n" ++ "^LH5^FS") := by
  have hbreaks : BreaksOff .standard "^FO7,9^FDa" := ⟨rfl, by decide +kernel, by decide +kernel⟩
  have hFS : ¬Follows "FS" (ofText .standard "^LH5^FS").tokens := by decide +kernel
  have hFD : ¬Follows "FD" (ofText .standard "^LH5^FS").tokens := by decide +kernel
  exact ⟨hbreaks, hFS, hFD, parse_break hbreaks hFS hFD 100⟩

end Zpl
