import Zpl.Proofs.Mapped

/-! Commands elsewhere. Calls, shares and commands move along with their tokens: the
shares of moved phrases are the moved shares (`shares_move`). The wording of an error
stays; that of a warning names the place. -/

namespace Zpl

section Move

variable (f : Position → Position)

def TokenMap.move : TokenMap :=
  ⟨Token.move f, fun _ => rfl, fun _ _ => rfl⟩

theorem TokenMap.keepsOperands_move : (TokenMap.move f).KeepsOperands :=
  fun _ _ => rfl

/-! ## Phrases and shares -/

theorem OperandsFit.move {code : String} {ts : List Token} (h : OperandsFit code ts) :
    OperandsFit code (ts.map (Token.move f)) :=
  h.map (.move f)

def Call.move (c : Call) : Call :=
  ⟨c.marker.move f, c.code.move f, c.operands.map (Token.move f),
    c.marker_kind, c.code_kind, c.operands_fit.move f⟩

def Folded.move (g : Folded) : Folded :=
  ⟨g.breaks.map (Token.move f), g.call.move f, by
    intro t ht
    obtain ⟨u, hu, rfl⟩ := List.mem_map.mp ht
    exact g.breaks_kind u hu⟩

def Phrase.move : Phrase → Phrase
  | .call c => .call (c.move f)
  | .lineBreak t kind => .lineBreak (t.move f) kind
  | .other t kind => .other (t.move f) kind

def Share.move (s : Share) : Share :=
  ⟨s.head.move f, s.folded.map (Folded.move f)⟩

/-- Moving a phrase is a change of its tokens that keeps what the grammars look at. -/
theorem Phrase.move_eq : Phrase.move f = Phrase.map (.move f) := by
  funext p
  cases p <;> rfl

theorem Phrase.tokens_move (ps : List Phrase) :
    (ps.map (Phrase.move f)).flatMap tokens = (ps.flatMap tokens).map (Token.move f) := by
  rw [move_eq]
  exact tokens_map (.move f) ps

theorem Share.tokens_move (s : Share) : (s.move f).tokens = s.tokens.map (Token.move f) :=
  s.tokens_map (.move f)

theorem Call.Folds.move {c : Call} {fs : List Folded} (h : c.Folds fs) :
    (c.move f).Folds (fs.map (Folded.move f)) :=
  h.map (.move f)

/-! ## Folding -/

theorem Phrase.next?_move (code : String) (ps : List Phrase) :
    next? code (ps.map (Phrase.move f)) =
      (next? code ps).map fun (g, rest) => (g.move f, rest.map (Phrase.move f)) := by
  rw [move_eq]
  exact next?_map (.move f) code ps

/-- The shares of moved phrases are the moved shares. -/
theorem shares_move (ps : List Phrase) :
    shares (ps.map (Phrase.move f)) = (shares ps).map (Share.move f) := by
  rw [Phrase.move_eq]
  exact shares_map (.move f) ps

/-! ## Commands -/

namespace Share

/-- A share that has the same text in two sources, wherever it stands, is the same command. -/
theorem command_move {source source' : List Char} {s : Share}
    (hraw : ((s.move f).command source').rawText = (s.command source).rawText) :
    (s.move f).command source' =
      { s.command source with position := f s.head.marker.position } := by
  have hmoved : (s.move f).command source' =
      { s.command source with
        rawText := ((s.move f).command source').rawText
        position := f s.head.marker.position } :=
    command_map (TokenMap.keepsOperands_move f) source source' s
  rw [hmoved, hraw]

/-- What is said of an error does not tell its place. -/
theorem errors_move (s : Share) : (s.move f).errors = s.errors.map (Diagnostic.move f) := by
  refine (s.errors_map (.move f)).trans (List.map_congr_left fun d hd => ?_)
  rw [Diagnostic.move, Diagnostic.move, errors_position hd]
  rfl

theorem warnings_move (s : Share) :
    (s.move f).warnings.map Diagnostic.summary =
      (s.warnings.map (Diagnostic.move f)).map Diagnostic.summary := by
  refine (s.warnings_map (.move f)).trans ?_
  refine congrArg (List.map Diagnostic.summary) (List.map_congr_left fun d hd => ?_)
  rw [Diagnostic.move, Diagnostic.move, warnings_position hd]
  rfl

end Share
end Move
end Zpl
