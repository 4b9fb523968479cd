import Mathlib.Data.List.Forall2
import Zpl.Proofs.Account
import Zpl.Proofs.Mapped

/-! The diagnostics of the built-in command set. Each command is told of on its own: a pair
of coordinates that is not complete gives one error, a command without typed fields one
warning, and no other command gives anything (`parse_diagnoses`). What the parameters and
contents say makes no difference. -/

namespace Zpl

namespace CommandKind

/-- A pair of coordinates. -/
def isPair : CommandKind → Bool
  | labelHome .. | fieldOrigin .. => true
  | _ => false

end CommandKind

namespace Command

/-- Fewer parameters than coordinates. -/
def lacksCoordinates (c : Command) : Bool :=
  c.kind.isPair && decide (c.parameters.length < 2)

/-- The error for the coordinates that a command lacks. -/
structure BlamedBy (c : Command) (d : Diagnostic) : Prop where
  code : d.code = "ZPL0102"
  severity : d.severity = .error
  position : d.position = c.position
  context : d.context = some (.ofList [("command", c.code), ("expected", "2"),
    ("found", toString c.parameters.length),
    ("missing", if c.parameters = [] then "x,y" else "y")])

/-- The warning for a command without typed fields. -/
structure RemarkedBy (c : Command) (d : Diagnostic) : Prop where
  code : d.code = if c.code = "FS" then "ZPL0202" else "ZPL0201"
  severity : d.severity = .warning
  position : d.position = c.position

end Command

/-- The diagnostics of a document are the lexical errors and those that its commands call
for, in the order of the commands. -/
structure Document.Diagnosed (doc : Document) (lexical : List Diagnostic) : Prop where
  errors : ∃ own, doc.metadata.errors = lexical ++ own ∧
    List.Forall₂ Command.BlamedBy (doc.commands.filter Command.lacksCoordinates) own
  warnings : List.Forall₂ Command.RemarkedBy (doc.commands.filter (·.kind = .generic))
    doc.metadata.warnings
  severe : ∀ d ∈ doc.metadata.errors, d.severity = .error
  mild : ∀ d ∈ doc.metadata.warnings, d.severity = .warning

/-- The token with another value, if it is a parameter or a content. -/
def Token.revalue (value : Token → String) (t : Token) : Token :=
  if Rule.isOperand t.kind then { t with value := value t } else t

/-! ## One command -/

/-- What is told of one thing after the other is told of all of them. -/
theorem forall₂_flatMap {α β γ : Type} {R : β → γ → Prop} {p : β → Bool} {f : α → β}
    {g : α → List γ} {as : List α} (h : ∀ a ∈ as, List.Forall₂ R ([f a].filter p) (g a)) :
    List.Forall₂ R ((as.map f).filter p) (as.flatMap g) := by
  induction as with
  | nil => exact .nil
  | cons a as ih =>
    have hcons : ((a :: as).map f).filter p = [f a].filter p ++ (as.map f).filter p := by
      rw [← List.filter_append]
      rfl
    rw [hcons, List.flatMap_cons]
    exact List.rel_append (h a List.mem_cons_self) (ih fun b hb => h b (List.mem_cons_of_mem a hb))

theorem forall_mem_of_forall₂ {α β : Type} {R : α → β → Prop} {P : β → Prop} {as : List α}
    {bs : List β} (h : List.Forall₂ R as bs) (hR : ∀ a b, R a b → P b) : ∀ b ∈ bs, P b := by
  induction h with
  | nil => exact List.forall_mem_nil P
  | cons hab _ ih => exact List.forall_mem_cons.mpr ⟨hR _ _ hab, ih⟩

theorem plainKind_isPair (code : String) (ts : List Token) :
    (plainKind code ts).isPair = decide (code ∈ ["LH", "FO"]) := by
  unfold plainKind
  split <;> simp_all [CommandKind.isPair]

theorem plainKind_generic {code : String} (hFD : code ≠ "FD") (hbarcode : code ∉ barcodeCodes)
    (ts : List Token) :
    plainKind code ts = .generic ↔ code = "FS" ∨ code ∉ builtinRules.map Prod.fst := by
  unfold plainKind
  split
  case h_8 => simp_all [builtinRules, barcodeCodes, Decidable.em]
  all_goals simp [builtinRules]

theorem Rule.coordinateErrors_blame (head : Head) {ps : List Token} {c : Command}
    (hcode : c.code = head.code) (hposition : c.position = head.position)
    (hparameters : c.parameters = ps.map Token.value) :
    List.Forall₂ Command.BlamedBy (if ps.length < 2 then [c] else [])
      (coordinateErrors head ps) := by
  match ps with
  | [] =>
    refine .cons ⟨rfl, rfl, hposition.symm, ?_⟩ .nil
    rw [hcode, hparameters]
    rfl
  | [t] =>
    refine .cons ⟨rfl, rfl, hposition.symm, ?_⟩ .nil
    rw [hcode, hparameters]
    rfl
  | t :: u :: ps =>
    have hmissing : missingCoordinates (t :: u :: ps) = [] :=
      List.drop_of_length_le (by simp)
    rw [coordinateErrors, hmissing, if_neg (by simp)]
    exact .nil

namespace Share

variable {s : Share}

theorem isPair_kind (s : Share) : s.kind.isPair = decide (s.head.code.value ∈ ["LH", "FO"]) := by
  by_cases hFD : s.head.code.value = "FD"
  · rw [kind_field hFD, hFD]
    rfl
  by_cases hbarcode : s.head.code.value ∈ barcodeCodes
  · obtain ⟨-, -, -, hpair, -⟩ := barcodeCodes_apart hbarcode
    rw [kind_barcode hbarcode, decide_eq_false hpair]
    rfl
  · rw [kind_plain hFD hbarcode, plainKind_isPair]

theorem kind_generic_iff (s : Share) : s.kind = .generic ↔
    s.head.code.value = "FS" ∨ s.head.code.value ∉ builtinRules.map Prod.fst := by
  by_cases hFD : s.head.code.value = "FD"
  · rw [kind_field hFD, hFD]
    simp [builtinRules]
  by_cases hbarcode : s.head.code.value ∈ barcodeCodes
  · obtain ⟨-, -, hFS, -, hknown⟩ := barcodeCodes_apart hbarcode
    rw [kind_barcode hbarcode]
    simp [hFS, hknown]
  · rw [kind_plain hFD hbarcode, plainKind_generic hFD hbarcode]

/-- A pair of coordinates takes no other call along. -/
theorem parameters_pair (hfolds : s.head.Folds s.folded) (h : s.head.code.value ∈ ["LH", "FO"]) :
    s.parameters = s.head.operands := by
  obtain ⟨c, fs⟩ := s
  cases hfolds with
  | plain => exact List.append_nil _
  | openField hFD | closedField hFD => simp_all
  | bare hbarcode | openData hbarcode | closedData hbarcode =>
    exact absurd h (barcodeCodes_apart hbarcode).2.2.2.1

/-- The errors of a share are those that its command calls for. -/
theorem errors_blame (source : List Char) (hfolds : s.head.Folds s.folded) :
    List.Forall₂ Command.BlamedBy ([s.command source].filter Command.lacksCoordinates)
      s.errors := by
  have hkind : (s.command source).kind.isPair = decide (s.head.code.value ∈ ["LH", "FO"]) :=
    s.isPair_kind
  by_cases hpair : s.head.code.value ∈ ["LH", "FO"]
  · have hvalues : (s.command source).parameters = s.head.operands.map Token.value := by
      rw [← parameters_pair hfolds hpair]
      rfl
    have hlength : (s.command source).parameters.length = s.head.operands.length := by
      rw [hvalues, List.length_map]
    have hlacks : (s.command source).lacksCoordinates = decide (s.head.operands.length < 2) := by
      rw [Command.lacksCoordinates, hkind, decide_eq_true hpair, Bool.true_and, hlength]
    rw [errors, if_pos hpair, List.filter_cons, hlacks, List.filter_nil]
    simpa using Rule.coordinateErrors_blame s.place rfl rfl hvalues
  · rw [errors, if_neg hpair, List.filter_cons, Command.lacksCoordinates, hkind,
      decide_eq_false hpair]
    exact .nil

/-- The warnings of a share are those that its command calls for. -/
theorem warnings_remark (source : List Char) (s : Share) :
    List.Forall₂ Command.RemarkedBy ([s.command source].filter (·.kind = .generic))
      s.warnings := by
  have hgeneric : (s.command source).kind = .generic ↔
    s.head.code.value = "FS" ∨ s.head.code.value ∉ builtinRules.map Prod.fst := s.kind_generic_iff
  have hcode : (s.command source).code = s.head.code.value := rfl
  rw [warnings, List.filter_cons, List.filter_nil]
  by_cases hFS : s.head.code.value = "FS"
  · rw [if_pos (decide_eq_true (hgeneric.mpr (.inl hFS))), if_pos hFS]
    exact .cons ⟨by rw [hcode, if_pos hFS]; rfl, rfl, rfl⟩ .nil
  rw [if_neg hFS]
  by_cases hknown : s.head.code.value ∈ builtinRules.map Prod.fst
  · have hkind : ¬(s.command source).kind = .generic := by
      rw [hgeneric]
      exact fun h => h.elim hFS (absurd hknown)
    rw [decide_eq_false hkind, if_pos hknown]
    exact .nil
  · rw [if_pos (decide_eq_true (hgeneric.mpr (.inr hknown))), if_neg hknown]
    exact .cons ⟨by rw [hcode, if_neg hFS]; rfl, rfl, rfl⟩ .nil

end Share

/-! ## Documents -/

/-- Other values of operands keep what the grammars look at. -/
def TokenMap.revalue (value : Token → String) : TokenMap where
  toFun := Token.revalue value
  kind t := by
    unfold Token.revalue
    split <;> rfl
  code t h := by
    rw [Token.revalue, h]
    rfl

theorem Token.revalue_position (value : Token → String) (t : Token) :
    (t.revalue value).position = t.position := by
  unfold revalue
  split <;> rfl

/-- Nothing that is told of a share depends on what its operands say. -/
theorem Share.told_revalue (value : Token → String) (s : Share) :
    (s.map (.revalue value)).errors = s.errors ∧
      (s.map (.revalue value)).warnings = s.warnings := by
  have hposition : ((TokenMap.revalue value).toFun s.head.marker).position = s.place.position :=
    s.head.marker.revalue_position value
  have hcode : (s.map (.revalue value)).head.code.value = s.head.code.value :=
    s.head.code_map (.revalue value)
  have hplace : (s.map (.revalue value)).place = s.place := by
    rw [place_map, hposition]
    rfl
  constructor
  · have hstay : ∀ d ∈ s.errors, d.move (fun _ => s.place.position) = id d := by
      intro d hd
      rw [Diagnostic.move, ← errors_position hd]
      rfl
    rw [errors_map, hposition, List.map_congr_left hstay, List.map_id]
  · rw [warnings, warnings, hcode, hplace]

/-- A document tells what its source and its commands call for. -/
theorem Parser.diagnosed (m : Marks) (padding : Int32) (source : String) :
    ((Parser.mk .builtin m padding).parse source).Diagnosed
      (TokenStream.ofText m source).errors := by
  obtain ⟨ps, p, htokens⟩ := TokenStream.ofText_phrases m source
  have hblame : List.Forall₂ Command.BlamedBy
      (((shares ps).map (Share.command source.toList)).filter Command.lacksCoordinates)
      ((shares ps).flatMap Share.errors) :=
    forall₂_flatMap fun s hs => Share.errors_blame source.toList (folds_of_mem_shares hs)
  have hremark : List.Forall₂ Command.RemarkedBy
      (((shares ps).map (Share.command source.toList)).filter (·.kind = .generic))
      ((shares ps).flatMap Share.warnings) :=
    forall₂_flatMap fun s _ => Share.warnings_remark source.toList s
  rw [Parser.parse_shares padding htokens]
  refine ⟨⟨_, rfl, hblame⟩, hremark, ?_, ?_⟩
  · intro d hd
    rcases List.mem_append.mp hd with hd | hd
    · exact (TokenStream.ofText_errors_lexical hd).2
    · exact forall_mem_of_forall₂ hblame (fun _ _ h => h.severity) d hd
  · exact forall_mem_of_forall₂ hremark fun _ _ h => h.severity

/-- Other values of parameters and contents make no difference to what is told. -/
theorem Parser.told_revalue (m : Marks) (padding : Int32) (source : String)
    (value : Token → String) :
    let doc := (Parser.mk .builtin m padding).documentOf source
      ⟨(TokenStream.ofText m source).tokens.map (Token.revalue value),
        (TokenStream.ofText m source).errors⟩
    doc.metadata.errors = ((Parser.mk .builtin m padding).parse source).metadata.errors ∧
      doc.metadata.warnings = ((Parser.mk .builtin m padding).parse source).metadata.warnings := by
  intro doc
  obtain ⟨ps, p, htokens⟩ := TokenStream.ofText_phrases m source
  have hfinish : (Token.finishAt p).revalue value = .finishAt p := rfl
  have hchanged : (TokenStream.ofText m source).tokens.map (Token.revalue value) =
      (ps.map (Phrase.map (.revalue value))).flatMap Phrase.tokens ++ [.finishAt p] := by
    rw [htokens, List.map_append, Phrase.tokens_map, List.map_singleton, hfinish]
    rfl
  have hdoc := Parser.documentOf_shares m padding source
    ⟨(TokenStream.ofText m source).tokens.map (Token.revalue value),
      (TokenStream.ofText m source).errors⟩ hchanged
  rw [shares_map] at hdoc
  simp only [List.flatMap_map, Share.told_revalue] at hdoc
  rw [Parser.parse_shares padding htokens]
  exact ⟨congrArg (·.metadata.errors) hdoc, congrArg (·.metadata.warnings) hdoc⟩

/-- The diagnostics of a document are exactly those that its commands call for, whatever the
parameters and contents say. -/
theorem parse_diagnoses (m : Marks) (padding : Int32) (source : String) :
    ((Parser.mk .builtin m padding).parse source).Diagnosed (TokenStream.ofText m source).errors ∧
      ∀ value : Token → String,
        let doc := (Parser.mk .builtin m padding).documentOf source
          ⟨(TokenStream.ofText m source).tokens.map (Token.revalue value),
            (TokenStream.ofText m source).errors⟩
        doc.metadata.errors = ((Parser.mk .builtin m padding).parse source).metadata.errors ∧
          doc.metadata.warnings =
            ((Parser.mk .builtin m padding).parse source).metadata.warnings :=
  ⟨Parser.diagnosed m padding source, Parser.told_revalue m padding source⟩

end Zpl
