import Zpl.Parser
import Zpl.Proofs.Share

/-! The parser reads shares. Each rule of the built-in command set reads the share of
its call and stops behind it (`ruleFor_reads`), so that the commands and diagnostics of
a document are those of the shares of its stream (`parse_shares`). -/

namespace Zpl

/-- The rule reads the share of a call before some phrases, and nothing else. -/
def ReadsShare (rule : Rule) (c : Call) (ps : List Phrase) : Prop :=
  (rule (c.share ps).place).Passes (c.operands ++ (c.fold ps).1.flatMap Folded.tokens)
    ((c.fold ps).2.flatMap Phrase.tokens) ⟨(c.share ps).parameters, (c.share ps).kind⟩
    (c.share ps).errors (c.share ps).warnings

namespace Call

variable {c : Call} {ps : List Phrase}

theorem operands_parameter (hFD : c.code.value ≠ "FD") (hFV : c.code.value ≠ "FV") :
    ∀ t ∈ c.operands, t.kind = .parameter := by
  have hfit := c.operands_fit
  rwa [OperandsFit, if_neg (by simp [Lexeme.takesContent_iff, hFD, hFV])] at hfit

/-- The content behind `FD`. -/
theorem operands_content (h : c.code.value = "FD") :
    ∃ content : Option Token, c.operands = content.toList ∧
      ∀ t, content = some t → t.kind = .content := by
  have hfit := c.operands_fit
  rwa [OperandsFit, if_pos (by rw [h]; decide)] at hfit

theorem operands_operand (t : Token) (ht : t ∈ c.operands) : Rule.isOperand t.kind :=
  c.operands_fit.isOperand t ht

end Call

section Reading

variable {c : Call} {ps : List Phrase}

theorem plain_reads {rule : Rule} (hfield : c.code.value ≠ "FD")
    (hbarcode : c.code.value ∉ barcodeCodes)
    (h : (rule (c.share ps).place).Passes c.operands (ps.flatMap Phrase.tokens)
      ⟨c.operands, plainKind c.code.value c.operands⟩ (c.share ps).errors (c.share ps).warnings) :
    ReadsShare rule c ps := by
  have hfold : c.fold ps = ([], ps) := Call.fold_plain hfield hbarcode
  unfold ReadsShare
  simpa [Call.share, hfold, Share.parameters, Share.foldedOperands, Share.kind, hfield, hbarcode]
    using h

theorem simple_reads {read : List Token → CommandKind}
    (hcode : c.code.value ∈ ["XA", "XZ", "LL", "GB", "A"])
    (hread : plainKind c.code.value c.operands = read c.operands) :
    ReadsShare (Rule.simple read) c ps := by
  obtain ⟨hFD, hFV, hFS, hbarcode, hpair, hknown⟩ := (by decide : ∀ x ∈ ["XA", "XZ", "LL", "GB", "A"],
    x ≠ "FD" ∧ x ≠ "FV" ∧ x ≠ "FS" ∧ x ∉ barcodeCodes ∧ x ∉ ["LH", "FO"] ∧
      x ∈ builtinRules.map Prod.fst) _ hcode
  obtain ⟨herrors, hwarnings⟩ := Share.no_reports (c.share ps) hpair hFS hknown
  refine plain_reads hFD hbarcode ?_
  rw [herrors, hwarnings, hread]
  exact Rule.simple_passes read (Call.operands_parameter hFD hFV)
    (Phrase.startsWithout_parameter ps)

theorem coordinates_reads {make : Int32 → Int32 → CommandKind}
    (hcode : c.code.value ∈ ["LH", "FO"])
    (hmake : plainKind c.code.value c.operands =
      make (Parameter.intOr (Rule.slot c.operands 0) 0) (Parameter.intOr (Rule.slot c.operands 1) 0)) :
    ReadsShare (Rule.coordinates make) c ps := by
  obtain ⟨hFD, hFV, hFS, hbarcode, hknown⟩ := (by decide : ∀ x ∈ ["LH", "FO"],
    x ≠ "FD" ∧ x ≠ "FV" ∧ x ≠ "FS" ∧ x ∉ barcodeCodes ∧ x ∈ builtinRules.map Prod.fst) _ hcode
  refine plain_reads hFD hbarcode ?_
  rw [Share.errors, Share.warnings, Call.share_head, if_pos hcode, if_neg hFS, if_pos hknown, hmake]
  exact Rule.coordinates_passes make (Call.operands_parameter hFD hFV)
    (Phrase.startsWithout_parameter ps)

theorem fieldSeparator_reads (hcode : c.code.value = "FS") :
    ReadsShare Rule.fieldSeparator c ps := by
  have hkind : plainKind c.code.value c.operands = .generic := by rw [hcode]; rfl
  have hpair : c.code.value ∉ ["LH", "FO"] := by rw [hcode]; decide
  refine plain_reads (by simp [hcode]) (by rw [hcode]; decide) ?_
  rw [Share.errors, Share.warnings, Call.share_head, if_neg hpair, if_pos hcode, hkind, ← hcode]
  exact Rule.fieldSeparator_passes (Call.operands_parameter (by simp [hcode]) (by simp [hcode]))
    (Phrase.startsWithout_parameter ps)

theorem plainKind_unregistered {code : String} (h : code ∉ builtinRules.map Prod.fst)
    (ts : List Token) : plainKind code ts = .generic := by
  unfold plainKind
  split <;> first | rfl | exact absurd (by decide) h

theorem unsupported_reads (hcode : c.code.value ∉ builtinRules.map Prod.fst) :
    ReadsShare (Rule.unsupported Registry.builtin.nearest?) c ps := by
  have hne : ∀ x ∈ builtinRules.map Prod.fst, c.code.value ≠ x := fun x hx he => hcode (he ▸ hx)
  have hbarcode : c.code.value ∉ barcodeCodes := fun h => by
    obtain ⟨-, -, -, -, hknown⟩ := barcodeCodes_apart h
    exact hcode hknown
  have hpair : c.code.value ∉ ["LH", "FO"] := fun h =>
    hcode ((by decide : ∀ x ∈ ["LH", "FO"], x ∈ builtinRules.map Prod.fst) _ h)
  refine plain_reads (hne _ (by decide)) hbarcode ?_
  rw [Share.errors, Share.warnings, Call.share_head, if_neg hpair, if_neg (hne "FS" (by decide)),
    if_neg hcode, plainKind_unregistered hcode]
  exact Rule.unsupported_passes _ Call.operands_operand (Phrase.startsWithout_operand ps)

/-- The separator before some phrases closes a field as the grammar sees it. -/
theorem closes_closing (ps : List Phrase) :
    ∃ closer, Rule.Closes ((closing ps).1.flatMap Folded.tokens)
        ((closing ps).2.flatMap Phrase.tokens) closer ∧
      closer.isSome = !(closing ps).1.isEmpty ∧
      closer.getD [] = (closing ps).1.flatMap (fun f => f.call.operands) ∧
      ∀ f ∈ (closing ps).1, f.call.code.value = "FS" := by
  unfold closing
  split
  · next separator rest h =>
    obtain ⟨-, hcode, -⟩ := Phrase.next?_some h
    have hparameters := separator.call.operands_parameter (by simp [hcode]) (by simp [hcode])
    refine ⟨some separator.call.operands, ?_, rfl, by simp, by simpa using hcode⟩
    have hcloses := Rule.Closes.present separator.breaks_kind separator.call.marker_kind
      separator.call.code_kind hcode hparameters (Phrase.startsWithout_parameter rest)
    simpa [Folded.tokens, Call.tokens] using hcloses
  · next h => exact ⟨none, .absent (Phrase.next?_none h), rfl, rfl, by simp⟩

theorem foldedOperands_closing {c : Call} {fs : List Folded}
    (h : ∀ f ∈ fs, f.call.code.value = "FS") :
    Share.foldedOperands ⟨c, fs⟩ "FS" = fs.flatMap (fun f => f.call.operands) ∧
      Share.foldedOperands ⟨c, fs⟩ "FD" = [] := by
  have hFS : fs.filter (fun f => f.call.code.value == "FS") = fs :=
    List.filter_eq_self.mpr fun f hf => by simp [h f hf]
  have hFD : fs.filter (fun f => f.call.code.value == "FD") = [] :=
    List.filter_eq_nil_iff.mpr fun f hf => by simp [h f hf]
  simp only [Share.foldedOperands]
  rw [hFS, hFD]
  exact ⟨rfl, rfl⟩

theorem isContent_operands {content : Option Token} {ts : List Token}
    (hkind : ∀ t, content = some t → t.kind = .content) (hts : StartsWithout Rule.isOperand ts) :
    Rule.IsContent content ts :=
  ⟨fun t ht => .inl (hkind t ht), fun _ => hts⟩

theorem fieldData_reads (hcode : c.code.value = "FD") : ReadsShare Rule.fieldData c ps := by
  have hfold : c.fold ps = closing ps := Call.fold_field hcode
  have hbehind := closing_tokens ps ▸ Phrase.startsWithout_operand ps
  obtain ⟨content, hcontent, hkind⟩ := c.operands_content hcode
  obtain ⟨closer, hcloses, hsome, hget, hFS⟩ := closes_closing ps
  obtain ⟨herrors, hwarnings⟩ := Share.no_reports (c.share ps) (by rw [Call.share_head, hcode]; decide)
    (by simp [hcode]) (by rw [Call.share_head, hcode]; decide)
  have hparameters : (c.share ps).parameters = content.toList ++ closer.getD [] := by
    rw [Share.parameters, Call.share, hfold, (foldedOperands_closing hFS).1, hget, hcontent]
  have hshare : (c.share ps).kind = .fieldData (Rule.contentValue content) closer.isSome := by
    rw [Share.kind_field hcode, Call.share, hfold, hsome, hcontent, Option.head?_toList]
  unfold ReadsShare
  rw [hparameters, hshare, herrors, hwarnings, hfold, hcontent]
  exact Rule.fieldData_passes
    (isContent_operands hkind hbehind) hcloses

/-- Of the calls that a barcode takes along, only the field data have content. -/
theorem foldedOperands_carried {c : Call} {field : Folded} (h : field.call.code.value = "FD")
    (rest : List Phrase) :
    Share.foldedOperands ⟨c, field :: (closing rest).1⟩ "FD" = field.call.operands := by
  obtain ⟨-, -, -, -, hFS⟩ := closes_closing rest
  have hnone := (foldedOperands_closing (c := c) hFS).2
  simp only [Share.foldedOperands] at hnone ⊢
  simp [h, hnone]

/-- The field data before some phrases, as a barcode carries them along. -/
theorem carries_fold (ps : List Phrase) (hcode : c.code.value ∈ barcodeCodes) :
    ∃ trailing, Rule.Carries ((c.fold ps).1.flatMap Folded.tokens)
        ((c.fold ps).2.flatMap Phrase.tokens) (Rule.contentValue (c.share ps).content) trailing ∧
      (c.share ps).parameters = c.operands ++ trailing := by
  have hfold : c.fold ps = carried ps := Call.fold_barcode hcode
  rw [Share.content, Share.parameters, Call.share, hfold]
  unfold carried
  split
  · next field rest hnext =>
    obtain ⟨-, hfield, -⟩ := Phrase.next?_some hnext
    obtain ⟨content, hcontent, hkind⟩ := field.call.operands_content hfield
    obtain ⟨closer, hcloses, -, hget, hFS⟩ := closes_closing rest
    have hseparator := (foldedOperands_closing (c := c) hFS).1
    have hbehind := closing_tokens rest ▸ Phrase.startsWithout_operand rest
    have hdata : Share.foldedOperands ⟨c, field :: (closing rest).1⟩ "FD" = content.toList := by
      rw [foldedOperands_carried hfield, hcontent]
    have htrailing : Share.foldedOperands ⟨c, field :: (closing rest).1⟩ "FS" = closer.getD [] := by
      simp only [Share.foldedOperands] at hseparator ⊢
      simp [hfield, hseparator, hget]
    simp only [hdata, htrailing, Option.head?_toList]
    refine ⟨closer.getD [], ?_, rfl⟩
    have hcarries := Rule.Carries.present field.breaks_kind field.call.marker_kind
      field.call.code_kind hfield
      (isContent_operands hkind hbehind) hcloses
    simpa [Folded.tokens, Call.tokens, hcontent] using hcarries
  · next hnext => exact ⟨[], .absent (Phrase.next?_none hnext), rfl⟩

theorem barcode_reads (hcode : c.code.value ∈ barcodeCodes) : ReadsShare Rule.barcode c ps := by
  obtain ⟨hFD, hFV, hFS, hpair, hknown⟩ := barcodeCodes_apart hcode
  have hbehind := c.fold_tokens ps ▸ Phrase.startsWithout_parameter ps
  obtain ⟨trailing, hcarries, hparameters⟩ := carries_fold ps hcode
  obtain ⟨herrors, hwarnings⟩ := Share.no_reports (c.share ps) hpair hFS hknown
  unfold ReadsShare
  rw [hparameters, herrors, hwarnings, Share.kind_barcode hcode]
  exact Rule.barcode_passes (Call.operands_parameter hFD hFV) hbehind hcarries

/-! ## The whole command set -/

theorem ruleFor_known {code : String} {rule : Rule}
    (h : builtinRules.reverse.lookup code = some rule) : Registry.builtin.ruleFor code = rule := by
  rw [Registry.ruleFor, Registry.builtin, KeyMap.find?_ofList, h]
  rfl

theorem ruleFor_unknown {code : String} (h : code ∉ builtinRules.map Prod.fst) :
    Registry.builtin.ruleFor code = Rule.unsupported Registry.builtin.nearest? := by
  have hnone : builtinRules.reverse.lookup code = none := by
    rw [List.lookup_eq_none_iff]
    intro entry hentry
    rw [bne_iff_ne]
    intro he
    exact h (he ▸ List.mem_map_of_mem (List.mem_reverse.mp hentry))
  rw [Registry.ruleFor, Registry.builtin, KeyMap.find?_ofList, hnone]
  rfl

/-- The rule for the code of a call reads its share. -/
theorem ruleFor_reads (c : Call) (ps : List Phrase) :
    ReadsShare (Registry.builtin.ruleFor c.code.value) c ps := by
  have known : ∀ {code rule}, c.code.value = code → builtinRules.reverse.lookup code = some rule →
      ReadsShare rule c ps → ReadsShare (Registry.builtin.ruleFor c.code.value) c ps := by
    intro code rule hcode hrule hreads
    rwa [hcode, ruleFor_known hrule]
  by_cases hknown : c.code.value ∈ builtinRules.map Prod.fst
  · simp only [builtinRules, List.map_cons, List.map_nil, List.mem_cons, List.not_mem_nil,
      or_false] at hknown
    rcases hknown with h | h | h | h | h | h | h | h | h | h | h | h
    · exact known h rfl (simple_reads (by simp [h]) (by rw [h]; rfl))
    · exact known h rfl (simple_reads (by simp [h]) (by rw [h]; rfl))
    · exact known h rfl (simple_reads (by simp [h]) (by rw [h]; rfl))
    · exact known h rfl (coordinates_reads (by simp [h]) (by rw [h]; rfl))
    · exact known h rfl (coordinates_reads (by simp [h]) (by rw [h]; rfl))
    · exact known h rfl (simple_reads (by simp [h]) (by rw [h]; rfl))
    · exact known h rfl (fieldData_reads h)
    · exact known h rfl (fieldSeparator_reads h)
    · exact known h rfl (barcode_reads (by rw [h]; decide))
    · exact known h rfl (barcode_reads (by rw [h]; decide))
    · exact known h rfl (barcode_reads (by rw [h]; decide))
    · exact known h rfl (simple_reads (by simp [h]) (by rw [h]; rfl))
  · rw [ruleFor_unknown hknown]
    exact unsupported_reads hknown

end Reading

/-! ## The whole stream -/

namespace Reader

variable {r : Reader} {ps : List Phrase}

theorem stop_passed (s : Share) (rest : List Token) (es ws : List Diagnostic) :
    (r.passed s.tokens rest es ws).cursor.consumedEnd = s.stop := by
  have hne : s.tokens ≠ [] := by simp [Share.tokens, Call.tokens]
  obtain ⟨front, t, ht⟩ : ∃ front t, s.tokens = front ++ [t] :=
    ⟨_, _, (List.dropLast_concat_getLast hne).symm⟩
  simp [Reader.passed, Cursor.consumedEnd, Share.stop, ht]

/-- A reader that has passed a share finishes the command of the share. -/
theorem finish_passed (s : Share) (rest : List Token) (es ws : List Diagnostic) :
    (r.passed s.tokens rest es ws).finish s.place (s.parameters.map Token.value) s.kind =
      s.command r.source := by
  rw [finish, textFrom, stop_passed]
  rfl

/-- Where a call stands, its share becomes a command. -/
theorem dispatch_call {c : Call} (h : r.cursor.ahead = (Phrase.call c :: ps).flatMap Phrase.tokens) :
    r.dispatch (Registry.builtin.ruleFor c.code.value) =
      (some ((c.share ps).command r.source),
        r.passed (c.share ps).tokens ((c.fold ps).2.flatMap Phrase.tokens) (c.share ps).errors
          (c.share ps).warnings) := by
  have hparse := Rule.parse_passes (ruleFor_reads c ps) (h.trans (c.share_tokens ps)) c.marker_kind
    c.code_kind
  rw [dispatch, hparse]
  exact congrArg (fun command => (some command, _)) (finish_passed (c.share ps) _ _ _)

/-- A token that no call begins with is passed. -/
theorem commands_single {t : Token} (ruleFor : String → Rule)
    (hkind : t.kind = .lineBreak ∨ t.kind = .comment ∨ t.kind = .marker)
    (h : r.cursor.ahead = t :: ps.flatMap Phrase.tokens) :
    r.commands ruleFor = (r.passed [t] (ps.flatMap Phrase.tokens) [] []).commands ruleFor := by
  have hpeek : r.cursor.peek = t := Cursor.peek_of_ahead h
  have hfinish : t.kind ≠ .finish := by rcases hkind with hk | hk | hk <;> simp [hk]
  have hend : r.cursor.atEnd = false := Cursor.atEnd_eq_false_iff.mpr (hpeek ▸ hfinish)
  have hcode : (r.cursor.peekNth 1).kind ≠ .code := by
    rw [Cursor.peekNth, h]
    cases hhead : ps.flatMap Phrase.tokens with
    | nil => simp [r.cursor.last_kind]
    | cons u us =>
      have hu : (ps.flatMap Phrase.tokens).head? = some u := by rw [hhead]; rfl
      rcases Phrase.head_kind hu with hk | hk | hk <;> simp [hk]
  have hnone : r.cursor.commandCode? = none := by simp [Cursor.commandCode?, Cursor.atCommand, hcode]
  have hadvance : r.moveTo r.cursor.advance.2 = r.passed [t] (ps.flatMap Phrase.tokens) [] [] := by
    simp [moveTo, passed, Cursor.advance, h, hfinish]
  rw [commands_pass hend hnone, hadvance]

theorem commands_phrases (h : r.cursor.ahead = ps.flatMap Phrase.tokens) :
    r.commands Registry.builtin.ruleFor =
      ((shares ps).map (Share.command r.source),
        r.passed (ps.flatMap Phrase.tokens) [] ((shares ps).flatMap Share.errors)
          ((shares ps).flatMap Share.warnings)) := by
  fun_induction shares ps generalizing r with
  | case1 =>
    have hahead : r.cursor.ahead = [] := h
    rw [commands_end (Cursor.atEnd_of_nil hahead)]
    exact Prod.ext rfl (passed_nil hahead).symm
  | case2 c ps ih =>
    have hpeek : r.cursor.peek = c.marker := Cursor.peek_of_ahead h
    have hend : r.cursor.atEnd = false := by
      rw [Cursor.atEnd_eq_false_iff, hpeek, c.marker_kind]
      decide
    have hcode : r.cursor.peekNth 1 = c.code := by
      simp [Cursor.peekNth, h, Phrase.tokens, Call.tokens]
    have hsome : r.cursor.commandCode? = some c.code.value := by
      simp [Cursor.commandCode?, Cursor.atCommand, Cursor.check, hpeek, hcode, c.marker_kind,
        c.code_kind]
    rw [commands_dispatch hend hsome, dispatch_call h, ih rfl, passed_passed, ← c.share_tokens]
    rfl
  | case3 p ps hp ih =>
    obtain ⟨t, ht, hkind⟩ := Phrase.single hp
    rw [List.flatMap_cons, ht] at h ⊢
    rw [commands_single _ hkind h, ih rfl, passed_passed]
    rfl

end Reader

/-- A document of the built-in command set is read off the shares of its stream. -/
theorem Parser.documentOf_shares (m : Marks) (padding : Int32) (source : String)
    (stream : TokenStream) {ps : List Phrase} {p : Position}
    (h : stream.tokens = ps.flatMap Phrase.tokens ++ [.finishAt p]) :
    (Parser.mk .builtin m padding).documentOf source stream =
      { commands := (shares ps).map (Share.command source.toList)
        metadata :=
          { sourceText := source
            errors := stream.errors ++ (shares ps).flatMap Share.errors
            warnings := (shares ps).flatMap Share.warnings
            labelWidth := labelWidth? ((shares ps).map (Share.command source.toList)) padding
            labelLength := labelLength? ((shares ps).map (Share.command source.toList)) } } := by
  have hahead : (Reader.ofStream source stream).cursor.ahead = ps.flatMap Phrase.tokens := by
    simp [Reader.ofStream, Cursor.ofTokens, h, Token.finishAt]
  have hread := Reader.commands_phrases hahead
  rw [Parser.documentOf, hread]
  simp [Reader.ofStream, Reader.passed]

theorem Parser.parse_shares {m : Marks} {source : String} {ps : List Phrase} {p : Position}
    (padding : Int32)
    (h : (TokenStream.ofText m source).tokens = ps.flatMap Phrase.tokens ++ [.finishAt p]) :
    (Parser.mk .builtin m padding).parse source =
      { commands := (shares ps).map (Share.command source.toList)
        metadata :=
          { sourceText := source
            errors := (TokenStream.ofText m source).errors ++ (shares ps).flatMap Share.errors
            warnings := (shares ps).flatMap Share.warnings
            labelWidth := labelWidth? ((shares ps).map (Share.command source.toList)) padding
            labelLength := labelLength? ((shares ps).map (Share.command source.toList)) } } :=
  documentOf_shares m padding source (.ofText m source) h

end Zpl
