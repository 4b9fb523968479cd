import Mathlib.Data.List.Perm.Basic
import Zpl.Proofs.Coverage
import Zpl.Proofs.Reading

/-! What becomes of the commands and operands of a source. The tokens of a stream fall
into the stretches that the commands of the document take and single tokens between
them that carry neither a code nor an operand. `parse_accounts` adds up what the
stretches say: no command and no operand is lost or counted twice. -/

namespace Zpl

/-- The adjacent pairs of a marker and a code, in stream order. -/
def commandPairs (ts : List Token) : List (Token × Token) :=
  (ts.zip ts.tail).filter fun (marker, code) => marker.kind == .marker && code.kind == .code

/-- The parameters and contents, in stream order. -/
def operandsOf (ts : List Token) : List Token :=
  ts.filter fun t => t.kind == .parameter || t.kind == .content

/-- The codes of the calls that a command of this kind absorbs. -/
def CommandKind.Absorbs : CommandKind → List String → Prop
  | .fieldData _ closed, codes => codes = if closed then ["FS"] else []
  | .barcode .., codes => codes = [] ∨ codes = ["FD"] ∨ codes = ["FD", "FS"]
  | _, codes => codes = []

/-- The data of a barcode. -/
def CommandKind.data? : CommandKind → Option String
  | .barcode _ _ _ _ _ data => some data
  | _ => none

/-- The data of a barcode, if a content is among the tokens `own` of the command. -/
def Command.absorbedData (c : Command) (own : List Token) : List String :=
  if own.any (·.kind == .content) then c.kind.data?.toList else []

/-- The command was made of the tokens `own`: the first pair is its own, the others
are of absorbed calls, and each operand is a parameter or the data of a barcode. -/
structure Command.Takes (c : Command) (own : List Token) : Prop where
  pairs : ∃ marker code absorbed, own.head? = some marker ∧
    commandPairs own = (marker, code) :: absorbed ∧
    c.position = marker.position ∧ c.code = code.value ∧
    c.kind.Absorbs (absorbed.map fun pair => pair.2.value)
  operands : ((operandsOf own).map Token.value).Perm (c.parameters ++ c.absorbedData own)

/-- The stretches stand in the list in order and do not overlap; the tokens between
them are neither codes nor operands. -/
inductive Stretches : List (List Token) → List Token → Prop where
  | nil : Stretches [] []
  | skip {t xs ts} : t.kind ∉ [.code, .parameter, .content] → Stretches xs ts →
      Stretches xs (t :: ts)
  | take {own xs ts} : Stretches xs ts → Stretches (own :: xs) (own ++ ts)

/-- The account of a document: each command with the tokens it was made of. -/
structure Document.Accounts (d : Document) (tokens : List Token)
    (parts : List (Command × List Token)) : Prop where
  commands : parts.map Prod.fst = d.commands
  stretches : Stretches (parts.map Prod.snd) tokens
  takes : ∀ part ∈ parts, part.1.Takes part.2
  pairs : parts.flatMap (fun part => commandPairs part.2) = commandPairs tokens
  operands : ((operandsOf tokens).map Token.value).Perm
    (d.commands.flatMap Command.parameters ++ parts.flatMap fun part => part.1.absorbedData part.2)

/-! ## Pairs and operands of stretches -/

theorem commandPairs_cons_cons (t u : Token) (ts : List Token) :
    commandPairs (t :: u :: ts) =
      if t.kind = .marker ∧ u.kind = .code then (t, u) :: commandPairs (u :: ts)
      else commandPairs (u :: ts) := by
  simp [commandPairs, List.filter_cons]

theorem commandPairs_skip {t : Token} {ts : List Token}
    (h : t.kind ≠ .marker ∨ StartsWithout (· == .code) ts) :
    commandPairs (t :: ts) = commandPairs ts := by
  cases ts with
  | nil => rfl
  | cons u ts =>
    rw [commandPairs_cons_cons, if_neg]
    rintro ⟨hmarker, hcode⟩
    rcases h with h | h
    · exact h hmarker
    · have := h u rfl
      simp [hcode] at this

theorem commandPairs_append {ts us : List Token} (h : StartsWithout (· == .code) us) :
    commandPairs (ts ++ us) = commandPairs ts ++ commandPairs us := by
  induction ts with
  | nil => rfl
  | cons t ts ih =>
    cases ts with
    | nil => exact commandPairs_skip (.inr h)
    | cons u ts =>
      rw [List.cons_append, List.cons_append, commandPairs_cons_cons, commandPairs_cons_cons]
      rw [List.cons_append] at ih
      rw [ih]
      split <;> rfl

theorem commandPairs_eq_nil {ts : List Token} (h : ∀ t ∈ ts, t.kind ≠ .marker) :
    commandPairs ts = [] := by
  induction ts with
  | nil => rfl
  | cons t ts ih =>
    rw [commandPairs_skip (.inl (h t List.mem_cons_self))]
    exact ih fun u hu => h u (List.mem_cons_of_mem _ hu)

@[simp] theorem operandsOf_append (ts us : List Token) :
    operandsOf (ts ++ us) = operandsOf ts ++ operandsOf us := by
  simp [operandsOf]

namespace Stretches

variable {xs : List (List Token)} {ts us : List Token}

theorem skips (h : Stretches xs us) (hts : ∀ t ∈ ts, t.kind ∉ [.code, .parameter, .content]) :
    Stretches xs (ts ++ us) := by
  induction ts with
  | nil => exact h
  | cons t ts ih =>
    exact .skip (hts t List.mem_cons_self) (ih fun u hu => hts u (List.mem_cons_of_mem _ hu))

theorem startsWithout_code (h : Stretches xs ts)
    (hxs : ∀ own ∈ xs, ∃ marker, own.head? = some marker ∧ marker.kind = .marker) :
    StartsWithout (· == .code) ts := by
  intro t ht
  cases h with
  | nil => simp at ht
  | @skip u _ _ hk _ =>
    obtain rfl : u = t := Option.some.inj ht
    have hcode : u.kind ≠ .code := by
      intro hcode
      simp [hcode] at hk
    simpa using hcode
  | @take own _ _ _ =>
    obtain ⟨marker, hhead, hmarker⟩ := hxs own List.mem_cons_self
    rw [List.head?_append, hhead] at ht
    obtain rfl : marker = t := by simpa using ht
    simp [hmarker]

theorem pairs (h : Stretches xs ts)
    (hxs : ∀ own ∈ xs, ∃ marker, own.head? = some marker ∧ marker.kind = .marker) :
    commandPairs ts = xs.flatMap commandPairs := by
  induction h with
  | nil => rfl
  | skip _ h ih => rw [commandPairs_skip (.inr (h.startsWithout_code hxs)), ih hxs]
  | take h ih =>
    have hrest := fun own hown => hxs own (List.mem_cons_of_mem _ hown)
    rw [commandPairs_append (h.startsWithout_code hrest), ih hrest, List.flatMap_cons]

theorem operands (h : Stretches xs ts) : operandsOf ts = xs.flatMap operandsOf := by
  induction h with
  | nil => rfl
  | @skip t _ ts hk _ ih =>
    have hoperand : (t.kind == .parameter || t.kind == .content) = false := by
      cases ht : t.kind <;> simp_all
    rw [← ih, operandsOf, List.filter_cons, hoperand]
    rfl
  | take _ ih => rw [operandsOf_append, ih, List.flatMap_cons]

end Stretches

/-! ## Shares -/

namespace Call

theorem commandPairs_tokens (c : Call) : commandPairs c.tokens = [(c.marker, c.code)] := by
  have hrest : commandPairs (c.code :: c.operands) = [] := by
    refine commandPairs_eq_nil (List.forall_mem_cons.mpr ⟨by simp [c.code_kind], ?_⟩)
    intro t ht hmarker
    have hoperand := c.operands_operand t ht
    simp [hmarker, Rule.isOperand] at hoperand
  rw [tokens, commandPairs_cons_cons, if_pos ⟨c.marker_kind, c.code_kind⟩, hrest]

theorem operandsOf_tokens (c : Call) : operandsOf c.tokens = c.operands := by
  have hall : c.operands.filter (fun t => t.kind == .parameter || t.kind == .content) = c.operands :=
    List.filter_eq_self.mpr c.operands_operand
  simp [operandsOf, tokens, c.marker_kind, c.code_kind, hall]

end Call

namespace Share

variable (s : Share)

/-- The call of a share and those folded into it. -/
def calls : List Call :=
  s.head :: s.folded.map Folded.call

theorem stretches_folded (fs : List Folded) :
    Stretches (fs.map fun f => f.call.tokens) (fs.flatMap Folded.tokens) := by
  induction fs with
  | nil => exact .nil
  | cons f fs ih =>
    rw [List.flatMap_cons, Folded.tokens, List.append_assoc]
    refine Stretches.skips (.take ih) ?_
    intro t ht
    simp [f.breaks_kind t ht]

theorem stretches_calls : Stretches (s.calls.map Call.tokens) s.tokens := by
  rw [calls, List.map_cons, List.map_map]
  exact .take (stretches_folded s.folded)

theorem commandPairs_tokens : commandPairs s.tokens = s.calls.map fun c => (c.marker, c.code) := by
  rw [s.stretches_calls.pairs]
  · rw [List.flatMap_map, List.map_eq_flatMap]
    simp only [Call.commandPairs_tokens]
  · intro own hown
    obtain ⟨c, -, rfl⟩ := List.mem_map.mp hown
    exact ⟨c.marker, rfl, c.marker_kind⟩

theorem operandsOf_tokens : operandsOf s.tokens = s.calls.flatMap Call.operands := by
  rw [s.stretches_calls.operands, List.flatMap_map]
  simp only [Call.operandsOf_tokens]

theorem any_content_tokens :
    s.tokens.any (·.kind == .content) = (s.calls.flatMap Call.operands).any (·.kind == .content) := by
  rw [← operandsOf_tokens, operandsOf, List.any_filter]
  congr 1
  funext t
  cases t.kind <;> rfl

end Share

section Absorbing

variable {c : Call} {ps : List Phrase}

theorem plainKind_absorbs (code : String) (ts : List Token) : (plainKind code ts).Absorbs [] := by
  unfold plainKind
  split <;> rfl

theorem Share.absorbs (s : Share) (h : s.head.Folds s.folded) :
    s.kind.Absorbs (s.folded.map fun f => f.call.code.value) := by
  obtain ⟨c, fs⟩ := s
  cases h with
  | plain hFD hbarcode =>
    rw [kind_plain hFD hbarcode]
    exact plainKind_absorbs _ _
  | openField hFD =>
    rw [kind_field hFD]
    rfl
  | closedField hFD hFS =>
    rw [kind_field hFD]
    simp [CommandKind.Absorbs, hFS]
  | bare hbarcode =>
    rw [kind_barcode hbarcode]
    exact .inl rfl
  | openData hbarcode hdata =>
    rw [kind_barcode hbarcode]
    simp [CommandKind.Absorbs, hdata]
  | closedData hbarcode hdata hFS =>
    rw [kind_barcode hbarcode]
    simp [CommandKind.Absorbs, hdata, hFS]

theorem any_content_parameters {ts : List Token} (h : ∀ t ∈ ts, t.kind = .parameter) :
    ts.any (·.kind == .content) = false := by
  rw [List.any_eq_false]
  intro t ht
  simp [h t ht]

/-- The data of a barcode are those of the content among its tokens. -/
theorem Share.absorbedData_barcode (source : List Char) {s : Share}
    (h : s.head.code.value ∈ barcodeCodes) :
    (s.command source).absorbedData s.tokens =
      if (s.folded.flatMap fun f => f.call.operands).any (·.kind == .content) then
        [Rule.contentValue s.content] else [] := by
  obtain ⟨hFD, hFV, -⟩ := barcodeCodes_apart h
  have hown := any_content_parameters (s.head.operands_parameter hFD hFV)
  have hkind : (s.command source).kind = _ := kind_barcode h
  rw [Command.absorbedData, hkind, any_content_tokens, calls, List.flatMap_cons, List.any_append,
    hown, Bool.false_or, List.flatMap_map]
  rfl

theorem plainKind_data? (code : String) (ts : List Token) : (plainKind code ts).data? = none := by
  unfold plainKind
  split <;> rfl

theorem Share.absorbedData_other (source : List Char) {s : Share}
    (h : s.head.code.value ∉ barcodeCodes) : (s.command source).absorbedData s.tokens = [] := by
  have hdata : (s.command source).kind.data? = none := by
    show s.kind.data? = none
    by_cases hFD : s.head.code.value = "FD"
    · rw [kind_field hFD]
      rfl
    · rw [kind_plain hFD h, plainKind_data?]
  rw [Command.absorbedData, hdata]
  exact ite_self _

/-- Every operand of a share is a parameter of its command or the data of a barcode. -/
theorem Share.operands_perm (source : List Char) (s : Share) (h : s.head.Folds s.folded) :
    ((s.calls.flatMap Call.operands).map Token.value).Perm
      ((s.command source).parameters ++ (s.command source).absorbedData s.tokens) := by
  show List.Perm _ (s.parameters.map Token.value ++ _)
  obtain ⟨c, fs⟩ := s
  cases h with
  | plain hFD hbarcode =>
    rw [absorbedData_other source hbarcode]
    simp [calls, parameters, foldedOperands]
  | openField hFD =>
    rw [absorbedData_other source (not_mem_barcodeCodes hFD)]
    simp [calls, parameters, foldedOperands]
  | closedField hFD hFS =>
    rw [absorbedData_other source (not_mem_barcodeCodes hFD)]
    simp [calls, parameters, foldedOperands, hFS]
  | bare hbarcode =>
    rw [absorbedData_barcode source hbarcode]
    simp [calls, parameters, foldedOperands]
  | @openData field hbarcode hdata =>
    rw [absorbedData_barcode source hbarcode]
    obtain ⟨content, hcontent, hkind⟩ := field.call.operands_content hdata
    cases content with
    | none => simp [calls, parameters, foldedOperands, hcontent, hdata]
    | some t =>
      simp [calls, parameters, foldedOperands, hcontent, hdata, hkind t rfl, content,
        Rule.contentValue]
  | @closedData field separator hbarcode hdata hFS =>
    rw [absorbedData_barcode source hbarcode]
    obtain ⟨content, hcontent, hkind⟩ := field.call.operands_content hdata
    have hseparator := any_content_parameters
      (separator.call.operands_parameter (by simp [hFS]) (by simp [hFS]))
    cases content with
    | none => simp [calls, parameters, foldedOperands, hcontent, hdata, hFS, hseparator]
    | some t =>
      -- the data stand before the parameters of the separator, which come first in the command
      have hperm : (t :: separator.call.operands).Perm (separator.call.operands ++ [t]) :=
        (List.perm_append_singleton t separator.call.operands).symm
      have hmap := (hperm.append_left c.operands).map Token.value
      simpa [calls, parameters, foldedOperands, hcontent, hdata, hkind t rfl, hFS, content,
        Rule.contentValue] using hmap

end Absorbing

/-- The command of a share is made of the tokens of the share. -/
theorem Share.takes (source : List Char) (s : Share) (h : s.head.Folds s.folded) :
    (s.command source).Takes s.tokens where
  pairs := by
    refine ⟨s.head.marker, s.head.code, _, rfl, s.commandPairs_tokens, rfl, rfl, ?_⟩
    simpa [command, Function.comp_def] using s.absorbs h
  operands := by
    rw [operandsOf_tokens]
    exact operands_perm source s h

theorem stretches_shares (ps : List Phrase) (p : Position) :
    Stretches ((shares ps).map Share.tokens) (ps.flatMap Phrase.tokens ++ [.finishAt p]) := by
  fun_induction shares ps with
  | case1 => exact .skip (by simp [Token.finishAt]) .nil
  | case2 c ps ih =>
    rw [c.share_tokens, List.append_assoc]
    exact .take ih
  | case3 q ps hq ih =>
    obtain ⟨t, ht, hkind⟩ := Phrase.single hq
    rw [List.flatMap_cons, ht]
    refine .skip ?_ ih
    rcases hkind with hk | hk | hk <;> simp [hk]

/-! ## Pairs occur once -/

theorem mem_of_mem_commandPairs {ts : List Token} {pair : Token × Token}
    (h : pair ∈ commandPairs ts) : pair.1 ∈ ts :=
  (List.of_mem_zip (List.mem_filter.mp h).1).1

theorem commandPairs_nodup {ts : List Token} (h : ts.Nodup) : (commandPairs ts).Nodup := by
  induction ts with
  | nil => exact .nil
  | cons t ts ih =>
    obtain ⟨ht, hts⟩ := List.nodup_cons.mp h
    cases ts with
    | nil => exact .nil
    | cons u ts =>
      rw [commandPairs_cons_cons]
      split
      · exact List.nodup_cons.mpr ⟨fun hmem => ht (mem_of_mem_commandPairs hmem), ih hts⟩
      · exact ih hts

namespace TokenStream

/-- No two tokens of a stream stand at one place. -/
theorem ofText_positions (m : Marks) (source : String) :
    (ofText m source).tokens.Pairwise fun t u => t.position ≠ u.position := by
  obtain ⟨front, p, htokens, -, hfront⟩ := ofText_ending m source
  have hordered := ofText_ordered m source
  rw [htokens, List.pairwise_append] at hordered ⊢
  have hne : ∀ {t u : Token}, t ∈ front → t.stop ≤ u.position.offset →
      t.position ≠ u.position := by
    intro t u ht hle heq
    exact absurd (hfront t ht).2 (Nat.not_lt.mpr (heq ▸ hle))
  refine ⟨?_, List.pairwise_singleton _ _, fun t ht u hu => hne ht (hordered.2.2 t ht u hu)⟩
  exact hordered.1.imp_of_mem fun ht _ hle => hne ht hle

/-- No token occurs twice in a stream. -/
theorem ofText_nodup (m : Marks) (source : String) : (ofText m source).tokens.Nodup :=
  (ofText_positions m source).imp fun hne heq => hne (congrArg Token.position heq)

/-- The lexical errors have codes of their own. -/
theorem ofText_errors_lexical {m : Marks} {source : String} {d : Diagnostic}
    (h : d ∈ (ofText m source).errors) :
    d.code ∈ ["ZPL0001", "ZPL0002", "ZPL0003"] ∧ d.severity = .error := by
  rw [ofText_errors] at h
  obtain ⟨x, -, hx⟩ := List.mem_filterMap.mp h
  obtain ⟨problem, hproblem, rfl⟩ := Option.map_eq_some_iff.mp hx
  unfold Lexeme.problem? at hproblem
  split at hproblem
  · obtain rfl := Option.some.inj hproblem
    simp [Problem.code, Problem.severity]
  · obtain rfl := Option.some.inj hproblem
    simp [Problem.code, Problem.severity]
  · obtain rfl := Option.some.inj hproblem
    simp [Problem.code, Problem.severity]
  · simp at hproblem

/-- A lexical error is no error of the grammar. -/
theorem ofText_errors_code {m : Marks} {source : String} {d : Diagnostic}
    (h : d ∈ (ofText m source).errors) : d.code ≠ "ZPL0101" := by
  intro hcode
  have hlexical := (ofText_errors_lexical h).1
  rw [hcode] at hlexical
  simp at hlexical

end TokenStream

theorem Share.errors_code {s : Share} {d : Diagnostic} (h : d ∈ s.errors) : d.code ≠ "ZPL0101" := by
  unfold errors Rule.coordinateErrors at h
  split at h
  · split at h
    · simp at h
    · obtain rfl := List.mem_singleton.mp h
      simp [Problem.code]
  · simp at h

/-! ## The account -/

theorem accounts_shares {d : Document} {tokens : List Token} {ps : List Phrase} {p : Position}
    (source : List Char) (htokens : tokens = ps.flatMap Phrase.tokens ++ [.finishAt p])
    (hcommands : d.commands = (shares ps).map (Share.command source)) :
    d.Accounts tokens ((shares ps).map fun s => (s.command source, s.tokens)) := by
  have hstretches : Stretches ((shares ps).map Share.tokens) tokens :=
    htokens ▸ stretches_shares ps p
  have htakes : ∀ s ∈ shares ps, (s.command source).Takes s.tokens :=
    fun s hs => s.takes source (folds_of_mem_shares hs)
  refine ⟨?_, ?_, ?_, ?_, ?_⟩
  · rw [List.map_map, hcommands]
    rfl
  · rw [List.map_map]
    exact hstretches
  · intro part hpart
    obtain ⟨s, hs, rfl⟩ := List.mem_map.mp hpart
    exact htakes s hs
  · rw [hstretches.pairs, List.flatMap_map, List.flatMap_map]
    intro own hown
    obtain ⟨s, -, rfl⟩ := List.mem_map.mp hown
    exact ⟨s.head.marker, rfl, s.head.marker_kind⟩
  · rw [hstretches.operands, hcommands, List.flatMap_map, List.flatMap_map, List.flatMap_map,
      List.map_flatMap]
    refine .trans (List.Perm.flatMap_left _ fun s hs => (htakes s hs).operands) ?_
    exact (List.flatMap_append_perm _ _ _).symm

/-- No command and no operand of a source is lost, and none is counted twice. The
grammar of the built-in set never fails. -/
theorem parse_accounts (m : Marks) (padding : Int32) (source : String) :
    (∃ parts, ((Parser.mk .builtin m padding).parse source).Accounts
        (TokenStream.ofText m source).tokens parts) ∧
      (commandPairs (TokenStream.ofText m source).tokens).Nodup ∧
      ∀ d ∈ ((Parser.mk .builtin m padding).parse source).metadata.errors, d.code ≠ "ZPL0101" := by
  obtain ⟨ps, p, htokens⟩ := TokenStream.ofText_phrases m source
  rw [Parser.parse_shares padding htokens]
  refine ⟨⟨(shares ps).map fun s => (s.command source.toList, s.tokens), ?_⟩,
    commandPairs_nodup (TokenStream.ofText_nodup m source), ?_⟩
  · exact accounts_shares source.toList htokens rfl
  · intro d hd
    rcases List.mem_append.mp hd with hd | hd
    · exact TokenStream.ofText_errors_code hd
    · obtain ⟨s, -, hs⟩ := List.mem_flatMap.mp hd
      exact Share.errors_code hs

end Zpl
