import Mathlib.Data.List.Forall2
import Zpl.Proofs.LabelSize
import Zpl.Proofs.Slices

/-! Registering a rule. Two programs that differ only in the warnings they record run alike
from readers that differ only in the warnings recorded so far (`Grammar.Like.run`). With one
more rule in the registry, or another one, a command whose code is a different one is read by
such a program, so the new rule is not noticed, except where a warning suggests the nearest
known code (`parse_register`). -/

namespace Zpl

/-- The two warnings about an unknown command differ in what they suggest. The code was added
to the registry and the unknown one is near it, so they are equally long. -/
structure Diagnostic.Resuggested (registry : Registry) (code : String) (d e : Diagnostic) :
    Prop where
  kind : d.code = "ZPL0201"
  same : e = { d with suggestion := e.suggestion }
  added : registry.find? code = none
  unknown : ∃ other, d.context = some (.ofList [("command", other)]) ∧
    registry.find? other = none ∧ Registry.isNear code other ∧
    Text.byteLength other.toList = Text.byteLength code.toList

/-- The two documents are the same, but for suggestions that a rule for the code changes. -/
structure Document.Unaffected (registry : Registry) (code : String) (a b : Document) : Prop where
  commands : b.commands = a.commands
  sourceText : b.metadata.sourceText = a.metadata.sourceText
  errors : b.metadata.errors = a.metadata.errors
  labelWidth : b.metadata.labelWidth = a.metadata.labelWidth
  labelLength : b.metadata.labelLength = a.metadata.labelLength
  warnings : List.Forall₂ (fun d e => e = d ∨ d.Resuggested registry code e)
    a.metadata.warnings b.metadata.warnings

/-! ## Programs that differ in their warnings -/

/-- The readers differ only in the warnings recorded, which are related one by one. -/
structure Reader.Like (W : Diagnostic → Diagnostic → Prop) (r s : Reader) : Prop where
  source : s.source = r.source
  cursor : s.cursor = r.cursor
  errors : s.errors = r.errors
  warnings : List.Forall₂ W r.warnings s.warnings

namespace Grammar

variable {α β : Type} {W : Diagnostic → Diagnostic → Prop}

/-- The programs differ only in the warnings they record, which are related one by one. -/
inductive Like (W : Diagnostic → Diagnostic → Prop) : Grammar α → Grammar α → Prop where
  | done (result) : Like W (done result) (done result)
  | peek {next next'} : (∀ t, Like W (next t) (next' t)) → Like W (peek next) (peek next')
  | advance {next next'} : (∀ t, Like W (next t) (next' t)) → Like W (advance next) (advance next')
  | expect {kind next next'} : (∀ t, Like W (next t) (next' t)) →
      Like W (expect kind next) (expect kind next')
  | takeWhile {accepts next next'} : (∀ ts, Like W (next ts) (next' ts)) →
      Like W (takeWhile accepts next) (takeWhile accepts next')
  | eatCommand {code next next'} : (∀ head, Like W (next head) (next' head)) →
      Like W (eatCommand code next) (eatCommand code next')
  | error {d next next'} : Like W next next' → Like W (error d next) (error d next')
  | warn {d e next next'} : W d e → Like W next next' → Like W (warn d next) (warn e next')

theorem Like.refl (hW : ∀ d, W d d) (g : Grammar α) : g.Like W g := by
  induction g with
  | done result => exact .done result
  | peek next ih => exact .peek ih
  | advance next ih => exact .advance ih
  | expect kind next ih => exact .expect ih
  | takeWhile accepts next ih => exact .takeWhile ih
  | eatCommand code next ih => exact .eatCommand ih
  | error d next ih => exact .error ih
  | warn d next ih => exact .warn (hW d) ih

end Grammar

namespace Reader.Like

variable {W : Diagnostic → Diagnostic → Prop} {r s : Reader}

theorem moveTo (h : r.Like W s) (c : Cursor) : (r.moveTo c).Like W (s.moveTo c) :=
  ⟨h.source, rfl, h.errors, h.warnings⟩

theorem recordError (h : r.Like W s) (d : Diagnostic) :
    (r.recordError d).Like W (s.recordError d) :=
  ⟨h.source, h.cursor, congrArg (· ++ [d]) h.errors, h.warnings⟩

theorem recordWarning (h : r.Like W s) {d e : Diagnostic} (hde : W d e) :
    (r.recordWarning d).Like W (s.recordWarning e) :=
  ⟨h.source, h.cursor, h.errors, List.rel_append h.warnings (.cons hde .nil)⟩

theorem passed (h : r.Like W s) (taken rest : List Token) :
    (r.passed taken rest [] []).Like W (s.passed taken rest [] []) := by
  refine ⟨h.source, ?_, congrArg (· ++ []) h.errors, ?_⟩
  · simp only [Reader.passed, h.cursor]
  · simpa [Reader.passed] using h.warnings

theorem finish (h : r.Like W s) (head : Head) (parameters : List String) (kind : CommandKind) :
    s.finish head parameters kind = r.finish head parameters kind := by
  simp only [Reader.finish, Reader.textFrom, h.source, h.cursor]

end Reader.Like

/-- Such programs give the same results, and leave readers that are alike. -/
theorem Grammar.Like.run {α : Type} {W : Diagnostic → Diagnostic → Prop} {g g' : Grammar α}
    (hg : g.Like W g') {r s : Reader} (h : r.Like W s) :
    (g'.run s).1 = (g.run r).1 ∧ (g.run r).2.Like W (g'.run s).2 := by
  induction hg generalizing r s with
  | done result => exact ⟨rfl, h⟩
  | peek _ ih =>
    rw [Grammar.run, Grammar.run, h.cursor]
    exact ih _ h
  | advance _ ih =>
    rw [Grammar.run, Grammar.run, h.cursor]
    exact ih _ (h.moveTo _)
  | expect _ ih =>
    simp only [Grammar.run, h.cursor]
    split
    · exact ⟨rfl, h⟩
    · exact ih _ (h.moveTo _)
  | takeWhile _ ih =>
    rw [Grammar.run, Grammar.run, h.cursor]
    exact ih _ (h.moveTo _)
  | eatCommand _ ih =>
    simp only [Grammar.run, h.cursor]
    split
    · exact ih _ h
    · exact ih _ (h.moveTo _)
  | error _ ih => exact ih (h.recordError _)
  | warn hde _ ih => exact ih (h.recordWarning hde)

namespace Reader.Like

variable {W : Diagnostic → Diagnostic → Prop} {r s : Reader} {marker word : Token}
  {rest : List Token}

/-- Where a command starts, rules that are alike for its head read alike. -/
theorem parse (h : r.Like W s) (hahead : r.cursor.ahead = marker :: word :: rest)
    (hmarker : marker.kind = .marker) (hword : word.kind = .code) {rule rule' : Rule}
    (hrule : (rule ⟨word.value, marker.position⟩).Like W (rule' ⟨word.value, marker.position⟩)) :
    (rule'.parse s).1 = (rule.parse r).1 ∧ (rule.parse r).2.Like W (rule'.parse s).2 := by
  have hrun := hrule.run (h.passed [marker, word] rest)
  rw [rule.parse_command hahead hmarker hword,
    rule'.parse_command (h.cursor ▸ hahead) hmarker hword]
  generalize (rule _).run _ = run, (rule' _).run _ = run' at hrun ⊢
  obtain ⟨result, t⟩ := run
  obtain ⟨result', u⟩ := run'
  obtain ⟨rfl : result' = result, hlike : t.Like W u⟩ := hrun
  cases result' with
  | error e => exact ⟨rfl, hlike⟩
  | ok reading => exact ⟨congrArg Except.ok (hlike.finish _ _ _), hlike⟩

theorem dispatch (h : r.Like W s) (hahead : r.cursor.ahead = marker :: word :: rest)
    (hmarker : marker.kind = .marker) (hword : word.kind = .code) {rule rule' : Rule}
    (hrule : (rule ⟨word.value, marker.position⟩).Like W (rule' ⟨word.value, marker.position⟩)) :
    (s.dispatch rule').1 = (r.dispatch rule).1 ∧
      (r.dispatch rule).2.Like W (s.dispatch rule').2 := by
  have hparse := h.parse hahead hmarker hword hrule
  unfold Reader.dispatch
  generalize rule.parse r = parsed, rule'.parse s = parsed' at hparse ⊢
  obtain ⟨result, t⟩ := parsed
  obtain ⟨result', u⟩ := parsed'
  obtain ⟨rfl : result' = result, hlike : t.Like W u⟩ := hparse
  cases result' with
  | ok command => exact ⟨rfl, hlike⟩
  | error e =>
    refine ⟨rfl, ?_⟩
    simp only [hlike.cursor]
    exact (hlike.recordError _).moveTo _

/-- Whole labels are read alike, if the rules for the codes in front are alike. -/
theorem commands {ruleFor ruleFor' : String → Rule} (ok : String → Prop)
    (hrules : ∀ head, ok head.code → (ruleFor head.code head).Like W (ruleFor' head.code head))
    (hcodes : ∀ t ∈ r.cursor.ahead, t.kind = .code → ok t.value) (h : r.Like W s) :
    (s.commands ruleFor').1 = (r.commands ruleFor).1 ∧
      (r.commands ruleFor).2.Like W (s.commands ruleFor').2 := by
  fun_induction Reader.commands r ruleFor generalizing s with
  | case1 r hend =>
    rw [Reader.commands_end (h.cursor ▸ hend)]
    exact ⟨rfl, h⟩
  | case2 r hend hnone ih =>
    obtain ⟨ts, hts⟩ := r.cursor.advance_advances
    rw [Reader.commands_pass (by simpa [h.cursor] using hend) (h.cursor ▸ hnone), h.cursor]
    refine ih (fun t ht => hcodes t ?_) (h.moveTo _)
    rw [hts.ahead]
    exact List.mem_append_right _ ht
  | case3 r hend code hcode first more =>
    rename_i ih
    obtain ⟨marker, word, behind, hahead, hmarker, hword, rfl⟩ := Cursor.commandCode?_some hcode
    obtain ⟨ts, hts⟩ := r.dispatch_advances (ruleFor word.value)
    have hok : ok word.value := hcodes word (by simp [hahead]) hword
    obtain ⟨hfirst, hlike⟩ := h.dispatch hahead hmarker hword (hrules ⟨word.value, _⟩ hok)
    have hbehind : ∀ t ∈ first.2.cursor.ahead, t.kind = .code → ok t.value := by
      intro t ht
      refine hcodes t ?_
      rw [hts.cursor.ahead]
      exact List.mem_append_right _ ht
    obtain ⟨hrest, hend'⟩ := ih hbehind hlike
    rw [Reader.commands_dispatch (by simpa [h.cursor] using hend) (h.cursor ▸ hcode)]
    exact ⟨congrArg₂ (fun command more => command.toList ++ more) hfirst hrest, hend'⟩

end Reader.Like

/-! ## Registries -/

namespace Registry

variable {registry : Registry} {code other : String}

/-- Of the rules for other codes, only the one for unknown codes is built anew. -/
theorem ruleFor_insert (rule : Rule) (h : other ≠ code) :
    ruleFor (registry.insert code rule) other = (registry.find? other).getD
      (Rule.unsupported (nearest? (registry.insert code rule))) := by
  rw [ruleFor, KeyMap.find?_insert, if_neg h]

/-- A code that was known before, or that is not near, is not a new candidate. -/
theorem nearest?_insert (rule : Rule) (h : registry.find? code ≠ none ∨ isNear code other = false) :
    nearest? (registry.insert code rule) other = registry.nearest? other := by
  rcases h with hknown | hfar
  · rw [nearest?, nearest?, KeyMap.keys_insert rule hknown]
  · have hkeys : (KeyMap.insert registry code rule).keys.filter (isNear · other) =
        registry.keys.filter (isNear · other) :=
      KeyMap.filter_keys_insert registry rule hfar
    rw [nearest?, nearest?, hkeys]

theorem isNear_length (h : isNear code other) :
    Text.byteLength other.toList = Text.byteLength code.toList := by
  simp only [isNear, Bool.and_eq_true, beq_iff_eq] at h
  exact h.1.symm

/-- The warning about an unknown command, before and after a rule is registered. -/
theorem unsupported_resuggested (rule : Rule) (hother : registry.find? other = none)
    (p : Position) :
    let before := (Problem.unsupportedCommand other (registry.nearest? other)).diagnose p
    let after :=
      (Problem.unsupportedCommand other (nearest? (registry.insert code rule) other)).diagnose p
    after = before ∨ before.Resuggested registry code after := by
  intro before after
  by_cases hnew : registry.find? code = none ∧ isNear code other
  · exact .inr ⟨rfl, rfl, hnew.1, other, rfl, hother, hnew.2, isNear_length hnew.2⟩
  · rw [not_and_or, Bool.not_eq_true] at hnew
    have hsame := nearest?_insert rule hnew
    exact .inl (congrArg (fun near => (Problem.unsupportedCommand other near).diagnose p) hsame)

/-- The rules for another code are alike before and after a rule is registered. -/
theorem ruleFor_like (rule : Rule) {head : Head} (h : head.code ≠ code) :
    (registry.ruleFor head.code head).Like (fun d e => e = d ∨ d.Resuggested registry code e)
      (ruleFor (registry.insert code rule) head.code head) := by
  rw [ruleFor_insert rule h, ruleFor]
  cases hrule : registry.find? head.code with
  | some known => exact .refl (fun _ => .inl rfl) _
  | none =>
    exact .takeWhile fun operands =>
      .warn (unsupported_resuggested rule hrule head.position) (.done _)

end Registry

/-- The tokens in front of a new cursor are those of its list. -/
theorem Cursor.mem_of_mem_ofTokens {tokens : List Token} {t : Token}
    (h : t ∈ (Cursor.ofTokens tokens).ahead) : t ∈ tokens := by
  unfold Cursor.ofTokens at h
  split at h
  · cases h
  · split at h
    · exact (List.dropLast_sublist tokens).subset h
    · exact h

/-- A rule for a code that does not occur in a source makes no difference to its document, but
for suggestions of codes as long as the new one. -/
theorem parse_register (registry : Registry) (code : String) (rule : Rule) (m : Marks)
    (padding : Int32) (source : String)
    (h : ∀ t ∈ (TokenStream.ofText m source).tokens, t.kind = .code → t.value ≠ code) :
    ((Parser.mk registry m padding).parse source).Unaffected registry code
      ((Parser.mk (registry.insert code rule) m padding).parse source) := by
  let r := Reader.ofStream source (.ofText m source)
  have hlike : r.Like (fun d e => e = d ∨ d.Resuggested registry code e) r :=
    ⟨rfl, rfl, rfl, .nil⟩
  obtain ⟨hcommands, hreader⟩ := Reader.Like.commands (· ≠ code)
    (fun _ hcode => Registry.ruleFor_like rule hcode)
    (fun t ht => h t (Cursor.mem_of_mem_ofTokens ht)) hlike
  have hsource : ∀ p : Parser, (p.parse source).metadata.sourceText = source := fun _ => rfl
  exact ⟨hcommands, (hsource _).trans (hsource _).symm, hreader.errors,
    congrArg (labelWidth? · padding) hcommands, congrArg labelLength? hcommands,
    hreader.warnings⟩

/-- With a second code near an unknown one there is no nearest code any more. All else stays. -/
theorem parse_register_near :
    let source := "^FO2,3^GX1\n^FDa^FS"
    let before := (Parser.mk .builtin .standard 100).parse source
    let after := (Parser.mk (Registry.builtin.insert "GY" Rule.labelEnd) .standard 100).parse source
    (∀ t ∈ (TokenStream.ofText .standard source).tokens, t.kind = .code → t.value ≠ "GY") ∧
      before.Unaffected .builtin "GY" after ∧
      before.metadata.warnings.map Diagnostic.suggestion = [some "did you mean ^GB?"] ∧
      after.metadata.warnings.map Diagnostic.suggestion = [none] := by
  intro source before after
  have hcodes : ∀ t ∈ (TokenStream.ofText .standard source).tokens,
      t.kind = .code → t.value ≠ "GY" := by
    decide +kernel
  exact ⟨hcodes, parse_register .builtin "GY" Rule.labelEnd .standard 100 source hcodes,
    by decide +kernel, by decide +kernel⟩

end Zpl
