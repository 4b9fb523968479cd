import Zpl.Parser
import Zpl.Proofs.LexicalGrammar

/-! Commands are slices of the source. A rule moves the cursor by its own program, but it
starts behind a marker and a code and can only go on from there, so the text of its
command reaches from the marker to the end of a later token. Commands therefore stand one
behind the other, whatever the registered rules are (`parse_slices`). -/

namespace Zpl

namespace Command

/-- The text of a command is the source from its position on, and starts with the marker
and the code. -/
structure IsSlice (m : Marks) (source : List Char) (c : Command) : Prop where
  nonempty : c.rawText ≠ ""
  exact : ∃ before behind, source = before ++ (c.rawText.toList ++ behind) ∧
    c.position.offset = Text.byteLength before
  starts : m.marker :: c.code.toList <+: c.rawText.toList

/-- The byte offset behind the text of a command. -/
def stop (c : Command) : Nat :=
  c.position.offset + Text.byteLength c.rawText.toList

end Command

namespace TokenStream

open Lexeme (eq_of_byteLength prefix_of_byteLength)

variable {m : Marks} {source : String}

/-- A marker and its code are one stretch of the source. -/
theorem command_text {before rest : List Token} {marker word : Token}
    (h : (ofText m source).tokens = before ++ marker :: word :: rest)
    (hmarker : marker.kind = .marker) (hword : word.kind = .code) :
    ∃ front back, source.toList = front ++ (m.marker :: word.value.toList ++ back) ∧
      marker.position.offset = Text.byteLength front ∧
      word.stop = Text.byteLength (front ++ m.marker :: word.value.toList) := by
  have htokens : (ofText m source).tokens = (before ++ [marker]) ++ word :: rest := by
    rw [h, List.append_assoc]
    rfl
  have hcode := ofText_code htokens hword
  obtain ⟨u, hlast, -, hstop⟩ := hcode.marker
  obtain rfl : marker = u := by simpa using hlast
  obtain ⟨front', line, rest', hsplits, -⟩ := hcode.operands
  obtain ⟨front, back, hsource, hoffset⟩ := ofText_exact (m := m) (t := marker) (by rw [h]; simp)
  have hfront : front ++ marker.raw.toList = front' := by
    have hboth : (front ++ marker.raw.toList) ++ back =
        front' ++ (word.raw.toList ++ (line ++ rest')) := by
      rw [List.append_assoc, ← hsource]
      exact hsplits.text
    refine eq_of_byteLength hboth ?_
    rw [Text.byteLength_append, ← hoffset, ← hsplits.offset, ← hstop, Token.stop]
  have hraw : marker.raw.toList = [m.marker] := (ofText_marker h hmarker).raw
  have hvalue : word.value = word.raw :=
    plain_of_mem (m := m) (by rw [h]; simp) (by simp [hword]) (by simp [hword])
  rw [hraw] at hfront
  refine ⟨front, line ++ rest', ?_, hoffset, ?_⟩
  · rw [hsplits.text, ← hfront, hvalue]
    simp
  · rw [Token.stop, hsplits.offset, ← hfront, ← hvalue, ← Text.byteLength_append,
      List.append_assoc]
    rfl

/-- From a place in the source to the end of a token is a stretch of the source. -/
theorem text_to_stop {front text back : List Char} {t : Token}
    (ht : t ∈ (ofText m source).tokens) (hsource : source.toList = front ++ (text ++ back))
    (hle : Text.byteLength (front ++ text) ≤ t.stop) :
    ∃ more behind, source.toList = front ++ (text ++ more) ++ behind ∧
      t.stop = Text.byteLength (front ++ (text ++ more)) := by
  obtain ⟨before, behind, hsplit, hoffset⟩ := ofText_exact ht
  have hstop : t.stop = Text.byteLength (before ++ t.raw.toList) := by
    rw [Token.stop, hoffset, Text.byteLength_append]
  rw [← List.append_assoc] at hsplit hsource
  obtain ⟨more, hmore⟩ := prefix_of_byteLength (hsource.symm.trans hsplit) (hstop ▸ hle)
  rw [List.append_assoc] at hmore
  exact ⟨more, behind, by rw [hsplit, hmore], by rw [hstop, hmore]⟩

/-- A marker, its code and the tokens up to `last` are one stretch of the source, and all
tokens behind `last` stand behind that stretch. -/
theorem stretch_text {before ts passed rest : List Token} {marker word last : Token}
    (h : (ofText m source).tokens = before ++ marker :: word :: ts ++ rest)
    (hmarker : marker.kind = .marker) (hword : word.kind = .code)
    (hlast : word :: ts = passed ++ [last]) :
    ∃ front more back, source.toList = front ++ (m.marker :: word.value.toList ++ more) ++ back ∧
      marker.position.offset = Text.byteLength front ∧
      last.stop = Text.byteLength (front ++ (m.marker :: word.value.toList ++ more)) ∧
      ∀ t ∈ rest, last.stop ≤ t.position.offset := by
  have htokens : (ofText m source).tokens = before ++ marker :: word :: (ts ++ rest) := by
    rw [h]
    simp
  obtain ⟨front, back, hsource, hoffset, hstop⟩ := command_text htokens hmarker hword
  have hordered := ofText_ordered m source
  rw [h, hlast, List.append_assoc, List.pairwise_append, List.cons_append, List.pairwise_cons,
    List.pairwise_append, List.pairwise_append] at hordered
  obtain ⟨-, ⟨-, ⟨-, -, hpassed⟩, -, hrest⟩, -⟩ := hordered
  have hle : word.stop ≤ last.stop := by
    cases passed with
    | nil =>
      obtain ⟨rfl, -⟩ := List.cons.inj hlast
      exact Nat.le_refl _
    | cons u passed =>
      obtain ⟨rfl, -⟩ := List.cons.inj hlast
      exact Nat.le_add_right_of_le (hpassed word List.mem_cons_self last List.mem_cons_self)
  have hmem : last ∈ (ofText m source).tokens := by
    rw [h, hlast]
    simp
  obtain ⟨more, behind, htext, hend⟩ := text_to_stop hmem hsource (hstop ▸ hle)
  exact ⟨front, more, behind, htext, hoffset, hend,
    fun t ht => hrest last (List.mem_append_right _ List.mem_cons_self) t ht⟩

end TokenStream

/-- The reader stands in the stream of a source. -/
structure Reader.Reads (m : Marks) (source : String) (r : Reader) : Prop where
  text : r.source = source.toList
  tokens : r.cursor.tokens = (TokenStream.ofText m source).tokens

/-- To pass a marker and a code is a move forward. -/
theorem Reader.passed_command {r : Reader} {marker word : Token} {rest : List Token}
    (hahead : r.cursor.ahead = marker :: word :: rest) (hmarker : marker.kind = .marker)
    (hword : word.kind = .code) :
    r.Advances [marker, word] (r.passed [marker, word] rest [] []) := by
  refine ⟨⟨hahead, rfl, rfl, ?_⟩, rfl, List.prefix_append _ _, List.prefix_append _ _⟩
  simp [hmarker, hword]

/-- A rule passes the marker and the code, whether it succeeds or fails. -/
theorem Rule.parse_advances_command (rule : Rule) {r : Reader} {marker word : Token}
    {rest : List Token} (hahead : r.cursor.ahead = marker :: word :: rest)
    (hmarker : marker.kind = .marker) (hword : word.kind = .code) :
    ∃ ts, r.Advances (marker :: word :: ts) (rule.parse r).2 := by
  obtain ⟨ts, hts⟩ := (rule ⟨word.value, marker.position⟩).run_advances
    (r.passed [marker, word] rest [] [])
  refine ⟨ts, ?_⟩
  have hrun := (Reader.passed_command hahead hmarker hword).trans hts
  rw [rule.parse_command hahead hmarker hword]
  split
  · next h => rwa [h] at hrun
  · next h => rwa [h] at hrun

/-- A rule that succeeds has passed a marker and a code, and its command is the text from
there. -/
theorem Rule.parse_finish {rule : Rule} {r s : Reader} {c : Command} {marker word : Token}
    {rest : List Token} (h : rule.parse r = (.ok c, s))
    (hahead : r.cursor.ahead = marker :: word :: rest) (hmarker : marker.kind = .marker)
    (hword : word.kind = .code) :
    ∃ ts parameters kind, r.Advances (marker :: word :: ts) s ∧
      c = s.finish ⟨word.value, marker.position⟩ parameters kind := by
  obtain ⟨ts, hts⟩ := rule.parse_advances_command hahead hmarker hword
  rw [h] at hts
  rw [rule.parse_command hahead hmarker hword] at h
  split at h
  · simp at h
  · obtain ⟨hc, rfl⟩ := Prod.mk.inj h
    exact ⟨ts, _, _, hts, (Except.ok.inj hc).symm⟩

namespace Reader

variable {m : Marks} {source : String} {r s : Reader} {ts : List Token}

/-- A reader starts in the stream of its source. -/
theorem reads_ofText (m : Marks) (source : String) :
    (ofStream source (.ofText m source)).Reads m source := by
  obtain ⟨p, hlast⟩ := TokenStream.ofLexemes_getLast? .start (Lexeme.lexemes m source.toList)
  exact ⟨rfl, Cursor.ofTokens_tokens hlast rfl⟩

theorem Reads.advance (h : r.Reads m source) (hrs : r.Advances ts s) : s.Reads m source :=
  ⟨hrs.source.trans h.text, hrs.cursor.tokens_eq.trans h.tokens⟩

/-- The text of a command read behind its marker and code, and what stands ahead of the
reader then. -/
theorem Reads.finish {marker word : Token} (h : r.Reads m source)
    (hrs : r.Advances (marker :: word :: ts) s) (hmarker : marker.kind = .marker)
    (hword : word.kind = .code) (parameters : List String) (kind : CommandKind) :
    let c := s.finish ⟨word.value, marker.position⟩ parameters kind
    c.IsSlice m source.toList ∧ ∀ t ∈ s.cursor.ahead, c.stop ≤ t.position.offset := by
  obtain ⟨passed, last, hlast⟩ : ∃ passed last, word :: ts = passed ++ [last] := by
    rcases List.eq_nil_or_concat (word :: ts) with hnil | ⟨passed, last, hconcat⟩
    · simp at hnil
    · exact ⟨passed, last, by rw [hconcat, List.concat_eq_append]⟩
  have htokens : (TokenStream.ofText m source).tokens =
      r.cursor.behind.reverse ++ marker :: word :: ts ++ (s.cursor.ahead ++ [s.cursor.last]) := by
    rw [← (h.advance hrs).tokens, Cursor.tokens, hrs.cursor.behind]
    simp
  have hend : s.cursor.consumedEnd = last.stop := by
    rw [Cursor.consumedEnd, hrs.cursor.behind, hlast]
    simp
  obtain ⟨front, more, back, hsource, hoffset, hstop, hrest⟩ :=
    TokenStream.stretch_text htokens hmarker hword hlast
  have hraw : s.textFrom marker.position.offset =
      .ofList (m.marker :: word.value.toList ++ more) := by
    rw [textFrom, (h.advance hrs).text, hsource, hend, hstop, hoffset, Nat.max_eq_left (by simp),
      Text.slice?_append]
    rfl
  refine ⟨⟨?_, ⟨front, back, ?_, hoffset⟩, more, ?_⟩, ?_⟩
  · simp [Reader.finish, hraw]
  · rw [hsource, Reader.finish, hraw, String.toList_ofList, List.append_assoc]
  · rw [Reader.finish, hraw, String.toList_ofList]
  · intro t ht
    have hle := hrest t (List.mem_append_left _ ht)
    rw [hstop, Text.byteLength_append, ← hoffset] at hle
    rwa [Command.stop, Reader.finish, hraw, String.toList_ofList]

/-- One command: a slice from a token in front of the reader, and before all that is in
front of it afterwards. -/
theorem Reads.dispatch {rule : Rule} {c : Command} (h : r.Reads m source)
    (hcommand : r.cursor.atCommand) (hc : (r.dispatch rule).1 = some c) :
    c.IsSlice m source.toList ∧ (∃ t ∈ r.cursor.ahead, c.position = t.position) ∧
      ∀ t ∈ (r.dispatch rule).2.cursor.ahead, c.stop ≤ t.position.offset := by
  obtain ⟨marker, word, rest, hahead, hmarker, hword⟩ := Cursor.atCommand_iff.mp hcommand
  unfold Reader.dispatch at hc ⊢
  split at hc
  · next d s hparse =>
    obtain rfl := Option.some.inj hc
    obtain ⟨ts, parameters, kind, hrs, rfl⟩ := rule.parse_finish hparse hahead hmarker hword
    obtain ⟨hslice, hstop⟩ := h.finish hrs hmarker hword parameters kind
    exact ⟨hslice, ⟨marker, by rw [hahead]; exact List.mem_cons_self, rfl⟩, hstop⟩
  · simp at hc

theorem Reads.commands (h : r.Reads m source) (ruleFor : String → Rule) :
    (∀ c ∈ (r.commands ruleFor).1, c.IsSlice m source.toList ∧
        ∃ t ∈ r.cursor.ahead, c.position = t.position) ∧
      (r.commands ruleFor).1.Pairwise fun c d => c.stop ≤ d.position.offset := by
  fun_induction Reader.commands r ruleFor with
  | case1 => simp
  | case2 r hend hcode ih =>
    obtain ⟨ts, hts⟩ := r.cursor.advance_advances
    obtain ⟨hslices, hpairwise⟩ := ih (h.advance (.moveTo hts))
    refine ⟨fun c hc => ?_, hpairwise⟩
    obtain ⟨hslice, t, ht, hposition⟩ := hslices c hc
    exact ⟨hslice, t, by rw [hts.ahead]; exact List.mem_append_right _ ht, hposition⟩
  | case3 r hend code hcode first rest ih =>
    obtain ⟨ts, hts⟩ := r.dispatch_advances (ruleFor code)
    obtain ⟨hslices, hpairwise⟩ := ih (h.advance hts)
    have hlater : ∀ c ∈ rest.1, ∃ t ∈ r.cursor.ahead, c.position = t.position := by
      intro c hc
      obtain ⟨-, t, ht, hposition⟩ := hslices c hc
      exact ⟨t, by rw [hts.cursor.ahead]; exact List.mem_append_right _ ht, hposition⟩
    have hrest : ∀ c ∈ rest.1, c.IsSlice m source.toList := fun c hc => (hslices c hc).1
    cases hfirst : first.1 with
    | none => exact ⟨fun c hc => ⟨hrest c hc, hlater c hc⟩, hpairwise⟩
    | some c =>
      obtain ⟨hslice, hahead, hstop⟩ :=
        h.dispatch (Cursor.atCommand_of_commandCode? hcode) hfirst
      refine ⟨?_, .cons ?_ hpairwise⟩
      · intro d hd
        rcases List.mem_cons.mp hd with rfl | hd
        · exact ⟨hslice, hahead⟩
        · exact ⟨hrest d hd, hlater d hd⟩
      · intro d hd
        obtain ⟨-, t, ht, hposition⟩ := hslices d hd
        rw [hposition]
        exact hstop t ht

end Reader

/-- The commands of a source are slices of it, one behind the other, for every registry. -/
theorem parse_slices (registry : Registry) (m : Marks) (padding : Int32) (source : String) :
    (∀ c ∈ ((Parser.mk registry m padding).parse source).commands, c.IsSlice m source.toList) ∧
      ((Parser.mk registry m padding).parse source).commands.Pairwise
        fun c d => c.stop ≤ d.position.offset := by
  obtain ⟨hslices, hpairwise⟩ := (Reader.reads_ofText m source).commands registry.ruleFor
  exact ⟨fun c hc => (hslices c hc).1, hpairwise⟩

end Zpl
