import Zpl.Proofs.Moved
import Zpl.Proofs.Reading

/-! The text of a command stands for the command. A share, taken out of its stream, is
still one share (`shares_phrases`), and its command depends on the values of its tokens
alone, so the text of a command, parsed alone, gives the command back, moved to the
start (`parse_rawText`). -/

namespace Zpl

/-! ## Shares elsewhere -/

section Since

variable (origin : Position)

theorem OperandsFit.since {code : String} {ts : List Token} (h : OperandsFit code ts) :
    OperandsFit code (ts.map (Token.since origin)) :=
  h.move origin.since

def Call.since (c : Call) : Call :=
  ⟨c.marker.since origin, c.code.since origin, c.operands.map (Token.since origin),
    c.marker_kind, c.code_kind, c.operands_fit.since origin⟩

def Folded.since (f : Folded) : Folded :=
  ⟨f.breaks.map (Token.since origin), f.call.since origin, by
    intro t ht
    obtain ⟨u, hu, rfl⟩ := List.mem_map.mp ht
    exact f.breaks_kind u hu⟩

def Share.since (s : Share) : Share :=
  ⟨s.head.since origin, s.folded.map (Folded.since origin)⟩

theorem Call.Folds.since {c : Call} {fs : List Folded} (h : c.Folds fs) :
    (c.since origin).Folds (fs.map (Folded.since origin)) :=
  h.move origin.since

theorem Share.tokens_since (s : Share) :
    (s.since origin).tokens = s.tokens.map (Token.since origin) :=
  s.tokens_move origin.since

end Since

/-! ## A share alone -/

namespace Folded

/-- The phrases that the tokens of a folded call make up. -/
def phrases (f : Folded) : List Phrase :=
  List.pmap Phrase.lineBreak f.breaks f.breaks_kind ++ [.call f.call]

theorem phrases_tokens (f : Folded) : f.phrases.flatMap Phrase.tokens = f.tokens := by
  have hbreaks : ∀ (ts : List Token) (h : ∀ t ∈ ts, t.kind = .lineBreak),
      (List.pmap Phrase.lineBreak ts h).flatMap Phrase.tokens = ts := by
    intro ts h
    induction ts with
    | nil => rfl
    | cons t ts ih =>
      rw [List.pmap_cons, List.flatMap_cons, ih]
      rfl
  rw [phrases, List.flatMap_append, hbreaks, tokens]
  simp [Phrase.tokens]

theorem next?_phrases {f : Folded} {code : String} (h : f.call.code.value = code)
    (rest : List Phrase) : Phrase.next? code (f.phrases ++ rest) = some (f, rest) := by
  obtain ⟨breaks, call, hkind⟩ := f
  induction breaks with
  | nil => exact if_pos h
  | cons t ts ih =>
    have hts : ∀ u ∈ ts, u.kind = .lineBreak := fun u hu => hkind u (List.mem_cons_of_mem _ hu)
    show (Phrase.next? code (phrases ⟨ts, call, hts⟩ ++ rest)).map _ = _
    rw [ih hts h]
    rfl

end Folded

namespace Share

/-- The phrases that the tokens of a share make up. -/
def phrases (s : Share) : List Phrase :=
  .call s.head :: s.folded.flatMap Folded.phrases

theorem phrases_tokens (s : Share) : s.phrases.flatMap Phrase.tokens = s.tokens := by
  simp only [phrases, tokens, List.flatMap_cons, List.flatMap_assoc, Folded.phrases_tokens]
  rfl

end Share

theorem closing_phrases {separator : Folded} (h : separator.call.code.value = "FS") :
    closing separator.phrases = ([separator], []) := by
  have hnext := Folded.next?_phrases h []
  rw [List.append_nil] at hnext
  rw [closing, hnext]

/-- What a call folds when nothing but that stands behind it. -/
theorem Call.fold_phrases {c : Call} {fs : List Folded} (h : c.Folds fs) :
    c.fold (fs.flatMap Folded.phrases) = (fs, []) := by
  cases h with
  | plain hFD hbarcode => exact fold_plain hFD hbarcode
  | openField hFD => exact if_pos hFD
  | closedField hFD hFS =>
    rw [fold_field hFD, List.flatMap_singleton, closing_phrases hFS]
  | bare hbarcode => exact fold_barcode hbarcode
  | openData hbarcode hFD =>
    rw [fold_barcode hbarcode, List.flatMap_singleton, carried, ← List.append_nil (Folded.phrases _),
      Folded.next?_phrases hFD]
    rfl
  | closedData hbarcode hFD hFS =>
    rw [fold_barcode hbarcode, List.flatMap_cons, carried, Folded.next?_phrases hFD,
      List.flatMap_singleton]
    simp only [closing_phrases hFS]

theorem shares_phrases {s : Share} (h : s.head.Folds s.folded) : shares s.phrases = [s] := by
  rw [Share.phrases, shares, Call.share, Call.fold_phrases h]
  simp [shares]

/-! ## The text of a command -/

theorem Call.tokens_split (c : Call) : ∃ mid last, c.tokens = c.marker :: (mid ++ [last]) ∧
    (last.kind = .code ∨ last.kind = .parameter ∨ last.kind = .content) := by
  rcases List.eq_nil_or_concat c.operands with hnil | ⟨front, last, hlast⟩
  · exact ⟨[], c.code, by rw [tokens, hnil]; rfl, .inl c.code_kind⟩
  · rw [List.concat_eq_append] at hlast
    refine ⟨c.code :: front, last, by rw [tokens, hlast]; rfl, .inr ?_⟩
    have hoperand := c.operands_operand last (by simp [hlast])
    simpa [Rule.isOperand] using hoperand

/-- A share reaches from a marker to an operand. -/
theorem Share.tokens_split (s : Share) : ∃ mid last, s.tokens = s.head.marker :: (mid ++ [last]) ∧
    (last.kind = .code ∨ last.kind = .parameter ∨ last.kind = .content) := by
  obtain ⟨mid, last, hhead, hlast⟩ := s.head.tokens_split
  rcases List.eq_nil_or_concat s.folded with hnil | ⟨fs, f, hfolded⟩
  · exact ⟨mid, last, by rw [tokens, hnil, hhead]; simp, hlast⟩
  · obtain ⟨mid', last', hcall, hlast'⟩ := f.call.tokens_split
    rw [List.concat_eq_append] at hfolded
    refine ⟨mid ++ [last] ++ fs.flatMap Folded.tokens ++ f.breaks ++ f.call.marker :: mid', last',
      ?_, hlast'⟩
    rw [tokens, hfolded, hhead, List.flatMap_append, List.flatMap_singleton, Folded.tokens, hcall]
    simp

theorem Share.rawText_command {source front text back : List Char} {s : Share}
    (hsource : source = front ++ text ++ back)
    (hoffset : s.place.position.offset = Text.byteLength front)
    (hstop : s.stop = s.place.position.offset + Text.byteLength text) :
    (s.command source).rawText = .ofList text := by
  have hmax : max s.stop s.place.position.offset = Text.byteLength (front ++ text) := by
    rw [hstop, hoffset, Text.byteLength_append]
    omega
  rw [command, hmax, hoffset, hsource, Text.slice?_append]
  rfl

theorem Share.stop_eq {s : Share} {first last : Token} {mid : List Token}
    (h : s.tokens = first :: (mid ++ [last])) : s.stop = last.stop := by
  rw [stop, h, ← List.cons_append, List.getLast?_append]
  rfl

theorem Share.command_since {source text : List Char} {origin : Position} {s : Share}
    (hraw : ((s.since origin).command text).rawText = (s.command source).rawText) :
    (s.since origin).command text =
      { s.command source with position := origin.since s.head.marker.position } :=
  s.command_move origin.since hraw

/-- A share that is seen from its marker has the whole of its text as raw text. -/
theorem Share.rawText_since {text : List Char} {s : Share} {mid : List Token} {last : Token}
    (hsplit : s.tokens = s.head.marker :: (mid ++ [last]))
    (hbehind : s.head.marker.position.offset ≤ last.position.offset)
    (hstop : last.stop = s.head.marker.position.offset + Text.byteLength text) :
    ((s.since s.head.marker.position).command text).rawText = .ofList text := by
  generalize horigin : s.head.marker.position = origin at *
  have hmoved : (s.since origin).tokens =
      s.head.marker.since origin :: (mid.map (Token.since origin) ++ [last.since origin]) := by
    rw [s.tokens_since, hsplit]
    simp
  have hstart : (s.since origin).place.position = .start := by
    show origin.since s.head.marker.position = .start
    rw [horigin, Position.since_self]
  have htext : text = [] ++ text ++ [] := by simp
  refine rawText_command htext ?_ ?_
  · rw [hstart]
    rfl
  · rw [stop_eq hmoved, hstart]
    simp only [Token.stop, Token.since, Position.since, Position.start] at hstop ⊢
    omega

/-- The text of a command, parsed alone, gives the command back at the start. -/
theorem parse_rawText (m : Marks) (padding : Int32) (source : String) (c : Command)
    (h : c ∈ ((Parser.mk .builtin m padding).parse source).commands) :
    ((Parser.mk .builtin m padding).parse c.rawText).commands = [{ c with position := .start }] := by
  obtain ⟨ps, p, htokens⟩ := TokenStream.ofText_phrases m source
  rw [Parser.parse_shares padding htokens] at h
  obtain ⟨s, hs, rfl⟩ := List.mem_map.mp h
  obtain ⟨mid, last, hsplit, hlast⟩ := s.tokens_split
  obtain ⟨before, behind, hps⟩ := tokens_of_mem_shares hs
  have hstream : (TokenStream.ofText m source).tokens =
      before ++ s.head.marker :: (mid ++ last :: behind) ++ [.finishAt p] := by
    rw [htokens, hps, hsplit]
    simp
  obtain ⟨front, text, back, q, hsource, hoffset, hstop, hmoved⟩ :=
    TokenStream.ofText_stretch hstream s.head.marker_kind hlast
  have hraw : (s.command source.toList).rawText = .ofList text :=
    Share.rawText_command hsource hoffset (Share.stop_eq hsplit ▸ hstop)
  have hbehind : s.head.marker.position.offset ≤ last.position.offset := by
    have hordered := TokenStream.ofText_ordered m source
    rw [hstream, List.pairwise_append, List.pairwise_append, List.pairwise_cons] at hordered
    have hmarker := hordered.1.2.1.1 last (by simp)
    exact Nat.le_trans (Nat.le_add_right _ _) hmarker
  have hraw' := Share.rawText_since hsplit hbehind hstop
  have hphrases : (TokenStream.ofText m (.ofList text)).tokens =
      (s.since s.head.marker.position).phrases.flatMap Phrase.tokens ++ [.finishAt q] := by
    rw [hmoved, Share.phrases_tokens, Share.tokens_since, hsplit]
  have halone : ((Parser.mk .builtin m padding).parse (s.command source.toList).rawText).commands =
      [(s.since s.head.marker.position).command text] := by
    rw [hraw, Parser.parse_shares padding hphrases,
      shares_phrases ((folds_of_mem_shares hs).since _), String.toList_ofList]
    rfl
  rw [halone, Share.command_since (hraw'.trans hraw.symm), Position.since_self]

theorem parse_rawText_barcode :
    let command : Command :=
      ⟨"BC", "^BCN,80\n ^FD12^FS,4", ⟨1, 4, 3⟩, ["N", "80", "4"],
        .barcode .normal 80 true false none "12"⟩
    command ∈ ((Parser.mk .builtin .standard 100).parse "^XA^BCN,80\n ^FD12^FS,4 ^XZ").commands ∧
      ((Parser.mk .builtin .standard 100).parse command.rawText).commands =
        [{ command with position := .start }] :=
  ⟨by decide +kernel, parse_rawText _ _ "^XA^BCN,80\n ^FD12^FS,4 ^XZ" _ (by decide +kernel)⟩

end Zpl
