import Zpl.Proofs.Phrase
import Zpl.Proofs.Relocation

/-! The lexical grammar, told of streams. `Grammatical` says from the source alone which
tokens and reports a stream has: how kinds follow each other, where codes start and end,
what the rest of a line gives behind a code, and what the texts of comments and line
breaks are. The stream of every source has this grammar, with any marker and delimiter
(`ofText_grammatical`). -/

namespace Zpl

namespace Lexeme

/-- The texts of codes: one or two characters, and behind `A` no other than the at sign. -/
structure IsCode (code : List Char) : Prop where
  length : code.length = 1 ∨ code.length = 2
  chars : ∀ c ∈ code, isCodeChar c
  font : code.head? = some 'A' → code = ['A'] ∨ code = ['A', '@']

/-- The longest code that a text starts with. -/
structure IsLongestCode (code text : List Char) : Prop where
  starts : code <+: text
  isCode : IsCode code
  longest : ∀ other, other <+: text → IsCode other → other.length ≤ code.length

/-- All up to the next marker, the next line break or the end. -/
structure IsLine (m : Marks) (line rest : List Char) : Prop where
  inside : ∀ c ∈ line, c ≠ m.marker ∧ Text.isLineBreak c = false
  ends : ∀ c, rest.head? = some c → c = m.marker ∨ Text.isLineBreak c

/-- What the line behind a code gives: its text without white space at the end, or the
pieces between delimiters and white space, if there is any text in them. -/
def lineOperands (m : Marks) (code : String) (line : List Char) : List (TokenKind × String) :=
  if code = "FD" ∨ code = "FV" then
    if Text.trimEnd line = [] then [] else [(.content, .ofList (Text.trimEnd line))]
  else
    ((line.splitOnP fun c => c == m.delimiter || Text.isBlank c).filter (!·.isEmpty)).map
      fun piece => (.parameter, .ofList piece)

/-- The text and the value of a comment in front of `rest`, and whether the comment ends. -/
inductive IsComment : List Char → List Char → List Char → Bool → Prop where
  | line {value rest} : (∀ c ∈ value, Text.isLineBreak c = false) →
      (∀ c, rest.head? = some c → Text.isLineBreak c) →
      IsComment ('/' :: '/' :: value) value rest true
  | block {value rest} : ¬['*', '/'] <:+: value →
      IsComment ('/' :: '*' :: value ++ ['*', '/']) value rest true
  | unclosed {value} : ¬['*', '/'] <:+: value → IsComment ('/' :: '*' :: value) value [] false

/-- The text of a line break in front of `rest`. -/
inductive IsBreak : List Char → List Char → Prop where
  | lineFeed {rest} : IsBreak ['\n'] rest
  | pair {rest} : IsBreak ['\r', '\n'] rest
  | carriageReturn {rest} : rest.head? ≠ some '\n' → IsBreak ['\r'] rest

end Lexeme

namespace TokenStream

/-- The words that the kinds of tokens form. -/
inductive IsWord : List Token → Prop where
  | finish {t} : t.kind = .finish → IsWord [t]
  | comment {t ts} : t.kind = .comment → IsWord ts → IsWord (t :: ts)
  | lineBreak {t ts} : t.kind = .lineBreak → IsWord ts → IsWord (t :: ts)
  | loneMarker {t ts} : t.kind = .marker → IsWord ts → IsWord (t :: ts)
  | field {marker code ts} {content : Option Token} : marker.kind = .marker → code.kind = .code →
      (code.value = "FD" ∨ code.value = "FV") → (∀ t, content = some t → t.kind = .content) →
      IsWord ts → IsWord (marker :: code :: (content.toList ++ ts))
  | command {marker code parameters ts} : marker.kind = .marker → code.kind = .code →
      ¬(code.value = "FD" ∨ code.value = "FV") → (∀ t ∈ parameters, t.kind = .parameter) →
      IsWord ts → IsWord (marker :: code :: (parameters ++ ts))

/-- The token covers the source between `front` and `rest`. -/
structure Splits (source : List Char) (t : Token) (front rest : List Char) : Prop where
  text : source = front ++ (t.raw.toList ++ rest)
  offset : t.position.offset = Text.byteLength front

/-- The reports of one code at a position. -/
def reports (s : TokenStream) (code : String) (p : Position) : List Diagnostic :=
  s.errors.filter fun d => d.code == code && d.position == p

/-- A code, with the tokens before it and behind it. -/
structure CodeAt (m : Marks) (source : List Char) (before : List Token) (t : Token)
    (behind : List Token) : Prop where
  /-- It starts where its marker ends. -/
  marker : ∃ u, before.getLast? = some u ∧ u.kind = .marker ∧ u.stop = t.position.offset
  /-- It is as long as can be, and its line gives its operands. -/
  operands : ∃ front line rest, Splits source t front (line ++ rest) ∧
    Lexeme.IsLongestCode t.raw.toList (t.raw.toList ++ (line ++ rest)) ∧ Lexeme.IsLine m line rest ∧
    (behind.takeWhile fun u => Rule.isOperand u.kind).map Token.view =
      Lexeme.lineOperands m t.value line

/-- A marker, with the tokens behind it. -/
structure MarkerAt (m : Marks) (s : TokenStream) (t : Token) (behind : List Token) : Prop where
  raw : t.raw.toList = [m.marker]
  reported : (s.reports "ZPL0002" t.position).length =
    if behind.head?.map Token.kind = some .code then 0 else 1

/-- A comment, with the tokens behind it. One that does not end is the last thing. -/
def CommentAt (source : List Char) (s : TokenStream) (t : Token) (behind : List Token) : Prop :=
  ∃ front rest closed, Splits source t front rest ∧
    Lexeme.IsComment t.raw.toList t.value.toList rest closed ∧
    (s.reports "ZPL0003" t.position).length = (if closed then 0 else 1) ∧
    (closed = false → behind.map Token.kind = [.finish])

/-- A character outside of all tokens, with the text before and behind it. No token could
start there: what looks like a comment starts with a delimiter of a parameter list. -/
structure GapAt (m : Marks) (s : TokenStream) (before : List Char) (c : Char)
    (behind : List Char) : Prop where
  not_marker : c ≠ m.marker
  not_break : Text.isLineBreak c = false
  comment : ['/', '/'] <+: c :: behind ∨ ['/', '*'] <+: c :: behind →
    c = m.delimiter ∧ s.InParameters m before

/-- A stream has the lexical grammar. -/
structure Grammatical (m : Marks) (source : List Char) (s : TokenStream) : Prop where
  word : IsWord s.tokens
  ordered : s.tokens.Pairwise fun a b => a.stop ≤ b.position.offset
  gap : ∀ before c behind, source = before ++ c :: behind →
    s.Uncovered (Text.byteLength before) → GapAt m s before c behind
  /-- Only comments and line breaks mean something else than they say. -/
  plain : ∀ t ∈ s.tokens, t.kind ≠ .comment → t.kind ≠ .lineBreak → t.value = t.raw
  code : ∀ before t behind, s.tokens = before ++ t :: behind → t.kind = .code →
    CodeAt m source before t behind
  marker : ∀ before t behind, s.tokens = before ++ t :: behind → t.kind = .marker →
    MarkerAt m s t behind
  comment : ∀ before t behind, s.tokens = before ++ t :: behind → t.kind = .comment →
    CommentAt source s t behind
  lineBreak : ∀ t ∈ s.tokens, t.kind = .lineBreak → t.value = "\n" ∧
    ∃ front rest, Splits source t front rest ∧ Lexeme.IsBreak t.raw.toList rest
  /-- Codes are missed at markers only, and ends at comments only. -/
  reported : ∀ d ∈ s.errors,
    (d.code = "ZPL0002" → ∃ t ∈ s.tokens, t.kind = .marker ∧ d.position = t.position) ∧
    (d.code = "ZPL0003" → ∃ t ∈ s.tokens, t.kind = .comment ∧ d.position = t.position)

end TokenStream

namespace Lexeme

variable {m : Marks}

/-! ## Codes -/

theorem CodeBefore.isCode {code tail : List Char} (h : CodeBefore code tail) : IsCode code := by
  have hlength := h.length
  match code with
  | [] => exact absurd rfl h.nonempty
  | [c] =>
    rw [List.cons_append, codeLength_cons] at hlength
    have hc : isCodeChar c := by
      by_cases hc : isCodeChar c
      · exact hc
      · simp [hc] at hlength
    exact ⟨.inl rfl, by simpa using hc, fun hA => .inl (by simpa using hA)⟩
  | [c, d] =>
    rw [List.cons_append, codeLength_cons] at hlength
    have hboth : isCodeChar c ∧ joins c (some d) := by
      by_cases hc : isCodeChar c <;> by_cases hd : joins c (some d) <;> simp_all
    refine ⟨.inr rfl, ?_, fun hA => ?_⟩
    · have hd : isCodeChar d := by
        unfold joins at hboth
        split at hboth
        · obtain rfl : d = '@' := by simpa using hboth.2
          rfl
        · simpa using hboth.2
      simp [hboth.1, hd]
    · obtain rfl : c = 'A' := by simpa using hA
      obtain rfl : d = '@' := by simpa [joins] using hboth.2
      exact .inr rfl
  | c :: d :: e :: ds =>
    rw [List.cons_append, codeLength_cons] at hlength
    split at hlength
    · split at hlength <;> simp at hlength
    · simp at hlength

/-- No code goes on where the scanner ends one. -/
theorem CodeBefore.longest {code tail : List Char} (h : CodeBefore code tail) :
    IsLongestCode code (code ++ tail) := by
  refine ⟨List.prefix_append _ _, h.isCode, fun other hprefix hother => ?_⟩
  have hlength := h.length
  match code, other with
  | [], _ => exact absurd rfl h.nonempty
  | _ :: _, [] => simp
  | _ :: _, [_] => simp
  | _, _ :: _ :: _ :: _ => simpa using hother.length
  | _ :: _ :: _, [_, _] => simp
  | [_], [c, e] =>
    obtain ⟨rfl, more, rfl⟩ := List.cons_prefix_cons.mp hprefix
    -- a second character would have joined the first
    have hjoins : joins c (some e) := by
      unfold joins
      split
      · next hA => simpa [hA] using hother.font (by simp [hA])
      · simpa using hother.chars e (by simp)
    have hc : isCodeChar c := h.isCode.chars c (by simp)
    rw [List.cons_append, codeLength_cons] at hlength
    simp [hc, hjoins] at hlength

/-! ## Lines of operands -/

theorem IsCommand.isLine {code line rest : List Char} (h : IsCommand m code line rest) :
    IsLine m line rest where
  inside c hc := isOperandChar_iff.mp (h.line c hc)
  ends c hc := by
    have := h.ends c hc
    rw [Bool.eq_false_iff, Ne, isOperandChar_iff] at this
    by_cases hm : c = m.marker
    · exact .inl hm
    · exact .inr (by simpa [hm] using this)

/-- Words between separators are the non-empty pieces of a split. -/
theorem Pieces.splitOnP {line : List Char} {xs : List Lexeme} (h : Pieces m line xs) :
    xs.filterMap view? =
      ((line.splitOnP (separates m)).filter (!·.isEmpty)).map
        fun piece => (.parameter, .ofList piece) := by
  induction h with
  | nil => simp [List.splitOnP_nil]
  | @separator c cs xs hc _ ih =>
    have hview : view? ⟨.separator, [c]⟩ = none := rfl
    rw [← List.nil_append (c :: cs), List.splitOnP_append_cons_of_forall_mem (by simp) c hc]
    simpa [hview] using ih
  | @parameter word cs xs hne hword hcs _ ih =>
    have hview : view? ⟨.parameter, word⟩ = some (.parameter, .ofList word) := rfl
    have hkeep : word.isEmpty = false := by simpa using hne
    cases cs with
    | nil =>
      rw [List.append_nil, List.splitOnP_eq_singleton hword]
      simpa [hview, hkeep, List.splitOnP_nil] using ih
    | cons c cs =>
      have hc : separates m c := hcs c rfl
      rw [← List.nil_append (c :: cs), List.splitOnP_append_cons_of_forall_mem (by simp) c hc] at ih
      rw [List.splitOnP_append_cons_of_forall_mem hword c hc]
      simpa [hview, hkeep] using ih

theorem view?_operands (m : Marks) (code line : List Char) :
    (operands m code line).filterMap view? = lineOperands m (.ofList code) line := by
  rw [operands, lineOperands]
  by_cases hcode : takesContent code
  · rw [if_pos hcode, if_pos ((takesContent_iff code).mp hcode), view?_fieldContent]
    simp
  · rw [if_neg hcode, if_neg (fun h => hcode ((takesContent_iff code).mpr h)),
      (pieces_parameterList m line).splitOnP]
    rfl

/-! ## Comments and line breaks -/

theorem splitAtClose?_body {cs body rest : List Char} (h : splitAtClose? cs = some (body, rest)) :
    ¬['*', '/'] <:+: body := by
  fun_induction splitAtClose? cs generalizing body with
  | case1 => simp_all
  | case3 => simp at h
  | case2 c cs hopen ih =>
    obtain ⟨⟨front, back⟩, hs, he⟩ := Option.map_eq_some_iff.mp h
    obtain ⟨rfl, rfl⟩ := Prod.mk.inj he
    rw [List.infix_cons_iff]
    rintro (hstart | hinfix)
    · obtain ⟨hc, more, hfront⟩ := List.cons_prefix_cons.mp hstart
      exact hopen _ hc.symm (by rw [splitAtClose?_eq hs, ← hfront]; rfl)
    · exact ih hs hinfix

theorem splitAtClose?_none {cs : List Char} (h : splitAtClose? cs = none) :
    ¬['*', '/'] <:+: cs := by
  fun_induction splitAtClose? cs with
  | case1 => simp at h
  | case3 => simp
  | case2 c cs hopen ih =>
    rw [List.infix_cons_iff]
    rintro (hstart | hinfix)
    · obtain ⟨hc, more, hcs⟩ := List.cons_prefix_cons.mp hstart
      exact hopen _ hc.symm hcs.symm
    · exact ih (by simpa using h) hinfix

theorem isBreak_of_trivia {cs rest : List Char} {x : Lexeme} (h : trivia? cs = some (x, rest))
    (hx : x.kind = .lineBreak) : IsBreak x.text rest := by
  cases trivia?_iff.mp h with
  | pair => exact .pair
  | carriageReturn hrest => exact .carriageReturn hrest
  | lineFeed => exact .lineFeed
  | line => cases hx
  | block => cases hx
  | unclosed => cases hx

theorem isComment_of_trivia {cs rest : List Char} {x : Lexeme} (h : trivia? cs = some (x, rest))
    (hx : x.kind ≠ .lineBreak) : IsComment x.text x.value rest (x.kind != .openComment) := by
  cases trivia?_iff.mp h with
  | pair => exact absurd rfl hx
  | carriageReturn => exact absurd rfl hx
  | lineFeed => exact absurd rfl hx
  | line hbody hrest => exact .line hbody hrest
  | @block _ body _ hclose =>
    have hvalue : value ⟨.blockComment, '/' :: '*' :: body ++ ['*', '/']⟩ = body := by
      simp [value]
    rw [hvalue]
    exact .block (splitAtClose?_body hclose)
  | unclosed hclose => exact .unclosed (splitAtClose?_none hclose)

/-- A comment that does not end reaches to the end. -/
theorem IsComment.rest_eq {raw value rest : List Char} {closed : Bool}
    (h : IsComment raw value rest closed) (hopen : closed = false) : rest = [] := by
  cases h with
  | unclosed _ => rfl
  | line _ _ => cases hopen
  | block _ => cases hopen

/-! ## The head of a scan -/

theorem Scan.marker_head {cs : List Char} {x : Lexeme} {xs : List Lexeme}
    (h : Scan m cs (x :: xs)) (hx : x.kind = .marker) : ∃ code more, xs = ⟨.code, code⟩ :: more := by
  cases h with
  | loneMarker _ _ => cases hx
  | @command code line rest more _ _ => exact ⟨code, _, rfl⟩
  | trivia _ ht _ => simpa [hx, isTrivia] using trivia?_kind ht
  | blank _ _ _ => cases hx
  | stray _ _ _ => cases hx

theorem Scan.loneMarker_head {cs : List Char} {x : Lexeme} {xs : List Lexeme}
    (h : Scan m cs (x :: xs)) (hx : x.kind = .loneMarker) : ∃ rest, Scan m rest xs := by
  cases h with
  | loneMarker _ hs => exact ⟨_, hs⟩
  | command _ _ => cases hx
  | trivia _ ht _ => simpa [hx, isTrivia] using trivia?_kind ht
  | blank _ _ _ => cases hx
  | stray _ _ _ => cases hx

theorem Scan.trivia_head {cs : List Char} {x : Lexeme} {xs : List Lexeme}
    (h : Scan m cs (x :: xs)) (hx : isTrivia x.kind) :
    trivia? cs = some (x, flatten xs) := by
  cases h with
  | loneMarker _ _ => cases hx
  | command _ _ => cases hx
  | trivia _ ht hs => rwa [hs.flatten_eq]
  | blank _ _ _ => cases hx
  | stray _ _ _ => cases hx

end Lexeme

namespace TokenStream

open Lexeme (place flatten lexemes)

variable {m : Marks} {source : String} {before behind : List Token} {t : Token}

/-! ## Tokens and their lexemes -/

/-- The lexeme of a token, which is not that for the end. -/
theorem exists_lexeme (h : (ofText m source).tokens = before ++ t :: behind)
    (ht : t.kind ≠ .finish) :
    ∃ front x back more p, lexemes m source.toList = front ++ x :: back ∧
      Lexeme.Becomes .start none front x back before t more ∧ behind = more ++ [.finishAt p] := by
  rw [ofText_tokens] at h
  obtain ⟨more, hplace, hbehind⟩ := split_concat (by rintro rfl; exact ht rfl) h
  obtain ⟨front, x, back, hxs, hbecomes⟩ := Lexeme.exists_becomes hplace
  exact ⟨front, x, back, more, _, hxs, hbecomes, hbehind⟩

end TokenStream

namespace Lexeme.Becomes

variable {m : Marks} {source : String} {front back : List Lexeme} {x : Lexeme}
  {before behind : List Token} {t : Token}

theorem token_eq (h : Becomes .start none front x back before t behind) :
    tokenKind? x.kind = some t.kind ∧ t.value = .ofList x.value ∧ t.raw = .ofList x.text := by
  obtain ⟨kind, hkind, ht⟩ := Option.map_eq_some_iff.mp h.token
  rw [← ht]
  exact ⟨hkind, rfl, rfl⟩

theorem splits (h : Becomes .start none front x back before t behind)
    (hxs : lexemes m source.toList = front ++ x :: back) :
    TokenStream.Splits source.toList t (flatten front) (flatten back) where
  text := by rw [h.token_eq.2.2, String.toList_ofList, ← flatten_cons, ← flatten_append, ← hxs,
    flatten_lexemes]
  offset := by
    rw [h.position, Position.after_offset]
    exact Nat.zero_add _

/-- How often a code is reported of the lexeme of a token: once, if that is its problem. -/
theorem reports_length (h : Becomes .start none front x back before t behind)
    (hxs : lexemes m source.toList = front ++ x :: back) (code : String) :
    ((TokenStream.ofText m source).reports code t.position).length =
      if (x.problem? (flatten back).head?).map Problem.code = some code then 1 else 0 := by
  have hoffset := (h.splits hxs).offset
  have hposition := h.position
  rw [Option.or_none] at hposition
  have hplace : (TokenStream.ofText m source).reports code t.position =
      ((TokenStream.ofText m source).errors.filter
        fun d => d.position.offset == Text.byteLength (flatten front)).filter
          fun d => d.code == code && d.position == t.position := by
    rw [List.filter_filter, TokenStream.reports]
    refine List.filter_congr fun d _ => ?_
    by_cases hd : d.position = t.position <;> simp [hd, hoffset]
  rw [hplace, TokenStream.errors_at hxs, ← hposition, Placed.report?]
  cases hp : x.problem? (flatten back).head? with
  | none => simp
  | some problem =>
    by_cases hcode : problem.code = code <;> simp [hcode]

end Lexeme.Becomes

namespace TokenStream

open Lexeme (place flatten lexemes)

variable {m : Marks} {source : String} {before behind : List Token} {t : Token}

theorem gap_of_split {front back : List Lexeme} {x : Lexeme} {c : Char}
    (hxs : lexemes m source.toList = front ++ x :: back) (ht : x.text = [c])
    (hx : Lexeme.tokenKind? x.kind = none) :
    GapAt m (ofText m source) (flatten front) c (flatten back) := by
  have hscan := Lexeme.scan_lexemes m source.toList
  obtain ⟨hmarker, hbreak⟩ := Lexeme.isOperandChar_iff.mp (hscan.isOperandChar_of_gap hxs hx ht)
  refine ⟨hmarker, hbreak, fun hcomment => ?_⟩
  have hslash : c = '/' := by
    rcases hcomment with h | h <;> exact (List.cons_prefix_cons.mp h).1.symm
  have hblank : Text.isBlank c = false := by
    rw [hslash]
    decide
  obtain ⟨d, hd, hkind⟩ := (hscan.fits x (by simp [hxs])).gap hx
  obtain rfl : c = d := by simpa [ht] using hd
  rcases hkind with ⟨-, hb⟩ | ⟨hk, hseparates⟩ | ⟨hk, -⟩
  · simp [hb] at hblank
  · exact ⟨by simpa [Lexeme.separates, hblank] using hseparates, inParameters_of_separator hxs hk⟩
  · -- a comment would have been found before a stray character
    rw [hxs] at hscan
    have hlead : Lexeme.leads x.kind ∧ x.kind ≠ .blank := by simp [hk, Lexeme.leads]
    obtain ⟨e, he, hplain⟩ := (hscan.suffix hlead.1 hlead.2).plain_head (.inr hk)
    obtain rfl : c = e := by simpa [ht] using he
    have hnone := hplain.not_trivia
    rcases hcomment with h | h
    · obtain ⟨rest, hrest⟩ := h
      simp [← hrest, Lexeme.trivia?] at hnone
    · obtain ⟨rest, hrest⟩ := h
      simp only [← hrest, List.cons_append, List.nil_append, Lexeme.trivia?] at hnone
      split at hnone <;> cases hnone

theorem ofText_gap {before behind : List Char} {c : Char}
    (h : source.toList = before ++ c :: behind)
    (hu : (ofText m source).Uncovered (Text.byteLength before)) :
    GapAt m (ofText m source) before c behind := by
  obtain ⟨front, x, back, hxs, ht, rfl, hx⟩ := gap_of_uncovered h hu
  have hsource := (Lexeme.scan_lexemes m source.toList).flatten_eq
  rw [hxs, Lexeme.flatten_append, Lexeme.flatten_cons, ht, h] at hsource
  obtain rfl : flatten back = behind := (List.cons.inj (List.append_cancel_left hsource)).2
  exact gap_of_split hxs ht hx

theorem isWord_phrases (ps : List Phrase) (p : Position) :
    IsWord (ps.flatMap Phrase.tokens ++ [.finishAt p]) := by
  induction ps with
  | nil => exact .finish rfl
  | cons phrase ps ih =>
    rw [List.flatMap_cons, List.append_assoc]
    cases phrase with
    | lineBreak t ht => exact .lineBreak ht ih
    | other t ht =>
      rcases ht with ht | ht
      · exact .comment ht ih
      · exact .loneMarker ht ih
    | call c =>
      have hfit := c.operands_fit
      have hcode := Lexeme.takesContent_iff c.code.value.toList
      rw [String.ofList_toList] at hcode
      unfold OperandsFit at hfit
      split at hfit
      · next hcontent =>
        obtain ⟨content, hoperands, hkind⟩ := hfit
        rw [Phrase.tokens, Call.tokens, hoperands]
        exact .field c.marker_kind c.code_kind (hcode.mp hcontent) hkind ih
      · next hcontent =>
        exact .command c.marker_kind c.code_kind (fun hc => hcontent (hcode.mpr hc)) hfit ih

theorem plain_of_mem (h : t ∈ (ofText m source).tokens) (hcomment : t.kind ≠ .comment)
    (hbreak : t.kind ≠ .lineBreak) : t.value = t.raw := by
  rcases mem_tokens.mp h with ⟨x, hx, htoken⟩ | rfl
  · obtain ⟨kind, hkind, rfl⟩ := Placed.token?_eq htoken
    cases hk : x.lexeme.kind <;> simp_all [Lexeme.tokenKind?, Lexeme.value]
  · rfl

/-- Operands end where the next phrase or the end of the source begins. -/
theorem takeWhile_operands {operands : List Token} (h : ∀ t ∈ operands, Rule.isOperand t.kind)
    (ps : List Phrase) (p : Position) :
    (operands ++ (ps.flatMap Phrase.tokens ++ [Token.finishAt p])).takeWhile
      (fun t => Rule.isOperand t.kind) = operands := by
  refine takeWhile_run h fun t ht => ?_
  have hstop := Phrase.startsWithout_operand ps
  cases hps : ps.flatMap Phrase.tokens with
  | nil =>
    rw [hps] at ht
    obtain rfl := Option.some.inj ht
    rfl
  | cons u us =>
    rw [hps] at ht hstop
    exact hstop t ht

/-- The operand tokens behind a code are what its line gives. -/
theorem operands_place {code line rest : List Char} {others : List Lexeme} {ts : List Token}
    (hs : Lexeme.Scan m rest others) (q p : Position)
    (h : (place q none (Lexeme.operands m code line ++ others)).filterMap Placed.token? = ts) :
    ((ts ++ [Token.finishAt p]).takeWhile fun u => Rule.isOperand u.kind).map Token.view =
      Lexeme.lineOperands m (.ofList code) line := by
  rw [Lexeme.place_append, List.filterMap_append] at h
  obtain ⟨ps, hps⟩ := hs.phrases _ none
  have hview := Lexeme.view_place q ((flatten others).head?.or none) (Lexeme.operands m code line)
  rw [← h, hps, List.append_assoc,
    takeWhile_operands (Lexeme.operandsFit_of_view hview).isOperand, hview, Lexeme.view?_operands]

theorem ofText_code (h : (ofText m source).tokens = before ++ t :: behind) (ht : t.kind = .code) :
    CodeAt m source.toList before t behind := by
  obtain ⟨front, x, back, more, p, hxs, hx, rfl⟩ := exists_lexeme h (by simp [ht])
  obtain ⟨hkind, hvalue, hraw⟩ := hx.token_eq
  have hxkind : x.kind = .code := by
    rw [ht] at hkind
    cases hk : x.kind <;> simp_all [Lexeme.tokenKind?]
  have hsplits := hx.splits hxs
  cases (Lexeme.scan_lexemes m source.toList).around hxs with
  | head hk _ => simp [hxkind, Lexeme.leads] at hk
  | @operand _ code line _ _ _ _ _ _ _ ho _ =>
    have hoperand := Lexeme.operands_kind (ho ▸ by simp : x ∈ Lexeme.operands m code line)
    split at hoperand <;> simp [hxkind] at hoperand
  | @code pre line rest others _ hcommand hs hfront hback =>
    have htext : flatten back = line ++ rest := by
      rw [hback, Lexeme.flatten_append, Lexeme.flatten_operands, hs.flatten_eq]
    constructor
    · have hbefore := hx.before
      rw [hfront, Lexeme.place_concat _ _ _ (by simp), List.filterMap_append] at hbefore
      refine ⟨_, by rw [← hbefore]; exact List.getLast?_concat, rfl, ?_⟩
      rw [hsplits.offset, hfront]
      simp [Token.stop, Position.after_offset, Position.start]
    · refine ⟨flatten front, line, rest, htext ▸ hsplits, ?_, hcommand.isLine, ?_⟩
      · rw [hraw, String.toList_ofList]
        exact hcommand.code.longest
      · rw [hvalue, Lexeme.value, hxkind]
        exact operands_place hs _ p (hback ▸ hx.behind)

/-- A list of phrases starts with no code. -/
theorem head_ne_code (ps : List Phrase) (p : Position) :
    (ps.flatMap Phrase.tokens ++ [Token.finishAt p]).head?.map Token.kind ≠ some .code := by
  have hhead := @Phrase.head_kind ps
  cases hps : ps.flatMap Phrase.tokens with
  | nil => simp [Token.finishAt]
  | cons t ts =>
    have ht := hhead (t := t) (by rw [hps]; rfl)
    rcases ht with ht | ht | ht <;> simp [ht]

theorem ofText_marker (h : (ofText m source).tokens = before ++ t :: behind)
    (ht : t.kind = .marker) : MarkerAt m (ofText m source) t behind := by
  obtain ⟨front, x, back, more, p, hxs, hx, rfl⟩ := exists_lexeme h (by simp [ht])
  obtain ⟨hkind, -, hraw⟩ := hx.token_eq
  have hxkind := Lexeme.kind_of_marker (ht ▸ hkind)
  have hscan := Lexeme.scan_lexemes m source.toList
  rw [hxs] at hscan
  have htext : x.text = [m.marker] := by
    have := hscan.fits x (by simp)
    rcases hxkind with hk | hk <;> simpa [Lexeme.Fits, hk] using this
  have hlead : Lexeme.leads x.kind ∧ x.kind ≠ .blank := by
    rcases hxkind with hk | hk <;> simp [hk, Lexeme.leads]
  have hhead := hscan.suffix hlead.1 hlead.2
  have hbehind := hx.behind
  refine ⟨by rw [hraw, String.toList_ofList, htext], ?_⟩
  rw [hx.reports_length hxs]
  rcases hxkind with hk | hk
  · obtain ⟨code, others, rfl⟩ := hhead.marker_head hk
    rw [Lexeme.tokens_place_cons] at hbehind
    rw [← hbehind]
    simp [Lexeme.problem?, hk, Lexeme.token?, Lexeme.tokenKind?]
  · obtain ⟨rest, hrest⟩ := hhead.loneMarker_head hk
    obtain ⟨ps, hps⟩ := hrest.phrases _ none
    rw [← hbehind, hps, if_neg (head_ne_code ps p)]
    simp [Lexeme.problem?, hk, htext, Problem.code]

/-- A comment or line break, and what stands behind it. -/
theorem exists_trivia (h : (ofText m source).tokens = before ++ t :: behind)
    (ht : t.kind = .comment ∨ t.kind = .lineBreak) :
    ∃ front x back more p, lexemes m source.toList = front ++ x :: back ∧
      Lexeme.Becomes .start none front x back before t more ∧ behind = more ++ [.finishAt p] ∧
      Lexeme.isTrivia x.kind ∧ Lexeme.trivia? (x.text ++ flatten back) = some (x, flatten back) := by
  obtain ⟨front, x, back, more, p, hxs, hx, hbehind⟩ :=
    exists_lexeme h (by rcases ht with ht | ht <;> simp [ht])
  have hkind := hx.token_eq.1
  have hxkind : Lexeme.isTrivia x.kind := by
    rcases ht with ht | ht <;> rw [ht] at hkind <;>
      cases hk : x.kind <;> simp_all [Lexeme.tokenKind?, Lexeme.isTrivia]
  have hscan := Lexeme.scan_lexemes m source.toList
  rw [hxs] at hscan
  have hblank : x.kind ≠ .blank := by
    intro hk
    simp [hk, Lexeme.isTrivia] at hxkind
  exact ⟨front, x, back, more, p, hxs, hx, hbehind, hxkind,
    (hscan.suffix (Lexeme.leads_of_isTrivia hxkind) hblank).trivia_head hxkind⟩

theorem ofText_comment (h : (ofText m source).tokens = before ++ t :: behind)
    (ht : t.kind = .comment) : CommentAt source.toList (ofText m source) t behind := by
  obtain ⟨front, x, back, more, p, hxs, hx, rfl, -, htrivia⟩ := exists_trivia h (.inl ht)
  obtain ⟨hkind, hvalue, hraw⟩ := hx.token_eq
  have hxkind : x.kind ≠ .lineBreak := by
    intro hk
    simp [hk, Lexeme.tokenKind?, ht] at hkind
  have hform := Lexeme.isComment_of_trivia htrivia hxkind
  refine ⟨flatten front, flatten back, x.kind != .openComment, hx.splits hxs, ?_, ?_, ?_⟩
  · rwa [hraw, hvalue, String.toList_ofList, String.toList_ofList]
  · rw [hx.reports_length hxs]
    cases hk : x.kind <;> simp_all [Lexeme.tokenKind?, Lexeme.problem?, Problem.code]
  · intro hopen
    have hback : back = [] := by
      have hempty := hform.rest_eq hopen
      cases back with
      | nil => rfl
      | cons y ys =>
        have hy := (Lexeme.scan_lexemes m source.toList).nonempty y (by simp [hxs])
        exact absurd (List.append_eq_nil_iff.mp hempty).1 hy
    have hbehind := hx.behind
    rw [hback] at hbehind
    rw [← hbehind]
    rfl

theorem ofText_lineBreak (h : t ∈ (ofText m source).tokens) (ht : t.kind = .lineBreak) :
    t.value = "\n" ∧ ∃ front rest, Splits source.toList t front rest ∧
      Lexeme.IsBreak t.raw.toList rest := by
  obtain ⟨before, behind, hsplit⟩ := List.mem_iff_append.mp h
  obtain ⟨front, x, back, _, _, hxs, hx, -, -, htrivia⟩ := exists_trivia hsplit (.inr ht)
  obtain ⟨hkind, hvalue, hraw⟩ := hx.token_eq
  have hxkind : x.kind = .lineBreak := by
    rw [ht] at hkind
    cases hk : x.kind <;> simp_all [Lexeme.tokenKind?]
  refine ⟨by rw [hvalue, Lexeme.value, hxkind], flatten front, flatten back, hx.splits hxs, ?_⟩
  rw [hraw, String.toList_ofList]
  exact Lexeme.isBreak_of_trivia htrivia hxkind

theorem reported_at {d : Diagnostic} (h : d ∈ (ofText m source).errors) :
    (d.code = "ZPL0002" → ∃ t ∈ (ofText m source).tokens, t.kind = .marker ∧
        d.position = t.position) ∧
      (d.code = "ZPL0003" → ∃ t ∈ (ofText m source).tokens, t.kind = .comment ∧
        d.position = t.position) := by
  rw [ofText_errors] at h
  obtain ⟨x, hx, hreport⟩ := List.mem_filterMap.mp h
  obtain ⟨problem, hproblem, rfl⟩ := Option.map_eq_some_iff.mp hreport
  have token : ∀ kind, Lexeme.tokenKind? x.lexeme.kind = some kind →
      ∃ t ∈ (ofText m source).tokens, t.kind = kind ∧
        (problem.diagnose x.position).position = t.position := by
    intro kind hkind
    have htoken : x.token? = some ⟨kind, .ofList x.lexeme.value, x.position, .ofList x.lexeme.text⟩ := by
      rw [Placed.token?, Lexeme.token?, hkind]
      rfl
    exact ⟨_, mem_tokens.mpr (.inl ⟨x, hx, htoken⟩), rfl, rfl⟩
  rw [Problem.diagnose_code]
  unfold Lexeme.problem? at hproblem
  split at hproblem
  · obtain rfl := Option.some.inj hproblem
    simp [Problem.code]
  · next hk _ =>
    obtain rfl := Option.some.inj hproblem
    exact ⟨fun _ => token .marker (by rw [hk]; rfl), by simp [Problem.code]⟩
  · next hk =>
    obtain rfl := Option.some.inj hproblem
    exact ⟨by simp [Problem.code], fun _ => token .comment (by rw [hk]; rfl)⟩
  · simp at hproblem

/-- The stream of a source has the lexical grammar, whatever the marker and the
delimiter are. -/
theorem ofText_grammatical (m : Marks) (source : String) :
    (ofText m source).Grammatical m source.toList where
  word := by
    obtain ⟨ps, p, htokens⟩ := ofText_phrases m source
    rw [htokens]
    exact isWord_phrases ps p
  ordered := ofText_ordered m source
  gap _ _ _ := ofText_gap
  plain _ := plain_of_mem
  code _ _ _ := ofText_code
  marker _ _ _ := ofText_marker
  comment _ _ _ := ofText_comment
  lineBreak _ := ofText_lineBreak
  reported _ := reported_at

end TokenStream
end Zpl
