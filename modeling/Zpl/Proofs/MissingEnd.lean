import Zpl.Proofs.LineBreak
import Zpl.Proofs.TruePosition

/-! Streams without their last token. A cursor over tokens that do not end with the end of the
source makes up for it, with the place behind the last token as if that token stood on one line.
So a stream that reaches the end of its source gets its end back if its last token breaks no
line, and otherwise one that is too high by the lines that the token breaks
(`ofText_missingEnd`). -/

namespace Zpl

open Text (isLineBreak lineBreaks)

/-! ## Texts on one line -/

theorem Text.lineBreaks_eq_zero_iff (cs : List Char) :
    lineBreaks cs = 0 ↔ ∀ c ∈ cs, isLineBreak c = false := by
  induction cs with
  | nil => simp [lineBreaks]
  | cons c cs ih =>
    rw [lineBreaks, Nat.add_eq_zero_iff, ih, List.forall_mem_cons]
    refine and_congr_left fun hcs => ?_
    -- a line feed that hides a carriage return would itself be a line break behind it
    have hnext : cs.head? ≠ some '\n' := fun hhead =>
      absurd (hcs '\n' (List.mem_of_head? hhead)) (by decide)
    have hends : Position.endsLine c cs.head? = isLineBreak c := by
      rw [Position.endsLine, isLineBreak, bne_iff_ne.mpr hnext, Bool.and_true]
    rw [hends]
    cases isLineBreak c <;> simp

namespace Position

/-- On one line, characters are columns. -/
theorem after_oneLine {cs : List Char} (h : ∀ c ∈ cs, isLineBreak c = false) (p : Position)
    (next : Option Char) :
    p.after cs next = ⟨p.line, p.column + cs.length, p.offset + Text.byteLength cs⟩ := by
  induction cs generalizing p with
  | nil => rfl
  | cons c cs ih =>
    obtain ⟨hc, hcs⟩ := List.forall_mem_cons.mp h
    have hends : ∀ n, endsLine c n = false := by
      intro n
      have hbreaks : c ≠ '\n' ∧ c ≠ '\r' := by simpa [isLineBreak] using hc
      simp [endsLine, hbreaks]
    rw [after, ih hcs, step, hends]
    simp only [Bool.false_eq_true, if_false, mk.injEq, List.length_cons, Text.byteLength]
    exact ⟨trivial, by omega, by omega⟩

end Position

/-! ## The end of a source -/

theorem Cursor.behindToken_position (t : Token) :
    behindToken t = ⟨t.position.line, t.position.column + t.raw.toList.length,
      t.position.offset + Text.byteLength t.raw.toList⟩ := by
  rw [behindToken, Token.stop, String.length_toList]

/-- The place behind the last token is the true one if the token breaks no line. -/
theorem Cursor.behindToken_eq_iff (t : Token) :
    behindToken t = t.position.after t.raw.toList none ↔
      ∀ c ∈ t.raw.toList, isLineBreak c = false := by
  constructor
  · intro h
    have hline := Position.after_line t.position t.raw.toList
    rw [← h, behindToken_position] at hline
    exact (Text.lineBreaks_eq_zero_iff _).mp (Nat.add_eq_left.mp hline.symm)
  · intro h
    rw [behindToken_position, Position.after_oneLine h]

namespace TokenStream

variable {m : Marks} {source : String}

/-- The end of a source is the place behind a token that reaches it. -/
theorem after_of_stop {t : Token} (ht : t ∈ (ofText m source).tokens)
    (hstop : t.stop = Text.byteLength source.toList) :
    Position.start.after source.toList none = t.position.after t.raw.toList none := by
  obtain ⟨before, behind, hsource, hposition⟩ := token_at ht
  have hoffset : t.position.offset = Text.byteLength before := by
    rw [hposition, hsource]
    simp [Position.ofIndex]
  have hbehind : Text.byteLength behind = 0 := by
    rw [Token.stop, hoffset, hsource, Text.byteLength_append, Text.byteLength_append] at hstop
    omega
  have hnil : behind = [] :=
    Decidable.byContradiction fun hne => Nat.ne_of_gt (Lexeme.byteLength_pos hne) hbehind
  subst hnil
  rw [List.append_nil] at hsource
  have hstart : t.position = Position.start.after before t.raw.toList.head? := by
    have hlength : before.length ≤ source.toList.length := by simp [hsource]
    have htake := Position.after_take hlength
    rw [← hposition, hsource, List.take_left, List.getElem?_append_right (Nat.le_refl _),
      Nat.sub_self, ← List.head?_eq_getElem?] at htake
    exact htake.symm
  rw [hsource, Position.after_append, Option.or_none, ← hstart]

/-- The tokens of a source before its end, and the cursor over all of them. -/
theorem ofText_split (m : Marks) (source : String) :
    ∃ front, (ofText m source).tokens =
        front ++ [.finishAt (Position.start.after source.toList none)] ∧
      (∀ t ∈ front, t.kind ≠ .finish) ∧
      Cursor.ofTokens (ofText m source).tokens =
        ⟨[], front, .finishAt (Position.start.after source.toList none), rfl⟩ := by
  obtain ⟨front, p, htokens, -, hfront⟩ := ofText_ending m source
  have hend : Token.finishAt p = .finishAt (Position.start.after source.toList none) := by
    have hlast := congrArg List.getLast? (htokens.symm.trans (ofText_tokens m source))
    simpa using hlast
  rw [hend] at htokens
  refine ⟨front, htokens, fun t ht => (hfront t ht).1, ?_⟩
  rw [htokens]
  simp [Cursor.ofTokens, Token.finishAt]

end TokenStream

/-- A cursor over tokens none of which stands for the end gets one behind the last of them. -/
theorem Cursor.ofTokens_endless {tokens : List Token} {t : Token}
    (hlast : tokens.getLast? = some t) (hkind : t.kind ≠ .finish) :
    ofTokens tokens = ⟨[], tokens, .finishAt (behindToken t), rfl⟩ := by
  rw [ofTokens]
  split
  · next hnone => rw [hnone] at hlast; cases hlast
  · next u hsome =>
    obtain rfl := Option.some.inj (hsome.symm.trans hlast)
    rw [dif_neg hkind]

/-- Tokens that reach the end of their source get the same end with the last token taken away
and without, but on a line that is too high by the line breaks of the last of the others. With no
other token, an empty source gets its end back too. -/
theorem TokenStream.ofText_missingEnd (m : Marks) (source : String) :
    let tokens := (ofText m source).tokens
    let whole := Cursor.ofTokens tokens
    let restored := Cursor.ofTokens tokens.dropLast
    (tokens.dropLast = [] → source = "" → restored.tokens = whole.tokens) ∧
    ∀ t, tokens.dropLast.getLast? = some t → t.stop = Text.byteLength source.toList →
      whole.tokens = tokens ∧ restored.tokens.dropLast = tokens.dropLast ∧
      restored.last.position.offset = whole.last.position.offset ∧
      restored.last.position.line + lineBreaks t.raw.toList = whole.last.position.line ∧
      (restored.tokens = whole.tokens ↔ ∀ c ∈ t.raw.toList, isLineBreak c = false) := by
  intro tokens whole restored
  obtain ⟨front, htokens, hfront, hwhole⟩ := ofText_split m source
  have hdrop : tokens.dropLast = front := by
    rw [show tokens = _ from htokens, List.dropLast_concat]
  refine ⟨fun hnil hsource => ?_, fun t hlast hstop => ?_⟩
  · have hnone : front = [] := hdrop ▸ hnil
    have hrestored : restored = ⟨[], [], .finishAt .start, rfl⟩ := by
      rw [show restored = Cursor.ofTokens tokens.dropLast from rfl, hnil]
      rfl
    rw [hrestored, show whole = _ from hwhole, hnone, hsource]
    rfl
  · have hmem : t ∈ front := List.mem_of_getLast? (hdrop ▸ hlast)
    have hafter := after_of_stop (m := m) (by simp [htokens, hmem]) hstop
    have hrestored : restored = ⟨[], front, .finishAt (Cursor.behindToken t), rfl⟩ := by
      rw [← hdrop]
      exact Cursor.ofTokens_endless hlast (hfront t hmem)
    rw [hafter] at htokens hwhole
    have hend : restored.tokens = whole.tokens ↔
        Cursor.behindToken t = t.position.after t.raw.toList none := by
      rw [hrestored, show whole = _ from hwhole]
      simp [Cursor.tokens, Token.finishAt]
    refine ⟨?_, ?_, ?_, ?_, hend.trans (Cursor.behindToken_eq_iff t)⟩
    · rw [show whole = _ from hwhole, show tokens = _ from htokens]
      rfl
    · rw [hrestored, hdrop]
      exact List.dropLast_concat
    · rw [hrestored, show whole = _ from hwhole]
      exact (Position.after_offset _ _ _).symm
    · rw [hrestored, show whole = _ from hwhole]
      exact (Position.after_line t.position t.raw.toList).symm

/-- A field of several bytes a character is a last token on one line, and the end behind it comes
back. -/
theorem TokenStream.ofText_missingEnd_field :
    let tokens := (ofText .standard "^XA\r\n^FDé𝄞").tokens
    let field : Token := ⟨.content, "é𝄞", ⟨2, 4, 8⟩, "é𝄞"⟩
    (tokens.dropLast.getLast? = some field ∧
      field.stop = Text.byteLength "^XA\r\n^FDé𝄞".toList) ∧
    (Cursor.ofTokens tokens.dropLast).tokens = (Cursor.ofTokens tokens).tokens ∧
    (Cursor.ofTokens tokens.dropLast).last.position = ⟨2, 6, 14⟩ := by
  intro tokens field
  have hlast : tokens.dropLast.getLast? = some field ∧
      field.stop = Text.byteLength "^XA\r\n^FDé𝄞".toList := by decide +kernel
  have hline : field.raw.toList.all fun c => isLineBreak c == false := by decide +kernel
  obtain ⟨-, -, -, -, hend⟩ := (ofText_missingEnd .standard _).2 field hlast.1 hlast.2
  exact ⟨hlast, hend.mpr (by simpa only [List.all_eq_true, beq_iff_eq] using hline),
    by decide +kernel⟩

/-- Behind a line break the end of a source is on the next line, and the one that is made up on
the line before. -/
theorem TokenStream.ofText_missingEnd_lineBreak :
    let tokens := (ofText .standard "^XA\n").tokens
    (∀ t ∈ tokens.dropLast.getLast?, t.stop = Text.byteLength "^XA\n".toList) ∧
    tokens.dropLast ≠ [] ∧
    (Cursor.ofTokens tokens.dropLast).tokens ≠ (Cursor.ofTokens tokens).tokens ∧
    (Cursor.ofTokens tokens.dropLast).last.position = ⟨1, 5, 4⟩ ∧
    (Cursor.ofTokens tokens).last.position = ⟨2, 1, 4⟩ := by
  decide +kernel

end Zpl
