import Zpl.Grammar

/-! Sums in machine words. Indices, columns and offsets are words of 64 bits, and the sums that
the cursor and the reader form of them fit into words where the tokens are those of a source.
Tokens made by hand, or a count of places to look ahead, need not leave room for that. A program
is built to stop at such a sum, or to go on with the rest of it. -/

namespace Zpl

/-- How a program is built. -/
inductive Build where
  /-- A sum that is no word stops the program. -/
  | checked
  /-- A sum that is no word is taken modulo the number of words. -/
  | wrapping
deriving DecidableEq

namespace Build

/-- The word for a sum of words, unless the program stops. -/
def word? (b : Build) (sum : Nat) : Option Nat :=
  if sum < UInt64.size then some sum
  else match b with
    | checked => none
    | wrapping => some (sum % UInt64.size)

variable {b : Build} {sum : Nat}

@[simp] theorem word?_of_lt (h : sum < UInt64.size) : b.word? sum = some sum :=
  if_pos h

/-- Only a build that checks its sums stops, and only at one that is no word. -/
theorem word?_eq_none_iff : b.word? sum = none ↔ b = checked ∧ UInt64.size ≤ sum := by
  unfold word?
  split
  · next h => simp [Nat.not_le_of_lt h]
  · next h => cases b <;> simp [Nat.le_of_not_lt h]

/-- The program stops, or goes on with a word, which is the sum if that is one. -/
theorem word?_cases (b : Build) (sum : Nat) :
    b.word? sum = none ∧ b = checked ∧ UInt64.size ≤ sum ∨
      ∃ word, b.word? sum = some word ∧ ¬(b = checked ∧ UInt64.size ≤ sum) ∧
        (sum < UInt64.size → word = sum) := by
  cases hword : b.word? sum with
  | none => exact .inl ⟨rfl, word?_eq_none_iff.mp hword⟩
  | some word =>
    refine .inr ⟨word, rfl, by simp [← word?_eq_none_iff, hword], fun h => ?_⟩
    rw [word?_of_lt h] at hword
    exact (Option.some.inj hword).symm

end Build

/-- The word for the byte offset behind the last character of a token. -/
def Token.stop? (b : Build) (t : Token) : Option Nat :=
  b.word? t.stop

theorem Token.finishAt_kind (p : Position) : (finishAt p).kind = .finish := rfl

namespace Cursor

/-- The position behind a token in words, if the token is the last of its line. -/
def behindToken? (b : Build) (t : Token) : Option Position := do
  return ⟨t.position.line, ← b.word? (t.position.column + t.raw.length), ← t.stop? b⟩

/-- A cursor before the first token of any list, as `ofTokens` gives it for tokens that leave
room for the position behind them. -/
def ofTokens? (b : Build) (tokens : List Token) : Option Cursor :=
  match tokens.getLast? with
  | none => some ⟨[], [], .finishAt .start, Token.finishAt_kind .start⟩
  | some t =>
    if h : t.kind = .finish then some ⟨[], tokens.dropLast, t, h⟩
    else (behindToken? b t).map fun p => ⟨[], tokens, .finishAt p, Token.finishAt_kind p⟩

/-- The token any number of places in front: the one at an index of the whole list, or the last
one. A sum that wraps around is the index of a token that may have been passed. -/
def peekNth? (b : Build) (c : Cursor) (n : Nat) : Option Token :=
  (b.word? (c.index + n)).map fun i => c.tokens.getD i c.last

/-- The word for the byte offset behind the last token passed. -/
def consumedEnd? (b : Build) (c : Cursor) : Option Nat :=
  match c.behind with
  | [] => some 0
  | t :: _ => t.stop? b

theorem consumedEnd?_eq (b : Build) (c : Cursor) : c.consumedEnd? b = b.word? c.consumedEnd := by
  unfold consumedEnd? consumedEnd
  cases c.behind with
  | nil => exact (Build.word?_of_lt (by decide)).symm
  | cons t behind => rfl

end Cursor

namespace Reader

/-- A reader before the first token of any stream. -/
def ofStream? (b : Build) (source : String) (stream : TokenStream) : Option Reader :=
  (Cursor.ofTokens? b stream.tokens).map fun c => ⟨source.toList, c, stream.errors, []⟩

/-- The source text from one offset to another. It is empty if they do not fit the source. -/
def textBetween (r : Reader) (start stop : Nat) : String :=
  .ofList ((Text.slice? r.source start (max stop start)).getD [])

/-- The command that starts at `head` and ends with the last token passed, whatever tokens the
reader has. -/
def finish? (b : Build) (r : Reader) (head : Head) (parameters : List String)
    (kind : CommandKind) : Option Command :=
  (r.cursor.consumedEnd? b).map fun stop =>
    { code := head.code
      rawText := r.textBetween head.position.offset stop
      position := head.position
      parameters
      kind }

end Reader

/-- Reads one command with a rule, whatever tokens the reader has. -/
def Rule.parse? (b : Build) (rule : Rule) (r : Reader) :
    Option (Except SyntaxError Command × Reader) :=
  match rule.program.run r with
  | (.error e, s) => some (.error e, s)
  | (.ok (head, reading), s) =>
    (s.finish? b head (reading.parameters.map Token.value) reading.kind).map fun c => (.ok c, s)

/-- A rule fails alike in every build. Where it does not, its command is to be finished. -/
theorem Rule.parse?_cases (b : Build) (rule : Rule) (r : Reader) :
    (∃ e s, rule.parse r = (.error e, s) ∧ rule.parse? b r = some (.error e, s)) ∨
      ∃ s head parameters kind, rule.parse r = (.ok (s.finish head parameters kind), s) ∧
        rule.parse? b r = (s.finish? b head parameters kind).map fun c => (.ok c, s) := by
  rcases hrun : rule.program.run r with ⟨e | ⟨head, reading⟩, s⟩
  · exact .inl ⟨e, s, by simp [parse, hrun], by simp [parse?, hrun]⟩
  · exact .inr ⟨s, head, reading.parameters.map Token.value, reading.kind,
      by simp [parse, hrun], by simp [parse?, hrun]⟩

/-! ## Room for the sums -/

section Room

variable {b : Build}

/-- A list that ends with a token for the end needs none. -/
theorem Cursor.ofTokens?_of_finish {tokens : List Token} {t : Token}
    (h : tokens.getLast? = some t) (hkind : t.kind = .finish) :
    ofTokens? b tokens = some (ofTokens tokens) := by
  obtain ⟨init, rfl⟩ := List.getLast?_eq_some_iff.mp h
  simp [ofTokens?, ofTokens, hkind]

/-- Looking ahead in a list finds what stands in front, if the index there is a word. -/
theorem Cursor.peekNth?_of_lt {c : Cursor} {n : Nat} (h : c.index + n < UInt64.size) :
    c.peekNth? b n = some (c.peekNth n) := by
  have htokens : c.tokens = c.behind.reverse ++ (c.ahead ++ [c.last]) := List.append_assoc ..
  rw [peekNth?, Build.word?_of_lt h, Option.map_some, htokens, peekNth,
    List.getD_eq_getElem?_getD, List.getD_eq_getElem?_getD,
    List.getElem?_append_right (by simp [index]), List.length_reverse, index,
    Nat.add_sub_cancel_left]
  rcases Nat.lt_or_ge n c.ahead.length with hn | hn
  · rw [List.getElem?_append_left hn]
  · rw [List.getElem?_eq_none hn]
    rcases Nat.eq_or_lt_of_le hn with rfl | hn
    · rw [List.getElem?_append_right (Nat.le_refl _), Nat.sub_self]
      rfl
    · rw [List.getElem?_eq_none (by rw [List.length_append]; exact hn), Option.getD_none]

theorem Reader.finish?_of_lt {r : Reader} (h : r.cursor.consumedEnd < UInt64.size) (head : Head)
    (parameters : List String) (kind : CommandKind) :
    r.finish? b head parameters kind = some (r.finish head parameters kind) := by
  rw [finish?, Cursor.consumedEnd?_eq, Build.word?_of_lt h]
  rfl

/-- A rule reads the same command in every build, if its end is a word. -/
theorem Rule.parse?_of_lt {rule : Rule} {r : Reader}
    (h : (rule.parse r).2.cursor.consumedEnd < UInt64.size) :
    rule.parse? b r = some (rule.parse r) := by
  rcases rule.parse?_cases b r with ⟨e, s, hparse, hfails⟩ | ⟨s, head, ps, kind, hparse, hreads⟩
  · rw [hparse, hfails]
  · rw [hparse] at h
    rw [hparse, hreads, Reader.finish?_of_lt h, Option.map_some]

end Room

end Zpl
