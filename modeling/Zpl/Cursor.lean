import Zpl.Diagnostic.Problem

/-! A cursor over tokens. It keeps the tokens it has passed and the tokens in
front of it, so the whole list can be read off it at any time. The last token
of the list stands for the end of the source, and the cursor never passes it
nor an earlier token of that kind. -/

namespace Zpl

/-- A grammar needs one kind of token and finds another token. -/
structure SyntaxError where
  expected : TokenKind
  found : Token
deriving DecidableEq

namespace SyntaxError

def problem (e : SyntaxError) : Problem :=
  .unexpectedToken e.expected e.found

def position (e : SyntaxError) : Position :=
  e.found.position

def message (e : SyntaxError) : String :=
  e.problem.message e.position

def diagnostic (e : SyntaxError) : Diagnostic :=
  e.problem.diagnose e.position

end SyntaxError

/-- Marker and code of a command. -/
structure Head where
  code : String
  /-- Where the marker stands. -/
  position : Position
deriving DecidableEq

structure Cursor where
  /-- The tokens passed so far, the latest first. -/
  behind : List Token
  /-- The tokens in front, without the last one of the list. -/
  ahead : List Token
  /-- The last token of the list. -/
  last : Token
  last_kind : last.kind = .finish
deriving DecidableEq

namespace Cursor

/-- The position behind a token, if it is the last of its line. It fits into words where the
token is one of a source; for any other see `behindToken?`. -/
def behindToken (t : Token) : Position :=
  ⟨t.position.line, t.position.column + t.raw.length, t.stop⟩

/-- A cursor before the first token of a list. A list that does not end with a
token for the end of the source gets one. -/
def ofTokens (tokens : List Token) : Cursor :=
  match tokens.getLast? with
  | none => ⟨[], [], .finishAt .start, rfl⟩
  | some t =>
    if h : t.kind = .finish then ⟨[], tokens.dropLast, t, h⟩
    else ⟨[], tokens, .finishAt (behindToken t), rfl⟩

/-- All tokens of the list the cursor stands in. -/
def tokens (c : Cursor) : List Token :=
  c.behind.reverse ++ c.ahead ++ [c.last]

/-- The number of tokens passed, the index of the next one. -/
def index (c : Cursor) : Nat :=
  c.behind.length

/-- The token `n` places in front; the last token stands for all beyond it. A
reader of commands looks one place ahead at most; for any number of places see `peekNth?`. -/
def peekNth (c : Cursor) (n : Nat) : Token :=
  c.ahead.getD n c.last

def peek (c : Cursor) : Token :=
  c.peekNth 0

theorem peek_of_ahead {c : Cursor} {t : Token} {rest : List Token} (h : c.ahead = t :: rest) :
    c.peek = t := by
  rw [peek, peekNth, h]
  rfl

theorem peek_of_nil {c : Cursor} (h : c.ahead = []) : c.peek = c.last := by
  rw [peek, peekNth, h]
  rfl

/-- The next token is in front of the cursor, or the last one. -/
theorem peek_mem (c : Cursor) : c.peek ∈ c.ahead ++ [c.last] := by
  unfold peek peekNth
  cases c.ahead with
  | nil => exact List.mem_cons_self
  | cons t rest => exact List.mem_cons_self

def check (c : Cursor) (kind : TokenKind) : Bool :=
  c.peek.kind == kind

def atEnd (c : Cursor) : Bool :=
  c.check .finish

theorem atEnd_iff {c : Cursor} : c.atEnd ↔ c.peek.kind = .finish :=
  beq_iff_eq

theorem atEnd_eq_false_iff {c : Cursor} : c.atEnd = false ↔ c.peek.kind ≠ .finish :=
  beq_eq_false_iff_ne

theorem atEnd_of_nil {c : Cursor} (h : c.ahead = []) : c.atEnd := by
  rw [atEnd_iff, peek_of_nil h, c.last_kind]

/-- Only a token for the end stops a cursor that has tokens in front of it. -/
theorem ahead_of_atEnd {c : Cursor} (h : c.atEnd) (hinside : ∀ t ∈ c.ahead, t.kind ≠ .finish) :
    c.ahead = [] := by
  cases hahead : c.ahead with
  | nil => rfl
  | cons t rest =>
    have ht : t.kind = .finish := peek_of_ahead hahead ▸ atEnd_iff.mp h
    exact absurd ht (hinside t (by simp [hahead]))

/-- Passes the next token, unless it stands for the end. -/
def advance (c : Cursor) : Token × Cursor :=
  match c.ahead with
  | [] => (c.last, c)
  | t :: rest =>
    if t.kind = .finish then (t, c) else (t, { c with behind := t :: c.behind, ahead := rest })

def eat (c : Cursor) (kind : TokenKind) : Option (Token × Cursor) :=
  if c.check kind then some c.advance else none

/-- Passes a token of one kind, or fails where the cursor stands. -/
def expect (c : Cursor) (kind : TokenKind) : Except SyntaxError (Token × Cursor) :=
  if c.check kind then .ok c.advance else .error ⟨kind, c.peek⟩

/-- Whether a command, a marker and a code, starts here. -/
def atCommand (c : Cursor) : Bool :=
  c.check .marker && (c.peekNth 1).kind == .code

def commandCode? (c : Cursor) : Option String :=
  if c.atCommand then some (c.peekNth 1).value else none

/-- A command starts at the cursor if a marker and a code are the next two tokens. -/
theorem atCommand_iff {c : Cursor} :
    c.atCommand ↔ ∃ marker word rest, c.ahead = marker :: word :: rest ∧
      marker.kind = .marker ∧ word.kind = .code := by
  simp only [atCommand, check, peek, peekNth, Bool.and_eq_true, beq_iff_eq]
  constructor
  · rintro ⟨hmarker, hword⟩
    match hahead : c.ahead with
    | [] => simp [hahead, c.last_kind] at hmarker
    | [t] => simp [hahead, c.last_kind] at hword
    | marker :: word :: rest =>
      rw [hahead] at hmarker hword
      exact ⟨marker, word, rest, rfl, hmarker, hword⟩
  · rintro ⟨marker, word, rest, hahead, hmarker, hword⟩
    rw [hahead]
    exact ⟨hmarker, hword⟩

theorem atCommand_of_commandCode? {c : Cursor} {code : String} (h : c.commandCode? = some code) :
    c.atCommand := by
  by_cases ha : c.atCommand
  · exact ha
  · simp [commandCode?, ha] at h

theorem check_of_commandCode? {c : Cursor} {code : String} (h : c.commandCode? = some code) :
    c.check .marker :=
  (Bool.and_eq_true_iff.mp (atCommand_of_commandCode? h)).1

/-- The two tokens that a command code is read off. -/
theorem commandCode?_some {c : Cursor} {code : String} (h : c.commandCode? = some code) :
    ∃ marker word rest, c.ahead = marker :: word :: rest ∧ marker.kind = .marker ∧
      word.kind = .code ∧ word.value = code := by
  have hcommand := atCommand_of_commandCode? h
  obtain ⟨marker, word, rest, hahead, hmarker, hword⟩ := atCommand_iff.mp hcommand
  refine ⟨marker, word, rest, hahead, hmarker, hword, ?_⟩
  rw [commandCode?, if_pos hcommand, peekNth, hahead] at h
  exact Option.some.inj h

/-- Passes the marker and the code of a command. A marker without a code is
passed before the failure. -/
def beginCommand (c : Cursor) : Except SyntaxError Head × Cursor :=
  match c.expect .marker with
  | .error e => (.error e, c)
  | .ok (marker, d) =>
    match d.expect .code with
    | .error e => (.error e, d)
    | .ok (code, d) => (.ok ⟨code.value, marker.position⟩, d)

/-- Passes the longest run of tokens of accepted kinds. -/
def takeWhile (c : Cursor) (accepts : TokenKind → Bool) : List Token × Cursor :=
  let run := c.ahead.takeWhile fun t => accepts t.kind && t.kind != .finish
  (run, { c with
    behind := run.reverse ++ c.behind
    ahead := c.ahead.dropWhile fun t => accepts t.kind && t.kind != .finish })

def takeParameters (c : Cursor) : List Token × Cursor :=
  c.takeWhile (· == .parameter)

/-- Passes the next command and the line breaks before it, if it has the code. -/
def eatCommand (c : Cursor) (code : String) : Option (Head × Cursor) :=
  let breaks := c.ahead.takeWhile (·.kind == .lineBreak)
  match c.ahead.dropWhile (·.kind == .lineBreak) with
  | marker :: word :: rest =>
    if marker.kind = .marker ∧ word.kind = .code ∧ word.value = code then
      some (⟨word.value, marker.position⟩,
        { c with behind := word :: marker :: (breaks.reverse ++ c.behind), ahead := rest })
    else none
  | _ => none

/-- Passes one token, and then all before the next line break or marker. -/
def synchronize (c : Cursor) : Cursor :=
  (c.advance.2.takeWhile fun kind => kind != .lineBreak && kind != .marker).2

/-- The byte offset behind the last token passed. -/
def consumedEnd (c : Cursor) : Nat :=
  (c.behind.head?.map Token.stop).getD 0

/-! ## Moving forward

Every operation passes a run of the tokens in front and none for the end. -/

theorem ofTokens_tokens {ts : List Token} {t : Token} (h : ts.getLast? = some t)
    (hk : t.kind = .finish) : (ofTokens ts).tokens = ts := by
  obtain ⟨init, rfl⟩ := List.getLast?_eq_some_iff.mp h
  simp [ofTokens, tokens, hk]

/-- From `c` to `d` the cursor passes the tokens `ts`, and none of them stands for the end. -/
structure Advances (c : Cursor) (ts : List Token) (d : Cursor) : Prop where
  ahead : c.ahead = ts ++ d.ahead
  behind : d.behind = ts.reverse ++ c.behind
  last : d.last = c.last
  inside : ∀ t ∈ ts, t.kind ≠ .finish

variable {c d e : Cursor} {ts us : List Token}

theorem Advances.refl (c : Cursor) : c.Advances [] c :=
  ⟨rfl, rfl, rfl, by simp⟩

theorem Advances.trans (hcd : c.Advances ts d) (hde : d.Advances us e) :
    c.Advances (ts ++ us) e where
  ahead := by rw [hcd.ahead, hde.ahead, List.append_assoc]
  behind := by rw [hde.behind, hcd.behind, List.reverse_append, List.append_assoc]
  last := hde.last.trans hcd.last
  inside t ht := (List.mem_append.mp ht).elim (hcd.inside t) (hde.inside t)

theorem Advances.tokens_eq (h : c.Advances ts d) : d.tokens = c.tokens := by
  simp only [tokens, h.behind, h.ahead, h.last, List.reverse_append, List.reverse_reverse,
    List.append_assoc]

theorem Advances.index_le (h : c.Advances ts d) : c.behind.length ≤ d.behind.length := by
  rw [h.behind, List.length_append]
  exact Nat.le_add_left _ _

theorem Advances.ahead_le (h : c.Advances ts d) : d.ahead.length ≤ c.ahead.length := by
  rw [h.ahead, List.length_append]
  exact Nat.le_add_left _ _

/-- Passing a token of a kind that is not the end. -/
theorem advance_of_check {c : Cursor} {kind : TokenKind} (h : c.check kind) (hkind : kind ≠ .finish) :
    ∃ t rest, c.ahead = t :: rest ∧ t.kind = kind ∧
      c.advance = (t, { c with behind := t :: c.behind, ahead := rest }) := by
  match hahead : c.ahead with
  | [] =>
    have hlast : c.last.kind = kind := by simpa [check, peek, peekNth, hahead] using h
    exact absurd (hlast.symm.trans c.last_kind) hkind
  | t :: rest =>
    have ht : t.kind = kind := by simpa [check, peek, peekNth, hahead] using h
    exact ⟨t, rest, rfl, ht, by simp [advance, hahead, ht, hkind]⟩

theorem advance_peek {c : Cursor} (h : c.peek.kind ≠ .finish) :
    c.Advances [c.peek] c.advance.2 := by
  obtain ⟨t, rest, hahead, ht, hadvance⟩ := advance_of_check (c := c) (beq_self_eq_true _) h
  rw [hadvance, peek_of_ahead hahead]
  exact ⟨hahead, rfl, rfl, List.forall_mem_singleton.mpr (ht ▸ h)⟩

theorem advance_advances (c : Cursor) : ∃ ts, c.Advances ts c.advance.2 := by
  unfold advance
  split
  · exact ⟨[], .refl c⟩
  · next t rest hahead =>
    split
    · exact ⟨[], .refl c⟩
    · next hkind => exact ⟨[t], hahead, rfl, rfl, by simpa using hkind⟩

theorem takeWhile_advances (c : Cursor) (accepts : TokenKind → Bool) :
    c.Advances (c.takeWhile accepts).1 (c.takeWhile accepts).2 where
  ahead := List.takeWhile_append_dropWhile.symm
  behind := rfl
  last := rfl
  inside t ht := by
    have hall := List.all_eq_true.mp (List.all_takeWhile (l := c.ahead)) t ht
    simpa using (Bool.and_eq_true_iff.mp hall).2

theorem eat_advances {kind : TokenKind} {t : Token} (h : c.eat kind = some (t, d)) :
    ∃ ts, c.Advances ts d := by
  unfold eat at h
  split at h
  · obtain ⟨ts, hts⟩ := c.advance_advances
    rw [Option.some.inj h] at hts
    exact ⟨ts, hts⟩
  · simp at h

theorem expect_advances {kind : TokenKind} {t : Token} (h : c.expect kind = .ok (t, d)) :
    ∃ ts, c.Advances ts d := by
  unfold expect at h
  split at h
  · obtain ⟨ts, hts⟩ := c.advance_advances
    rw [Except.ok.inj h] at hts
    exact ⟨ts, hts⟩
  · simp at h

theorem beginCommand_advances (c : Cursor) : ∃ ts, c.Advances ts c.beginCommand.2 := by
  unfold beginCommand
  split
  · exact ⟨[], .refl c⟩
  · next marker d hmarker =>
    obtain ⟨ts, hts⟩ := expect_advances hmarker
    split
    · exact ⟨ts, hts⟩
    · next code e hcode =>
      obtain ⟨us, hus⟩ := expect_advances hcode
      exact ⟨ts ++ us, hts.trans hus⟩

/-- The command that is passed over line breaks, and the tokens it is passed with. -/
theorem eatCommand_some {code : String} {head : Head} (h : c.eatCommand code = some (head, d)) :
    ∃ marker word, c.ahead.dropWhile (·.kind == .lineBreak) = marker :: word :: d.ahead ∧
      head = ⟨word.value, marker.position⟩ ∧
      c.Advances (c.ahead.takeWhile (·.kind == .lineBreak) ++ [marker, word]) d := by
  have hsplit := List.takeWhile_append_dropWhile (p := (·.kind == .lineBreak)) (l := c.ahead)
  simp only [eatCommand] at h
  split at h
  · next marker word rest hdrop =>
    split at h
    · next hcommand =>
      obtain ⟨hhead, rfl⟩ := Prod.mk.inj (Option.some.inj h)
      refine ⟨marker, word, hdrop, hhead.symm, ?_, by simp, rfl, ?_⟩
      · rw [List.append_assoc]
        exact (hdrop ▸ hsplit).symm
      · intro t ht
        rcases List.mem_append.mp ht with ht | ht
        · have hbreak := List.all_eq_true.mp (List.all_takeWhile (l := c.ahead)) t ht
          simp_all
        · have hkind : t.kind = .marker ∨ t.kind = .code := by
            rcases List.mem_cons.mp ht with rfl | ht
            · exact .inl hcommand.1
            · exact .inr (List.mem_singleton.mp ht ▸ hcommand.2.1)
          rcases hkind with hk | hk <;> simp [hk]
    · simp at h
  · simp at h

theorem synchronize_advances (c : Cursor) : ∃ ts, c.Advances ts c.synchronize := by
  obtain ⟨ts, hts⟩ := c.advance_advances
  exact ⟨_, hts.trans (takeWhile_advances _ _)⟩

/-! ## Progress -/

theorem advance_ahead_lt {c : Cursor} (h : c.atEnd = false) :
    c.advance.2.ahead.length < c.ahead.length := by
  rw [(advance_peek (atEnd_eq_false_iff.mp h)).ahead]
  exact Nat.lt_succ_self _

theorem expect_ahead_lt {c d : Cursor} {kind : TokenKind} {t : Token}
    (h : c.expect kind = .ok (t, d)) (hk : kind ≠ .finish) :
    d.ahead.length < c.ahead.length := by
  unfold expect at h
  split at h
  · next hcheck =>
    obtain ⟨u, rest, hahead, -, hadvance⟩ := advance_of_check hcheck hk
    rw [hadvance] at h
    obtain ⟨-, rfl⟩ := Prod.mk.inj (Except.ok.inj h)
    simp [hahead]
  · simp at h

end Cursor
end Zpl
