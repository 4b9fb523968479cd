import Zpl.Text.Blank

/-! The lexical grammar of labels. A source is cut into lexemes, stretches of
text of one kind each, without losing a character: `flatten_lexemes` says that
the texts of the lexemes, put together, are the source. Positions, tokens and
diagnostics are read off the lexemes later. -/

namespace Zpl

/-- The two characters that a label format may choose for itself. -/
structure Marks where
  /-- Introduces a command. -/
  marker : Char
  /-- Separates the parameters of a command. -/
  delimiter : Char
deriving DecidableEq

/-- The usual choice, a caret and a comma. -/
def Marks.standard : Marks := ⟨'^', ','⟩

inductive LexemeKind where
  /-- White space outside a parameter list. -/
  | blank
  /-- A delimiter or white space in a parameter list. -/
  | separator
  /-- A character that nothing accepts. -/
  | stray
  | lineBreak
  | lineComment
  | blockComment
  /-- A block comment that the source does not close. -/
  | openComment
  /-- A marker with a code behind it. -/
  | marker
  /-- A marker with no code behind it. -/
  | loneMarker
  | code
  | parameter
  | content
deriving DecidableEq

structure Lexeme where
  kind : LexemeKind
  text : List Char
deriving DecidableEq

namespace Lexeme

/-- The texts of lexemes, put together. -/
def flatten (xs : List Lexeme) : List Char :=
  xs.flatMap text

@[simp] theorem flatten_nil : flatten [] = [] := rfl

@[simp] theorem flatten_cons (x : Lexeme) (xs : List Lexeme) :
    flatten (x :: xs) = x.text ++ flatten xs := rfl

@[simp] theorem flatten_append (xs ys : List Lexeme) :
    flatten (xs ++ ys) = flatten xs ++ flatten ys :=
  List.flatMap_append

/-- One lexeme for each character. -/
def each (kind : LexemeKind) (cs : List Char) : List Lexeme :=
  cs.map fun c => ⟨kind, [c]⟩

@[simp] theorem flatten_each (kind : LexemeKind) (cs : List Char) :
    flatten (each kind cs) = cs := by
  induction cs with
  | nil => rfl
  | cons c cs ih => simpa [each] using ih

/-! ## Comments and line breaks -/

/-- The text before the first end of a block comment, and the text behind it. -/
def splitAtClose? : List Char → Option (List Char × List Char)
  | '*' :: '/' :: rest => some ([], rest)
  | c :: cs => (splitAtClose? cs).map fun (body, rest) => (c :: body, rest)
  | [] => none

theorem splitAtClose?_eq {cs body rest : List Char} (h : splitAtClose? cs = some (body, rest)) :
    cs = body ++ '*' :: '/' :: rest := by
  fun_induction splitAtClose? cs generalizing body with
  | case1 rest => simp_all
  | case2 c cs _ ih =>
    obtain ⟨⟨front, back⟩, hs, he⟩ := Option.map_eq_some_iff.mp h
    obtain ⟨rfl, rfl⟩ := Prod.mk.inj he
    rw [ih hs]
    rfl
  | case3 => simp at h

/-- The comment or line break at the start of a text, and the text behind it.
A carriage return and line feed pair is one line break. -/
def trivia? : List Char → Option (Lexeme × List Char)
  | '\r' :: '\n' :: rest => some (⟨.lineBreak, ['\r', '\n']⟩, rest)
  | '\r' :: rest => some (⟨.lineBreak, ['\r']⟩, rest)
  | '\n' :: rest => some (⟨.lineBreak, ['\n']⟩, rest)
  | '/' :: '/' :: rest =>
    some (⟨.lineComment, '/' :: '/' :: rest.takeWhile (!Text.isLineBreak ·)⟩,
      rest.dropWhile (!Text.isLineBreak ·))
  | '/' :: '*' :: rest =>
    match splitAtClose? rest with
    | some (body, rest) => some (⟨.blockComment, '/' :: '*' :: body ++ ['*', '/']⟩, rest)
    | none => some (⟨.openComment, '/' :: '*' :: rest⟩, [])
  | _ => none

theorem trivia?_eq {cs rest : List Char} {x : Lexeme} (h : trivia? cs = some (x, rest)) :
    cs = x.text ++ rest ∧ x.text ≠ [] := by
  unfold trivia? at h
  split at h
  · obtain ⟨rfl, rfl⟩ := Prod.mk.inj (Option.some.inj h); simp
  · obtain ⟨rfl, rfl⟩ := Prod.mk.inj (Option.some.inj h); simp
  · obtain ⟨rfl, rfl⟩ := Prod.mk.inj (Option.some.inj h); simp
  · obtain ⟨rfl, rfl⟩ := Prod.mk.inj (Option.some.inj h); simp
  · split at h
    · next hs =>
      obtain ⟨rfl, rfl⟩ := Prod.mk.inj (Option.some.inj h)
      simp [splitAtClose?_eq hs]
    · obtain ⟨rfl, rfl⟩ := Prod.mk.inj (Option.some.inj h); simp
  · simp at h

/-! ## Commands -/

/-- Capital letters, digits and the at sign form command codes. -/
def isCodeChar (c : Char) : Bool :=
  c.isUpper || c.isDigit || c == '@'

/-- The number of characters of the command code at the start of a text. A code
has at most two; `A` takes its font name directly behind it and stands alone
unless the at sign follows. -/
def codeLength : List Char → Nat
  | 'A' :: '@' :: _ => 2
  | 'A' :: _ => 1
  | c :: d :: _ => if isCodeChar c then if isCodeChar d then 2 else 1 else 0
  | [c] => if isCodeChar c then 1 else 0
  | [] => 0

/-- Codes whose line is field content, not a parameter list. -/
def takesContent (code : List Char) : Bool :=
  code == ['F', 'D'] || code == ['F', 'V']

/-- The operands of a command reach up to the next marker or line break. -/
def isOperandChar (m : Marks) (c : Char) : Bool :=
  c != m.marker && !Text.isLineBreak c

def separates (m : Marks) (c : Char) : Bool :=
  c == m.delimiter || Text.isBlank c

/-- A parameter list: the longest runs without separators are parameters. -/
def parameterList (m : Marks) : List Char → List Lexeme
  | [] => []
  | c :: cs =>
    if separates m c then ⟨.separator, [c]⟩ :: parameterList m cs
    else match parameterList m cs with
      | ⟨.parameter, text⟩ :: more => ⟨.parameter, c :: text⟩ :: more
      | more => ⟨.parameter, [c]⟩ :: more

@[simp] theorem flatten_parameterList (m : Marks) (line : List Char) :
    flatten (parameterList m line) = line := by
  induction line with
  | nil => rfl
  | cons c cs ih =>
    simp only [parameterList]
    split
    · simp [ih]
    split
    · next h => rw [h] at ih; simp [← ih]
    · simp [ih]

/-- Field content: the line without its trailing white space, if not empty. -/
def fieldContent (line : List Char) : List Lexeme :=
  let body := Text.trimEnd line
  let blanks := each .blank (Text.endBlanks line)
  if body.isEmpty then blanks else ⟨.content, body⟩ :: blanks

@[simp] theorem flatten_fieldContent (line : List Char) : flatten (fieldContent line) = line := by
  have h := Text.trimEnd_append_endBlanks line
  simp only [fieldContent]
  split
  · next he => rw [List.isEmpty_iff.mp he] at h; simpa using h
  · simpa using h

def operands (m : Marks) (code line : List Char) : List Lexeme :=
  if takesContent code then fieldContent line else parameterList m line

@[simp] theorem flatten_operands (m : Marks) (code line : List Char) :
    flatten (operands m code line) = line := by
  unfold operands
  split <;> simp

/-- A marker and the command that starts there: code and operands, if there is
a code. The second component is the text behind them. -/
def command (m : Marks) (cs : List Char) : List Lexeme × List Char :=
  let code := cs.take (codeLength cs)
  let rest := cs.drop (codeLength cs)
  if code.isEmpty then ([⟨.loneMarker, [m.marker]⟩], cs)
  else
    (⟨.marker, [m.marker]⟩ :: ⟨.code, code⟩ ::
        operands m code (rest.takeWhile (isOperandChar m)),
      rest.dropWhile (isOperandChar m))

theorem flatten_command (m : Marks) (cs : List Char) :
    flatten (command m cs).1 ++ (command m cs).2 = m.marker :: cs := by
  simp only [command]
  split
  · simp
  · simp [List.append_assoc]

/-! ## The whole source -/

/-- The lexemes at the start of the text `c :: cs`, and the text behind them. A
marker comes first, even where it would start a comment, break a line or be
white space. -/
def leading (m : Marks) (c : Char) (cs : List Char) : List Lexeme × List Char :=
  if c = m.marker then command m cs
  else match trivia? (c :: cs) with
    | some (x, rest) => ([x], rest)
    | none => ([⟨if Text.isBlank c then .blank else .stray, [c]⟩], cs)

theorem flatten_leading (m : Marks) (c : Char) (cs : List Char) :
    flatten (leading m c cs).1 ++ (leading m c cs).2 = c :: cs := by
  simp only [leading]
  split
  · next h => rw [flatten_command, h]
  split
  · next h => simp [(trivia?_eq h).1]
  · simp

theorem length_leading_lt (m : Marks) (c : Char) (cs : List Char) :
    (leading m c cs).2.length < (c :: cs).length := by
  simp only [leading]
  split
  · simp only [command]
    split
    · simp
    · have := (List.dropWhile_sublist (isOperandChar m)
        (l := cs.drop (codeLength cs))).length_le
      simp only [List.length_drop, List.length_cons] at this ⊢
      omega
  split
  · next h =>
    obtain ⟨he, hne⟩ := trivia?_eq h
    have := List.length_pos_iff.mpr hne
    rw [he, List.length_append]
    exact Nat.lt_add_of_pos_left this
  · simp

/-- The lexemes of a source. -/
def lexemes (m : Marks) : List Char → List Lexeme
  | [] => []
  | c :: cs =>
    let found := leading m c cs
    found.1 ++ lexemes m found.2
termination_by cs => cs.length
decreasing_by exact length_leading_lt m c cs

@[simp] theorem lexemes_nil (m : Marks) : lexemes m [] = [] := by
  rw [lexemes]

theorem lexemes_cons (m : Marks) (c : Char) (cs : List Char) :
    lexemes m (c :: cs) = (leading m c cs).1 ++ lexemes m (leading m c cs).2 := by
  rw [lexemes]

/-- Lexing loses and adds no character. -/
theorem flatten_lexemes (m : Marks) (cs : List Char) : flatten (lexemes m cs) = cs := by
  fun_induction lexemes m cs with
  | case1 => rfl
  | case2 c cs found ih => rw [flatten_append, ih, flatten_leading]

end Lexeme
end Zpl
