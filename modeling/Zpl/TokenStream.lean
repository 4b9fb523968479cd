import Zpl.Diagnostic.Problem
import Zpl.Lexeme

/-! From lexemes to tokens. Each lexeme is placed behind the ones before it; the
lexemes that the grammar reads become tokens and the faulty ones are reported. -/

namespace Zpl

/-- Tokens in source order, the last one standing for the end, and the lexical
errors in source order. -/
structure TokenStream where
  tokens : List Token
  errors : List Diagnostic

namespace Lexeme

/-- The kind of token a lexeme becomes; what separates tokens becomes none. -/
def tokenKind? : LexemeKind → Option TokenKind
  | .blank | .separator | .stray => none
  | .lineBreak => some .lineBreak
  | .lineComment | .blockComment | .openComment => some .comment
  | .marker | .loneMarker => some .marker
  | .code => some .code
  | .parameter => some .parameter
  | .content => some .content

/-- The meaning of a lexeme as text: comments lose their delimiters, and every
line break is a line feed. -/
def value (x : Lexeme) : List Char :=
  match x.kind with
  | .lineBreak => ['\n']
  | .lineComment | .openComment => x.text.drop 2
  | .blockComment => (x.text.drop 2).dropLast.dropLast
  | _ => x.text

def token? (x : Lexeme) (p : Position) : Option Token :=
  (tokenKind? x.kind).map fun kind =>
    { kind, value := .ofList x.value, position := p, raw := .ofList x.text }

/-- What is wrong with a lexeme that stands before the character `next`. -/
def problem? (x : Lexeme) (next : Option Char) : Option Problem :=
  match x.kind, x.text with
  | .stray, c :: _ => some (.strayCharacter c)
  | .loneMarker, c :: _ => some (.missingCode c next)
  | .openComment, _ => some .openComment
  | _, _ => none

/-- The first character of a list of lexemes. -/
def firstChar? (xs : List Lexeme) : Option Char :=
  xs.head?.bind fun x => x.text.head?

end Lexeme

namespace TokenStream

/-- The stream of lexemes that stand at `p`. -/
def ofLexemes (p : Position) : List Lexeme → TokenStream
  | [] => ⟨[.finishAt p], []⟩
  | x :: xs =>
    let next := Lexeme.firstChar? xs
    let rest := ofLexemes (p.after x.text next) xs
    { tokens := (x.token? p).toList ++ rest.tokens
      errors := ((x.problem? next).map (·.diagnose p)).toList ++ rest.errors }

def ofText (m : Marks) (source : String) : TokenStream :=
  ofLexemes .start (Lexeme.lexemes m source.toList)

/-- A stream ends with the token for the end of the source. -/
theorem ofLexemes_getLast? (p : Position) (xs : List Lexeme) :
    ∃ q, (ofLexemes p xs).tokens.getLast? = some (.finishAt q) := by
  induction xs generalizing p with
  | nil => exact ⟨p, rfl⟩
  | cons x xs ih =>
    obtain ⟨q, hq⟩ := ih (p.after x.text (Lexeme.firstChar? xs))
    exact ⟨q, by simp [ofLexemes, hq]⟩

end TokenStream
end Zpl
