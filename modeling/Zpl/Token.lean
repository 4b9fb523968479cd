import Zpl.Position
import Zpl.Text.Bytes

/-! Tokens: the parts of a source that the grammar reads. A token keeps the
exact text it covers next to its value, which differs for comments (no
delimiters) and line breaks (always a line feed). -/

namespace Zpl

inductive TokenKind where
  /-- The character that introduces a command. -/
  | marker
  /-- The command code directly behind a marker. -/
  | code
  /-- One positional parameter of a command. -/
  | parameter
  /-- The text of a field, taken as it stands. -/
  | content
  | comment
  | lineBreak
  /-- The end of the source. -/
  | finish
deriving DecidableEq

namespace TokenKind

def all : List TokenKind :=
  [marker, code, parameter, content, comment, lineBreak, finish]

/-- The name of a kind in serialized token streams. -/
def tag : TokenKind → String
  | marker => "command-marker"
  | code => "command-code"
  | parameter => "parameter"
  | content => "string-content"
  | comment => "comment"
  | lineBreak => "newline"
  | finish => "end-of-stream"

/-- The wording of a kind in messages. -/
def describe : TokenKind → String
  | marker => "command marker"
  | code => "command code"
  | parameter => "parameter"
  | content => "field content"
  | comment => "comment"
  | lineBreak => "line break"
  | finish => "end of input"

def ofTag? (name : String) : Option TokenKind :=
  all.find? fun kind => kind.tag == name

end TokenKind

structure Token where
  kind : TokenKind
  /-- The meaning of the token as text. -/
  value : String
  position : Position
  /-- The text the token covers. -/
  raw : String
deriving DecidableEq

namespace Token

/-- The byte offset behind the last character of a token. In a source of less than 2^64 bytes
it fits into a word; for any other token see `stop?`. -/
def stop (t : Token) : Nat :=
  t.position.offset + Text.byteLength t.raw.toList

/-- The token that stands for the end of the source. -/
def finishAt (p : Position) : Token :=
  ⟨.finish, "", p, ""⟩

end Token
end Zpl
