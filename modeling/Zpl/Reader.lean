import Zpl.Cursor
import Zpl.Document
import Zpl.TokenStream

/-! The state of reading one source: where the cursor stands and what has been
noticed so far. It is made anew for each source. -/

namespace Zpl

structure Reader where
  source : List Char
  cursor : Cursor
  /-- Errors so far, the lexical ones first. -/
  errors : List Diagnostic
  warnings : List Diagnostic
deriving DecidableEq

namespace Reader

/-- A reader before the first token of a stream, which need not be the stream of
the source. -/
def ofStream (source : String) (stream : TokenStream) : Reader :=
  ⟨source.toList, .ofTokens stream.tokens, stream.errors, []⟩

def moveTo (r : Reader) (c : Cursor) : Reader :=
  { r with cursor := c }

def recordError (r : Reader) (d : Diagnostic) : Reader :=
  { r with errors := r.errors ++ [d] }

def recordWarning (r : Reader) (d : Diagnostic) : Reader :=
  { r with warnings := r.warnings ++ [d] }

/-- The source text from an offset to the end of the last token passed. It is
empty if the tokens do not fit the source. -/
def textFrom (r : Reader) (start : Nat) : String :=
  .ofList ((Text.slice? r.source start (max r.cursor.consumedEnd start)).getD [])

/-- The command that starts at `head` and ends with the last token passed. -/
def finish (r : Reader) (head : Head) (parameters : List String) (kind : CommandKind) : Command :=
  { code := head.code
    rawText := r.textFrom head.position.offset
    position := head.position
    parameters
    kind }

/-! ## Moving forward -/

/-- From `r` to `s` the reader passes the tokens `ts` and notices no less. -/
structure Advances (r : Reader) (ts : List Token) (s : Reader) : Prop where
  cursor : r.cursor.Advances ts s.cursor
  source : s.source = r.source
  errors : r.errors <+: s.errors
  warnings : r.warnings <+: s.warnings

variable {r s u : Reader} {ts us : List Token}

theorem Advances.refl (r : Reader) : r.Advances [] r :=
  ⟨.refl _, rfl, List.prefix_refl _, List.prefix_refl _⟩

theorem Advances.trans (hrs : r.Advances ts s) (hsu : s.Advances us u) :
    r.Advances (ts ++ us) u :=
  ⟨hrs.cursor.trans hsu.cursor, hsu.source.trans hrs.source, hrs.errors.trans hsu.errors,
    hrs.warnings.trans hsu.warnings⟩

/-- A first move and then whatever follows it. -/
theorem Advances.followed (h : r.Advances ts s) :
    (∃ us, s.Advances us u) → ∃ us, r.Advances us u
  | ⟨us, hus⟩ => ⟨ts ++ us, h.trans hus⟩

theorem Advances.moveTo {c : Cursor} (h : r.cursor.Advances ts c) : r.Advances ts (r.moveTo c) :=
  ⟨h, rfl, List.prefix_refl _, List.prefix_refl _⟩

theorem Advances.recordError (r : Reader) (d : Diagnostic) : r.Advances [] (r.recordError d) :=
  ⟨.refl _, rfl, List.prefix_append _ _, List.prefix_refl _⟩

theorem Advances.recordWarning (r : Reader) (d : Diagnostic) :
    r.Advances [] (r.recordWarning d) :=
  ⟨.refl _, rfl, List.prefix_refl _, List.prefix_append _ _⟩

end Reader
end Zpl
