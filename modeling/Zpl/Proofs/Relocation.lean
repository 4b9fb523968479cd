import Zpl.Proofs.Cut
import Zpl.Proofs.Coverage

/-! Tokens of a text that stands elsewhere. A stretch of a source from a marker to an
operand, taken as a source of its own, gives the tokens that it gives in the source,
with the positions counted from the marker (`ofText_stretch`). -/

namespace Zpl

namespace Position

/-- The position as seen from `origin`, which takes the place of the start. -/
def since (origin p : Position) : Position :=
  ⟨p.line - origin.line + 1,
    if p.line = origin.line then p.column - origin.column + 1 else p.column,
    p.offset - origin.offset⟩

/-- `p` stands at `origin` or behind it. -/
structure Reaches (origin p : Position) : Prop where
  place : origin.line < p.line ∨ p.line = origin.line ∧ origin.column ≤ p.column
  offset : origin.offset ≤ p.offset

theorem since_self (p : Position) : since p p = .start := by
  simp [since, start]

theorem Reaches.refl (p : Position) : Reaches p p :=
  ⟨.inr ⟨rfl, Nat.le_refl _⟩, Nat.le_refl _⟩

theorem Reaches.step {origin p : Position} (h : Reaches origin p) (c : Char)
    (next : Option Char) : Reaches origin (p.step c next) := by
  have hplace := h.place
  have hoffset := h.offset
  unfold Position.step
  split
  · refine ⟨.inl ?_, Nat.le_add_right_of_le hoffset⟩
    show origin.line < p.line + 1
    omega
  · refine ⟨?_, Nat.le_add_right_of_le hoffset⟩
    show origin.line < p.line ∨ p.line = origin.line ∧ origin.column ≤ p.column + 1
    omega

theorem since_step {origin p : Position} (h : Reaches origin p) (c : Char) (next : Option Char) :
    since origin (p.step c next) = (since origin p).step c next := by
  have hplace := h.place
  have hoffset := h.offset
  unfold Position.step
  split
  · have hne : p.line + 1 ≠ origin.line := by omega
    simp only [since, if_neg hne, mk.injEq, true_and]
    omega
  · simp only [since, mk.injEq, true_and]
    constructor
    · split <;> omega
    · omega

theorem since_after {origin p : Position} (h : Reaches origin p) (cs : List Char)
    (next : Option Char) :
    since origin (p.after cs next) = (since origin p).after cs next ∧
      Reaches origin (p.after cs next) := by
  induction cs generalizing p with
  | nil => exact ⟨rfl, h⟩
  | cons c cs ih =>
    have := ih (h.step c (cs.head?.or next))
    rwa [since_step h] at this

end Position

def Token.move (f : Position → Position) (t : Token) : Token :=
  { t with position := f t.position }

namespace Diagnostic

def move (f : Position → Position) (d : Diagnostic) : Diagnostic :=
  { d with position := f d.position }

/-- What a diagnostic says apart from its wording. -/
def summary (d : Diagnostic) : String × Severity × Position :=
  (d.code, d.severity, d.position)

end Diagnostic

/-- The token as seen from `origin`. -/
def Token.since (origin : Position) (t : Token) : Token :=
  { t with position := origin.since t.position }

namespace Lexeme

theorem token?_since (origin p : Position) (x : Lexeme) :
    x.token? (origin.since p) = (x.token? p).map (Token.since origin) := by
  simp only [token?, Option.map_map]
  rfl

/-- Moving a text moves its tokens along. -/
theorem tokens_since {origin p : Position} (h : origin.Reaches p) (next : Option Char)
    (xs : List Lexeme) :
    (place (origin.since p) next xs).filterMap Placed.token? =
      ((place p next xs).filterMap Placed.token?).map (Token.since origin) := by
  induction xs generalizing p with
  | nil => rfl
  | cons x xs ih =>
    obtain ⟨hsince, hreaches⟩ := Position.since_after h x.text ((flatten xs).head?.or next)
    rw [tokens_place_cons, tokens_place_cons, token?_since, ← hsince, ih hreaches, List.map_append]
    cases x.token? p <;> rfl

/-- The tokens of a text do not depend on what stands behind it. -/
theorem tokens_place_next (p : Position) (next next' : Option Char) {xs : List Lexeme}
    (h : ∀ x ∈ xs, x.text ≠ []) :
    (place p next xs).filterMap Placed.token? = (place p next' xs).filterMap Placed.token? := by
  rcases List.eq_nil_or_concat xs with rfl | ⟨front, x, rfl⟩
  · rfl
  · have hx : x.text ≠ [] := h x (by simp)
    rw [List.concat_eq_append, place_concat _ _ _ hx, place_concat _ _ _ hx,
      List.filterMap_append, List.filterMap_append]
    rfl

/-- The lexeme `x` of a text at `p` becomes the token `t`, the lexemes `front` become the
tokens before it, and the lexemes `back` those behind it. -/
structure Becomes (p : Position) (next : Option Char) (front : List Lexeme) (x : Lexeme)
    (back : List Lexeme) (before : List Token) (t : Token) (behind : List Token) : Prop where
  position : t.position = p.after (flatten front) ((flatten (x :: back)).head?.or next)
  token : x.token? t.position = some t
  before : (place p ((flatten (x :: back)).head?.or next) front).filterMap Placed.token? = before
  behind : (place (t.position.after x.text ((flatten back).head?.or next)) next back).filterMap
    Placed.token? = behind

theorem Becomes.cons {p : Position} {next : Option Char} {front back : List Lexeme} {x : Lexeme}
    {before behind : List Token} {t : Token} (y : Lexeme)
    (h : Becomes (p.after y.text ((flatten (front ++ x :: back)).head?.or next)) next front x back
      before t behind) :
    Becomes p next (y :: front) x back ((y.token? p).toList ++ before) t behind := by
  have hhead : (flatten (front ++ x :: back)).head?.or next =
      (flatten front).head?.or ((flatten (x :: back)).head?.or next) := by
    rw [flatten_append, List.head?_append, Option.or_assoc]
  rw [hhead] at h
  refine ⟨?_, h.token, ?_, h.behind⟩
  · rw [h.position, flatten_cons y, Position.after_append]
  · rw [tokens_place_cons, h.before]

/-- Every token of a text has a lexeme. -/
theorem exists_becomes {p : Position} {next : Option Char} {xs : List Lexeme}
    {before behind : List Token} {t : Token}
    (h : (place p next xs).filterMap Placed.token? = before ++ t :: behind) :
    ∃ front x back, xs = front ++ x :: back ∧ Becomes p next front x back before t behind := by
  induction xs generalizing p before with
  | nil => simp [place] at h
  | cons y xs ih =>
    rw [tokens_place_cons] at h
    cases hy : y.token? p with
    | none =>
      rw [hy] at h
      obtain ⟨front, x, back, rfl, hx⟩ := ih h
      have hcons := hx.cons y
      rw [hy] at hcons
      exact ⟨y :: front, x, back, rfl, hcons⟩
    | some u =>
      rw [hy] at h
      cases before with
      | nil =>
        obtain ⟨rfl, htail⟩ := List.cons.inj h
        have hposition : u.position = p := by
          obtain ⟨kind, -, rfl⟩ := Option.map_eq_some_iff.mp hy
          rfl
        subst hposition
        exact ⟨[], y, xs, rfl, rfl, hy, rfl, htail⟩
      | cons v before =>
        obtain ⟨rfl, htail⟩ := List.cons.inj h
        obtain ⟨front, x, back, rfl, hx⟩ := ih htail
        have hcons := hx.cons y
        rw [hy] at hcons
        exact ⟨y :: front, x, back, rfl, hcons⟩

theorem token?_spec {x : Lexeme} {p : Position} {t : Token} (h : x.token? p = some t) :
    tokenKind? x.kind = some t.kind ∧ t.stop = t.position.offset + Text.byteLength x.text := by
  obtain ⟨kind, hkind, rfl⟩ := Option.map_eq_some_iff.mp h
  simp [Token.stop, hkind]

theorem kind_of_marker {kind : LexemeKind} (h : tokenKind? kind = some .marker) :
    kind = .marker ∨ kind = .loneMarker := by
  cases kind <;> simp_all [tokenKind?]

theorem kind_of_operand {kind : LexemeKind} {k : TokenKind} (h : tokenKind? kind = some k)
    (hk : k = .code ∨ k = .parameter ∨ k = .content) :
    kind = .code ∨ kind = .parameter ∨ kind = .content := by
  rcases hk with rfl | rfl | rfl <;> cases kind <;> simp_all [tokenKind?]

/-- Scanning can start at every lexeme that starts a stretch of text. A blank may stand
at the end of field content. -/
theorem Scan.suffix {m : Marks} {cs : List Char} {front back : List Lexeme} {x : Lexeme}
    (h : Scan m cs (front ++ x :: back)) (hx : leads x.kind) (hblank : x.kind ≠ .blank) :
    Scan m (flatten (x :: back)) (x :: back) := by
  cases h.around rfl with
  | @head cs' _ hs =>
    rwa [hs.flatten_eq]
  | code hk _ _ _ _ => simp [hk, leads] at hx
  | @operand _ code line _ _ before after _ _ _ ho _ =>
    have hkind := operands_kind (ho ▸ by simp : x ∈ operands m code line)
    split at hkind
    · rcases hkind with hk | hk
      · exact absurd hk hblank
      · simp [hk, leads] at hx
    · rcases hkind with hk | hk <;> simp [hk, leads] at hx

/-- Two of the tokens of a text, and the lexemes from one to the other. -/
theorem tokens_between {p : Position} {next : Option Char} {xs : List Lexeme}
    {before mid behind : List Token} {first last : Token}
    (h : (place p next xs).filterMap Placed.token? = before ++ first :: (mid ++ last :: behind)) :
    ∃ front x more y back n, xs = front ++ x :: (more ++ y :: back) ∧
      first.position.offset = p.offset + Text.byteLength (flatten front) ∧
      (place first.position n (x :: (more ++ [y]))).filterMap Placed.token? =
        first :: (mid ++ [last]) ∧
      last.stop = first.position.offset + Text.byteLength (flatten (x :: (more ++ [y]))) ∧
      tokenKind? x.kind = some first.kind ∧ tokenKind? y.kind = some last.kind := by
  obtain ⟨front, x, rest, rfl, hfirst, hx, -, hrest⟩ := exists_becomes h
  obtain ⟨more, y, back, rfl, hlast, hy, hmid, -⟩ := exists_becomes hrest
  obtain ⟨hxkind, -⟩ := token?_spec hx
  obtain ⟨hykind, hstop⟩ := token?_spec hy
  -- what stands behind the last lexeme is seen from those before it as its first character
  have hhead : ∀ zs : List Lexeme, (flatten (zs ++ y :: back)).head?.or next =
      (flatten (zs ++ [y])).head?.or ((flatten back).head?.or next) := by
    intro zs
    simp [List.head?_append, Option.or_assoc]
  have hy' : (flatten (y :: back)).head?.or next =
      (flatten [y]).head?.or ((flatten back).head?.or next) := hhead []
  refine ⟨front, x, more, y, back, (flatten back).head?.or next, rfl, ?_, ?_, ?_, hxkind, hykind⟩
  · rw [hfirst, Position.after_offset]
  · rw [hhead, hy'] at hlast
    rw [hhead, hy'] at hmid
    rw [tokens_place_cons, hx, place_append, List.filterMap_append, hmid, ← hlast,
      tokens_place_cons, hy]
    rfl
  · rw [hstop, hlast, Position.after_offset, Position.after_offset]
    simp [Nat.add_assoc]

end Lexeme

namespace TokenStream

open Lexeme (place flatten)

/-- A stretch from a marker to an operand, tokenized alone, gives the tokens that it
gives in the source, moved to the start. -/
theorem ofText_stretch {m : Marks} {source : String} {before mid behind : List Token}
    {first last : Token} {p : Position}
    (h : (ofText m source).tokens = before ++ first :: (mid ++ last :: behind) ++ [.finishAt p])
    (hfirst : first.kind = .marker)
    (hlast : last.kind = .code ∨ last.kind = .parameter ∨ last.kind = .content) :
    ∃ front text back q, source.toList = front ++ text ++ back ∧
      first.position.offset = Text.byteLength front ∧
      last.stop = first.position.offset + Text.byteLength text ∧
      (ofText m (.ofList text)).tokens =
        (first :: (mid ++ [last])).map (Token.since first.position) ++ [.finishAt q] := by
  rw [ofText_tokens] at h
  obtain ⟨hplace, -⟩ := List.append_inj' h rfl
  obtain ⟨front, x, more, y, back, next, hxs, hoffset, htokens, hstop, hx, hy⟩ :=
    Lexeme.tokens_between hplace
  have hmarker := Lexeme.kind_of_marker (hx.trans (congrArg some hfirst))
  have hoperand := Lexeme.kind_of_operand hy hlast
  have hscan := Lexeme.scan_lexemes m source.toList
  have hsource := hscan.flatten_eq
  rw [hxs] at hscan hsource
  have hcons : x :: (more ++ y :: back) = (x :: more) ++ y :: back := rfl
  have hlead : Lexeme.leads x.kind ∧ x.kind ≠ .blank := by
    rcases hmarker with hk | hk <;> simp [hk, Lexeme.leads]
  have hcut : Lexeme.Scan m (flatten (x :: (more ++ [y]))) (x :: (more ++ [y])) :=
    (hscan.suffix hlead.1 hlead.2).cut hcons hoperand
  refine ⟨flatten front, flatten (x :: (more ++ [y])), flatten back,
    Position.start.after (flatten (x :: (more ++ [y]))) none, ?_, ?_, hstop, ?_⟩
  · rw [← hsource]
    simp
  · simpa [Position.start] using hoffset
  · rw [ofText_tokens, String.toList_ofList, hcut.eq, ← htokens,
      ← Lexeme.tokens_since (.refl _), Position.since_self,
      Lexeme.tokens_place_next .start none next hcut.nonempty]

end TokenStream
end Zpl
