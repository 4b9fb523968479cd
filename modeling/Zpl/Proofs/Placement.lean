import Zpl.Proofs.Scan
import Zpl.TokenStream

/-! Where the lexemes of a text stand. `place` gives each lexeme its position and
the character behind it; tokens and lexical errors are read off the placed lexemes
(`ofLexemes_eq`), and a placed lexeme knows the text in front of it (`mem_place`). -/

namespace Zpl

/-- A lexeme at its place, with the character behind it. -/
structure Placed where
  lexeme : Lexeme
  position : Position
  next : Option Char

namespace Placed

def token? (x : Placed) : Option Token :=
  x.lexeme.token? x.position

/-- What is reported of a lexeme. -/
def report? (x : Placed) : Option Diagnostic :=
  (x.lexeme.problem? x.next).map (·.diagnose x.position)

/-- The byte offset behind the last character of a lexeme. -/
def stop (x : Placed) : Nat :=
  x.position.offset + Text.byteLength x.lexeme.text

theorem token?_eq {x : Placed} {t : Token} (h : x.token? = some t) :
    ∃ kind, Lexeme.tokenKind? x.lexeme.kind = some kind ∧
      t = ⟨kind, .ofList x.lexeme.value, x.position, .ofList x.lexeme.text⟩ := by
  obtain ⟨kind, hk, rfl⟩ := Option.map_eq_some_iff.mp h
  exact ⟨kind, hk, rfl⟩

theorem token?_stop {x : Placed} {t : Token} (h : x.token? = some t) :
    t.position = x.position ∧ t.raw.toList = x.lexeme.text ∧ t.stop = x.stop := by
  obtain ⟨kind, -, rfl⟩ := token?_eq h
  simp [Token.stop, stop]

end Placed

namespace Lexeme

/-- The lexemes of a text that stands at `p`, in front of the character `next`. -/
def place (p : Position) (next : Option Char) : List Lexeme → List Placed
  | [] => []
  | x :: xs =>
    let behind := (flatten xs).head?.or next
    ⟨x, p, behind⟩ :: place (p.after x.text behind) next xs

theorem head?_flatten {xs : List Lexeme} (h : ∀ x ∈ xs, x.text ≠ []) :
    (flatten xs).head? = firstChar? xs := by
  cases xs with
  | nil => rfl
  | cons x xs =>
    obtain ⟨c, cs, hc⟩ := List.exists_cons_of_ne_nil (h x List.mem_cons_self)
    simp [firstChar?, hc]

theorem place_append (p : Position) (next : Option Char) (xs ys : List Lexeme) :
    place p next (xs ++ ys) = place p ((flatten ys).head?.or next) xs ++
      place (p.after (flatten xs) ((flatten ys).head?.or next)) next ys := by
  induction xs generalizing p with
  | nil => rfl
  | cons x xs ih =>
    have hhead : (flatten (xs ++ ys)).head?.or next =
        (flatten xs).head?.or ((flatten ys).head?.or next) := by
      rw [flatten_append, List.head?_append, Option.or_assoc]
    simp only [List.cons_append, place, hhead, ih, flatten_cons, Position.after_append]

/-- What stands behind a text is seen by its last lexeme only. -/
theorem place_concat (p : Position) (next : Option Char) (xs : List Lexeme) {x : Lexeme}
    (hx : x.text ≠ []) :
    place p next (xs ++ [x]) =
      place p x.text.head? xs ++ [⟨x, p.after (flatten xs) x.text.head?, next⟩] := by
  obtain ⟨c, cs, hc⟩ := List.exists_cons_of_ne_nil hx
  rw [place_append]
  simp [place, hc]

theorem tokens_place_cons (p : Position) (next : Option Char) (x : Lexeme) (xs : List Lexeme) :
    (place p next (x :: xs)).filterMap Placed.token? = (x.token? p).toList ++
      (place (p.after x.text ((flatten xs).head?.or next)) next xs).filterMap Placed.token? := by
  simp only [place, List.filterMap_cons, Placed.token?]
  cases x.token? p <;> rfl

/-- Nothing is wrong with the operands of a command. -/
theorem problem?_operands {m : Marks} {code line : List Char} {x : Lexeme}
    (hx : x ∈ operands m code line) (next : Option Char) : x.problem? next = none := by
  have hkind := operands_kind hx
  unfold problem?
  split at hkind <;> rcases hkind with hk | hk <;> simp [hk]

/-- A placed lexeme stands behind the text of the lexemes before it. -/
theorem mem_place {p : Position} {next : Option Char} {xs : List Lexeme} {x : Placed}
    (h : x ∈ place p next xs) :
    ∃ front back, xs = front ++ x.lexeme :: back ∧
      x.position = p.after (flatten front) ((flatten (x.lexeme :: back)).head?.or next) ∧
      x.next = (flatten back).head?.or next := by
  induction xs generalizing p with
  | nil => simp [place] at h
  | cons y xs ih =>
    rcases List.mem_cons.mp h with rfl | h
    · exact ⟨[], xs, rfl, rfl, rfl⟩
    · obtain ⟨front, back, hxs, hp, hn⟩ := ih h
      refine ⟨y :: front, back, by rw [hxs]; rfl, ?_, hn⟩
      rw [hp, flatten_cons y, Position.after_append, hxs, flatten_append, List.head?_append,
        Option.or_assoc]

/-- Each lexeme of a text has its place. -/
theorem place_mem (p : Position) (next : Option Char) (front : List Lexeme) (x : Lexeme)
    (back : List Lexeme) :
    ⟨x, p.after (flatten front) ((flatten (x :: back)).head?.or next), (flatten back).head?.or next⟩ ∈
      place p next (front ++ x :: back) := by
  rw [place_append]
  exact List.mem_append_right _ List.mem_cons_self

theorem place_offset_le {p : Position} {next : Option Char} {xs : List Lexeme} {x : Placed}
    (h : x ∈ place p next xs) :
    p.offset ≤ x.position.offset ∧ x.stop ≤ p.offset + Text.byteLength (flatten xs) := by
  obtain ⟨front, back, hxs, hp, -⟩ := mem_place h
  rw [Placed.stop, hp, Position.after_offset, hxs]
  simp only [flatten_append, flatten_cons, Text.byteLength_append]
  omega

/-- Placed lexemes stand one behind the other. -/
theorem place_ordered (p : Position) (next : Option Char) (xs : List Lexeme) :
    (place p next xs).Pairwise fun x y => x.stop ≤ y.position.offset := by
  induction xs generalizing p with
  | nil => exact .nil
  | cons x xs ih =>
    refine .cons (fun y hy => ?_) (ih _)
    have := (place_offset_le hy).1
    rwa [Position.after_offset] at this

end Lexeme

namespace TokenStream

open Lexeme (place flatten firstChar? head?_flatten)

/-- Tokens and errors, read off the placed lexemes. -/
theorem ofLexemes_eq (p : Position) {xs : List Lexeme} (h : ∀ x ∈ xs, x.text ≠ []) :
    ofLexemes p xs =
      ⟨(place p none xs).filterMap Placed.token? ++ [.finishAt (p.after (flatten xs) none)],
        (place p none xs).filterMap Placed.report?⟩ := by
  induction xs generalizing p with
  | nil => rfl
  | cons x xs ih =>
    have hxs : ∀ y ∈ xs, y.text ≠ [] := fun y hy => h y (List.mem_cons_of_mem _ hy)
    have hnext : (flatten xs).head?.or none = firstChar? xs := by
      rw [Option.or_none, head?_flatten hxs]
    simp only [ofLexemes, place, hnext, ih _ hxs, Lexeme.flatten_cons, Position.after_append]
    simp only [List.filterMap_cons, Placed.token?, Placed.report?]
    rw [TokenStream.mk.injEq]
    constructor
    · cases x.token? p <;> rfl
    · cases x.problem? (firstChar? xs) <;> rfl

theorem ofText_tokens (m : Marks) (source : String) :
    (ofText m source).tokens =
      (place .start none (Lexeme.lexemes m source.toList)).filterMap Placed.token? ++
        [.finishAt (Position.start.after source.toList none)] := by
  rw [ofText, ofLexemes_eq _ (Lexeme.scan_lexemes m source.toList).nonempty, Lexeme.flatten_lexemes]

theorem ofText_errors (m : Marks) (source : String) :
    (ofText m source).errors =
      (place .start none (Lexeme.lexemes m source.toList)).filterMap Placed.report? := by
  rw [ofText, ofLexemes_eq _ (Lexeme.scan_lexemes m source.toList).nonempty]

end TokenStream
end Zpl
