import Zpl.Text.Bytes

/-! Places in a source text: line and column for people, byte offset for tools.
Lines and columns count from 1 and columns count characters. Positions compare
by line, then column, then offset. The counts have no upper limit; only their
JSON form has one, 64 bits. -/

namespace Zpl

structure Position where
  line : Nat
  column : Nat
  offset : Nat
deriving DecidableEq

namespace Position

def start : Position := ⟨1, 1, 0⟩

/-- Whether `c`, with `next` behind it, ends a line. The two characters of a
carriage return and line feed pair end one line together, with the line feed. -/
def endsLine (c : Char) (next : Option Char) : Bool :=
  c == '\n' || (c == '\r' && next != some '\n')

/-- The position behind the character `c` that stands at `p` before `next`. -/
def step (p : Position) (c : Char) (next : Option Char) : Position :=
  if endsLine c next then ⟨p.line + 1, 1, p.offset + c.utf8Size⟩
  else ⟨p.line, p.column + 1, p.offset + c.utf8Size⟩

/-- The position behind a text that stands at `p` before `next`. -/
def after (p : Position) : List Char → Option Char → Position
  | [], _ => p
  | c :: cs, next => (p.step c (cs.head?.or next)).after cs next

@[simp] theorem after_nil (p : Position) (next : Option Char) : p.after [] next = p := rfl

@[simp] theorem step_offset (p : Position) (c : Char) (next : Option Char) :
    (p.step c next).offset = p.offset + c.utf8Size := by
  unfold step
  split <;> rfl

/-- Walking over two texts is walking over one and then over the other. -/
theorem after_append (p : Position) (a b : List Char) (next : Option Char) :
    p.after (a ++ b) next = (p.after a (b.head?.or next)).after b next := by
  induction a generalizing p with
  | nil => rfl
  | cons c cs ih =>
    cases cs with
    | nil => simp [after]
    | cons d ds => exact ih _

theorem after_offset (p : Position) (cs : List Char) (next : Option Char) :
    (p.after cs next).offset = p.offset + Text.byteLength cs := by
  induction cs generalizing p with
  | nil => rfl
  | cons c cs ih => simp [after, ih, Text.byteLength, Nat.add_assoc]

/-- The order by line, then column, then offset. -/
def le (p q : Position) : Bool :=
  p.line < q.line ||
    p.line == q.line && (p.column < q.column || p.column == q.column && p.offset ≤ q.offset)

def sort (positions : List Position) : List Position :=
  positions.mergeSort le

/-- Line and column as people write them. -/
def display (p : Position) : String :=
  s!"{p.line}:{p.column}"

end Position
end Zpl
