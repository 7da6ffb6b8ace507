/-!
# Reactive.Span — places in a source text

A `Position` counts UTF-8 bytes, lines and columns at once; `Position.after` moves it over a piece of text.
A `Span` is a byte range together with the line and column of its first character.  Only the line feed ends a
line, and a column counts characters, both from one.
-/

namespace Reactive

/-- A place between two characters of a text. -/
structure Position where
  /-- Bytes of UTF-8 before the place. -/
  offset : Nat
  /-- One more than the line feeds before the place. -/
  line : Nat
  /-- One more than the characters since the last line feed. -/
  column : Nat
deriving DecidableEq, Repr, Inhabited

namespace Position

/-- The place before the first character. -/
def origin : Position := ⟨0, 1, 1⟩

/-- The place behind one more character. -/
def step (p : Position) (c : Char) : Position :=
  if c = '\n' then ⟨p.offset + c.utf8Size, p.line + 1, 1⟩ else ⟨p.offset + c.utf8Size, p.line, p.column + 1⟩

/-- The place behind the text `cs`. -/
def after (p : Position) (cs : List Char) : Position :=
  cs.foldl step p

@[simp] theorem after_nil (p : Position) : p.after [] = p := rfl

@[simp] theorem after_cons (p : Position) (c : Char) (cs : List Char) : p.after (c :: cs) = (p.step c).after cs := rfl

theorem after_append (p : Position) (cs ds : List Char) : p.after (cs ++ ds) = (p.after cs).after ds := by
  simp [after]

/-- Every character moves the offset on by its width. -/
theorem offset_step (p : Position) (c : Char) : (p.step c).offset = p.offset + c.utf8Size := by
  unfold step; split <;> rfl

end Position

/-- A byte range with the line and column at which it starts. -/
structure Span where
  /-- First byte. -/
  start : Nat
  /-- First byte behind the range. -/
  stop : Nat
  /-- Line of the first byte, from one. -/
  line : Nat
  /-- Column of the first byte, from one. -/
  column : Nat
deriving DecidableEq, Repr

namespace Span

/-- The span of something that no text was written for. -/
def none : Span := ⟨0, 0, 0, 0⟩

instance : Inhabited Span := ⟨none⟩

/-- The span from one place to the byte offset of a later one. -/
def between (p q : Position) : Span := ⟨p.offset, q.offset, p.line, p.column⟩

/-- The span from the start of `a` to the end of `b`; a `b` that ends no later than `a` starts adds nothing. -/
def through (a b : Span) : Span :=
  if b.stop ≤ a.start then a else ⟨a.start, b.stop, a.line, a.column⟩

/-- The span written as `line:column`. -/
def place (s : Span) : String :=
  toString s.line ++ ":" ++ toString s.column

theorem start_through (a b : Span) : (a.through b).start = a.start := by
  unfold through; split <;> rfl

theorem line_through (a b : Span) : (a.through b).line = a.line := by
  unfold through; split <;> rfl

theorem column_through (a b : Span) : (a.through b).column = a.column := by
  unfold through; split <;> rfl

end Span

end Reactive
