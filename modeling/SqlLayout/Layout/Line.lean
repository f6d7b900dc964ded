import SqlLayout.Statement.Basic

set_option autoImplicit false

/-! # Lines

A laid-out statement is a list of lines, each with an indent level. How many spaces a level
takes is decided only when the lines are rendered.
-/

namespace SqlLayout

/-- A line and its indent level. -/
structure Line where
  level : Nat
  text : Text
deriving DecidableEq, Repr

namespace Line

/-- The line moved `k` levels in. -/
def shift (k : Nat) (l : Line) : Line := ⟨l.level + k, l.text⟩

/-- The line with `width` spaces for each level. -/
def render (width : Nat) (l : Line) : Text := List.replicate (width * l.level) ' ' ++ l.text

end Line

/-- The lines of a statement. -/
structure Query where
  lines : List Line
deriving DecidableEq, Repr

namespace Query

/-- Every line moved `k` levels in, to stand inside another statement. -/
def shift (k : Nat) (q : Query) : Query := ⟨q.lines.map (Line.shift k)⟩

/-- The rendered lines, without a terminator. -/
def render (width : Nat) (q : Query) : Text := Text.join ['\n'] (q.lines.map (Line.render width))

/-- The rendered statement, with its terminator. -/
def statement (width : Nat) (q : Query) : Text := (q.render width).trimEnd ++ [terminator]

end Query

end SqlLayout
