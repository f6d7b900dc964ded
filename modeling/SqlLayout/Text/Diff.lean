import SqlLayout.Text.Basic

set_option autoImplicit false

/-! # Line diffs

Two texts are compared line by line. A line ends after `\n`, `\r\n` or a `\r` alone, and its
end belongs to it. The diff keeps as many lines as possible (a longest common subsequence);
between two kept lines the deleted lines come before the inserted ones.

The search fills a table row by row. The row of a list `xs` holds, for each suffix of the other
list, the best script from `xs` to that suffix.
-/

namespace SqlLayout

namespace Text

/-- The first line and the further ones; the first is empty only for the empty text. -/
def linesFrom : Text → Text × List Text
  | [] => ([], [])
  | '\r' :: '\n' :: cs =>
    let (l, ls) := linesFrom cs
    (['\r', '\n'], if l.isEmpty then ls else l :: ls)
  | c :: cs =>
    let (l, ls) := linesFrom cs
    if c == '\n' || c == '\r' then ([c], if l.isEmpty then ls else l :: ls) else (c :: l, ls)

/-- The lines of a text, each with its end. -/
def lines (t : Text) : List Text :=
  let (l, ls) := linesFrom t
  if l.isEmpty then ls else l :: ls

end Text

/-- What a diff does with a line. -/
inductive Change where
  | keep (line : Text)
  | delete (line : Text)
  | insert (line : Text)
deriving DecidableEq, Repr

/-- A script of changes and the number of lines it keeps. -/
structure Script where
  kept : Nat
  changes : List Change
deriving DecidableEq, Repr

namespace Script

/-- The script that changes nothing. -/
def empty : Script := ⟨0, []⟩

/-- Keeps a line, then goes on as `s` does. -/
def keep (x : Text) (s : Script) : Script := ⟨s.kept + 1, .keep x :: s.changes⟩

/-- Deletes a line, then goes on as `s` does. -/
def delete (x : Text) (s : Script) : Script := ⟨s.kept, .delete x :: s.changes⟩

/-- Inserts a line, then goes on as `s` does. -/
def insert (x : Text) (s : Script) : Script := ⟨s.kept, .insert x :: s.changes⟩

/-- The first script of a row. -/
def first (row : List Script) : Script := row.headD empty

/-- The row of the empty list: every line is inserted. -/
def insertRow : List Text → List Script
  | [] => [empty]
  | y :: ys =>
    let row := insertRow ys
    insert y (first row) :: row

/-- The row of `x :: xs`, from the row of `xs`. Equal lines are kept; otherwise the better of
deleting and inserting is taken, deleting if both keep equally many. -/
def nextRow (x : Text) : List Text → List Script → List Script
  | [], below => [delete x (first below)]
  | y :: ys, below =>
    let row := nextRow x ys below.tail
    let best :=
      if x == y then keep x (first below.tail)
      else if (first row).kept ≤ (first below).kept then delete x (first below)
      else insert y (first row)
    best :: row

/-- The row of a list of lines. -/
def row (ys : List Text) : List Text → List Script
  | [] => insertRow ys
  | x :: xs => nextRow x ys (row ys xs)

end Script

/-- The changes that lead from one list of lines to another and keep the most lines. -/
def Change.between (xs ys : List Text) : List Change := (Script.first (Script.row ys xs)).changes

/-! ## Writing a diff -/

namespace Change

/-- The line of a change. -/
def line : Change → Text
  | keep l | delete l | insert l => l

/-- The sign in front of the line. -/
def sign : Change → Char
  | keep _ => ' '
  | delete _ => '-'
  | insert _ => '+'

/-- The escape sequence that ends all color. -/
def reset : Text := ['\x1b', '[', '0', 'm']

/-- The escape sequences that choose the color of a change: red for deleted lines, green for
inserted ones. -/
def color : Change → Text
  | keep _ => reset
  | delete _ => reset ++ ['\x1b', '[', '3', '1', 'm']
  | insert _ => reset ++ ['\x1b', '[', '3', '2', 'm']

/-- Whether a line has its end. -/
def isEnded (l : Text) : Bool := l.getLast? == some '\n' || l.getLast? == some '\r'

/-- The sign and the line; a line without an end is followed by an empty line. -/
def render (c : Change) : Text :=
  c.sign :: c.line ++ (if isEnded c.line then [] else ['\n', '\n'])

/-- A change between its color and the end of color. -/
def renderColored (c : Change) : Text := c.color ++ c.render ++ reset

end Change

/-- The diff between two texts under the name `path`. -/
def renderDiff (colored : Bool) (path source result : Text) : Text :=
  ['-', '-', '-', ' '] ++ path ++ ['\n', '+', '+', '+', ' '] ++ path ++ ['\n'] ++
    (Change.between source.lines result.lines).flatMap
      (if colored then Change.renderColored else Change.render)

end SqlLayout
