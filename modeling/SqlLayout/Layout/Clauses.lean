import SqlLayout.Statement.Clause
import SqlLayout.Statement.Columns
import SqlLayout.Layout.Case
import SqlLayout.Layout.InList
import SqlLayout.Layout.Subquery
import SqlLayout.Layout.Window

set_option autoImplicit false

/-! # Clauses, line by line

One layout for each kind of clause. Each gets the level that holds before its clause and says
which level holds after it; all but `FROM` give back the level they got.
-/

namespace SqlLayout.Layout

/-! ## `SELECT` -/

/-- Lays out a column: a `CASE` expression, a window function, or a line. -/
def column (level : Nat) (text suffix : Text) : Layout :=
  if text.startsKeyword Keyword.CASE then caseExpression text suffix level
  else if text.hasKeyword Keyword.OVER then windowFunction text suffix level
  else .ok (plain text suffix level)

/-- `SELECT` on a line of its own, its columns one level in. -/
def selectClause (body : Text) (level : Nat) : Layout :=
  match stack (column (level + 1)) (separated [','] body.columns) with
  | .error e => .error e
  | .ok lines => .ok ⟨⟨level, Keyword.SELECT⟩ :: lines, level⟩

/-! ## `FROM` and the joins -/

/-- `FROM` and its source on one line, which starts a new block at level zero. -/
def fromClause (body : Text) : Layout := .ok ⟨[⟨0, headed Keyword.FROM body⟩], 0⟩

/-- The separator between the target and the condition of a join. -/
def onSeparator : Text := [' ', 'O', 'N', ' ']

/-- The target of a join, and its condition if it has one: the parts of the body around the
first `ON` between spaces. -/
def joinParts (body : Text) : Text × Option Text :=
  match Text.find? onSeparator body with
  | some i => (Text.trim (body.take i), some (Text.trim (body.drop (i + onSeparator.length))))
  | none => (body, none)

/-- The line for the part of a join head that starts at index `start`; all but the first part
stand one level in. -/
def headLine (level start : Nat) (piece : Text) : Line :=
  ⟨if start == 0 then level else level + 1, piece⟩

/-- Breaks the head of a join at the given places; the part that starts at `start` comes
first. Empty parts are left out, except at the end. -/
def headLines (head : Text) (level : Nat) : Nat → List Nat → List Line
  | start, [] => [headLine level start (Text.trim (head.drop start))]
  | start, i :: rest =>
    let piece := Text.trim ((head.take i).drop start)
    if piece.isEmpty then headLines head level i rest
    else headLine level start piece :: headLines head level i rest

/-- The join and its target on one line, broken before each `SELECT`; then `ON` and its
condition. -/
def joinClause (keyword body : Text) (level : Nat) : Layout :=
  let (target, condition) := joinParts body
  let head := headed keyword target
  let lines := headLines head level 0 (head.occurrences Keyword.SELECT)
  match condition with
  | none => .ok ⟨lines, level⟩
  | some c => .ok ⟨lines ++ [⟨level, headed Keyword.ON c⟩], level⟩

/-! ## `WHERE` and `HAVING` -/

/-- The separator between conditions. -/
def andSeparator : Text := [' ', 'A', 'N', 'D', ' ']

/-- Lays out a condition: a subquery, a value list, or a line. -/
def condition (nested : Text → Except Fault Query) (level : Nat) (text suffix : Text) :
    Layout :=
  if text.hasKeyword Keyword.SELECT then subquery nested text suffix level
  else if (Text.find? inOpening text).isSome then inList text suffix level
  else .ok (plain text suffix level)

/-- `WHERE` on a line of its own, its conditions one level in. Conditions are cut at every
`AND` between spaces, also inside parentheses. -/
def whereClause (nested : Text → Except Fault Query) (body : Text) (level : Nat) : Layout :=
  if body.isEmpty then .ok ⟨[⟨level, Keyword.WHERE⟩], level⟩
  else
    let conditions := (body.splitOn andSeparator).map Text.trim
    match stack (condition nested (level + 1)) (separated (' ' :: Keyword.AND) conditions) with
    | .error e => .error e
    | .ok lines => .ok ⟨⟨level, Keyword.WHERE⟩ :: lines, level⟩

/-- `HAVING` and its condition on one line. -/
def havingClause (body : Text) (level : Nat) : Layout :=
  .ok ⟨[⟨level, headed Keyword.HAVING body⟩], level⟩

/-! ## `GROUP BY` and `ORDER BY` -/

/-- The keyword on a line of its own, the items one level in. Items are cut at every comma. -/
def listClause (keyword body : Text) (level : Nat) : Layout :=
  let items := if body.isEmpty then [] else itemLines [','] (level + 1) body.splitCommas
  .ok ⟨⟨level, keyword⟩ :: items, level⟩

/-! ## Any clause -/

/-- Lays out a clause; queries in its conditions are laid out by `nested`. -/
def clause (nested : Text → Except Fault Query) (c : Clause) (level : Nat) : Layout :=
  match c.kind with
  | .select => selectClause c.body level
  | .source => fromClause c.body
  | .join => joinClause c.keyword c.body level
  | .condition => whereClause nested c.body level
  | .having => havingClause c.body level
  | .groupBy | .orderBy => listClause c.keyword c.body level
  | .leading => .ok ⟨[⟨level, c.text⟩], level⟩

/-- Lays out clauses one after another, each at the level that holds after the one before. -/
def clauses (nested : Text → Except Fault Query) :
    List Clause → Nat → Except Fault (List Line)
  | [], _ => .ok []
  | c :: cs, level =>
    match clause nested c level with
    | .error e => .error e
    | .ok block =>
      match clauses nested cs block.level with
      | .error e => .error e
      | .ok lines => .ok (block.lines ++ lines)

end SqlLayout.Layout
