import SqlLayout.Layout.Block
import SqlLayout.Scan.Token

set_option autoImplicit false

/-! # CASE expressions

`CASE`, with what it compares, opens at the given level. Each `WHEN` and `ELSE` branch takes a
line one level in, and so does `END` with what follows it. A `CASE` inside a branch stays on
the line of that branch.
-/

namespace SqlLayout.Layout

/-- The lines of a `CASE` expression up to the `END` that closes it, and the tokens after that
`END`. `nested` counts the open inner `CASE` words and `line` is the line so far. -/
def branchLines : Nat → Text → List Token → Option (List Text × List Token)
  | _, _, [] => none
  | nested, line, t :: ts =>
    if t.spells Keyword.CASE then branchLines (nested + 1) (line ++ ' ' :: t.text) ts
    else if nested == 0 then
      if t.spells Keyword.WHEN then
        (branchLines 0 Keyword.WHEN ts).map fun (lines, rest) => (line :: lines, rest)
      else if t.spells Keyword.ELSE then
        (branchLines 0 Keyword.ELSE ts).map fun (lines, rest) => (line :: lines, rest)
      else if t.spells Keyword.THEN then branchLines 0 (line ++ ' ' :: Keyword.THEN) ts
      else if t.spells Keyword.END then some ([line], ts)
      else branchLines 0 (line ++ ' ' :: t.text) ts
    else if t.spells Keyword.END then branchLines (nested - 1) (line ++ ' ' :: t.text) ts
    else branchLines nested (line ++ ' ' :: t.text) ts

/-- The first line at the given level, the others one level in. -/
def hanging (level : Nat) : List Text → List Line
  | [] => []
  | head :: rest => ⟨level, head⟩ :: rest.map (⟨level + 1, ·⟩)

/-- The `END` line: the tokens after `END`, and a suffix. -/
def endLine (rest : List Token) (suffix : Text) : Text :=
  Keyword.END ++ rest.flatMap (fun t => ' ' :: t.text) ++ suffix

/-- Lays out a `CASE` expression. What the first token has beyond the word `CASE` stays on the
first line. -/
def caseExpression (expr suffix : Text) (level : Nat) : Layout :=
  match expr.tokens with
  | [] => .ok ⟨[], level⟩
  | first :: rest =>
    match branchLines 0 (Keyword.CASE ++ first.text.dropBytes Keyword.CASE.byteLength) rest with
    | none => .error (.unterminated .caseExpression (excerpt expr 0))
    | some (lines, after) =>
      .ok ⟨hanging level lines ++ [⟨level + 1, endLine after suffix⟩], level⟩

end SqlLayout.Layout
