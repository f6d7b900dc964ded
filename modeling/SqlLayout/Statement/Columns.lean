import SqlLayout.Scan.Keyword

set_option autoImplicit false

/-! # Columns

A list of columns is cut at the commas outside parentheses, literals and `CASE … END`. A comma
in front of the word `OVER` is no separator.
-/

namespace SqlLayout.Text

/-- The number of open `CASE` words once the word `w` is read. -/
def caseDepthAfter (depth : Nat) (w : Text) : Nat :=
  if w.same Keyword.CASE then depth + 1
  else if w.same Keyword.END then depth - 1
  else depth

/-- The first column and the further ones, untrimmed, where `n` is the nesting, `inWord` says
whether the character before is a word character, and `depth` counts the open `CASE` words. -/
def columnsFrom : Nesting → Bool → Nat → Text → Text × List Text
  | _, _, _, [] => ([], [])
  | n, inWord, depth, c :: cs =>
    let depth' :=
      if !n.isQuoted && isWordChar c && !inWord then caseDepthAfter depth (firstWord (c :: cs))
      else depth
    let (p, ps) := columnsFrom (n.next c) (isWordChar c) depth' cs
    if c == ',' && n.isOutermost && depth == 0 && !nextIs Keyword.OVER cs then ([], p :: ps)
    else (c :: p, ps)

/-- The columns of a list, trimmed. A list of blanks has none. -/
def columns (list : Text) : List Text :=
  let (p, ps) := columnsFrom .start false 0 list
  if ps.isEmpty && p.trim.isEmpty then [] else (p :: ps).map trim

end SqlLayout.Text
