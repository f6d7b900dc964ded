import SqlLayout.Layout.Block
import SqlLayout.Scan.Parens

set_option autoImplicit false

/-! # Subqueries

A condition with a `SELECT` in parentheses opens the parenthesis around the first `SELECT` and
puts the query inside it one level in. That query is laid out on its own, from level zero.
-/

namespace SqlLayout.Layout

/-- Lays out a condition with a subquery, whose inner query is laid out by `nested`. -/
def subquery (nested : Text → Except Fault Query) (condition suffix : Text) (level : Nat) :
    Layout :=
  match (condition.firstOccurrence? Keyword.SELECT).bind condition.openAround? with
  | none => .ok (plain condition suffix level)
  | some opening =>
    match condition.enclosed? opening with
    | none => .error (.unterminated .subquery (excerpt condition opening))
    | some (interior, trailing) =>
      match nested interior with
      | .error e => .error e
      | .ok query =>
        let head := openLine (Text.trim (condition.take opening)) []
        let inner := (query.shift (level + 1)).lines
        .ok ⟨⟨level, head⟩ :: (inner ++ [⟨level, closeLine trailing suffix⟩]), level⟩

end SqlLayout.Layout
