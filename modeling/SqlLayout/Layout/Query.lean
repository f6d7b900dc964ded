import SqlLayout.Layout.Clauses

set_option autoImplicit false

/-! # Formatting a statement

A statement is normalized, checked, cut into clauses and laid out clause by clause. A query
inside a condition goes through the same steps on its own.

The inner query stands inside a parenthesis of the statement and does not hold that
parenthesis, so it has fewer opening parentheses than the statement. Queries are therefore
nested at most as deeply as the statement has opening parentheses, and `layoutWithin` recurses
on that bound.
-/

namespace SqlLayout

/-- Lays out a statement whose queries are nested less than `bound` deep. There is no such
statement for the bound zero. -/
def layoutWithin : Nat → Text → Except Fault Query
  | 0, _ => .error .emptyInput
  | bound + 1, text =>
    let statement := text.normalize.withoutTerminator
    if statement.isEmpty then .error .emptyInput
    else
      match validate statement with
      | .error e => .error e
      | .ok () =>
        match Layout.clauses (layoutWithin bound) statement.clauses 0 with
        | .error e => .error e
        | .ok lines => .ok ⟨lines⟩

/-- Lays out a statement. -/
def layout (text : Text) : Except Fault Query := layoutWithin (text.count '(' + 1) text

/-- The number of spaces for an indent level, unless something else is asked for. -/
def standardWidth : Nat := 4

/-- The laid-out statement with `width` spaces for each indent level and its terminator. -/
def format (width : Nat) (text : Text) : Except Fault Text :=
  (layout text).map (Query.statement width)

end SqlLayout
