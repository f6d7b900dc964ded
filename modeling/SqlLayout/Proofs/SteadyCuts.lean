import SqlLayout.Layout.Query

set_option autoImplicit false

/-! # Cuts that are found again

A statement is cut into clauses at keywords between spaces, and its conditions at `AND` between
spaces. The layout puts spaces of its own around parentheses, commas and keywords, so a laid-out
statement that is read again may be cut in other places. `steady` says that it is not: clauses
and conditions are laid out, put on one line, and cut once more. It follows the layout, step by
step.
-/

namespace SqlLayout

/-- The words of lines, on one line. -/
def flat (lines : List Line) : Text := Text.join [' '] (lines.flatMap fun l => l.text.words)

namespace Layout

/-- A layout on one line; nothing, if it fails. -/
def onOneLine (layout : Layout) : Text :=
  match layout with
  | .ok block => flat block.lines
  | .error _ => []

/-- The query in a condition. -/
def queryIn? (condition : Text) : Option Text :=
  ((condition.firstOccurrence? Keyword.SELECT).bind condition.openAround?).bind fun opening =>
    (condition.enclosed? opening).map Prod.fst

/-- The cuts between conditions, where `lay` and `nested` are about the queries in them. -/
def conditionsSteady (lay : Text → Except Fault Query) (nested : Text → Bool) (body : Text) :
    Bool :=
  let conditions := (body.splitOn andSeparator).map Text.trim
  let laid := conditions.map fun c => onOneLine (condition lay 1 c [])
  ((Text.join andSeparator laid).splitOn andSeparator).map Text.trim == laid &&
    conditions.all fun c => (queryIn? c).all nested

/-- The cuts in a clause. -/
def clauseSteady (lay : Text → Except Fault Query) (nested : Text → Bool) (c : Clause) : Bool :=
  match c.kind with
  | .condition => conditionsSteady lay nested c.body
  | _ => true

end Layout

/-- The cuts of a statement whose queries are nested less than `bound` deep. -/
def steadyWithin : Nat → Text → Bool
  | 0, _ => true
  | bound + 1, text =>
    let clauses := text.normalize.withoutTerminator.clauses
    let laid := clauses.map fun c => Layout.onOneLine (Layout.clause (layoutWithin bound) c 0)
    (Text.join [' '] laid).clauses.map Clause.text == laid &&
      clauses.all (Layout.clauseSteady (layoutWithin bound) (steadyWithin bound))

/-- Whether a laid-out statement, read again, is cut into clauses and conditions where it was
cut before. -/
def steady (text : Text) : Bool := steadyWithin (text.count '(' + 1) text

end SqlLayout
