import SqlLayout.Layout.Query

set_option autoImplicit false

/-! # Cuts outside literals

Some cuts of a layout are found without regard to literals: `AND` between conditions, `ON` in a
join, `IN (` in a condition, and the commas of value lists, `GROUP BY` and `ORDER BY`.
`cutsOutside` says that none of these cuts of a statement falls inside a literal. It follows the
layout, step by step.
-/

namespace SqlLayout

/-- Whether index `i` lies inside a literal. -/
def Text.isQuotedAt (t : Text) (i : Nat) : Bool := (Nesting.after (t.take i)).isQuoted

/-- Whether all occurrences of a separator start outside literals. -/
def Text.splitsOutside (sep t : Text) : Bool :=
  (List.range t.length).all fun i => !(Text.startsWith (t.drop i) sep && t.isQuotedAt i)

namespace Layout

/-- The cuts of a condition with a value list. -/
def inListOutside (condition : Text) : Bool :=
  match Text.find? inOpening condition with
  | none => true
  | some i =>
    !condition.isQuotedAt i &&
      match condition.enclosed? (i + (inOpening.length - 1)) with
      | none => true
      | some (list, _) => Text.splitsOutside [','] list

/-- The cuts of a condition with a subquery, where `nested` is about the query in it. -/
def subqueryOutside (nested : Text → Bool) (condition : Text) : Bool :=
  match (condition.firstOccurrence? Keyword.SELECT).bind condition.openAround? with
  | none => true
  | some opening =>
    match condition.enclosed? opening with
    | none => true
    | some (interior, _) => nested interior

/-- The cuts of a condition. -/
def conditionOutside (nested : Text → Bool) (condition : Text) : Bool :=
  if condition.hasKeyword Keyword.SELECT then subqueryOutside nested condition
  else inListOutside condition

/-- The cuts of a clause. -/
def clauseOutside (nested : Text → Bool) (c : Clause) : Bool :=
  match c.kind with
  | .join => (Text.find? onSeparator c.body).all fun i => !c.body.isQuotedAt i
  | .condition =>
    Text.splitsOutside andSeparator c.body &&
      ((c.body.splitOn andSeparator).map Text.trim).all (conditionOutside nested)
  | .groupBy | .orderBy => Text.splitsOutside [','] c.body
  | _ => true

end Layout

/-- The cuts of a statement whose queries are nested less than `bound` deep. -/
def outsideWithin : Nat → Text → Bool
  | 0, _ => true
  | bound + 1, text =>
    text.normalize.withoutTerminator.clauses.all (Layout.clauseOutside (outsideWithin bound))

/-- Whether the layout of a statement cuts only outside literals. -/
def cutsOutside (text : Text) : Bool := outsideWithin (text.count '(' + 1) text

end SqlLayout
