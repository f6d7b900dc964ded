import SqlLayout.Proofs.Respacing
import SqlLayout.Layout.Query

set_option autoImplicit false

/-! # Cuts between preserved words

Most cuts of a layout fall on blanks, commas or parentheses, which end a preserved word anyway.
Three do not have to: the keywords of a window, `SELECT` in a join, and the end of a nested
query, which loses its terminator. `keepsWords` says that these cuts, too, leave the preserved
words of a statement alone. It follows the layout, step by step.
-/

namespace SqlLayout

/-- Whether a cut at index `i` falls between preserved words. -/
def Text.dividedAt (t : Text) (i : Nat) : Bool := divided (Text.edge none (t.take i)) (t.drop i)

namespace Layout

/-- Whether the keywords, each looked for behind the one before it, stand between preserved
words. -/
def keywordsDivided : List Text → Text → Bool
  | [], _ => true
  | k :: ks, t =>
    match t.firstOccurrence? k with
    | none => true
    | some i =>
      t.dividedAt i && t.dividedAt (i + k.length) &&
        keywordsDivided ks (Text.trim (t.drop (i + k.length)))

/-- The keywords of a window specification, in the order in which they are looked for. -/
def windowKeywords : List Text := [Keyword.PARTITION_BY, Keyword.ORDER_BY, Keyword.ROWS]

/-- The cuts of a window function. -/
def windowDivided (column : Text) : Bool :=
  match column.firstOccurrence? Keyword.OVER with
  | none => true
  | some i =>
    let after := Text.trimStart (column.drop (i + Keyword.OVER.length))
    if after.head? == some '(' then
      match column.enclosed? (column.length - after.length) with
      | none => true
      | some (spec, _) => column.dividedAt i && keywordsDivided windowKeywords spec
    else true

/-- The cuts of a column. -/
def columnDivided (column : Text) : Bool :=
  column.startsKeyword Keyword.CASE || windowDivided column

/-- The cuts of the head of a join. -/
def headDivided (head : Text) : Bool := (head.occurrences Keyword.SELECT).all head.dividedAt

/-- The cuts of a condition, where `nested` is about the query in it: the query must not end
with a terminator. -/
def conditionDivided (nested : Text → Bool) (condition : Text) : Bool :=
  match (condition.firstOccurrence? Keyword.SELECT).bind condition.openAround? with
  | none => true
  | some opening =>
    match condition.enclosed? opening with
    | none => true
    | some (interior, _) => interior.getLast? != some terminator && nested interior

/-- The cuts of a clause. -/
def clauseDivided (nested : Text → Bool) (c : Clause) : Bool :=
  match c.kind with
  | .select => c.body.columns.all columnDivided
  | .join => headDivided (headed c.keyword (joinParts c.body).1)
  | .condition => ((c.body.splitOn andSeparator).map Text.trim).all (conditionDivided nested)
  | _ => true

end Layout

/-- The cuts of a statement whose queries are nested less than `bound` deep. -/
def dividedWithin : Nat → Text → Bool
  | 0, _ => true
  | bound + 1, text =>
    text.normalize.withoutTerminator.clauses.all (Layout.clauseDivided (dividedWithin bound))

/-- Whether the layout of a statement cuts only between preserved words. -/
def keepsWords (text : Text) : Bool := dividedWithin (text.count '(' + 1) text

end SqlLayout
