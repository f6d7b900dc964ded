import SqlLayout.Layout.Block
import SqlLayout.Scan.Parens

set_option autoImplicit false

/-! # Window functions

`f(x) OVER (…)` opens a parenthesis and puts the parts of the window specification one level
in, each on a line: what comes before `PARTITION BY`, then `PARTITION BY`, `ORDER BY` and
`ROWS`, looked for in this order. A specification without `PARTITION BY` is one line. A named
window stays on the line of its function.
-/

namespace SqlLayout.Layout

/-- The text before the first occurrence of a keyword and the text after it, trimmed. -/
def aroundKeyword (text keyword : Text) : Text × Option Text :=
  match text.firstOccurrence? keyword with
  | some i => (Text.trim (text.take i), some (Text.trim (text.drop (i + keyword.length))))
  | none => (text.trim, none)

/-- The lines of an `ORDER BY` part, with its `ROWS` part. -/
def orderLines (text : Text) : List Text :=
  match aroundKeyword text Keyword.ROWS with
  | (order, none) => [headed Keyword.ORDER_BY order]
  | (order, some rows) => [headed Keyword.ORDER_BY order, headed Keyword.ROWS rows]

/-- The lines of a `PARTITION BY` part, with what follows it. -/
def partitionLines (text : Text) : List Text :=
  match aroundKeyword text Keyword.ORDER_BY with
  | (partition, none) => [headed Keyword.PARTITION_BY partition]
  | (partition, some order) => headed Keyword.PARTITION_BY partition :: orderLines order

/-- The lines of a window specification. -/
def windowLines (spec : Text) : List Text :=
  match aroundKeyword spec Keyword.PARTITION_BY with
  | (_, none) => if spec.isEmpty then [] else [spec]
  | (base, some partition) =>
    if base.isEmpty then partitionLines partition else base :: partitionLines partition

/-- Lays out a column with a window function. -/
def windowFunction (column suffix : Text) (level : Nat) : Layout :=
  match column.firstOccurrence? Keyword.OVER with
  | none => .ok (plain column suffix level)
  | some i =>
    let after := Text.trimStart (column.drop (i + Keyword.OVER.length))
    let opening := column.length - after.length
    if after.head? == some '(' then
      match column.enclosed? opening with
      | none => .error (.unterminated .windowSpec (excerpt column opening))
      | some (spec, trailing) =>
        let head := openLine (Text.trimEnd (column.take i)) Keyword.OVER
        let parts := (windowLines spec).map fun part => ⟨level + 1, part⟩
        .ok ⟨⟨level, head⟩ :: (parts ++ [⟨level, closeLine trailing suffix⟩]), level⟩
    else .ok (plain column suffix level)

end SqlLayout.Layout
