import SqlLayout.Scan.Token

set_option autoImplicit false

/-! # Clauses

A statement is cut into clauses at the *boundary keywords* that stand outside parentheses and
literals. A keyword of two words is read before one of one word. What comes before the first
boundary is a clause of its own, without a keyword.

`FULL JOIN`, `CROSS JOIN` and `OUTER JOIN` are no boundaries: they stay in the clause before
them.
-/

namespace SqlLayout

/-- The kinds of clause, each with a layout of its own. -/
inductive ClauseKind where
  /-- `SELECT` and its columns. -/
  | select
  /-- `FROM` and its source. -/
  | source
  /-- `INNER JOIN`, `LEFT JOIN` or `RIGHT JOIN`. -/
  | join
  /-- `WHERE` and its conditions. -/
  | condition
  /-- `GROUP BY` and its items. -/
  | groupBy
  /-- `HAVING` and its condition. -/
  | having
  /-- `ORDER BY` and its items. -/
  | orderBy
  /-- Text before the first boundary keyword. -/
  | leading
deriving DecidableEq, Repr

/-- A keyword that starts a clause, in its canonical spelling, and the kind of that clause. -/
structure Boundary where
  keyword : Text
  kind : ClauseKind
deriving DecidableEq, Repr

namespace Boundary

/-- The keywords that start a clause. -/
def all : List Boundary :=
  [⟨Keyword.SELECT, .select⟩, ⟨Keyword.FROM, .source⟩,
    ⟨Keyword.INNER_JOIN, .join⟩, ⟨Keyword.LEFT_JOIN, .join⟩, ⟨Keyword.RIGHT_JOIN, .join⟩,
    ⟨Keyword.WHERE, .condition⟩, ⟨Keyword.GROUP_BY, .groupBy⟩, ⟨Keyword.HAVING, .having⟩,
    ⟨Keyword.ORDER_BY, .orderBy⟩]

/-- The boundary spelled by `words`, up to ASCII case. -/
def ofWords? (words : Text) : Option Boundary := all.find? (fun b => words.same b.keyword)

/-- The boundary that the first of the given tokens starts, alone or with the second. -/
def ofTokens? : List Token → Option Boundary
  | [] => none
  | t :: ts =>
    if t.nesting.isOutermost then
      match ts with
      | [] => ofWords? t.text
      | u :: _ => (ofWords? (t.text ++ ' ' :: u.text)).or (ofWords? t.text)
    else none

end Boundary

/-- A part of a statement that starts at a boundary keyword, or at its beginning. -/
structure Clause where
  kind : ClauseKind
  /-- The canonical keyword, empty for a leading clause. -/
  keyword : Text
  /-- The whole clause. -/
  text : Text
  /-- What follows the keyword, trimmed. -/
  body : Text
deriving DecidableEq, Repr

namespace Clause

/-- The clause with the given text; its body is what follows as many bytes as the keyword
has. -/
def ofText (kind : ClauseKind) (keyword text : Text) : Clause :=
  ⟨kind, keyword, text, (text.dropBytes keyword.byteLength).trim⟩

/-- The clause that a boundary starts, or a leading clause. -/
def ofBoundary (boundary : Option Boundary) (text : Text) : Clause :=
  match boundary with
  | some b => ofText b.kind b.keyword text
  | none => ofText .leading [] text

/-- The places where the tokens start a clause after the first token, with the boundary
there. -/
def laterStarts : List Token → List (Nat × Option Boundary)
  | [] => []
  | t :: ts =>
    match Boundary.ofTokens? (t :: ts) with
    | some b => (t.index, some b) :: laterStarts ts
    | none => laterStarts ts

/-- The places where the tokens of a statement start a clause. The first clause starts at the
beginning, unless the first token starts one. -/
def starts : List Token → List (Nat × Option Boundary)
  | [] => []
  | t :: ts =>
    match Boundary.ofTokens? (t :: ts) with
    | some b => (t.index, some b) :: laterStarts ts
    | none => (0, none) :: laterStarts ts

/-- Cuts a statement at the given places. -/
def cut (statement : Text) : List (Nat × Option Boundary) → List Clause
  | [] => []
  | [(i, b)] => [ofBoundary b (Text.trim (statement.drop i))]
  | (i, b) :: (j, b') :: rest =>
    ofBoundary b (Text.trim ((statement.take j).drop i)) :: cut statement ((j, b') :: rest)

end Clause

/-- The clauses of a statement, in order. -/
def Text.clauses (statement : Text) : List Clause :=
  Clause.cut statement (Clause.starts statement.tokens)

end SqlLayout
