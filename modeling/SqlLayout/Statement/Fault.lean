import SqlLayout.Text.Basic

set_option autoImplicit false

/-! # Faults of a statement

Why a statement cannot be laid out. Positions are byte offsets into the normalized statement.
-/

namespace SqlLayout

/-- The constructs that a statement can leave open. -/
inductive Construct where
  | stringLiteral
  | caseExpression
  | subquery
  | inList
  | windowSpec
deriving DecidableEq, Repr

/-- Why a statement cannot be laid out. -/
inductive Fault where
  /-- There is no statement. -/
  | emptyInput
  /-- A parenthesis without a partner. -/
  | unbalancedParentheses (position : Nat)
  /-- A construct that does not end, with the beginning of the text in question. -/
  | unterminated (construct : Construct) (context : Text)
  /-- A statement separator before the end. -/
  | severalStatements (position : Nat)
deriving DecidableEq, Repr

/-- The name of a construct in messages. -/
def Construct.name : Construct → String
  | .stringLiteral => "string literal"
  | .caseExpression => "CASE expression"
  | .subquery => "subquery"
  | .inList => "IN list"
  | .windowSpec => "window specification"

/-- The wording of a fault. -/
def Fault.message : Fault → String
  | .emptyInput => "nothing to format"
  | .unbalancedParentheses p => "unbalanced parentheses at position " ++ toString p
  | .unterminated c context =>
    "unterminated " ++ c.name ++ " near `" ++ String.ofList context ++ "`"
  | .severalStatements p =>
    "statement separator at position " ++ toString p ++ " before end of input"

/-- The number of characters of a text that a message shows. -/
def excerptLength : Nat := 24

/-- The beginning of the text from index `i` on, as messages show it. -/
def excerpt (t : Text) (i : Nat) : Text := (t.drop i).take excerptLength

end SqlLayout
