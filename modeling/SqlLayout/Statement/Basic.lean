import SqlLayout.Statement.Fault
import SqlLayout.Scan.Keyword

set_option autoImplicit false

/-! # Statements

A statement is brought into one line with single spaces (`normalize`), loses its terminator
(`withoutTerminator`) and is checked (`validate`) before it is cut into clauses.

The check is one scan from left to right. It stops at a `)` that nothing opened and at a `;`
outside parentheses and literals; at the end it complains about an open literal, then about the
first open parenthesis, then about the first open `CASE`.
-/

namespace SqlLayout

/-- Ends every statement. -/
def terminator : Char := ';'

namespace Text

/-- Every run of blanks as one space, none at the two ends. -/
def normalize (t : Text) : Text := join [' '] t.words

/-- A text without one terminator at its end and the blanks before it. -/
def withoutTerminator (t : Text) : Text :=
  if t.getLast? == some terminator then trimEnd t.dropLast else t

end Text

/-! ## Validation -/

/-- What the check of a statement knows between two characters. -/
structure Check where
  /-- The index of the next character. -/
  index : Nat
  nesting : Nesting
  /-- Whether the last character read is a word character. -/
  inWord : Bool
  /-- The indices of the open parentheses, innermost first. -/
  parens : List Nat
  /-- The indices of the open `CASE` words, innermost first. -/
  cases : List Nat
  /-- The index of the last mark that opened a literal. -/
  quoteStart : Nat
deriving DecidableEq, Repr

namespace Check

/-- Before the first character. -/
def start : Check := ⟨0, .start, false, [], [], 0⟩

/-- The open `CASE` words once the word `w` at index `i` is read. -/
def casesAfter (cases : List Nat) (i : Nat) (w : Text) : List Nat :=
  if w.same Keyword.CASE then i :: cases
  else if w.same Keyword.END then cases.tail
  else cases

/-- Reads the next character of a statement `whole`, which is `c` and is followed by `cs`. -/
def read (whole : Text) (k : Check) (c : Char) (cs : Text) : Except Fault Check :=
  let next : Check := { k with
    index := k.index + 1
    nesting := k.nesting.next c
    inWord := isWordChar c }
  if k.nesting.isQuoted then .ok next
  else if isWordChar c then
    if k.inWord then .ok next
    else .ok { next with cases := casesAfter k.cases k.index (Text.firstWord (c :: cs)) }
  else if c == '(' then .ok { next with parens := k.index :: k.parens }
  else if c == ')' then
    match k.parens with
    | [] => .error (.unbalancedParentheses (whole.byteOffset k.index))
    | _ :: ps => .ok { next with parens := ps }
  else if c == terminator && k.nesting.depth == 0 then
    .error (.severalStatements (whole.byteOffset k.index))
  else if isQuoteMark c then .ok { next with quoteStart := k.index }
  else .ok next

/-- The verdict at the end of the statement `whole`. -/
def verdict (whole : Text) (k : Check) : Except Fault Unit :=
  if k.nesting.isQuoted then
    .error (.unterminated .stringLiteral (excerpt whole k.quoteStart))
  else match k.parens.getLast?, k.cases.getLast? with
    | some i, _ => .error (.unbalancedParentheses (whole.byteOffset i))
    | none, some i => .error (.unterminated .caseExpression (excerpt whole i))
    | none, none => .ok ()

/-- Reads the rest of the statement `whole` and gives the verdict. -/
def run (whole : Text) : Check → Text → Except Fault Unit
  | k, [] => k.verdict whole
  | k, c :: cs =>
    match k.read whole c cs with
    | .ok k' => run whole k' cs
    | .error e => .error e

end Check

/-- Accepts a statement that can be cut into clauses: balanced parentheses, closed literals and
`CASE` expressions, and no separator before the end. -/
def validate (statement : Text) : Except Fault Unit := Check.run statement .start statement

end SqlLayout
