import SqlLayout.Text.Basic

set_option autoImplicit false

/-! # Lexical nesting

A scan of a statement knows, between any two characters, how many parentheses are open and
whether it stands inside a quoted literal. `Nesting` is that knowledge, `Nesting.next?` reads
one character, and `Nesting.after` reads a whole text.

A literal is opened by `'`, `"` or a back quote and closed by the same mark; a backslash inside
it takes the meaning from the character that follows. Parentheses inside a literal do not count.
-/

namespace SqlLayout

/-- Where a scan stands with respect to quoted literals. -/
inductive Quoting where
  /-- Outside any literal. -/
  | outside
  /-- Inside a literal opened by `mark`. -/
  | inside (mark : Char)
  /-- Inside a literal opened by `mark`, right after a backslash. -/
  | escaped (mark : Char)
deriving DecidableEq, Repr

/-- The characters that open a quoted literal. -/
def isQuoteMark (c : Char) : Bool := c == '\x27' || c == '\x22' || c == '\x60'

/-- The number of open parentheses and the position relative to quoted literals. -/
structure Nesting where
  depth : Nat
  quoting : Quoting
deriving DecidableEq, Repr

namespace Nesting

/-- The nesting at the start of a text. -/
def start : Nesting := ⟨0, .outside⟩

/-- Whether the scan stands inside a quoted literal. -/
def isQuoted (n : Nesting) : Bool :=
  match n.quoting with
  | .outside => false
  | _ => true

/-- No parenthesis open and outside any literal. -/
def isOutermost (n : Nesting) : Bool := n.depth == 0 && !n.isQuoted

/-- Reads one character; refuses a `)` that nothing opened. -/
def next? (n : Nesting) (c : Char) : Option Nesting :=
  match n.quoting with
  | .escaped m => some ⟨n.depth, .inside m⟩
  | .inside m =>
    if c == '\x5c' then some ⟨n.depth, .escaped m⟩
    else if c == m then some ⟨n.depth, .outside⟩
    else some n
  | .outside =>
    if isQuoteMark c then some ⟨n.depth, .inside c⟩
    else if c == '(' then some ⟨n.depth + 1, .outside⟩
    else if c == ')' then
      match n.depth with
      | 0 => none
      | d + 1 => some ⟨d, .outside⟩
    else some n

/-- Reads one character; a `)` that nothing opened changes nothing. -/
def next (n : Nesting) (c : Char) : Nesting := (n.next? c).getD n

/-- Reads a text, character by character. -/
def scan (n : Nesting) (t : Text) : Nesting := t.foldl next n

/-- The nesting at the end of a text. -/
def after (t : Text) : Nesting := start.scan t

end Nesting

end SqlLayout
