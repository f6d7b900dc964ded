import SqlLayout.Scan.Nesting

set_option autoImplicit false

/-! # Matching parentheses

`closeOf?` goes from an opening parenthesis to its partner, `openAround?` from a place
to the innermost parenthesis still open there. Both ignore parentheses inside literals.
-/

namespace SqlLayout.Text

/-- The index of the first `)` after which the nesting is back at the top level, where `i` is
the index of the next character and `n` the nesting there. Gives up at a `)` that nothing
opened. -/
def closeFrom : Nat → Nesting → Text → Option Nat
  | _, _, [] => none
  | i, n, c :: cs =>
    match n.next? c with
    | none => none
    | some m => if c == ')' && m.isOutermost then some i else closeFrom (i + 1) m cs

/-- The index of the `)` that closes the `(` at index `opening`. The scan starts at that
parenthesis, so nothing before it counts. -/
def closeOf? (t : Text) (opening : Nat) : Option Nat :=
  if t[opening]? == some '(' then closeFrom opening .start (t.drop opening) else none

/-- The indices of the parentheses still open at the end of a text, innermost first, where `i`
is the index of the next character, `n` the nesting there, and `opened` lists those open so
far. -/
def openParens : Nat → Nesting → List Nat → Text → List Nat
  | _, _, opened, [] => opened
  | i, n, opened, c :: cs =>
    let opened' :=
      if n.isQuoted then opened
      else if c == '(' then i :: opened
      else if c == ')' then opened.tail
      else opened
    openParens (i + 1) (n.next c) opened' cs

/-- The index of the innermost `(` outside literals that is still open at index `place`. -/
def openAround? (t : Text) (place : Nat) : Option Nat :=
  (openParens 0 .start [] (t.take place)).head?

/-- What the parentheses opened at index `opening` enclose, and what follows them, trimmed. -/
def enclosed? (t : Text) (opening : Nat) : Option (Text × Text) :=
  (t.closeOf? opening).map fun closing =>
    (trim ((t.take closing).drop (opening + 1)), trim (t.drop (closing + 1)))

end SqlLayout.Text
