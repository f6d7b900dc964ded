import SqlLayout.Statement.Basic

set_option autoImplicit false

/-! # Preserved words

A layout moves text around but must not change it. As a safeguard the *preserved words* of a
source and of its layout are compared: the words between blanks, cut further at parentheses and
commas, up to ASCII case, without one terminator at the end.
-/

namespace SqlLayout

/-- The characters that are words of their own. -/
def isDivider (c : Char) : Bool := c == '(' || c == ')' || c == ','

namespace Text

/-- A piece in front of other pieces, unless it is empty. -/
def consPiece (p : Text) (ps : List Text) : List Text := if p.isEmpty then ps else p :: ps

/-- The characters up to the first divider, and the pieces from there on. -/
def divideFrom : Text → Text × List Text
  | [] => ([], [])
  | c :: cs =>
    let (p, ps) := divideFrom cs
    if isDivider c then ([], [c] :: consPiece p ps) else (c :: p, ps)

/-- A word cut around its dividers, each of which is a piece of its own. -/
def divide (word : Text) : List Text := consPiece (divideFrom word).1 (divideFrom word).2

/-- The words that a layout has to preserve. -/
def preservedWords (t : Text) : List Text :=
  let trimmed := t.trimEnd
  let statement := if trimmed.getLast? == some terminator then trimmed.dropLast else trimmed
  (words statement).flatMap fun w => w.divide.map upper

end Text

/-- How the preserved words of two texts differ. -/
inductive Mismatch where
  /-- Two different words at the same place. -/
  | word (position : Nat) (source result : Text)
  /-- One text has all the words of the other and more. -/
  | count (source result : Nat)
deriving DecidableEq, Repr

namespace Mismatch

/-- The first place, counted from `i`, at which two lists of words have different words. -/
def firstDifference : Nat → List Text → List Text → Option Mismatch
  | i, a :: as, b :: bs => if a == b then firstDifference (i + 1) as bs else some (.word i a b)
  | _, _, _ => none

/-- How two lists of words differ, if they do. -/
def between? (source result : List Text) : Option Mismatch :=
  match firstDifference 0 source result with
  | some m => some m
  | none =>
    if source.length == result.length then none else some (.count source.length result.length)

/-- The wording of a mismatch. -/
def message : Mismatch → String
  | .word i a b =>
    "Token mismatch at position " ++ toString i ++ ": original '" ++ String.ofList a ++
      "', formatted '" ++ String.ofList b ++ "'"
  | .count n m =>
    "Token count mismatch: original has " ++ toString n ++ " tokens, formatted has " ++ toString m

end Mismatch

end SqlLayout
