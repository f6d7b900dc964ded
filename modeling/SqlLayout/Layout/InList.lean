import SqlLayout.Layout.Block
import SqlLayout.Scan.Parens
import SqlLayout.Text.Search

set_option autoImplicit false

/-! # Value lists

`x IN (a, b)` opens a parenthesis and puts the values one level in, each on a line. Values are
cut at every comma up to the closing parenthesis, whatever stands around it.
-/

namespace SqlLayout.Layout

/-- What marks a value list: the word `IN` between spaces and an opening parenthesis. -/
def inOpening : Text := [' ', 'I', 'N', ' ', '(']

/-- Lays out a condition with a value list. -/
def inList (condition suffix : Text) (level : Nat) : Layout :=
  match Text.find? inOpening condition with
  | none => .ok (plain condition suffix level)
  | some i =>
    match condition.enclosed? (i + (inOpening.length - 1)) with
    | none => .error (.unterminated .inList (excerpt condition (i + 1)))
    | some (list, trailing) =>
      let values := if list.isEmpty then [] else itemLines [','] (level + 1) list.splitCommas
      let head := openLine (Text.trim (condition.take i)) Keyword.IN
      .ok ⟨⟨level, head⟩ :: (values ++ [⟨level, closeLine trailing suffix⟩]), level⟩

end SqlLayout.Layout
