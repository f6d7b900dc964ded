import SqlLayout.Layout.Line

set_option autoImplicit false

/-! # Pieces of a layout

A layout puts its lines at a given indent level and says which level holds after them: that is
a `Block`. The functions here build the lines that several layouts share.
-/

namespace SqlLayout

/-- Lines, and the indent level that holds after them. -/
structure Block where
  lines : List Line
  level : Nat
deriving DecidableEq, Repr

/-- The outcome of a layout. -/
abbrev Layout := Except Fault Block

namespace Layout

/-- A keyword and what belongs to it, or the keyword alone. -/
def headed (keyword body : Text) : Text :=
  if body.isEmpty then keyword else keyword ++ ' ' :: body

/-- The line that opens a parenthesis: what comes before, a keyword, and `(`; what is empty is
left out. -/
def openLine (before keyword : Text) : Text :=
  let opener := if keyword.isEmpty then ['('] else keyword ++ [' ', '(']
  if before.isEmpty then opener else before ++ ' ' :: opener

/-- The line that closes a parenthesis: `)`, what comes after, and a suffix. -/
def closeLine (after suffix : Text) : Text :=
  if after.isEmpty then ')' :: suffix else [')', ' '] ++ after ++ suffix

/-- Every item with the separator that follows it, which is empty for the last one. -/
def separated (sep : Text) : List Text → List (Text × Text)
  | [] => []
  | [item] => [(item, [])]
  | item :: next :: rest => (item, sep) :: separated sep (next :: rest)

/-- One line for each item, with the separator after all but the last. -/
def itemLines (sep : Text) (level : Nat) (items : List Text) : List Line :=
  (separated sep items).map fun (item, s) => ⟨level, item ++ s⟩

/-- The layouts of the items one after another; the first fault stops them. -/
def stack (lay : Text → Text → Layout) : List (Text × Text) → Except Fault (List Line)
  | [] => .ok []
  | (item, s) :: rest =>
    match lay item s with
    | .error e => .error e
    | .ok block =>
      match stack lay rest with
      | .error e => .error e
      | .ok lines => .ok (block.lines ++ lines)

/-- A text on one line. -/
def plain (text suffix : Text) (level : Nat) : Block := ⟨[⟨level, text ++ suffix⟩], level⟩

end Layout

end SqlLayout
