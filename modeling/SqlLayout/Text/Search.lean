import SqlLayout.Text.Basic

set_option autoImplicit false

/-! # Flat search

Searching and splitting up to ASCII case. The search is *flat*: quotes and parentheses are
characters like any other.
-/

namespace SqlLayout.Text

/-- The index of the first place where `needle` occurs, up to ASCII case. -/
def find? (needle : Text) : Text → Option Nat
  | [] => if needle.isEmpty then some 0 else none
  | c :: cs =>
    if startsWith (c :: cs) needle then some 0 else (find? needle cs).map (· + 1)

/-- Cuts a text at the occurrences of a non-empty separator, from left to right: the first
piece and the further ones. The number counts the characters of an occurrence that are still to
be skipped, so occurrences do not overlap. -/
def cutAt (sep : Text) : Nat → Text → Text × List Text
  | _, [] => ([], [])
  | k + 1, _ :: cs => cutAt sep k cs
  | 0, c :: cs =>
    if startsWith (c :: cs) sep then
      let (p, ps) := cutAt sep (sep.length - 1) cs
      ([], p :: ps)
    else
      let (p, ps) := cutAt sep 0 cs
      (c :: p, ps)

/-- The pieces between the leftmost non-overlapping occurrences of `sep`, up to ASCII case. An
empty separator occurs before every character and at the end. -/
def splitOn (t sep : Text) : List Text :=
  if sep.isEmpty then [] :: t.map ([·]) ++ [[]]
  else (cutAt sep 0 t).1 :: (cutAt sep 0 t).2

/-- The pieces between commas, trimmed. -/
def splitCommas (t : Text) : List Text := (t.splitOn [',']).map trim

end SqlLayout.Text
