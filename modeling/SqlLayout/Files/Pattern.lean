import SqlLayout.Text.Basic

set_option autoImplicit false

/-! # Name patterns

Shell-like patterns for names: `?` stands for one character, `*` for any sequence, `[…]` for
one of some characters, `[!…]` for one of all others, and `**` as a whole component for any
components. There is no escape character.
-/

namespace SqlLayout

/-- Characters in brackets. -/
inductive CharSet where
  | single (c : Char)
  | range (first last : Char)
deriving DecidableEq, Repr

/-- A part of a pattern. -/
inductive PatternPart where
  /-- The character itself. -/
  | char (c : Char)
  /-- Any character. -/
  | anyChar
  /-- Any sequence of characters. -/
  | anySequence
  /-- Any sequence of components. -/
  | anyComponents
  /-- A character in one of the sets. -/
  | within (sets : List CharSet)
  /-- A character in none of the sets. -/
  | outside (sets : List CharSet)
deriving DecidableEq, Repr

/-- A pattern for names. -/
abbrev Pattern := List PatternPart

namespace CharSet

/-- Whether a character belongs to a set. -/
def contains (c : Char) : CharSet → Bool
  | single d => c == d
  | range a b => a ≤ c && c ≤ b

/-- What stands between brackets: ranges `a-b`, and single characters. -/
def parse : Text → List CharSet
  | a :: '-' :: b :: rest => range a b :: parse rest
  | c :: rest => single c :: parse rest
  | [] => []

end CharSet

/-- Whether a part stands for a single character. -/
def PatternPart.fits (c : Char) : PatternPart → Bool
  | char d => c == d
  | anyChar => true
  | within sets => sets.any (CharSet.contains c)
  | outside sets => !sets.any (CharSet.contains c)
  | anySequence => false
  | anyComponents => false

namespace Pattern

/-! ## Reading -/

/-- The text up to the first `]` after the first character, and the text after that `]`. The
first character is never the closing one. -/
def bracket? : Text → Option (Text × Text)
  | [] => none
  | c :: cs =>
    match cs.dropWhile (· != ']') with
    | [] => none
    | _ :: rest => some (c :: cs.takeWhile (· != ']'), rest)

/-- Reads a pattern of at most `n` parts, where `before` is the character in front of it.
Refuses three stars in a row, two stars that are not a whole component, and brackets that are
empty or not closed. -/
def parseWithin : Nat → Option Char → Text → Option Pattern
  | _, _, [] => some []
  | 0, _, _ :: _ => none
  | n + 1, before, c :: cs =>
    if c == '?' then (parseWithin n (some c) cs).map (.anyChar :: ·)
    else if c == '*' then
      match cs with
      | '*' :: rest =>
        if before == none || before == some '/' then
          match rest with
          | [] => some [.anyComponents]
          | '/' :: rest => (parseWithin n (some '/') rest).map (.anyComponents :: ·)
          | _ :: _ => none
        else none
      | _ => (parseWithin n (some c) cs).map (.anySequence :: ·)
    else if c == '[' then
      match cs with
      | '!' :: rest => do
        let (inside, rest) ← bracket? rest
        let parts ← parseWithin n (some ']') rest
        return .outside (CharSet.parse inside) :: parts
      | _ => do
        let (inside, rest) ← bracket? cs
        let parts ← parseWithin n (some ']') rest
        return .within (CharSet.parse inside) :: parts
    else (parseWithin n (some c) cs).map (.char c :: ·)

/-- Reads a pattern. -/
def parse? (t : Text) : Option Pattern := parseWithin t.length none t

/-! ## Matching

Trying every choice for every star takes time exponential in the number of stars. The verdicts
of a pattern on all the suffixes of a text follow from the verdicts of the pattern without its
first part, so one pass over the text for each part is enough. -/

/-- For each entry of a row, whether it or one after it holds. -/
def orLater : List Bool → List Bool
  | [] => []
  | b :: bs =>
    let later := orLater bs
    (b || later.head?.getD false) :: later

/-- For each suffix of a text, whether a verdict in the row holds for what is left of it after
dropping whole components. -/
def orComponents : Text → List Bool → List Bool
  | c :: cs, _ :: row =>
    let later := orComponents cs row
    ((c == '/' && row.head?.getD false) || later.head?.getD false) :: later
  | _, row => row

/-- For each suffix of a text, longest first, whether a pattern stands for it. The empty pattern
stands for the last suffix, the empty one, only. -/
def verdicts (t : Text) : Pattern → List Bool
  | [] => List.replicate t.length false ++ [true]
  | .anySequence :: ps => orLater (verdicts t ps)
  | .anyComponents :: ps =>
    let row := verdicts t ps
    List.zipWith or row (orComponents t row)
  | p :: ps => List.zipWith (fun c b => p.fits c && b) t (verdicts t ps).tail ++ [false]

/-- Whether a pattern stands for a name. -/
def covers (ps : Pattern) (name : Text) : Bool := (verdicts name ps).head?.getD false

end Pattern

end SqlLayout
