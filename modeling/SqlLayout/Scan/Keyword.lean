import SqlLayout.Scan.Nesting

set_option autoImplicit false

/-! # Keywords

The keywords the layout looks for, and their occurrences as whole words outside quoted
literals. A keyword of two words occurs only with a single space between them.
-/

namespace SqlLayout

namespace Keyword

/-! ## The keywords -/

def SELECT : Text := ['S', 'E', 'L', 'E', 'C', 'T']
def FROM : Text := ['F', 'R', 'O', 'M']
def WHERE : Text := ['W', 'H', 'E', 'R', 'E']
def HAVING : Text := ['H', 'A', 'V', 'I', 'N', 'G']
def INNER_JOIN : Text := ['I', 'N', 'N', 'E', 'R', ' ', 'J', 'O', 'I', 'N']
def LEFT_JOIN : Text := ['L', 'E', 'F', 'T', ' ', 'J', 'O', 'I', 'N']
def RIGHT_JOIN : Text := ['R', 'I', 'G', 'H', 'T', ' ', 'J', 'O', 'I', 'N']
def GROUP_BY : Text := ['G', 'R', 'O', 'U', 'P', ' ', 'B', 'Y']
def ORDER_BY : Text := ['O', 'R', 'D', 'E', 'R', ' ', 'B', 'Y']
def PARTITION_BY : Text := ['P', 'A', 'R', 'T', 'I', 'T', 'I', 'O', 'N', ' ', 'B', 'Y']
def ROWS : Text := ['R', 'O', 'W', 'S']
def OVER : Text := ['O', 'V', 'E', 'R']
def CASE : Text := ['C', 'A', 'S', 'E']
def WHEN : Text := ['W', 'H', 'E', 'N']
def THEN : Text := ['T', 'H', 'E', 'N']
def ELSE : Text := ['E', 'L', 'S', 'E']
def END : Text := ['E', 'N', 'D']
def ON : Text := ['O', 'N']
def IN : Text := ['I', 'N']
def AND : Text := ['A', 'N', 'D']

end Keyword

namespace Text

/-! ## Words -/

/-- The word a text starts with: its longest beginning of word characters. -/
def firstWord (t : Text) : Text := t.takeWhile isWordChar

/-- Whether the first thing after the blanks is the word `w`. -/
def nextIs (w t : Text) : Bool := same t.trimStart.firstWord w

/-! ## Occurrences -/

/-- Whether `t` starts with `keyword` and no word character follows it. -/
def startsKeyword (t keyword : Text) : Bool :=
  t.startsWith keyword && !((t.drop keyword.length).head?.any isWordChar)

/-- The indices in `t` of the words outside literals that start with `keyword`, where `i` is
the index of the next character, `n` the nesting there, and `inWord` says whether the character
before it is a word character. -/
def occurrencesFrom (keyword : Text) : Nat → Nesting → Bool → Text → List Nat
  | _, _, _, [] => []
  | i, n, inWord, c :: cs =>
    let rest := occurrencesFrom keyword (i + 1) (n.next c) (isWordChar c) cs
    if !n.isQuoted && isWordChar c && !inWord && startsKeyword (c :: cs) keyword then i :: rest
    else rest

/-- The indices of the whole-word occurrences of `keyword` outside quoted literals. -/
def occurrences (t keyword : Text) : List Nat :=
  occurrencesFrom keyword 0 .start false t

/-- The index of the first whole-word occurrence of `keyword` outside quoted literals. -/
def firstOccurrence? (t keyword : Text) : Option Nat := (t.occurrences keyword).head?

/-- Whether `keyword` occurs as a whole word outside quoted literals. -/
def hasKeyword (t keyword : Text) : Bool := (t.firstOccurrence? keyword).isSome

end Text

end SqlLayout
