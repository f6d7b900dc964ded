set_option autoImplicit false

/-! # Text as a list of characters

Every scan of this library reads a `Text`, a list of characters, from left to right. Places in
a text are counted in characters; a place that is shown to a user is counted in bytes of the
UTF-8 form, and `byteOffset` and `indexAt?` go from one to the other.

Three character classes are used throughout: *blank* characters (the Unicode property
`White_Space`), *word* characters (ASCII letters, digits and `_`), and all others. Letter case
is folded for ASCII only.
-/

namespace SqlLayout

/-- A text, character by character. -/
abbrev Text := List Char

/-! ## Character classes -/

/-- The characters with the Unicode property `White_Space`. -/
def isBlank (c : Char) : Bool :=
  let n := c.toNat
  (0x9 ≤ n && n ≤ 0xd) || n == 0x20 || n == 0x85 || n == 0xa0 || n == 0x1680 ||
  (0x2000 ≤ n && n ≤ 0x200a) || n == 0x2028 || n == 0x2029 || n == 0x202f || n == 0x205f ||
  n == 0x3000

/-- ASCII letters, digits and the underscore: the characters that words are made of. -/
def isWordChar (c : Char) : Bool := c.isAlphanum || c == '_'

namespace Text

/-! ## Letter case -/

/-- ASCII letters in upper case, everything else as it is. -/
def upper (t : Text) : Text := t.map Char.toUpper

/-- Equality up to the case of ASCII letters. -/
def same (s t : Text) : Bool := s.upper == t.upper

/-- Whether `t` starts with `p`, up to the case of ASCII letters. -/
def startsWith (t p : Text) : Bool := same (t.take p.length) p

/-! ## Blanks -/

/-- `t` without the blanks it starts with. -/
def trimStart (t : Text) : Text := t.dropWhile isBlank

/-- `t` without the blanks it ends with. -/
def trimEnd (t : Text) : Text := (t.reverse.dropWhile isBlank).reverse

/-- `t` without the blanks at its two ends. -/
def trim (t : Text) : Text := t.trimStart.trimEnd

/-- The maximal runs of characters in `p`, in order. The flag says whether the text continues
a run that has been taken already. -/
def runsFrom (p : Char → Bool) : Bool → Text → List Text
  | _, [] => []
  | inside, c :: cs =>
    if p c then
      if inside then runsFrom p true cs
      else (c :: cs).takeWhile p :: runsFrom p true cs
    else runsFrom p false cs

/-- The maximal runs of characters in `p`, in order. -/
def runs (p : Char → Bool) (t : Text) : List Text := runsFrom p false t

/-- The words between blanks. -/
def words (t : Text) : List Text := t.runs (fun c => !isBlank c)

/-- The pieces with `sep` between neighbours. -/
def join (sep : Text) : List Text → Text
  | [] => []
  | [p] => p
  | p :: q :: ps => p ++ sep ++ join sep (q :: ps)

/-! ## Bytes -/

/-- The number of bytes of the UTF-8 form. -/
def byteLength : Text → Nat
  | [] => 0
  | c :: cs => c.utf8Size + byteLength cs

/-- The byte offset at which the character with index `i` starts. -/
def byteOffset (t : Text) (i : Nat) : Nat := byteLength (t.take i)

/-- The index of the character that starts at the given byte offset, or the length of the text
for its end; none if the offset lies inside a character or past the end. -/
def indexAt? : Nat → Text → Option Nat
  | 0, _ => some 0
  | _ + 1, [] => none
  | n + 1, c :: cs =>
    if c.utf8Size ≤ n + 1 then (indexAt? (n + 1 - c.utf8Size) cs).map (· + 1) else none

/-- The number of characters that start before the given byte offset. -/
def indexBefore : Nat → Text → Nat
  | 0, _ => 0
  | _ + 1, [] => 0
  | n + 1, c :: cs => indexBefore (n + 1 - c.utf8Size) cs + 1

/-- The text from a byte offset on, empty if the offset does not start a character. -/
def dropBytes (n : Nat) (t : Text) : Text := ((indexAt? n t).map t.drop).getD []

end Text

end SqlLayout
