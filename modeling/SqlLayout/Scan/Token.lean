import SqlLayout.Scan.Keyword

set_option autoImplicit false

/-! # Tokens

A token is a maximal run of characters other than the space, with its place in the text and
the nesting at its first character. Spaces inside literals and parentheses separate tokens too;
such tokens are told apart by their nesting.
-/

namespace SqlLayout

/-- A run of characters between spaces. -/
structure Token where
  text : Text
  /-- The index of its first character. -/
  index : Nat
  /-- The nesting before its first character. -/
  nesting : Nesting
deriving DecidableEq, Repr

namespace Token

/-- Whether the token is `keyword`, up to ASCII case, outside parentheses and literals. -/
def spells (t : Token) (keyword : Text) : Bool := t.nesting.isOutermost && t.text.same keyword

/-- The tokens of a text, where `i` is the index of the next character, `n` the nesting there,
and `inside` says whether the character before it belongs to a token. -/
def scan : Nat → Nesting → Bool → Text → List Token
  | _, _, _, [] => []
  | i, n, inside, c :: cs =>
    if c == ' ' then scan (i + 1) (n.next c) false cs
    else if inside then scan (i + 1) (n.next c) true cs
    else ⟨(c :: cs).takeWhile (· != ' '), i, n⟩ :: scan (i + 1) (n.next c) true cs

end Token

/-- The tokens of a text, in order. -/
def Text.tokens (t : Text) : List Token := Token.scan 0 .start false t

end SqlLayout
