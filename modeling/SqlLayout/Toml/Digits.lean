import SqlLayout.Text.Basic

set_option autoImplicit false

/-! # Digits

Numerals in the bases of TOML, and the fields of a fixed number of digits that dates and times
are made of.
-/

namespace SqlLayout.Toml

/-- The value of a digit in any base up to sixteen. -/
def digitValue? (c : Char) : Option Nat :=
  if c.isDigit then some (c.toNat - 48)
  else if 'a' ≤ c && c ≤ 'f' then some (c.toNat - 87)
  else if 'A' ≤ c && c ≤ 'F' then some (c.toNat - 55)
  else none

/-- Whether a character is a digit in the given base. -/
def isDigitIn (base : Nat) (c : Char) : Bool := (digitValue? c).any (· < base)

/-- The number that digits stand for in the given base. -/
def numeral (base : Nat) (digits : Text) : Nat :=
  digits.foldl (fun n c => n * base + (digitValue? c).getD 0) 0

/-- Reads exactly `n` decimal digits that stand for a number in the given range. -/
def fixed? (n least most : Nat) (t : Text) : Option (Nat × Text) :=
  let ds := t.take n
  let k := numeral 10 ds
  if ds.length == n && ds.all Char.isDigit && least ≤ k && k ≤ most then some (k, t.drop n)
  else none

/-- Writes a number with at least `n` decimal digits, zeros in front. -/
def padded (n k : Nat) : Text :=
  let ds := Nat.toDigits 10 k
  List.replicate (n - ds.length) '0' ++ ds

/-- Reads one given character. -/
def mark? (c : Char) : Text → Option Text
  | d :: cs => if c == d then some cs else none
  | [] => none

end SqlLayout.Toml
