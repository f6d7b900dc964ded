import SqlLayout.Toml.Value

set_option autoImplicit false

/-! # Reading TOML scalars

Strings, numbers and truth values, and with the dates any scalar. Each reader takes a text that
starts with what it reads and gives the value and the rest of the text, or nothing.
-/

namespace SqlLayout.Toml

/-! ## Characters -/

/-- A space or a tab. -/
def isSpace (c : Char) : Bool := c == ' ' || c == '\t'

/-- A text without the spaces and tabs it starts with. -/
def dropSpaces (t : Text) : Text := t.dropWhile isSpace

/-- Characters that stand for themselves in comments and strings: all but control
characters, the tab excepted. -/
def isPlain (c : Char) : Bool := c == '\t' || (0x20 ≤ c.toNat && c.toNat != 0x7f)

/-! ## Strings -/

/-- The character that a letter stands for after a backslash. -/
def escape? (c : Char) : Option Char :=
  if c == 'b' then some '\x08'
  else if c == 't' then some '\t'
  else if c == 'n' then some '\n'
  else if c == 'f' then some '\x0c'
  else if c == 'r' then some '\r'
  else if c == '\x22' || c == '\x5c' then some c
  else none

/-- The character with a number in hexadecimal digits; surrogates are not characters. -/
def scalar? (digits : Text) : Option Char :=
  let n := numeral 16 digits
  if digits.all (isDigitIn 16) && n.isValidChar then some (Char.ofNat n) else none

/-- A character in front of what a reader found. -/
def consText (c : Char) (r : Option (Text × Text)) : Option (Text × Text) :=
  r.map fun (t, rest) => (c :: t, rest)

/-- The rest of a string in double quotes. -/
def basicString : Text → Option (Text × Text)
  | [] => none
  | '\x5c' :: 'u' :: a :: b :: c :: d :: cs =>
    (scalar? [a, b, c, d]).bind fun x => consText x (basicString cs)
  | '\x5c' :: 'U' :: a :: b :: c :: d :: e :: f :: g :: h :: cs =>
    (scalar? [a, b, c, d, e, f, g, h]).bind fun x => consText x (basicString cs)
  | '\x5c' :: e :: cs => (escape? e).bind fun x => consText x (basicString cs)
  | c :: cs =>
    if c == '\x22' then some ([], cs)
    else if c != '\x5c' && isPlain c then consText c (basicString cs)
    else none

/-- The rest of a string in single quotes, which has no escapes. -/
def literalString : Text → Option (Text × Text)
  | [] => none
  | c :: cs =>
    if c == '\x27' then some ([], cs)
    else if isPlain c then consText c (literalString cs)
    else none

/-- Up to two more quotes after three belong to the string that ends there. -/
def closingQuotes (quote : Char) (t : Text) : Text × Text :=
  let extra := (t.takeWhile (· == quote)).take 2
  (extra, t.drop extra.length)

/-- Whether only spaces stand before the end of the line. -/
def blankLineEnd (t : Text) : Bool :=
  match dropSpaces t with
  | '\n' :: _ => true
  | '\r' :: '\n' :: _ => true
  | _ => false

/-- The rest of a string in triple double quotes. A backslash at the end of a line takes out
all blanks up to the next character; the flag says that this is going on. -/
def longBasicString : Bool → Text → Option (Text × Text)
  | _, [] => none
  | skipping, '\r' :: '\n' :: cs =>
    if skipping then longBasicString true cs else consText '\n' (longBasicString false cs)
  | _, '\x5c' :: 'u' :: a :: b :: c :: d :: cs =>
    (scalar? [a, b, c, d]).bind fun x => consText x (longBasicString false cs)
  | _, '\x5c' :: 'U' :: a :: b :: c :: d :: e :: f :: g :: h :: cs =>
    (scalar? [a, b, c, d, e, f, g, h]).bind fun x => consText x (longBasicString false cs)
  | _, '\x5c' :: e :: cs =>
    if blankLineEnd (e :: cs) then longBasicString true (e :: cs)
    else (escape? e).bind fun x => consText x (longBasicString false cs)
  | _, '\x22' :: '\x22' :: '\x22' :: cs => some (closingQuotes '\x22' cs)
  | skipping, c :: cs =>
    if skipping && (isSpace c || c == '\n') then longBasicString true cs
    else if c == '\n' || (c != '\x5c' && isPlain c) then consText c (longBasicString false cs)
    else none

/-- The rest of a string in triple single quotes. -/
def longLiteralString : Text → Option (Text × Text)
  | [] => none
  | '\r' :: '\n' :: cs => consText '\n' (longLiteralString cs)
  | '\x27' :: '\x27' :: '\x27' :: cs => some (closingQuotes '\x27' cs)
  | c :: cs =>
    if c == '\n' || isPlain c then consText c (longLiteralString cs) else none

/-- A text without the end of line it starts with. -/
def dropNewline : Text → Text
  | '\n' :: cs => cs
  | '\r' :: '\n' :: cs => cs
  | t => t

/-- Reads a string of any of the four forms. -/
def string? : Text → Option (Text × Text)
  | '\x22' :: '\x22' :: '\x22' :: cs => longBasicString false (dropNewline cs)
  | '\x27' :: '\x27' :: '\x27' :: cs => longLiteralString (dropNewline cs)
  | '\x22' :: cs => basicString cs
  | '\x27' :: cs => literalString cs
  | _ => none

/-! ## Numbers -/

/-- The digits after a digit, without the underscores that stand between two digits. -/
def moreDigits (base : Nat) : Text → Text × Text
  | [] => ([], [])
  | c :: cs =>
    if isDigitIn base c then
      let (ds, rest) := moreDigits base cs
      (c :: ds, rest)
    else if c == '_' && cs.head?.any (isDigitIn base) then moreDigits base cs
    else ([], c :: cs)

/-- Reads at least one digit. -/
def digits? (base : Nat) (t : Text) : Option (Text × Text) :=
  if t.head?.any (isDigitIn base) then some (moreDigits base t) else none

/-- Reads decimal digits that do not start with a superfluous zero. -/
def decimal? (t : Text) : Option (Text × Text) :=
  match t with
  | '0' :: cs => some (['0'], cs)
  | _ => digits? 10 t

/-- Whether an integer fits into 64 bits. -/
def fits (n : Int) : Bool :=
  let limit : Int := Nat.pow 2 63
  n < limit && -limit ≤ n

/-- Whether `mantissa * 10 ^ exponent` is too large for a number in double precision. -/
def overflows (mantissa : Nat) (exponent : Int) : Bool :=
  let size := (Nat.toDigits 10 mantissa).length + exponent
  let limit := Nat.pow 2 1024 - Nat.pow 2 970
  if mantissa == 0 || size < 308 then false
  else if 310 < size then true
  else match exponent with
    | .ofNat e => limit ≤ mantissa * Nat.pow 10 e
    | .negSucc e => limit * Nat.pow 10 (e + 1) ≤ mantissa

/-- Reads the fraction of a number, if there is one; a point needs digits after it. -/
def fraction? (t : Text) : Option (Text × Text) :=
  match t with
  | '.' :: cs => digits? 10 cs
  | _ => some ([], t)

/-- Reads the exponent of a number, if there is one. -/
def exponent? (t : Text) : Option (Option Int × Text) :=
  match t with
  | c :: cs =>
    if c == 'e' || c == 'E' then
      match cs with
      | '-' :: cs => (digits? 10 cs).map fun (ds, rest) => (some (-(numeral 10 ds : Int)), rest)
      | '+' :: cs => (digits? 10 cs).map fun (ds, rest) => (some (numeral 10 ds : Int), rest)
      | _ => (digits? 10 cs).map fun (ds, rest) => (some (numeral 10 ds : Int), rest)
    else some (none, t)
  | [] => some (none, [])

/-- Reads a decimal number after its sign. A fraction or an exponent makes it a float, which
must not overflow to the positive infinity. -/
def decimalNumber? (negative : Bool) (t : Text) : Option (Value × Text) := do
  let (whole, rest) ← decimal? t
  let (frac, rest) ← fraction? rest
  let (exp, rest) ← exponent? rest
  if frac.isEmpty && exp.isNone then
    let n : Int := if negative then -(numeral 10 whole : Int) else numeral 10 whole
    if fits n then some (.integer n, rest) else none
  else
    let mantissa := numeral 10 (whole ++ frac)
    if !negative && overflows mantissa (exp.getD 0 - frac.length) then none
    else some (.float (t.take (t.length - rest.length)), rest)

/-- Reads an integer in another base, after the marker of that base. -/
def basedNumber? (base : Nat) (t : Text) : Option (Value × Text) := do
  let (ds, rest) ← digits? base t
  if fits (numeral base ds) then some (.integer (numeral base ds), rest) else none

/-- Reads a number after its sign. -/
def unsignedNumber? (negative : Bool) : Text → Option (Value × Text)
  | 'i' :: 'n' :: 'f' :: rest => some (.float ['i', 'n', 'f'], rest)
  | 'n' :: 'a' :: 'n' :: rest => some (.float ['n', 'a', 'n'], rest)
  | t => decimalNumber? negative t

/-- Reads a number. Only decimal numbers have a sign. -/
def number? : Text → Option (Value × Text)
  | '+' :: t => unsignedNumber? false t
  | '-' :: t => unsignedNumber? true t
  | '0' :: 'x' :: t => basedNumber? 16 t
  | '0' :: 'o' :: t => basedNumber? 8 t
  | '0' :: 'b' :: t => basedNumber? 2 t
  | t => unsignedNumber? false t

/-! ## Any scalar -/

/-- Reads a value that is neither an array nor a table. -/
def scalarValue? (t : Text) : Option (Value × Text) :=
  if t.head? == some '\x22' || t.head? == some '\x27' then
    (string? t).map fun (s, rest) => (.string s, rest)
  else if startsDate t || startsTime t then
    (dateTime? .clock t).map fun (d, rest) => (.datetime d, rest)
  else match t with
    | 't' :: 'r' :: 'u' :: 'e' :: rest => some (.boolean true, rest)
    | 'f' :: 'a' :: 'l' :: 's' :: 'e' :: rest => some (.boolean false, rest)
    | _ => number? t

end SqlLayout.Toml
