import SqlLayout.Toml.Digits

set_option autoImplicit false

/-! # Dates and times

A TOML date, time of day or both. There is one way to write each of them, `DateTime.spelling`:
a capital `T` between date and time, a fraction of a second only if there is one and without
zeros at its end, and a capital `Z` for universal time. Reading takes small letters, a space
for the `T` and longer fractions too, of which the digits after the ninth are dropped.
-/

namespace SqlLayout.Toml

/-- A day of the calendar. -/
structure Date where
  year : Nat
  month : Nat
  day : Nat
deriving DecidableEq, Repr

/-- A time of day. -/
structure Time where
  hour : Nat
  minute : Nat
  second : Nat
  nanosecond : Nat
deriving DecidableEq, Repr

/-- How far a time is ahead of universal time. -/
inductive Offset where
  /-- It is universal time. -/
  | universal
  /-- By a number of minutes. -/
  | minutes (n : Int)
deriving DecidableEq, Repr

/-- A date, a time of day, or both. Only both together can have an offset. -/
inductive DateTime where
  | date (d : Date)
  | time (t : Time)
  | both (d : Date) (t : Time) (offset : Option Offset)
deriving DecidableEq, Repr

/-! ## Writing -/

/-- The spelling of a date. -/
def Date.spelling (d : Date) : Text :=
  padded 4 d.year ++ '-' :: padded 2 d.month ++ '-' :: padded 2 d.day

/-- The spelling of a fraction of a second. -/
def fractionSpelling (nanosecond : Nat) : Text :=
  if nanosecond == 0 then []
  else '.' :: ((padded 9 nanosecond).reverse.dropWhile (· == '0')).reverse

/-- The spelling of a time of day. -/
def Time.spelling (t : Time) : Text :=
  padded 2 t.hour ++ ':' :: padded 2 t.minute ++ ':' :: padded 2 t.second
    ++ fractionSpelling t.nanosecond

/-- The spelling of an offset. No offset is ahead. -/
def Offset.spelling : Offset → Text
  | universal => ['Z']
  | minutes n =>
    (if n < 0 then '-' else '+') :: padded 2 (n.natAbs / 60) ++ ':' :: padded 2 (n.natAbs % 60)

/-- The spelling of a date, a time or both. -/
def DateTime.spelling : DateTime → Text
  | date d => d.spelling
  | time t => t.spelling
  | both d t offset => d.spelling ++ 'T' :: t.spelling ++ (offset.map Offset.spelling).getD []

/-! ## Reading -/

/-- How large the fields of a time and its offset may be. -/
structure TimeBounds where
  hour : Nat
  offsetHour : Nat
  offsetMinute : Nat
deriving DecidableEq, Repr

namespace TimeBounds

/-- The bounds for dates and times that stand in a document: those of a clock. -/
def clock : TimeBounds := ⟨23, 23, 59⟩

/-- The bounds for dates and times that are given as strings: hour 24 is a time of day, and
an offset has any two numbers of two digits. -/
def loose : TimeBounds := ⟨24, 99, 99⟩

end TimeBounds

/-- The number of days of a month. -/
def monthDays (year month : Nat) : Nat :=
  if month == 2 then
    if year % 4 == 0 && (year % 100 != 0 || year % 400 == 0) then 29 else 28
  else if month == 4 || month == 6 || month == 9 || month == 11 then 30
  else 31

/-- Reads a date. -/
def date? (t : Text) : Option (Date × Text) := do
  let (year, t) ← fixed? 4 0 9999 t
  let t ← mark? '-' t
  let (month, t) ← fixed? 2 1 12 t
  let t ← mark? '-' t
  let (day, t) ← fixed? 2 1 (monthDays year month) t
  return (⟨year, month, day⟩, t)

/-- Reads the fraction of a second, if there is one, in nanoseconds. -/
def nanosecond? (t : Text) : Option (Nat × Text) :=
  match t with
  | '.' :: cs =>
    let ds := cs.takeWhile Char.isDigit
    if ds.isEmpty then none
    else some (numeral 10 ((ds ++ List.replicate 9 '0').take 9), cs.drop ds.length)
  | _ => some (0, t)

/-- Reads a time of day. The second 60 is a leap second. -/
def time? (bounds : TimeBounds) (t : Text) : Option (Time × Text) := do
  let (hour, t) ← fixed? 2 0 bounds.hour t
  let t ← mark? ':' t
  let (minute, t) ← fixed? 2 0 59 t
  let t ← mark? ':' t
  let (second, t) ← fixed? 2 0 60 t
  let (nanosecond, t) ← nanosecond? t
  return (⟨hour, minute, second, nanosecond⟩, t)

/-- Reads the number of minutes of an offset, after its sign: at most a day. -/
def offsetMinutes? (bounds : TimeBounds) (t : Text) : Option (Nat × Text) := do
  let (hours, t) ← fixed? 2 0 bounds.offsetHour t
  let t ← mark? ':' t
  let (minutes, t) ← fixed? 2 0 bounds.offsetMinute t
  if hours * 60 + minutes ≤ 24 * 60 then return (hours * 60 + minutes, t) else none

/-- Reads an offset, if there is one. -/
def offset? (bounds : TimeBounds) (t : Text) : Option (Option Offset × Text) :=
  match t with
  | c :: cs =>
    if c == 'Z' || c == 'z' then some (some .universal, cs)
    else if c == '+' then
      (offsetMinutes? bounds cs).map fun (n, rest) => (some (.minutes n), rest)
    else if c == '-' then
      (offsetMinutes? bounds cs).map fun (n, rest) => (some (.minutes (-n)), rest)
    else some (none, t)
  | [] => some (none, [])

/-- Reads the time and the offset that belong to a date. -/
def timeOf? (bounds : TimeBounds) (d : Date) (t : Text) : Option (DateTime × Text) := do
  let (time, t) ← time? bounds t
  let (offset, t) ← offset? bounds t
  return (.both d time offset, t)

/-- Whether a text starts like a date. -/
def startsDate (t : Text) : Bool :=
  (t.take 4).length == 4 && (t.take 4).all Char.isDigit && t[4]? == some '-'

/-- Whether a text starts like a time. -/
def startsTime (t : Text) : Bool :=
  (t.take 2).length == 2 && (t.take 2).all Char.isDigit && t[2]? == some ':'

/-- Reads a date with the time that may follow it. After a space that starts no time the date
stands alone. -/
def dateWithTime? (bounds : TimeBounds) (t : Text) : Option (DateTime × Text) := do
  let (d, rest) ← date? t
  match rest with
  | c :: cs =>
    if c == 'T' || c == 't' || (c == ' ' && cs.head?.any Char.isDigit) then timeOf? bounds d cs
    else return (.date d, rest)
  | [] => return (.date d, [])

/-- Reads a date, a time or both. -/
def dateTime? (bounds : TimeBounds) (t : Text) : Option (DateTime × Text) :=
  if startsDate t then dateWithTime? bounds t
  else if startsTime t then (time? bounds t).map fun (time, rest) => (.time time, rest)
  else none

/-- The date and time that a whole string stands for. -/
def DateTime.ofText? (t : Text) : Option DateTime :=
  match dateTime? .loose t with
  | some (d, []) => some d
  | _ => none

end SqlLayout.Toml
