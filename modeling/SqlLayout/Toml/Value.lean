import SqlLayout.Toml.DateTime

set_option autoImplicit false

/-! # TOML values

The values of the TOML configuration language. Tables and arrays remember how they were
written, because that decides what may be added to them later in the document.
-/

namespace SqlLayout.Toml

/-- How a table came into being. -/
inductive TableKind where
  /-- By a header of its own. -/
  | headed
  /-- On the way to the table of a header. -/
  | implied
  /-- On the way to the value of a dotted key. -/
  | dotted
  /-- In braces. -/
  | inline
deriving DecidableEq, Repr

/-- How an array came into being. -/
inductive ArrayKind where
  /-- In brackets. -/
  | listed
  /-- By headers in double brackets. -/
  | ofTables
deriving DecidableEq, Repr

/-- A value. Numbers with a fraction are kept as they are written. -/
inductive Value where
  | string (text : Text)
  | integer (n : Int)
  | float (text : Text)
  | boolean (b : Bool)
  | datetime (d : DateTime)
  | array (kind : ArrayKind) (items : List Value)
  | table (kind : TableKind) (entries : List (Text × Value))
deriving Repr

/-- The entries of a table, in the order in which they came into being. -/
abbrev Entries := List (Text × Value)

namespace Entries

/-- The value of a key. -/
def find? (es : Entries) (key : Text) : Option Value :=
  (List.find? (fun e => e.1 == key) es).map Prod.snd

/-- The entries with a new value for a key that is there. -/
def replace (es : Entries) (key : Text) (v : Value) : Entries :=
  es.map fun e => if e.1 == key then (e.1, v) else e

/-- The entries without a key. -/
def erase (es : Entries) (key : Text) : Entries := es.filter (fun e => e.1 != key)

/-- Puts an entry in front of the first one with a larger key. -/
def insertSorted (e : Text × Value) : Entries → Entries
  | [] => [e]
  | d :: es =>
    if e.1.map Char.toNat < d.1.map Char.toNat then e :: d :: es else d :: insertSorted e es

/-- The entries in the order of their keys. -/
def sort (es : Entries) : Entries := es.foldr insertSorted []

end Entries

end SqlLayout.Toml
