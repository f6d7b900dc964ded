import SqlLayout.Toml.Value

set_option autoImplicit false

/-! # Tables that stand for dates

A table below the top of a document can stand for a date or a time: its first key is then
`dateTimeKey`, and the value of that key is the date as a string. Whatever else the table holds
does not count.
-/

namespace SqlLayout.Toml

/-- The key that marks a table as a date. -/
def dateTimeKey : Text := "$__toml_private_datetime".toList

/-- The date that the value of the mark stands for. -/
def taggedDate? : Value → Option Value
  | .string s => (DateTime.ofText? s).map .datetime
  | _ => none

mutual

/-- A value with dates for the tables that stand for them; nothing if one of these tables has
no date. -/
def Value.untagged? : Value → Option Value
  | .array kind items => (untaggedItems? items).map (.array kind)
  | .table kind [] => some (.table kind [])
  | .table kind ((key, v) :: es) =>
    if key == dateTimeKey then taggedDate? v
    else do
      let v ← v.untagged?
      let es ← untaggedEntries? es
      return .table kind ((key, v) :: es)
  | .string s => some (.string s)
  | .integer n => some (.integer n)
  | .float s => some (.float s)
  | .boolean b => some (.boolean b)
  | .datetime d => some (.datetime d)

/-- The same for the items of an array. -/
def untaggedItems? : List Value → Option (List Value)
  | [] => some []
  | v :: vs => do
    let v ← v.untagged?
    let vs ← untaggedItems? vs
    return v :: vs

/-- The same for the values of entries; their keys are not looked at. -/
def untaggedEntries? : List (Text × Value) → Option (List (Text × Value))
  | [] => some []
  | (key, v) :: es => do
    let v ← v.untagged?
    let es ← untaggedEntries? es
    return (key, v) :: es

end

end SqlLayout.Toml
