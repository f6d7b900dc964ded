import SqlLayout.Options
import SqlLayout.Statement.Words

set_option autoImplicit false

/-! # Formatting the text of a file

The text of a file is one statement. Its formatted form ends with the terminator and a newline,
and has the same preserved words as the source unless the options skip that comparison.
-/

namespace SqlLayout

/-- Why the text of a file cannot be formatted. -/
inductive SourceError where
  /-- The statement is at fault. -/
  | format (fault : Fault)
  /-- The formatted text has other words than the source. -/
  | mismatch (difference : Mismatch)
deriving DecidableEq, Repr

/-- The wording of a fault. -/
def SourceError.message : SourceError → String
  | .format e => "sqlclause format error: " ++ e.message
  | .mismatch m => "sqlclause equivalence error: " ++ m.message

/-- The formatted form of the text of a file. -/
def formatSource (o : Options) (source : Text) : Except SourceError Text :=
  match format o.indentWidth source with
  | .error e => .error (.format e)
  | .ok statement =>
    let result := statement ++ ['\n']
    if o.comparesWords then
      match Mismatch.between? source.preservedWords result.preservedWords with
      | some m => .error (.mismatch m)
      | none => .ok result
    else .ok result

end SqlLayout
