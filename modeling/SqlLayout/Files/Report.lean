import SqlLayout.Text.Diff
import SqlLayout.Files.Path

set_option autoImplicit false

/-! # Reports

What a run did to each file, how often, and how it says so.
-/

namespace SqlLayout

/-- What became of a file. -/
inductive Outcome where
  /-- It is formatted already. -/
  | unchanged
  /-- It was formatted, or would be; with both texts if a diff is wanted. -/
  | changed (texts : Option (Text × Text))
  /-- It could not be formatted. -/
  | failed (message : String)
deriving DecidableEq, Repr

/-- A file and what became of it. -/
structure FileReport where
  path : Path
  outcome : Outcome
deriving DecidableEq, Repr

namespace Outcome

/-- Whether the file is formatted already. -/
def isUnchanged : Outcome → Bool
  | unchanged => true
  | _ => false

/-- Whether the file was formatted, or would be. -/
def isChanged : Outcome → Bool
  | changed _ => true
  | _ => false

/-- Whether the file could not be formatted. -/
def isFailed : Outcome → Bool
  | failed _ => true
  | _ => false

end Outcome

/-- The results of a run, in order. -/
structure Report where
  results : List FileReport
deriving DecidableEq, Repr

/-- How many files had each outcome. -/
structure Counts where
  unchanged : Nat
  changed : Nat
  failed : Nat
deriving DecidableEq, Repr

/-- The number of files. -/
def Counts.total (t : Counts) : Nat := t.unchanged + t.changed + t.failed

namespace Report

/-- The report with one more result. -/
def add (r : Report) (result : FileReport) : Report := ⟨r.results ++ [result]⟩

/-- How many files had each outcome. -/
def counts (r : Report) : Counts :=
  ⟨r.results.countP (fun x => x.outcome.isUnchanged),
    r.results.countP (fun x => x.outcome.isChanged),
    r.results.countP (fun x => x.outcome.isFailed)⟩

/-- Whether some file could not be formatted. -/
def anyFailed (r : Report) : Bool := r.results.any (fun x => x.outcome.isFailed)

/-- Whether some file was formatted, or would be. -/
def anyChanged (r : Report) : Bool := r.results.any (fun x => x.outcome.isChanged)

/-- A count with its label, unless it is zero. -/
def countText (count : Nat) (label : String) : String :=
  if count == 0 then "" else ", " ++ toString count ++ " " ++ label

/-- The report in one line. -/
def summary (r : Report) : String :=
  let t := r.counts
  toString t.total ++ " file(s) processed" ++ countText t.changed "reformatted" ++
    countText t.unchanged "unchanged" ++ countText t.failed "error(s)"

/-- One line for each file that could not be formatted. -/
def failureLines (r : Report) : Text :=
  r.results.flatMap fun x =>
    match x.outcome with
    | .failed message =>
      "error: ".toList ++ x.path.spelling ++ ": ".toList ++ message.toList ++ ['\n']
    | _ => []

/-- The diff of each changed file whose texts are kept. -/
def diffs (colored : Bool) (r : Report) : Text :=
  r.results.flatMap fun x =>
    match x.outcome with
    | .changed (some (source, result)) => renderDiff colored x.path.spelling source result
    | _ => []

/-- One line for each changed file, after the given verb. -/
def changedLines (verb : Text) (r : Report) : Text :=
  r.results.flatMap fun x =>
    if x.outcome.isChanged then verb ++ ' ' :: x.path.spelling ++ ['\n'] else []

end Report

end SqlLayout
