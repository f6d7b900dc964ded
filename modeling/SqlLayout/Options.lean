import SqlLayout.Layout.Query

set_option autoImplicit false

/-! # Options of a run

What a run can be asked to do, from the command line or from a settings file.
-/

namespace SqlLayout

/-- When to color a diff. -/
inductive Coloring where
  | always
  | never
  /-- As the terminal suggests. -/
  | auto
deriving DecidableEq, Repr

/-- The options of a run, with their defaults. -/
structure Options where
  /-- Spaces for an indent level. -/
  indentWidth : Nat := standardWidth
  /-- Report changes without writing files. -/
  check : Bool := false
  /-- Keep both texts of a changed file for a diff, without writing files. -/
  diff : Bool := false
  /-- Skip the comparison of words. -/
  fast : Bool := false
  /-- Patterns for the names of files and directories to leave out. -/
  exclude : List Text := []
  /-- Name every changed file. -/
  verbose : Bool := false
  /-- Print faults only. -/
  quiet : Bool := false
  /-- Hide the progress bar. -/
  noProgressBar : Bool := false
  /-- Never color a diff. -/
  noColor : Bool := false
  /-- Always color a diff. -/
  forceColor : Bool := false
  /-- The number of workers, zero for as many as there are cores. -/
  threads : Nat := 0
  /-- Format one file after another. -/
  singleProcess : Bool := false
deriving DecidableEq, Repr

namespace Options

/-- Asking for color wins over forbidding it. -/
def coloring (o : Options) : Coloring :=
  if o.forceColor then .always else if o.noColor then .never else .auto

/-- Whether the words of the result are compared with those of the source: not if files are
only looked at, and not if speed is asked for. -/
def comparesWords (o : Options) : Bool := !o.fast && !o.check && !o.diff

/-- Whether a progress bar is wanted. -/
def showsProgress (o : Options) : Bool := !o.noProgressBar && !o.quiet

/-- Whether files are only looked at. -/
def looksOnly (o : Options) : Bool := o.check || o.diff

/-- The name extensions of the files that are formatted. -/
def extensions : List Text := [['s', 'q', 'l'], ['d', 'd', 'l'], ['d', 'm', 'l']]

end Options

end SqlLayout
