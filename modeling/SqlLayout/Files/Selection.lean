import SqlLayout.Options
import SqlLayout.Files.Pattern
import SqlLayout.Files.Workspace

set_option autoImplicit false

/-! # Selecting files

The files of a run are the inputs that are SQL files, and the SQL files below the inputs that
are directories. On the way down, entries with a leading dot and entries whose name an exclude
pattern accepts are left out; patterns that cannot be read have no effect. A SQL file is known
by the extension of its name.
-/

namespace SqlLayout

/-- Whether a name has the extension of a SQL file, in any letter case. -/
def isSqlName (name : Text) : Bool :=
  match Path.extensionOf? name with
  | some ext => Options.extensions.any (Text.same ext)
  | none => false

/-- Whether a path names a SQL file. -/
def Path.isSql (p : Path) : Bool :=
  match p.fileName? with
  | some name => isSqlName name
  | none => false

namespace Selection

/-- Whether an entry with this name is passed over: it is hidden, or a pattern covers it. -/
def skips (patterns : List Pattern) (name : Text) : Bool :=
  name.head? == some '.' || patterns.any (fun p => p.covers name)

/-- The SQL files below a directory that is spelled `dir`. -/
def below (patterns : List Pattern) : Path → Dir → List Path
  | _, .empty => []
  | dir, .file name _ others =>
    let rest := below patterns dir others
    if skips patterns name then rest
    else if isSqlName name then dir.join name :: rest
    else rest
  | dir, .folder name entries others =>
    let rest := below patterns dir others
    if skips patterns name then rest
    else below patterns (dir.join name) entries ++ rest

/-- The files an input stands for. -/
def ofInput (w : Workspace) (patterns : List Pattern) (p : Path) : List Path :=
  match w.node? p with
  | some (.file _) => if p.isSql then [p] else []
  | some (.folder entries) => below patterns p entries
  | none => []

end Selection

/-- The files of a run, in order and without repeats. -/
def Workspace.select (w : Workspace) (o : Options) (inputs : List Path) : List Path :=
  let patterns := o.exclude.filterMap Pattern.parse?
  Path.sort (inputs.flatMap (Selection.ofInput w patterns))

end SqlLayout
