import SqlLayout.Files.Run
import SqlLayout.Toml.Document

set_option autoImplicit false

/-! # Settings files

Settings come from the file named on the command line. Without one, the directory of each input
and the directories above it are searched, and last the user's configuration directory; the
first file found is read. In `pyproject.toml` the settings are the table `tool.sqlclause`; in
`sqlclause.toml` they are that table or the whole document.
-/

namespace SqlLayout

/-- Why settings cannot be used. -/
inductive SettingsError where
  /-- The file named on the command line does not exist. -/
  | notFound (path : Path)
  /-- The settings file is a directory. -/
  | isDirectory
  /-- The settings file is not UTF-8. -/
  | notText
  /-- The settings file is not well-formed. -/
  | malformed (path : Path)
  /-- A key that is no setting. -/
  | unknownKey (path : Path) (key : Text)
  /-- A setting with a value of the wrong kind. -/
  | wrongValue (path : Path)
  /-- An indent width out of range. -/
  | widthOutOfRange (width : Nat)
deriving DecidableEq, Repr

namespace SettingsError

/-- The wording of the faults in the settings themselves. -/
def describe (text : Text) : String := "sqlclause config error: " ++ String.ofList text

/-- The wording of a fault. -/
def message : SettingsError → String
  | notFound p => describe ("Config file not found: ".toList ++ p.spelling)
  | isDirectory => "IO error: Is a directory (os error 21)"
  | notText => "IO error: " ++ notUtf8
  | malformed p => describe ("Failed to parse ".toList ++ p.spelling)
  | unknownKey p key =>
    describe (p.spelling ++ ": unknown field `".toList ++ key ++
      "`, expected `indent_width` or `exclude`".toList)
  | wrongValue p => describe p.spelling
  | widthOutOfRange n =>
    describe ("indent_width must be between 1 and 16, got ".toList ++ (toString n).toList)

end SettingsError

/-- The settings of a file. -/
structure Settings where
  indentWidth : Option Nat := none
  exclude : Option (List Text) := none
deriving DecidableEq, Repr

/-! ## Names -/

/-- The name of a settings file of its own. -/
def projectFile : Text := "sqlclause.toml".toList

/-- The name of a settings file shared with other tools. -/
def sharedFile : Text := "pyproject.toml".toList

/-- The key of the tables of tools in a shared file. -/
def toolKey : Text := "tool".toList

/-- The key of the settings in the table of tools. -/
def sectionKey : Text := "sqlclause".toList

/-- The key of the indent width. -/
def indentWidthKey : Text := "indent_width".toList

/-- The key of the exclude patterns. -/
def excludeKey : Text := "exclude".toList

namespace Settings

/-! ## Reading the settings table -/

/-- A width: an integer that is not negative. -/
def width? : Toml.Value → Option Nat
  | .integer (.ofNat n) => some n
  | _ => none

/-- A pattern: a string, or a date or time, which stands for its spelling. -/
def pattern? : Toml.Value → Option Text
  | .string s => some s
  | .datetime d => some d.spelling
  | _ => none

/-- A list of patterns: an array of them. -/
def patterns? : Toml.Value → Option (List Text)
  | .array _ items => items.mapM pattern?
  | _ => none

/-- Takes over one entry of a settings table. -/
def readEntry (p : Path) (s : Settings) (e : Text × Toml.Value) : Except SettingsError Settings :=
  if e.1 == indentWidthKey then
    match width? e.2 with
    | some n => .ok { s with indentWidth := some n }
    | none => .error (.wrongValue p)
  else if e.1 == excludeKey then
    match patterns? e.2 with
    | some ps => .ok { s with exclude := some ps }
    | none => .error (.wrongValue p)
  else .error (.unknownKey p e.1)

/-- Takes over the entries of a settings table, in the order given. -/
def readEntries (p : Path) : Settings → Toml.Entries → Except SettingsError Settings
  | s, [] => .ok s
  | s, e :: es =>
    match readEntry p s e with
    | .error err => .error err
    | .ok s => readEntries p s es

/-- The settings a value stands for: a table, whose entries are read in the order of their
keys, or an array of the two settings. -/
def ofValue (p : Path) : Toml.Value → Except SettingsError Settings
  | .table _ es => readEntries p {} (Toml.Entries.sort es)
  | .array _ [w, ps] =>
    match width? w, patterns? ps with
    | some n, some ps => .ok ⟨some n, some ps⟩
    | _, _ => .error (.wrongValue p)
  | _ => .error (.wrongValue p)

/-- The settings section of a document, if it has one. -/
def sectionOf? (doc : Toml.Entries) : Option Toml.Value :=
  match doc.find? toolKey with
  | some (.table _ tool) => Toml.Entries.find? tool sectionKey
  | _ => none

/-- The settings in a document that was read from the given path. A document without a settings
section has settings only if it is a settings file of its own. -/
def ofDocument (p : Path) (doc : Toml.Entries) : Except SettingsError Settings :=
  match sectionOf? doc with
  | some v => ofValue p v
  | none =>
    if p.fileName? == some projectFile then ofValue p (.table .headed (doc.erase toolKey))
    else .ok {}

/-- The largest indent width. -/
def widestIndent : Nat := 16

/-- The default options changed by settings. -/
def apply (s : Settings) : Except SettingsError Options :=
  let exclude := s.exclude.getD []
  match s.indentWidth with
  | none => .ok { exclude := exclude }
  | some n =>
    if 1 ≤ n && n ≤ widestIndent then .ok { indentWidth := n, exclude := exclude }
    else .error (.widthOutOfRange n)

end Settings

/-! ## Finding the settings file -/

namespace Workspace

/-- The settings in the file a path leads to. -/
def readSettings (w : Workspace) (p : Path) : Except SettingsError Settings :=
  match w.node? p with
  | none => .error (.notFound p)
  | some (.folder _) => .error .isDirectory
  | some (.file content) =>
    match decode? content with
    | none => .error .notText
    | some text =>
      match Toml.parse? text with
      | none => .error (.malformed p)
      | some doc => Settings.ofDocument p doc

/-- The directory from which the search for an input starts: the input itself if it is a
directory, otherwise the directory it is in. -/
def searchStart (w : Workspace) (input : Path) : Path :=
  if (w.entries? input).isSome then input
  else match input.parent? with
    | some p => if p.spelling.isEmpty then ⟨['.']⟩ else p
    | none => ⟨['.']⟩

/-- The paths without those that are the same as an earlier one. -/
def withoutRepeats (ps : List Path) : List Path :=
  ps.foldl (fun seen p => if seen.any (Path.same p) then seen else seen ++ [p]) []

/-- The directories to search, in order. -/
def searchPath (w : Workspace) (inputs : List Path) : List Path :=
  withoutRepeats (inputs.flatMap fun input => (w.searchStart input).ancestors)

/-- The settings files of a directory, in the order in which they are looked for. -/
def settingsFilesIn (dir : Path) : List Path := [dir.join sharedFile, dir.join projectFile]

/-- The settings file of a user, in their configuration directory. -/
def userSettingsFile (configHome : Path) : Path := (configHome.join sectionKey).join projectFile

/-- The first settings file that exists. -/
def findSettings? (w : Workspace) (configHome : Option Path) (inputs : List Path) : Option Path :=
  ((w.searchPath inputs).flatMap settingsFilesIn ++ configHome.toList.map userSettingsFile).find?
    w.contains

/-- The options that the settings give: those of the file named, or of the first one found, or
the defaults. -/
def loadOptions (w : Workspace) (configHome : Option Path) (inputs : List Path)
    (named : Option Path) : Except SettingsError Options :=
  match named with
  | some p =>
    if w.contains p then (w.readSettings p).bind Settings.apply else .error (.notFound p)
  | none =>
    match w.findSettings? configHome inputs with
    | some p => (w.readSettings p).bind Settings.apply
    | none => .ok {}

end Workspace

end SqlLayout
