import SqlLayout.Command
import SqlLayout.Settings

set_option autoImplicit false

/-! # The program

What the program does with its arguments, its standard input and a workspace: an exit code, two
texts to print, and the workspace it leaves. The code is 2 after a fault and 1 if a check found
something to change.
-/

namespace SqlLayout

/-- What the program is started with. -/
structure Environment where
  workspace : Workspace
  /-- The user's configuration directory. -/
  configHome : Option Path
  /-- Whether the terminal is one that shows colors. -/
  terminalColors : Bool
  stdin : ByteArray

/-- How the program ends. -/
structure Ending where
  code : Nat
  stdout : Text
  stderr : Text
  workspace : Workspace

namespace Program

/-- The line that says which version this is. -/
def versionLine : Text := "sqlclause 0.1.0\n".toList

/-- The text that explains the command line. -/
def usage : Text :=
  Text.join ['\n'] (
    ["Usage: sqlclause [OPTIONS] <FILES>...", "", "Options:",
      "  -i, --indent-width <INDENT_WIDTH>  Spaces per indent level",
      "      --check                        Report files that would change, writing nothing",
      "      --diff                         Print a line diff of every change, writing nothing",
      "      --fast                         Skip the comparison of words",
      "      --exclude <GLOB>               Leave out files and directories with such names",
      "      --config <PATH>                Read settings from this file",
      "  -v, --verbose                      Name every changed file",
      "  -q, --quiet                        Print errors only",
      "      --no-progressbar               Hide the progress bar",
      "      --force-color                  Always color the diff",
      "      --no-color                     Never color the diff",
      "  -t, --threads <THREADS>            Worker threads",
      "      --single-process               Format files one after another",
      "  -h, --help                         Print this text",
      "  -V, --version                      Print the version", ""].map String.toList)

/-- Ends with a fault. -/
def fail (env : Environment) (message : String) : Ending :=
  ⟨2, [], message.toList ++ ['\n'], env.workspace⟩

/-- The wording of a fault in the standard input; a fault of the statement is named again at
the end. -/
def stdinMessage (e : SourceError) : String :=
  match e with
  | .format fault => "Error: formatting stdin: " ++ e.message ++ ": " ++ fault.message
  | .mismatch _ => "Error: formatting stdin: " ++ e.message

/-- Formats the standard input. -/
def formatInput (env : Environment) (o : Options) : Ending :=
  match decode? env.stdin with
  | none => fail env ("Error: reading stdin: " ++ notUtf8)
  | some source =>
    match formatSource o source with
    | .error e => fail env (stdinMessage e)
    | .ok result => ⟨0, result, [], env.workspace⟩

/-- Whether diffs are colored. -/
def usesColor (env : Environment) (o : Options) : Bool :=
  match o.coloring with
  | .always => true
  | .never => false
  | .auto => env.terminalColors

/-- What a run prints: diffs, the names of changed files, the summary, and faults. -/
def reportText (env : Environment) (o : Options) (r : Report) : Text :=
  let verb := if o.looksOnly then "would reformat".toList else "reformatted".toList
  (if o.diff then r.diffs (usesColor env o) else []) ++
  (if o.verbose then r.changedLines verb else []) ++
  (if o.quiet then [] else r.summary.toList ++ ['\n']) ++
  r.failureLines

/-- The exit code of a run. -/
def exitCode (o : Options) (r : Report) : Nat :=
  if r.anyFailed then 2 else if o.check && r.anyChanged then 1 else 0

/-- Formats files. -/
def formatFiles (env : Environment) (o : Options) (files : List Path) : Ending :=
  let (report, workspace) := env.workspace.run o files
  ⟨exitCode o report, [], reportText env o report, workspace⟩

/-- Carries out an invocation. -/
def invoke (env : Environment) (v : Invocation) : Ending :=
  match env.workspace.loadOptions env.configHome v.files v.config with
  | .error e => fail env ("Configuration error: " ++ e.message)
  | .ok base =>
    let o := v.options base
    if v.readsInput then formatInput env o else formatFiles env o v.files

/-- Runs the program; none if the arguments are not understood. -/
def run (env : Environment) (args : List Text) : Option Ending :=
  match Command.ofArgs? args with
  | none => none
  | some .version => some ⟨0, versionLine, [], env.workspace⟩
  | some .help => some ⟨0, usage, [], env.workspace⟩
  | some (.format v) => some (invoke env v)

end Program

end SqlLayout
