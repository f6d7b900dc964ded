import SqlLayout.Program

set_option autoImplicit false

/-! # The executable

Takes a snapshot of the part of the file system that the arguments can reach, runs the program
on it, prints what it says and writes the files it changed.
-/

namespace SqlLayout.Main

/-- A text as a string. -/
def toStr (t : Text) : String := String.ofList t

/-- The names of a path. -/
def names (path : String) : List Text :=
  (Path.segments ⟨path.toList⟩).filter (fun s => !s.isEmpty && s != ['.'])

/-- The path to a place. -/
def pathTo (place : List Text) : String := "/" ++ toStr (Text.join ['/'] place)

/-- The place a segment leads to. -/
def goTo (place : List Text) (segment : Text) : List Text :=
  if segment.isEmpty || segment == ['.'] then place
  else if segment == ['.', '.'] then place.dropLast
  else place ++ [segment]

/-- Adds what stands at a place to a snapshot. Below a directory only SQL files are read, and
hidden entries are left out. -/
partial def load (whole : Bool) (root : Dir) (place : List Text) : IO Dir := do
  let path := (← IO.currentDir) / pathTo place
  if ← path.isDir then
    let root := root.add place none
    if whole then
      let entries ← path.readDir
      entries.foldlM (fun root entry => do
        let name := entry.fileName.toList
        if name.head? == some '.' then return root
        else if (← entry.path.isDir) || isSqlName name then load true root (place ++ [name])
        else return root) root
    else return root
  else if ← path.pathExists then
    return root.add place (some (← IO.FS.readBinFile path))
  else return root

/-- Adds what a path leads to, and the directories on the way, to a snapshot. -/
def loadPath (w : Workspace) (whole : Bool) (p : Path) : IO Workspace := do
  let start := if p.isAbsolute then [] else w.cwd
  let (root, last) ← p.segments.foldlM (fun (root, place) s => do
    let next := goTo place s
    return (← load false root place, next)) (w.root, start)
  return { w with root := ← load whole root last }

/-- The user's configuration directory. -/
def configHome? : IO (Option Path) := do
  match ← IO.getEnv "XDG_CONFIG_HOME" with
  | some dir => if dir.startsWith "/" then return some ⟨dir.toList⟩
  | none => pure ()
  match ← IO.getEnv "HOME" with
  | some home => return some (Path.join ⟨home.toList⟩ ".config".toList)
  | none => return none

/-- Whether the terminal is one that shows colors. -/
def terminalColors : IO Bool := do
  match ← IO.getEnv "TERM" with
  | some term => return term != "dumb" && (← IO.getEnv "NO_COLOR").isNone
  | none => return false

/-- Everything that is left in a stream. -/
partial def readAll (stream : IO.FS.Stream) (before : ByteArray) : IO ByteArray := do
  let piece ← stream.read 65536
  if piece.isEmpty then return before else readAll stream (before ++ piece)

/-- The environment in which an invocation is carried out. -/
def environment (v : Invocation) : IO Environment := do
  let cwd := names (← IO.currentDir).toString
  let home ← configHome?
  let mut w : Workspace := ⟨Dir.single cwd none, cwd⟩
  for p in v.files do
    w ← loadPath w true p
  let settings := (w.searchPath v.files).flatMap Workspace.settingsFilesIn ++
    home.toList.map Workspace.userSettingsFile ++ v.config.toList
  for p in settings do
    w ← loadPath w false p
  let input ← if v.readsInput then readAll (← IO.getStdin) .empty else pure .empty
  return ⟨w, home, ← terminalColors, input⟩

/-- Writes the files in which two snapshots differ. -/
def writeChanges (before after : Dir) : IO Unit := do
  for ((place, content), (_, old)) in after.files.zip before.files do
    if content != old then IO.FS.writeBinFile (pathTo place) content

end SqlLayout.Main

open SqlLayout in
/-- Runs the program on the file system. -/
def main (args : List String) : IO UInt32 := do
  let args := args.map String.toList
  let env ← match Command.ofArgs? args with
    | some (.format v) => SqlLayout.Main.environment v
    | _ => pure ⟨⟨.empty, []⟩, none, false, ByteArray.empty⟩
  match Program.run env args with
  | none =>
    IO.eprint (String.ofList Program.usage)
    return 2
  | some ending =>
    SqlLayout.Main.writeChanges env.workspace.root ending.workspace.root
    IO.print (String.ofList ending.stdout)
    IO.eprint (String.ofList ending.stderr)
    return ending.code.toUInt32
