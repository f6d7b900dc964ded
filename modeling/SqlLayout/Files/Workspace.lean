import SqlLayout.Files.Path

set_option autoImplicit false

/-! # File trees

A directory is a list of entries, each a file with its content or a directory of its own. A
workspace is a directory tree with a place in it, from which relative paths start. A path is
followed segment by segment; every segment but the last has to lead to a directory.
-/

namespace SqlLayout

/-- The entries of a directory. Entries that are neither files nor directories (pipes, sockets,
devices) are left out, although a walk would take one whose name has the extension of a SQL
file: below a directory it asks only that an entry is no directory. As an input such an entry is
not taken. -/
inductive Dir where
  | empty
  | file (name : Text) (content : ByteArray) (others : Dir)
  | folder (name : Text) (entries : Dir) (others : Dir)
deriving DecidableEq

/-- What an entry is. -/
inductive Node where
  | file (content : ByteArray)
  | folder (entries : Dir)

namespace Dir

/-- The entry with the given name. -/
def find? (d : Dir) (name : Text) : Option Node :=
  match d with
  | empty => none
  | file n content others => if n == name then some (.file content) else find? others name
  | folder n entries others => if n == name then some (.folder entries) else find? others name

/-- What stands at a place, given by the names that lead to it. -/
def lookup (d : Dir) : List Text → Option Node
  | [] => some (.folder d)
  | [n] => d.find? n
  | n :: m :: ns =>
    match d.find? n with
    | some (.folder entries) => lookup entries (m :: ns)
    | _ => none

/-- The tree with a new content for the file at a place; unchanged if there is no file. -/
def write (d : Dir) (place : List Text) (content : ByteArray) : Dir :=
  match d with
  | empty => empty
  | file n old others =>
    if place == [n] then file n content others else file n old (write others place content)
  | folder n entries others =>
    match place with
    | m :: next :: rest =>
      if m == n then folder n (write entries (next :: rest) content) others
      else folder n entries (write others place content)
    | _ => folder n entries (write others place content)

/-- A directory in which the names of `place` lead to `node`. -/
def single : List Text → Option ByteArray → Dir
  | [], _ => empty
  | [n], some content => file n content empty
  | [n], none => folder n empty empty
  | n :: m :: ns, node => folder n (single (m :: ns) node) empty

/-- The tree with a file, or an empty directory, at a place. Directories on the way are made as
needed; a file that is there already gets the new content. -/
def add (d : Dir) (place : List Text) (node : Option ByteArray) : Dir :=
  match d with
  | empty => single place node
  | file n old others =>
    if place == [n] then
      match node with
      | some content => file n content others
      | none => file n old others
    else file n old (add others place node)
  | folder n entries others =>
    match place with
    | [] => folder n entries others
    | m :: rest =>
      if m == n then
        match rest with
        | [] => folder n entries others
        | _ :: _ => folder n (add entries rest node) others
      else folder n entries (add others place node)

/-- The files of a tree, each with the names that lead to it. -/
def files : Dir → List (List Text × ByteArray)
  | empty => []
  | file n content others => ([n], content) :: files others
  | folder n entries others =>
    (files entries).map (fun (place, content) => (n :: place, content)) ++ files others

end Dir

/-- A file tree and the working directory in it. -/
structure Workspace where
  root : Dir
  /-- The names that lead from the root to the working directory. -/
  cwd : List Text
deriving DecidableEq

namespace Workspace

/-- Follows segments from a place to where they lead. An empty segment and `.` stay, `..` goes
up, and each segment needs a directory to start from. -/
def follow (root : Dir) : List Text → List Text → Option (List Text)
  | place, [] => some place
  | place, s :: rest =>
    match root.lookup place with
    | some (.folder _) =>
      if s.isEmpty || s == ['.'] then follow root place rest
      else if s == ['.', '.'] then follow root place.dropLast rest
      else follow root (place ++ [s]) rest
    | _ => none

/-- The place a path leads to. The empty path leads nowhere. -/
def place? (w : Workspace) (p : Path) : Option (List Text) :=
  if p.spelling.isEmpty then none
  else follow w.root (if p.isAbsolute then [] else w.cwd) p.segments

/-- What stands where a path leads. -/
def node? (w : Workspace) (p : Path) : Option Node := (w.place? p).bind w.root.lookup

/-- Whether a path leads to anything. -/
def contains (w : Workspace) (p : Path) : Bool := (w.node? p).isSome

/-- The entries of the directory a path leads to. -/
def entries? (w : Workspace) (p : Path) : Option Dir :=
  match w.node? p with
  | some (.folder entries) => some entries
  | _ => none

/-- The content of the file a path leads to. -/
def content? (w : Workspace) (p : Path) : Option ByteArray :=
  match w.node? p with
  | some (.file content) => some content
  | _ => none

/-- The workspace with a new content for the file a path leads to. -/
def write (w : Workspace) (p : Path) (content : ByteArray) : Workspace :=
  match w.place? p with
  | some place => { w with root := w.root.write place content }
  | none => w

end Workspace

end SqlLayout
