import SqlLayout.Text.Search

set_option autoImplicit false

/-! # Paths

A path is kept as it is spelled. Two spellings are the same path if they have the same
components: repeated `/`, a `/` at the end and every `.` but a leading one do not count. Paths
are ordered component by component; a leading `/` comes first, then `.`, then `..`, then names
in the order of their characters.
-/

namespace SqlLayout

/-- A path as it is spelled. -/
structure Path where
  spelling : Text
deriving DecidableEq, Repr

/-- A step of a path. -/
inductive Component where
  | root
  | current
  | parent
  | name (text : Text)
deriving DecidableEq, Repr

namespace Component

/-- Orders components: the root, `.`, `..`, then names. -/
def key : Component → List Nat
  | root => [0]
  | current => [1]
  | parent => [2]
  | name n => 3 :: n.map Char.toNat

/-- The component a segment after the first stands for, if it counts. -/
def ofSegment? (s : Text) : Option Component :=
  if s.isEmpty || s == ['.'] then none
  else if s == ['.', '.'] then some parent
  else some (name s)

end Component

namespace Path

/-- The parts between slashes. -/
def segments (p : Path) : List Text := p.spelling.splitOn ['/']

/-- Whether the path starts at the root. -/
def isAbsolute (p : Path) : Bool := p.spelling.head? == some '/'

/-- The components, in order. -/
def components (p : Path) : List Component :=
  match p.segments with
  | [] => []
  | first :: rest =>
    let later := rest.filterMap Component.ofSegment?
    if p.isAbsolute then .root :: later
    else if first == ['.'] then .current :: later
    else (Component.ofSegment? first).toList ++ later

/-- The key by which paths are compared and ordered. -/
def key (p : Path) : List (List Nat) := p.components.map Component.key

/-- Whether two spellings are the same path. -/
def same (p q : Path) : Bool := p.key == q.key

/-- The entry `name` of a directory: the spelling of the directory, a slash unless there is
one, and the name. -/
def join (p : Path) (name : Text) : Path :=
  if p.spelling.isEmpty || p.spelling.getLast? == some '/' then ⟨p.spelling ++ name⟩
  else ⟨p.spelling ++ '/' :: name⟩

/-- The last component, if it is a name. -/
def fileName? (p : Path) : Option Text :=
  match p.components.getLast? with
  | some (.name n) => some n
  | _ => none

/-- What follows the last dot of a name, unless that dot comes first. -/
def extensionOf? (name : Text) : Option Text :=
  let tail := name.reverse.takeWhile (· != '.')
  if tail.length + 1 < name.length then some tail.reverse else none

/-! ## Parents -/

/-- The segments without those at the end that do not count. -/
def dropTrailing : List Text → List Text
  | [] => []
  | s :: rest =>
    match dropTrailing rest with
    | [] => if (Component.ofSegment? s).isSome then [s] else []
    | kept => s :: kept

/-- The directory of a path, spelled as the beginning of the path; none for the root and for
the empty path. -/
def parent? (p : Path) : Option Path :=
  match p.segments with
  | [] => none
  | first :: rest =>
    match dropTrailing rest with
    | [] => if p.isAbsolute || p.spelling.isEmpty then none else some ⟨[]⟩
    | kept =>
      match dropTrailing kept.dropLast with
      | [] => some ⟨if p.isAbsolute then ['/'] else first⟩
      | upper => some ⟨Text.join ['/'] (first :: upper)⟩

/-- The first `n` of: a path, its parent, the parent of that, and so on. -/
def ancestorsWithin : Nat → Path → List Path
  | 0, _ => []
  | n + 1, p =>
    match p.parent? with
    | none => [p]
    | some q => p :: ancestorsWithin n q

/-- A path, its parent, the parent of that, and so on. A parent has a shorter spelling, so
there are no more of them than characters. -/
def ancestors (p : Path) : List Path := ancestorsWithin (p.spelling.length + 1) p

/-! ## Sorted lists without repeats -/

/-- Puts a path at its place in a sorted list; of two spellings of one path the earlier is
kept. -/
def insert (p : Path) : List Path → List Path
  | [] => [p]
  | q :: qs =>
    if p.key < q.key then p :: q :: qs
    else if q.key < p.key then q :: insert p qs
    else q :: qs

/-- The paths in order, the first spelling of each. -/
def sort (ps : List Path) : List Path := ps.foldl (fun acc p => insert p acc) []

end Path

end SqlLayout
