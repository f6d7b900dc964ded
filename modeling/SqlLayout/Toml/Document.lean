import SqlLayout.Toml.Scalar
import SqlLayout.Toml.Tagged

set_option autoImplicit false

/-! # Reading TOML documents

A document is a list of lines: key and value, the header of a table, the header of a table in
an array of tables, or nothing. `parse?` gives the table of the document, or nothing if the
document is malformed or defines something twice.
-/

namespace SqlLayout.Toml

/-! ## Building tables -/

/-- Goes down a path of keys and changes the entries at its end. Tables that are missing on
the way are made: `dotted` ones for a dotted key, `implied` ones for a header. A dotted key
does not go through the table of a header, nothing goes through a value, and an array of tables
is entered at its last table. -/
def descend (dotted : Bool) (change : TableKind → Entries → Option Entries) :
    List Text → TableKind → Entries → Option Entries
  | [], kind, es => change kind es
  | k :: ks, _, es =>
    match es.find? k with
    | none =>
      let kind : TableKind := if dotted then .dotted else .implied
      (descend dotted change ks kind []).map fun sub => es ++ [(k, .table kind sub)]
    | some (.table kind sub) =>
      if kind == .inline || (dotted && kind == .headed) then none
      else (descend dotted change ks kind sub).map fun sub => es.replace k (.table kind sub)
    | some (.array .ofTables items) =>
      match items.getLast? with
      | some (.table kind sub) =>
        (descend dotted change ks kind sub).map fun sub =>
          es.replace k (.array .ofTables (items.dropLast ++ [.table kind sub]))
      | _ => none
    | some _ => none

/-- Adds the value of a key. The key must be new, and the table it goes to must have been made
by dotted keys exactly if the key is dotted. -/
def setKey (path : List Text) (v : Value) : TableKind → Entries → Option Entries :=
  let last := path.getLast?.getD []
  let place := path.dropLast
  descend true (fun kind es =>
    if (kind == .dotted) == place.isEmpty || (es.find? last).isSome then none
    else some (es ++ [(last, v)])) place

/-- Opens the table of a header. It may only have been implied so far; it then counts as new
among the entries beside it. -/
def openTable (path : List Text) (es : Entries) : Option Entries :=
  let last := path.getLast?.getD []
  descend false (fun _ es =>
    match es.find? last with
    | none => some (es ++ [(last, .table .headed [])])
    | some (.table .implied sub) => some (es.erase last ++ [(last, .table .headed sub)])
    | some _ => none) path.dropLast .headed es

/-- Opens a new table at the end of an array of tables. -/
def openArrayTable (path : List Text) (es : Entries) : Option Entries :=
  let last := path.getLast?.getD []
  descend false (fun _ es =>
    match es.find? last with
    | none => some (es ++ [(last, .array .ofTables [.table .headed []])])
    | some (.array .ofTables items) =>
      some (es.replace last (.array .ofTables (items ++ [.table .headed []])))
    | some _ => none) path.dropLast .headed es

/-! ## Trivia -/

/-- Skips blanks, ends of lines and comments; the flag says whether a comment is going on. -/
def skipTrivia : Bool → Text → Option Text
  | _, [] => some []
  | _, '\r' :: '\n' :: cs => skipTrivia false cs
  | inComment, c :: cs =>
    if c == '\n' then skipTrivia false cs
    else if inComment then if isPlain c then skipTrivia true cs else none
    else if isSpace c then skipTrivia false cs
    else if c == '#' then skipTrivia true cs
    else some (c :: cs)

/-- Skips to the end of the line, across spaces and a comment; the flag says whether the
comment is going on. -/
def skipLine : Bool → Text → Option Text
  | _, [] => some []
  | _, '\r' :: '\n' :: cs => some cs
  | inComment, c :: cs =>
    if c == '\n' then some cs
    else if inComment then if isPlain c then skipLine true cs else none
    else if isSpace c then skipLine false cs
    else if c == '#' then skipLine true cs
    else none

/-! ## Keys -/

/-- The characters of a key without quotes. -/
def isBareKeyChar (c : Char) : Bool := c.isAlphanum || c == '_' || c == '-'

/-- Reads a part of a key. -/
def keyPart? (t : Text) : Option (Text × Text) :=
  match t with
  | '\x22' :: cs => basicString cs
  | '\x27' :: cs => literalString cs
  | _ =>
    let bare := t.takeWhile isBareKeyChar
    if bare.isEmpty then none else some (bare, t.drop bare.length)

/-- Reads a key of at most `n` parts, with the spaces after it. -/
def key? : Nat → Text → Option (List Text × Text)
  | 0, _ => none
  | n + 1, t => do
    let (part, rest) ← keyPart? t
    match dropSpaces rest with
    | '.' :: cs =>
      let (parts, rest) ← key? n (dropSpaces cs)
      return (part :: parts, rest)
    | rest => return ([part], rest)

/-- Arrays, tables in braces and dotted keys are nested less deep than this. -/
def maxDepth : Nat := 80

/-! ## Values -/

mutual

/-- Reads a value in at most `n` steps; `depth` arrays and tables may still be opened. -/
def value? : Nat → Nat → Text → Option (Value × Text)
  | 0, _, _ => none
  | n + 1, depth, t =>
    match t, depth with
    | '[' :: _, 0 => none
    | '\x7b' :: _, 0 => none
    | '[' :: cs, depth + 1 => do
      let (items, rest) ← items? n depth cs
      return (.array .listed items, rest)
    | '\x7b' :: cs, depth + 1 =>
      match dropSpaces cs with
      | '\x7d' :: rest => some (.table .inline [], rest)
      | rest => do
        let (es, rest) ← pairs? n depth [] rest
        return (.table .inline es, rest)
    | _, _ => scalarValue? t

/-- Reads the items of an array up to its closing bracket. -/
def items? : Nat → Nat → Text → Option (List Value × Text)
  | 0, _, _ => none
  | n + 1, depth, t => do
    let t ← skipTrivia false t
    match t with
    | ']' :: rest => return ([], rest)
    | _ =>
      let (v, rest) ← value? n depth t
      let rest ← skipTrivia false rest
      match rest with
      | ',' :: rest =>
        let (vs, rest) ← items? n depth rest
        return (v :: vs, rest)
      | ']' :: rest => return ([v], rest)
      | _ => none

/-- Reads the pairs of a table in braces up to its closing brace, after the entries `es`. -/
def pairs? : Nat → Nat → Entries → Text → Option (Entries × Text)
  | 0, _, _, _ => none
  | n + 1, depth, es, t => do
    let (path, rest) ← key? (maxDepth - 1) t
    let rest ← mark? '=' rest
    let (v, rest) ← value? n depth (dropSpaces rest)
    let es ← setKey path v .inline es
    match dropSpaces rest with
    | ',' :: rest => pairs? n depth es (dropSpaces rest)
    | '\x7d' :: rest => return (es, rest)
    | _ => none

end

/-! ## Documents -/

/-- What is known of a document after some of its lines. -/
structure State where
  /-- The table of the document so far. -/
  root : Entries
  /-- The table that keys go to. -/
  current : List Text

/-- Adds a key and its value to the current table. -/
def State.set (s : State) (path : List Text) (v : Value) : Option State :=
  (descend false (setKey path v) s.current .headed s.root).map fun root => { s with root }

/-- Reads one line that is not blank, in at most `n` steps. -/
def line? (n : Nat) (s : State) (t : Text) : Option (State × Text) :=
  match t with
  | '[' :: '[' :: cs => do
    let (path, rest) ← key? (maxDepth - 1) (dropSpaces cs)
    let rest ← (mark? ']' rest).bind (mark? ']')
    let root ← openArrayTable path s.root
    let rest ← skipLine false rest
    return (⟨root, path⟩, rest)
  | '[' :: cs => do
    let (path, rest) ← key? (maxDepth - 1) (dropSpaces cs)
    let rest ← mark? ']' rest
    let root ← openTable path s.root
    let rest ← skipLine false rest
    return (⟨root, path⟩, rest)
  | _ => do
    let (path, rest) ← key? (maxDepth - 1) t
    let rest ← mark? '=' rest
    let (v, rest) ← value? n (maxDepth - 1) (dropSpaces rest)
    let s ← s.set path v
    let rest ← skipLine false rest
    return (s, rest)

/-- Reads at most `n` lines. -/
def lines? : Nat → State → Text → Option State
  | 0, _, _ => none
  | n + 1, s, t =>
    match skipTrivia false t with
    | none => none
    | some [] => some s
    | some (c :: cs) =>
      match line? (2 * t.length + 2) s (c :: cs) with
      | some (s, rest) => lines? n s rest
      | none => none

/-- A text without the byte order mark it may start with. -/
def dropMark : Text → Text
  | c :: cs => if c.toNat == 0xfeff then cs else c :: cs
  | [] => []

/-- The table of a document. -/
def parse? (t : Text) : Option Entries :=
  (lines? (t.length + 1) ⟨[], []⟩ (dropMark t)).bind fun s => untaggedEntries? s.root

end SqlLayout.Toml
