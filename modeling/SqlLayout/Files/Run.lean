import SqlLayout.Files.Report
import SqlLayout.Files.Selection
import SqlLayout.Source

set_option autoImplicit false

/-! # Runs over files

A run formats the selected files one after another. What becomes of a file depends on its
content and the options alone; a file is written only if its formatted text differs and files
are not only looked at.
-/

namespace SqlLayout

/-- The text of a file, if its content is UTF-8. -/
def decode? (content : ByteArray) : Option Text := (String.fromUTF8? content).map String.toList

/-- The content that holds a text. -/
def encode (t : Text) : ByteArray := (String.ofList t).toUTF8

/-- The message for a content that is not UTF-8. -/
def notUtf8 : String := "stream did not contain valid UTF-8"

/-- What becomes of a file with the given content, and the content to write if there is
any. -/
def formatContent (o : Options) (content : ByteArray) : Outcome × Option ByteArray :=
  match decode? content with
  | none => (.failed ("Read error: " ++ notUtf8), none)
  | some source =>
    match formatSource o source with
    | .error e => (.failed e.message, none)
    | .ok result =>
      if source == result then (.unchanged, none)
      else if o.looksOnly then
        (.changed (if o.diff then some (source, result) else none), none)
      else (.changed none, some (encode result))

namespace Workspace

/-- Formats the file a path leads to. -/
def formatAt (w : Workspace) (o : Options) (p : Path) : FileReport × Workspace :=
  match w.content? p with
  | none => (⟨p, .failed "Read error: No such file or directory (os error 2)"⟩, w)
  | some content =>
    match formatContent o content with
    | (outcome, none) => (⟨p, outcome⟩, w)
    | (outcome, some new) => (⟨p, outcome⟩, w.write p new)

/-- Formats files one after another. -/
def formatFiles (w : Workspace) (o : Options) : List Path → List FileReport × Workspace
  | [] => ([], w)
  | p :: ps =>
    let (result, w') := w.formatAt o p
    let (results, w'') := w'.formatFiles o ps
    (result :: results, w'')

/-- Formats the files that the inputs stand for. -/
def run (w : Workspace) (o : Options) (inputs : List Path) : Report × Workspace :=
  let (results, w') := w.formatFiles o (w.select o inputs)
  (⟨results⟩, w')

end Workspace

end SqlLayout
