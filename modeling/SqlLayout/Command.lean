import SqlLayout.Options
import SqlLayout.Files.Path

set_option autoImplicit false

/-! # The command line

Arguments are read from left to right. Options may stand between files; `--` makes everything
after it a file, and so is `-` alone. Short options can be grouped (`-qt2`), and the value of an
option follows it directly, after `=`, or as the next argument, which then must not look like
an option. Except for exclude patterns, nothing may be given twice.
-/

namespace SqlLayout

/-- What the command line asks for. -/
structure Invocation where
  files : List Path := []
  indentWidth : Option Nat := none
  check : Bool := false
  diff : Bool := false
  fast : Bool := false
  exclude : List Text := []
  config : Option Path := none
  verbose : Bool := false
  quiet : Bool := false
  noProgressBar : Bool := false
  forceColor : Bool := false
  noColor : Bool := false
  threads : Option Nat := none
  singleProcess : Bool := false
deriving DecidableEq, Repr

/-- What a command line means. -/
inductive Command where
  /-- Format files. -/
  | format (invocation : Invocation)
  /-- Say which version this is. -/
  | version
  /-- Explain the command line. -/
  | help
deriving DecidableEq, Repr

/-- The switches: options without a value. -/
inductive Switch where
  | check
  | diff
  | fast
  | verbose
  | quiet
  | noProgressBar
  | forceColor
  | noColor
  | singleProcess
deriving DecidableEq, Repr

/-- The options with a value. -/
inductive Setting where
  | indentWidth
  | exclude
  | config
  | threads
deriving DecidableEq, Repr

/-- What the name of an option stands for. -/
inductive OptionName where
  | switch (s : Switch)
  | setting (s : Setting)
  | version
  | help
deriving DecidableEq, Repr

namespace OptionName

/-- The long names, without the two dashes. -/
def long : List (String × OptionName) :=
  [("indent-width", .setting .indentWidth), ("check", .switch .check), ("diff", .switch .diff),
    ("fast", .switch .fast), ("exclude", .setting .exclude), ("config", .setting .config),
    ("verbose", .switch .verbose), ("quiet", .switch .quiet),
    ("no-progressbar", .switch .noProgressBar), ("force-color", .switch .forceColor),
    ("no-color", .switch .noColor), ("threads", .setting .threads),
    ("single-process", .switch .singleProcess), ("version", .version), ("help", .help)]

/-- The short names. -/
def short : List (Char × OptionName) :=
  [('i', .setting .indentWidth), ('v', .switch .verbose), ('q', .switch .quiet),
    ('t', .setting .threads), ('V', .version), ('h', .help)]

/-- The option with a long name. -/
def ofLong? (name : Text) : Option OptionName :=
  (long.find? (fun e => e.1.toList == name)).map Prod.snd

/-- The option with a short name. -/
def ofShort? (name : Char) : Option OptionName :=
  (short.find? (fun e => e.1 == name)).map Prod.snd

end OptionName

/-! ## Numbers -/

/-- The number in decimal digits, perhaps after a plus sign. -/
def natural? (t : Text) : Option Nat :=
  let digits := if t.head? == some '+' then t.tail else t
  if digits.isEmpty || !digits.all Char.isDigit then none
  else some (digits.foldl (fun n c => n * 10 + (c.toNat - 48)) 0)

/-- The largest indent width that can be asked for. -/
def largestWidth : Nat := 16

/-- One more than the largest number of threads that can be asked for. -/
def threadLimit : Nat := Nat.pow 2 64

namespace Invocation

/-! ## Taking over options -/

/-- Turns a switch on, if it is off. -/
def turnOn (v : Invocation) : Switch → Option Invocation
  | .check => if v.check then none else some { v with check := true }
  | .diff => if v.diff then none else some { v with diff := true }
  | .fast => if v.fast then none else some { v with fast := true }
  | .verbose => if v.verbose then none else some { v with verbose := true }
  | .quiet => if v.quiet then none else some { v with quiet := true }
  | .noProgressBar => if v.noProgressBar then none else some { v with noProgressBar := true }
  | .forceColor => if v.forceColor then none else some { v with forceColor := true }
  | .noColor => if v.noColor then none else some { v with noColor := true }
  | .singleProcess => if v.singleProcess then none else some { v with singleProcess := true }

/-- Gives an option its value, if the value is allowed and the option has none. -/
def give (v : Invocation) (s : Setting) (value : Text) : Option Invocation :=
  match s with
  | .indentWidth =>
    match natural? value with
    | some n =>
      if v.indentWidth.isNone && 1 ≤ n && n ≤ largestWidth then
        some { v with indentWidth := some n }
      else none
    | none => none
  | .exclude => some { v with exclude := v.exclude ++ [value] }
  | .config =>
    if v.config.isSome || value.isEmpty then none else some { v with config := some ⟨value⟩ }
  | .threads =>
    match natural? value with
    | some n =>
      if v.threads.isNone && n < threadLimit then some { v with threads := some n } else none
    | none => none

/-- Adds a file, whose name must not be empty. -/
def addFile (v : Invocation) (arg : Text) : Option Invocation :=
  if arg.isEmpty then none else some { v with files := v.files ++ [⟨arg⟩] }

/-- Adds files. -/
def addFiles : Invocation → List Text → Option Invocation
  | v, [] => some v
  | v, arg :: rest =>
    match v.addFile arg with
    | some v => addFiles v rest
    | none => none

/-- The command of a complete invocation: there is a file, and not both silence and talk are
asked for. -/
def complete (v : Invocation) : Option Command :=
  if v.files.isEmpty || (v.quiet && v.verbose) then none else some (.format v)

/-- The options of an invocation over those from the settings. -/
def options (v : Invocation) (base : Options) : Options :=
  { indentWidth := v.indentWidth.getD base.indentWidth
    check := v.check
    diff := v.diff
    fast := v.fast
    exclude := if v.exclude.isEmpty then base.exclude else v.exclude
    verbose := v.verbose
    quiet := v.quiet
    noProgressBar := v.noProgressBar
    noColor := v.noColor
    forceColor := v.forceColor
    threads := v.threads.getD 0
    singleProcess := v.singleProcess }

/-- Whether the only file is `-`, which stands for the standard input. -/
def readsInput (v : Invocation) : Bool :=
  match v.files with
  | [p] => p.spelling == ['-']
  | _ => false

end Invocation

/-! ## Reading arguments -/

/-- What is left to do after an argument that starts with a dash. -/
inductive Pending where
  /-- The next argument. -/
  | next (v : Invocation)
  /-- The value of an option. -/
  | value (v : Invocation) (s : Setting)
  /-- Nothing: the command is known. -/
  | done (c : Command)
deriving DecidableEq, Repr

namespace Command

/-- Reads a long option, without its two dashes. -/
def readLong (v : Invocation) (arg : Text) : Option Pending :=
  let name := arg.takeWhile (· != '=')
  let value := if name.length < arg.length then some (arg.drop (name.length + 1)) else none
  match OptionName.ofLong? name, value with
  | some (.switch s), none => (v.turnOn s).map .next
  | some (.setting s), some value => (v.give s value).map .next
  | some (.setting s), none => some (.value v s)
  | some .version, none => some (.done .version)
  | some .help, none => some (.done .help)
  | _, _ => none

/-- Reads a group of short options, without its dash. What follows an option with a value is
its value, after an equals sign if there is one. -/
def readShort : Invocation → Text → Option Pending
  | v, [] => some (.next v)
  | v, c :: cs =>
    match OptionName.ofShort? c with
    | some (.switch s) =>
      match v.turnOn s with
      | some v => readShort v cs
      | none => none
    | some (.setting s) =>
      match cs with
      | [] => some (.value v s)
      | '=' :: value => (v.give s value).map .next
      | value => (v.give s value).map .next
    | some .version => some (.done .version)
    | some .help => some (.done .help)
    | none => none

/-- Whether an argument looks like an option. -/
def isOption (arg : Text) : Bool := arg.head? == some '-' && arg != ['-']

/-- Reads an argument that looks like an option. -/
def readOption (v : Invocation) (arg : Text) : Option Pending :=
  match arg with
  | '-' :: '-' :: name => readLong v name
  | '-' :: group => readShort v group
  | _ => none

/-- Reads the arguments after those that made `v`. -/
def read : Invocation → List Text → Option Command
  | v, [] => v.complete
  | v, arg :: rest =>
    if arg == ['-', '-'] then (v.addFiles rest).bind Invocation.complete
    else if isOption arg then
      match readOption v arg with
      | none => none
      | some (.done c) => some c
      | some (.next v) => read v rest
      | some (.value v s) =>
        match rest with
        | [] => none
        | value :: rest =>
          if isOption value then none
          else match v.give s value with
            | some v => read v rest
            | none => none
    else
      match v.addFile arg with
      | some v => read v rest
      | none => none

/-- The command that arguments stand for; none if they are not understood. -/
def ofArgs? (args : List Text) : Option Command := read {} args

end Command

end SqlLayout
