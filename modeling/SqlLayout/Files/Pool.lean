import SqlLayout.Files.Run

set_option autoImplicit false

/-! # Runs with several workers

The files of a run can be shared out among workers. A worker takes a file that waits, reads it
and works out what becomes of it; in a second step it writes the new content, if there is any,
and leaves the outcome in the slot of the file. A worker deals with one file at a time. The steps
of different workers come in any order, and all of them see the one workspace.

A schedule is a list of such steps, and `Pool.exec?` carries it out. The reports are collected
from the slots, so they come in the order of the paths, in whatever order the files are finished.
-/

namespace SqlLayout

namespace Workspace

/-- Reads the file a path leads to: what becomes of it, and the content to write if there is
any. -/
def inspect (w : Workspace) (o : Options) (p : Path) : Outcome × Option ByteArray :=
  match w.content? p with
  | none => (.failed "Read error: No such file or directory (os error 2)", none)
  | some content => formatContent o content

/-- The workspace once the file a path leads to is written, if there is anything to write. -/
def put (w : Workspace) (p : Path) : Option ByteArray → Workspace
  | none => w
  | some content => w.write p content

end Workspace

/-- How far a run has come with a file. -/
inductive Stage where
  /-- No worker has taken it. -/
  | waiting
  /-- A worker has read it and still has to write it, if there is anything to write. -/
  | inspected (worker : Nat) (outcome : Outcome) (new : Option ByteArray)
  /-- A worker is done with it. -/
  | finished (outcome : Outcome)

/-- A file of a run and how far the run has come with it. -/
structure Slot where
  path : Path
  stage : Stage

namespace Slot

/-- Whether a worker has read the file and not yet finished it. -/
def isHeldBy (slot : Slot) (worker : Nat) : Bool :=
  match slot.stage with
  | .inspected k _ _ => k == worker
  | _ => false

/-- The report on a file that is finished. -/
def report? (slot : Slot) : Option FileReport :=
  match slot.stage with
  | .finished outcome => some ⟨slot.path, outcome⟩
  | _ => none

end Slot

/-- The files of a run, in order, and the workspace that the workers share. -/
structure Pool where
  workspace : Workspace
  slots : List Slot

/-- A step of a worker; files are given by their number. -/
inductive Move where
  /-- A worker that holds no file takes one that waits, and reads it. -/
  | read (worker file : Nat)
  /-- The worker that holds a file finishes it. -/
  | finish (file : Nat)
deriving DecidableEq, Repr

namespace Pool

/-- Before the first step. -/
def start (w : Workspace) (ps : List Path) : Pool := ⟨w, ps.map (⟨·, .waiting⟩)⟩

/-- Whether a worker holds a file. -/
def isBusy (pool : Pool) (worker : Nat) : Bool := pool.slots.any (·.isHeldBy worker)

/-- Makes a step, if it can be made. -/
def step? (o : Options) (workers : Nat) (pool : Pool) : Move → Option Pool
  | .read worker file =>
    match pool.slots[file]? with
    | some ⟨p, .waiting⟩ =>
      if worker < workers && !pool.isBusy worker then
        let (outcome, new) := pool.workspace.inspect o p
        some { pool with slots := pool.slots.set file ⟨p, .inspected worker outcome new⟩ }
      else none
    | _ => none
  | .finish file =>
    match pool.slots[file]? with
    | some ⟨p, .inspected _ outcome new⟩ =>
      some ⟨pool.workspace.put p new, pool.slots.set file ⟨p, .finished outcome⟩⟩
    | _ => none

/-- Carries out a schedule, if each of its steps can be made. -/
def exec? (o : Options) (workers : Nat) (pool : Pool) : List Move → Option Pool
  | [] => some pool
  | move :: moves => (pool.step? o workers move).bind (·.exec? o workers moves)

/-- The reports on the files that are finished, in the order of the files. -/
def report (pool : Pool) : Report := ⟨pool.slots.filterMap Slot.report?⟩

end Pool

end SqlLayout
