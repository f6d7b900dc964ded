import Mathlib.Data.List.Basic
import SqlLayout.Files.Workspace

set_option autoImplicit false

/-! # Writing a file

Writing gives the file at one place its new content and leaves all other places as they are
(`Dir.seen?_write`). Directories stay where they are, so paths lead to the same places as before
(`Workspace.place?_write`), and a path that leads elsewhere leads to the same content
(`Workspace.content?_congr`).

Nothing is assumed about the names in a directory: of two entries with one name, only the first
is ever seen.
-/

namespace SqlLayout

/-! ## Places of a tree -/

/-- The content of a file; a directory has none. -/
def Node.content? : Node → Option ByteArray
  | .file content => some content
  | .folder _ => none

namespace Dir

/-- What there is at a place: nothing, a directory, seen without its entries, or a file with its
content. -/
def seen? (d : Dir) (place : List Text) : Option (Option ByteArray) :=
  (d.lookup place).map Node.content?

/-- Below an entry there is what its directory holds, and nothing below a file. -/
theorem seen?_cons_cons (d : Dir) (n m : Text) (ms : List Text) :
    d.seen? (n :: m :: ms) = (d.find? n).bind fun
      | .file _ => none
      | .folder entries => entries.seen? (m :: ms) := by
  rw [seen?, lookup]
  cases d.find? n with
  | none => rfl
  | some node => cases node <;> rfl

/-- What writing at a place makes of the entry `name`. -/
def rewritten (place : List Text) (content : ByteArray) (name : Text) : Node → Node
  | .file old => .file (if place = [name] then content else old)
  | .folder entries =>
    .folder (if place.head? = some name ∧ place.tail ≠ [] then entries.write place.tail content
      else entries)

theorem rewritten_eq_self {place : List Text} {name : Text} (h : place.head? ≠ some name)
    (content : ByteArray) : rewritten place content name = id := by
  funext node
  cases node with
  | file old =>
      have hne : place ≠ [name] := by
        rintro rfl
        exact h rfl
      simp [rewritten, hne]
  | folder entries => simp [rewritten, h]

theorem find?_write (d : Dir) (place : List Text) (content : ByteArray) (name : Text) :
    (d.write place content).find? name = (d.find? name).map (rewritten place content name) := by
  induction d with
  | empty => rfl
  | file n old others ih =>
      by_cases hn : n = name
      · subst hn
        by_cases hplace : place = [n] <;> simp [write, find?, rewritten, hplace]
      · by_cases hplace : place = [n]
        · -- the file is written, and it is not the entry that is looked for
          have hhead : place.head? ≠ some name := by simp [hplace, hn]
          rw [rewritten_eq_self hhead, Option.map_id_fun, id]
          simp [write, find?, hplace, hn]
        · simp [write, find?, hplace, hn, ih]
  | folder n entries others _ ih =>
      rcases place with _ | ⟨m, _ | ⟨next, rest⟩⟩
      · by_cases hn : n = name <;> simp [write, find?, rewritten, hn, ih]
      · by_cases hn : n = name <;> simp [write, find?, rewritten, hn, ih]
      · by_cases hn : n = name
        · subst hn
          by_cases hm : m = n <;> simp [write, find?, rewritten, hm]
        · by_cases hm : m = n
          · have hhead : (m :: next :: rest).head? ≠ some name := by simp [hm, hn]
            rw [rewritten_eq_self hhead, Option.map_id_fun, id]
            simp [write, find?, hm, hn]
          · simp [write, find?, hm, hn, ih]

/-- Writing at a place changes what is seen there, and only if it is a file. -/
theorem seen?_write (d : Dir) (place : List Text) (content : ByteArray) (a : List Text) :
    (d.write place content).seen? a
      = if a = place then (d.seen? a).map (Option.map fun _ => content) else d.seen? a := by
  induction a generalizing d place with
  | nil => split <;> rfl
  | cons n ns ih =>
      cases ns with
      | nil =>
          simp only [seen?, lookup, find?_write, Option.map_map]
          cases hfind : d.find? n with
          | none => simp
          | some node =>
              cases node with
              | file old =>
                  by_cases hplace : place = [n]
                  · simp [rewritten, Node.content?, hplace]
                  · simp [rewritten, Node.content?, hplace, Ne.symm hplace]
              | folder entries => simp [rewritten, Node.content?]
      | cons m ms =>
          rw [seen?_cons_cons, seen?_cons_cons, find?_write]
          cases d.find? n with
          | none => simp
          | some node =>
              cases node with
              | file old => simp [rewritten]
              | folder entries =>
                  simp only [Option.map_some, Option.bind_some, rewritten]
                  by_cases hplace : n :: m :: ms = place
                  · subst hplace
                    simp [ih]
                  · rw [if_neg hplace]
                    split
                    · -- another place in the same directory
                      rename_i hin
                      have hne : m :: ms ≠ place.tail := by
                        rintro heq
                        exact hplace (heq ▸ (List.cons_head?_tail hin.1))
                      rw [ih, if_neg hne]
                    · rfl

end Dir

namespace Workspace

/-! ## Paths -/

/-- A path is followed through directories alone. -/
theorem follow_congr {d d' : Dir} (h : ∀ a, d'.seen? a = some none ↔ d.seen? a = some none)
    (place segments : List Text) : follow d' place segments = follow d place segments := by
  induction segments generalizing place with
  | nil => rfl
  | cons s rest ih =>
      have hfolder : ∀ {e : Dir}, e.seen? place = some none ↔
          ∃ entries, e.lookup place = some (.folder entries) := by
        intro e
        unfold Dir.seen?
        cases e.lookup place with
        | none => simp
        | some node => cases node <;> simp [Node.content?]
      have hplace := h place
      rw [hfolder, hfolder] at hplace
      unfold follow
      by_cases hd : ∃ entries, d.lookup place = some (.folder entries)
      · obtain ⟨entries', hd'⟩ := hplace.mpr hd
        obtain ⟨entries, hd⟩ := hd
        simp only [hd, hd', ih]
      · have hd' : ¬∃ entries, d'.lookup place = some (.folder entries) := mt hplace.mp hd
        split
        · exact absurd ⟨_, ‹_›⟩ hd'
        · split
          · exact absurd ⟨_, ‹_›⟩ hd
          · rfl

theorem cwd_write (w : Workspace) (p : Path) (content : ByteArray) :
    (w.write p content).cwd = w.cwd := by
  unfold write
  split <;> rfl

theorem seen?_write (w : Workspace) (p : Path) (content : ByteArray) (a : List Text) :
    (w.write p content).root.seen? a
      = if w.place? p = some a then (w.root.seen? a).map (Option.map fun _ => content)
        else w.root.seen? a := by
  unfold write
  cases hp : w.place? p with
  | none => simp
  | some place =>
      simp only [Dir.seen?_write, Option.some.injEq]
      by_cases h : a = place
      · simp [h]
      · simp [h, Ne.symm h]

/-- Writing a file leaves paths leading where they led. -/
theorem place?_write (w : Workspace) (p : Path) (content : ByteArray) (q : Path) :
    (w.write p content).place? q = w.place? q := by
  have hfolders : ∀ a, (w.write p content).root.seen? a = some none ↔
      w.root.seen? a = some none := by
    intro a
    rw [seen?_write]
    split
    · cases w.root.seen? a with
      | none => simp
      | some node => cases node <;> simp
    · rfl
  unfold place?
  rw [cwd_write, follow_congr hfolders]

theorem content?_eq (w : Workspace) (p : Path) :
    w.content? p = ((w.place? p).bind w.root.seen?).join := by
  unfold content? node?
  cases w.place? p with
  | none => rfl
  | some a =>
      simp only [Option.bind_some, Dir.seen?]
      cases w.root.lookup a with
      | none => rfl
      | some node => cases node <;> rfl

theorem content?_eq_some_iff {w : Workspace} {p : Path} {content : ByteArray} :
    w.content? p = some content ↔
      ∃ a, w.place? p = some a ∧ w.root.seen? a = some (some content) := by
  rw [content?_eq]
  cases w.place? p with
  | none => simp
  | some a => simp [Option.join_eq_some_iff]

/-- The content a path leads to depends on its place alone. -/
theorem content?_congr {w w' : Workspace} {p : Path} (hp : w'.place? p = w.place? p)
    (hseen : ∀ a, w.place? p = some a → w'.root.seen? a = w.root.seen? a) :
    w'.content? p = w.content? p := by
  rw [content?_eq, content?_eq, hp]
  cases hplace : w.place? p with
  | none => rfl
  | some a => rw [Option.bind_some, Option.bind_some, hseen a hplace]

/-- Two paths do not lead to one place. -/
def Apart (w : Workspace) (p q : Path) : Prop := w.place? p = w.place? q → w.place? p = none

instance (w : Workspace) (p q : Path) : Decidable (w.Apart p q) :=
  inferInstanceAs (Decidable (_ → _))

theorem Apart.place?_ne {w : Workspace} {p q : Path} (h : w.Apart p q) {a : List Text}
    (hq : w.place? q = some a) : w.place? p ≠ some a := by
  intro hp
  have hnone := h (hp.trans hq.symm)
  rw [hp] at hnone
  cases hnone

end Workspace

end SqlLayout
