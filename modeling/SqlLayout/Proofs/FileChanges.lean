import Mathlib.Data.List.Infix
import SqlLayout.Proofs.Destinations

set_option autoImplicit false

/-! # Workspaces that differ in one file

A file can be written, removed, or put where there was nothing; the rest of the workspace stays as
it is (`Workspace.AgreesBut`). Then all paths lead to the same places as before
(`Workspace.AgreesBut.place?_eq`), and what there is at another place is the same
(`Workspace.AgreesBut.seenAt?_eq`). Writing and removing a file are changes of this kind
(`Workspace.agreesBut_write`, `Workspace.agreesBut_remove`).
-/

namespace SqlLayout

/-! ## Removing -/

namespace Dir

/-- The tree without what stands at a place. -/
def remove (d : Dir) (place : List Text) : Dir :=
  match d with
  | empty => empty
  | file n content others =>
    if place = [n] then remove others place else file n content (remove others place)
  | folder n entries others =>
    if place = [n] then remove others place
    else if place.head? = some n then folder n (remove entries place.tail) (remove others place)
    else folder n entries (remove others place)

/-- What removing at a place, if it is not that of the entry itself, leaves of the entry `name`. -/
def afterRemoval (place : List Text) (name : Text) : Node → Node
  | .file content => .file content
  | .folder entries =>
    .folder (if place.head? = some name then entries.remove place.tail else entries)

theorem find?_remove (d : Dir) (place : List Text) (name : Text) :
    (d.remove place).find? name =
      if place = [name] then none else (d.find? name).map (afterRemoval place name) := by
  induction d with
  | empty => simp [remove, find?]
  | file n content others ih =>
      by_cases hplace : place = [n]
      · have hremove : (file n content others).remove place = others.remove place := by
          simp [remove, hplace]
        rw [hremove, ih]
        -- an entry of this name further on is removed as well
        by_cases hn : n = name <;> simp [find?, hplace, hn]
      · by_cases hn : n = name
        · subst hn
          simp [remove, find?, hplace, afterRemoval]
        · simp [remove, find?, hplace, hn, ih]
  | folder n entries others _ ih =>
      by_cases hplace : place = [n]
      · have hremove : (folder n entries others).remove place = others.remove place := by
          simp [remove, hplace]
        rw [hremove, ih]
        by_cases hn : n = name <;> simp [find?, hplace, hn]
      · by_cases hn : n = name
        · subst hn
          by_cases hhead : place.head? = some n <;>
            simp [remove, find?, hplace, hhead, afterRemoval]
        · by_cases hhead : place.head? = some n <;>
            simp [remove, find?, hplace, hhead, hn, ih]

/-- Nothing is seen at a place that is removed, nor below it; all else is seen as before. -/
theorem seen?_remove (d : Dir) {place : List Text} (hplace : place ≠ []) (b : List Text) :
    (d.remove place).seen? b = if place <+: b then none else d.seen? b := by
  induction b generalizing d place with
  | nil => simp [seen?, lookup, Node.content?, hplace]
  | cons n ns ih =>
      obtain ⟨m, rest, rfl⟩ := List.exists_cons_of_ne_nil hplace
      by_cases hhere : m :: rest = [n]
      · -- the entry itself is removed
        obtain ⟨rfl, rfl⟩ : m = n ∧ rest = [] := by simpa using hhere
        have hfind : (d.remove [m]).find? m = none := by simp [find?_remove]
        cases ns with
        | nil => simp [seen?, lookup, hfind]
        | cons n' ns => simp [seen?, lookup, hfind]
      · have hfind : (d.remove (m :: rest)).find? n =
            (d.find? n).map (afterRemoval (m :: rest) n) := by
          rw [find?_remove, if_neg hhere]
        cases ns with
        | nil =>
            have hprefix : ¬(m :: rest <+: [n]) := by simpa [List.cons_prefix_cons] using hhere
            rw [if_neg hprefix]
            simp only [seen?, lookup, hfind, Option.map_map]
            congr 1
            funext node
            cases node <;> rfl
        | cons n' ns =>
            rw [seen?_cons_cons, seen?_cons_cons, hfind]
            cases d.find? n with
            | none => simp
            | some node =>
                cases node with
                | file content => simp [afterRemoval]
                | folder entries =>
                    simp only [Option.map_some, Option.bind_some, afterRemoval, List.head?_cons,
                      List.tail_cons, Option.some.injEq]
                    by_cases hm : m = n
                    · -- the place is below this directory, and so is what is looked at
                      have hrest : rest ≠ [] := by
                        rintro rfl
                        exact hhere (by rw [hm])
                      rw [if_pos hm, ih entries hrest]
                      simp [List.cons_prefix_cons, hm]
                    · simp [List.cons_prefix_cons, hm]

/-- There is nothing below a file. -/
theorem lookup_below_file {d : Dir} {place : List Text} {content : ByteArray}
    (h : d.lookup place = some (.file content)) (n : Text) (ns : List Text) :
    d.lookup (place ++ n :: ns) = none := by
  fun_induction lookup d place with
  | case1 => cases h
  | case2 d m => simp [lookup, h]
  | case3 d m m' ms entries hfind ih =>
      rw [List.cons_append, List.cons_append, lookup, hfind]
      exact ih h
  | case4 => cases h

end Dir

/-! ## What there is where a path leads -/

namespace Workspace

/-- What there is where a path leads: nothing, a directory, seen without its entries, or a file
with its content. -/
def seenAt? (w : Workspace) (p : Path) : Option (Option ByteArray) :=
  (w.place? p).bind w.root.seen?

variable {w w' : Workspace} {a : List Text}

theorem seenAt?_eq (w : Workspace) (p : Path) : w.seenAt? p = (w.node? p).map Node.content? := by
  unfold seenAt? node?
  cases w.place? p <;> rfl

/-- Two workspaces are alike but for the file at one place, which may be missing in either. -/
structure AgreesBut (w w' : Workspace) (a : List Text) : Prop where
  cwd : w'.cwd = w.cwd
  elsewhere : ∀ b, b ≠ a → w'.root.seen? b = w.root.seen? b
  noFolder : w.root.seen? a ≠ some none
  noFolder' : w'.root.seen? a ≠ some none

theorem AgreesBut.place?_eq (h : w.AgreesBut w' a) (p : Path) : w'.place? p = w.place? p := by
  have hfolders : ∀ b, w'.root.seen? b = some none ↔ w.root.seen? b = some none := by
    intro b
    by_cases hb : b = a
    · subst hb
      exact iff_of_false h.noFolder' h.noFolder
    · rw [h.elsewhere b hb]
  unfold place?
  rw [h.cwd, follow_congr hfolders]

theorem AgreesBut.seenAt?_eq (h : w.AgreesBut w' a) {p : Path} (hp : w.place? p ≠ some a) :
    w'.seenAt? p = w.seenAt? p := by
  unfold seenAt?
  rw [h.place?_eq]
  cases hplace : w.place? p with
  | none => rfl
  | some b =>
      have hb : b ≠ a := by
        rintro rfl
        exact hp hplace
      exact h.elsewhere b hb

/-- A path leads to a directory in both or in neither. -/
theorem AgreesBut.folder_iff (h : w.AgreesBut w' a) (p : Path) :
    w'.seenAt? p = some none ↔ w.seenAt? p = some none := by
  by_cases hp : w.place? p = some a
  · have hp' : w'.place? p = some a := (h.place?_eq p).trans hp
    rw [seenAt?, seenAt?, hp, hp']
    exact iff_of_false h.noFolder' h.noFolder
  · rw [h.seenAt?_eq hp]

/-- Writing changes one file. -/
theorem agreesBut_write {p : Path} {old : ByteArray} (hp : w.place? p = some a)
    (hfile : w.root.seen? a = some (some old)) (content : ByteArray) :
    w.AgreesBut (w.write p content) a := by
  refine ⟨cwd_write w p content, fun b hb => ?_, by simp [hfile], ?_⟩
  · rw [seen?_write, if_neg]
    rw [hp, Option.some.injEq]
    exact hb.symm
  · simp [seen?_write, hp, hfile]

/-- The workspace without what stands at a place. -/
def remove (w : Workspace) (place : List Text) : Workspace :=
  { w with root := w.root.remove place }

/-- Where a file is removed there is nothing, and all else stays. -/
theorem agreesBut_remove {content : ByteArray} (hfile : w.root.lookup a = some (.file content)) :
    w.AgreesBut (w.remove a) a ∧ (w.remove a).root.seen? a = none := by
  have hplace : a ≠ [] := by
    rintro rfl
    cases hfile
  have hgone : (w.remove a).root.seen? a = none := by
    rw [remove, Dir.seen?_remove _ hplace, if_pos (List.prefix_refl a)]
  refine ⟨⟨rfl, fun b hb => ?_, by simp [Dir.seen?, hfile, Node.content?], by simp [hgone]⟩, hgone⟩
  rw [remove, Dir.seen?_remove _ hplace]
  split
  · rename_i hbelow
    -- below the file there was nothing before
    obtain ⟨rest, rfl⟩ := hbelow
    cases rest with
    | nil => exact absurd (List.append_nil a) hb
    | cons n ns => rw [Dir.seen?, Dir.lookup_below_file hfile, Option.map_none]
  · rfl

end Workspace

end SqlLayout
