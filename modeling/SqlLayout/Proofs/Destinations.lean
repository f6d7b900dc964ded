import Mathlib.Algebra.GroupWithZero.Nat
import Mathlib.Algebra.Order.BigOperators.Group.List
import Mathlib.Algebra.Order.Group.Nat
import SqlLayout.Proofs.Reached

set_option autoImplicit false

/-! # Where paths lead

A path that leads anywhere leads to the place its components name: from the root or the working
directory, each name goes down and each `..` goes up (`Workspace.place?_eq_target`). The tree only
decides whether it leads there. So the last name of a path is the last name of its place
(`Workspace.getLast?_of_place?`), and an entry of a directory is found under every spelling of the
directory (`Workspace.place?_join_congr`).

A parent has a shorter spelling than its path (`Path.length_parent?`), so the ancestors of a path
are counted to the end (`Path.ascent_ancestors`).
-/

namespace SqlLayout

/-! ## Entries of a directory by their paths -/

/-- A name as entries of a directory have it, if they are not hidden: it has a character, no
slash, and does not start with a dot. -/
structure IsEntryName (name : Text) : Prop where
  ne_nil : name ≠ []
  noSlash : '/' ∉ name
  visible : name.head? ≠ some '.'

namespace Path

variable {p q : Path} {name : Text}

/-- The name of an entry is a segment of its path, the last one. -/
theorem exists_segments_join (hslash : '/' ∉ name) (p : Path) :
    ∃ segments, (p.join name).segments = segments ++ [name] := by
  have hmark : isWordChar '/' = false := by decide
  have hsegments : ∀ u : Text, segments ⟨u ++ '/' :: name⟩ = segments ⟨u⟩ ++ [name] := by
    intro u
    rw [segments, Text.splitOn_mark_append hmark, Text.splitOn_mark_of_not_mem hmark hslash]
    rfl
  obtain ⟨spelling⟩ := p
  unfold join
  split
  · rename_i hends
    rcases List.eq_nil_or_concat spelling with rfl | ⟨u, c, rfl⟩
    · exact ⟨[], Text.splitOn_mark_of_not_mem hmark hslash⟩
    · obtain rfl : c = '/' := by simpa using hends
      refine ⟨segments ⟨u⟩, ?_⟩
      simpa using hsegments u
  · exact ⟨segments ⟨spelling⟩, hsegments spelling⟩

theorem endsInName_join_name (hname : IsEntryName name) (p : Path) :
    (p.join name).EndsInName := by
  obtain ⟨segments, hsegments⟩ := exists_segments_join hname.noSlash p
  refine ⟨name, by simp [hsegments], ?_⟩
  rw [ofSegment?_eq_name hname.ne_nil hname.visible]
  rfl

/-- The entry of a directory has one component more, also if the directory is spelled by
nothing. -/
theorem components_join_name (hname : IsEntryName name) (p : Path) :
    (p.join name).components = p.components ++ [.name name] := by
  by_cases hp : p.spelling = []
  · obtain ⟨spelling⟩ := p
    obtain rfl : spelling = [] := hp
    have hsegments : segments ⟨name⟩ = [name] :=
      Text.splitOn_mark_of_not_mem (by decide) hname.noSlash
    have habsolute : isAbsolute ⟨name⟩ = false := by
      rw [isAbsolute, beq_eq_false_iff_ne]
      exact fun hhead => hname.noSlash (List.mem_of_head? hhead)
    have hdot : name ≠ ['.'] := by
      rintro rfl
      exact hname.visible rfl
    have hnothing : components ⟨[]⟩ = [] := rfl
    have hjoin : join ⟨[]⟩ name = ⟨name⟩ := rfl
    rw [hjoin, hnothing, components, hsegments]
    simp [habsolute, hdot, ofSegment?_eq_name hname.ne_nil hname.visible]
  · exact components_join hp hname.ne_nil hname.noSlash hname.visible

end Path

namespace Workspace

/-! ## The place that components name -/

theorem walk_append (root : Dir) (place : List Text) (cs ds : List Component) :
    walk root place (cs ++ ds) = (walk root place cs).bind (walk root · ds) := by
  induction cs generalizing place with
  | nil => rfl
  | cons c cs ih =>
      rw [List.cons_append, walk, walk]
      cases root.lookup place with
      | none => rfl
      | some node =>
          cases node with
          | file content => rfl
          | folder entries => exact ih _

/-- Each step of a walk goes where it says. -/
theorem eq_foldl_of_walk {root : Dir} {place a : List Text} {cs : List Component}
    (h : walk root place cs = some a) : a = cs.foldl stepFrom place := by
  induction cs generalizing place with
  | nil => exact (Option.some.inj h).symm
  | cons c cs ih =>
      rw [walk] at h
      split at h
      · exact ih h
      · cases h

end Workspace

/-- The place that the components of a path name, whatever there is on the way. -/
def Path.target (cwd : List Text) (p : Path) : List Text :=
  p.steps.foldl Workspace.stepFrom (if p.isAbsolute then [] else cwd)

namespace Workspace

variable {w : Workspace} {p q : Path} {a : List Text}

/-- A path leads to the place its components name, or nowhere. -/
theorem place?_eq_target (h : w.place? p = some a) : a = p.target w.cwd :=
  eq_foldl_of_walk (walk_of_place? h)

theorem place?_of_walk_or (h : p.EndsInName ∨ ∃ b, w.place? p = some b)
    (hwalk : walk w.root (if p.isAbsolute then [] else w.cwd) p.steps = some a) :
    w.place? p = some a := by
  rcases h with hends | ⟨b, hb⟩
  · exact place?_of_walk hends hwalk
  · rw [hb, ← hwalk, walk_of_place? hb]

/-- The last name of a path is the last name of its place. -/
theorem getLast?_of_place? {name : Text} (h : w.place? p = some a)
    (hname : p.fileName? = some name) : a.getLast? = some name := by
  have hlast : p.components.getLast? = some (.name name) := by
    unfold Path.fileName? at hname
    split at hname
    · rename_i n hn
      rw [hn, Option.some.inj hname]
    · cases hname
  have hsteps : p.steps.getLast? = some (.name name) := by
    rw [Path.components_eq, List.getLast?_append] at hlast
    cases hp : p.steps.getLast? with
    | some c => simpa [hp] using hlast
    | none =>
        -- what comes before the steps is no name
        rw [hp, Option.none_or, Path.lead] at hlast
        split_ifs at hlast <;> simp at hlast
  obtain ⟨cs, hcs⟩ := List.getLast?_eq_some_iff.mp hsteps
  rw [place?_eq_target h, Path.target, hcs, List.foldl_append]
  simp [stepFrom]

/-- An entry of a directory has one place, however the directory is spelled. -/
theorem place?_join_congr {name : Text} (hname : IsEntryName name) (h : p.key = q.key) :
    w.place? (p.join name) = w.place? (q.join name) := by
  have hkey : (p.join name).key = (q.join name).key := by
    unfold Path.key
    rw [Path.components_join_name hname, Path.components_join_name hname,
      Path.components_eq_of_key h]
  have hends := Path.endsInName_join_name hname
  apply Option.ext
  intro a
  exact ⟨fun ha => place?_of_key hkey ha (Or.inl (hends q)),
    fun ha => place?_of_key hkey.symm ha (Or.inl (hends p))⟩

end Workspace

/-! ## Directories above a path -/

namespace Text

/-- The pieces of a text, each with the mark behind it, are as long as the text and one more
mark. -/
theorem sum_length_splitOn_mark {d : Char} (hd : isWordChar d = false) (t : Text) :
    ((t.splitOn [d]).map (fun s => s.length + 1)).sum = t.length + 1 := by
  induction t with
  | nil => rfl
  | cons c cs ih =>
      rw [splitOn_mark_cons hd]
      split
      · simp [ih, Nat.add_comm]
      · cases hpieces : splitOn cs [d] with
        | nil => simp [hpieces] at ih
        | cons p ps =>
            simp only [hpieces, List.map_cons, List.sum_cons] at ih
            simp only [List.modifyHead_cons, List.map_cons, List.sum_cons, List.length_cons]
            omega

theorem length_join_mark (d : Char) (s : Text) (ss : List Text) :
    (join [d] (s :: ss)).length + 1 = ((s :: ss).map (fun s => s.length + 1)).sum := by
  induction ss generalizing s with
  | nil => simp [join]
  | cons s' ss ih =>
      have hlater := ih s'
      simp only [List.map_cons, List.sum_cons] at hlater
      simp only [join, List.length_append, List.length_singleton, List.map_cons, List.sum_cons]
      omega

end Text

namespace Path

/-- A list goes up from a path: the path, its parent, the parent of that, up to a path without
one. -/
inductive Ascent : Path → List Path → Prop
  | top {p : Path} (h : p.parent? = none) : Ascent p [p]
  | up {p q : Path} {ps : List Path} (h : p.parent? = some q) (hq : Ascent q ps) :
      Ascent p (p :: ps)

theorem dropTrailing_isInitial (segments : List Text) : dropTrailing segments <+: segments := by
  induction segments with
  | nil => exact List.prefix_refl []
  | cons s rest ih =>
      rw [dropTrailing]
      split
      · split
        · exact ⟨rest, rfl⟩
        · exact List.nil_prefix
      · exact List.cons_prefix_cons.mpr ⟨rfl, ih⟩

theorem exists_counted_of_dropTrailing {segments : List Text} (h : dropTrailing segments ≠ []) :
    ∃ s ∈ segments, s ≠ [] := by
  induction segments with
  | nil => exact absurd rfl h
  | cons s rest ih =>
      by_cases hs : s = []
      · have hrest : dropTrailing rest ≠ [] := by
          intro hnil
          simp [dropTrailing, hnil, hs, Component.ofSegment?] at h
        obtain ⟨t, ht, hne⟩ := ih hrest
        exact ⟨t, List.mem_cons_of_mem s ht, hne⟩
      · exact ⟨s, List.mem_cons_self, hs⟩

/-- A parent has a shorter spelling. -/
theorem length_parent? {p q : Path} (h : p.parent? = some q) :
    q.spelling.length < p.spelling.length := by
  have hlength : (p.segments.map fun s => s.length + 1).sum = p.spelling.length + 1 :=
    Text.sum_length_splitOn_mark (by decide) p.spelling
  have hshorter : ∀ {xs ys : List Text}, xs <+: ys →
      (xs.map fun s => s.length + 1).sum ≤ (ys.map fun s => s.length + 1).sum := by
    rintro xs _ ⟨zs, rfl⟩
    simp
  unfold parent? at h
  split at h
  · cases h
  · rename_i first rest hsegments
    rw [hsegments, List.map_cons, List.sum_cons] at hlength
    split at h
    · -- one name, and nothing above it
      split at h
      · cases h
      · rename_i hspelling
        obtain rfl := Option.some.inj h
        simp only [Bool.or_eq_true, not_or, List.isEmpty_iff] at hspelling
        exact List.length_pos_iff.mpr hspelling.2
    · rename_i kept hkept
      have hrest := hshorter (dropTrailing_isInitial rest)
      obtain ⟨counted, hcounted, hlong⟩ := exists_counted_of_dropTrailing hkept
      have hcounted : counted.length + 1 ≤ (rest.map fun s => s.length + 1).sum :=
        List.single_le_sum (by simp) _ (List.mem_map_of_mem hcounted)
      have hcounted' := List.length_pos_iff.mpr hlong
      split at h
      · obtain rfl := Option.some.inj h
        dsimp only
        split
        · rw [List.length_singleton]
          omega
        · omega
      · obtain rfl := Option.some.inj h
        have hjoin := Text.length_join_mark '/' first (dropTrailing (dropTrailing rest).dropLast)
        have hupper := hshorter (dropTrailing_isInitial (dropTrailing rest).dropLast)
        have hlast := List.dropLast_append_getLast hkept
        rw [← hlast, List.map_append, List.sum_append, List.map_singleton, List.sum_singleton]
          at hrest
        rw [List.map_cons, List.sum_cons] at hjoin
        dsimp only
        omega

theorem ancestorsWithin_of_lt {n m : Nat} {p : Path} (hn : p.spelling.length < n)
    (hm : p.spelling.length < m) : ancestorsWithin n p = ancestorsWithin m p := by
  induction n generalizing m p with
  | zero => omega
  | succ n ih =>
      obtain ⟨m, rfl⟩ := Nat.exists_eq_add_one_of_ne_zero (Nat.ne_zero_of_lt hm)
      rw [ancestorsWithin, ancestorsWithin]
      cases hparent : p.parent? with
      | none => rfl
      | some q =>
          have hshorter := length_parent? hparent
          exact congrArg (p :: ·) (ih (by omega) (by omega))

/-- The ancestors of a path are all there are. -/
theorem ascent_ancestors (p : Path) : Ascent p p.ancestors := by
  induction hlength : p.spelling.length using Nat.strong_induction_on generalizing p with
  | _ n ih =>
      rw [ancestors, ancestorsWithin]
      cases hparent : p.parent? with
      | none => exact .top hparent
      | some q =>
          have hshorter := length_parent? hparent
          refine .up hparent ?_
          rw [ancestorsWithin_of_lt hshorter (Nat.lt_succ_self _)]
          exact ih _ (hlength ▸ hshorter) q rfl

end Path

end SqlLayout
