import Mathlib.Data.List.Lex
import Mathlib.Data.List.Sort
import SqlLayout.Files.Selection
import SqlLayout.Proofs.FileTrees
import SqlLayout.Proofs.Search

set_option autoImplicit false

/-! # Spellings of a path

The selected paths come in the order of their components, one spelling of each
(`Path.pairwise_sort`, `Path.mem_map_key_sort`). So the order of the inputs, and how often each of
them is given, can only matter for which spelling of a path is kept (`Workspace.key_select`).

It does not matter where a path leads: a spelling is followed by its components, and segments
that do not count only ask for a directory (`Workspace.follow_steps`). Two spellings of one path
that lead anywhere lead to one place, and a spelling whose last segment counts leads wherever
another one leads (`Workspace.place?_of_key`).
-/

namespace SqlLayout

/-! ## Keys -/

theorem Component.key_injective {c d : Component} (h : c.key = d.key) : c = d := by
  cases c with
  | name s =>
      cases d with
      | name t =>
          have htexts : s.map Char.toNat = t.map Char.toNat := (List.cons.inj h).2
          have hinj : Function.Injective Char.toNat := fun x y hxy => Char.toNat_inj.mp hxy
          rw [hinj.list_map htexts]
      | _ => simp [key] at h
  | _ => cases d <;> simp [key] at h ⊢

namespace Path

theorem components_eq_of_key {p q : Path} (h : p.key = q.key) : p.components = q.components := by
  have hinj : Function.Injective Component.key := fun _ _ => Component.key_injective
  exact hinj.list_map h

/-! ## Sorting -/

theorem mem_map_key_insert {p : Path} {qs : List Path} {k : List (List Nat)} :
    k ∈ (insert p qs).map key ↔ k = p.key ∨ k ∈ qs.map key := by
  induction qs with
  | nil => simp [insert]
  | cons q qs ih =>
      rw [insert]
      split
      · simp
      · split
        · rw [List.map_cons, List.mem_cons, ih, List.map_cons, List.mem_cons, or_left_comm]
        · -- another spelling of this path is there already
          have hsame : p.key = q.key := by
            apply le_antisymm <;> exact not_lt.mp ‹_›
          simp [hsame]

theorem pairwise_insert {p : Path} {qs : List Path}
    (h : (qs.map key).Pairwise (· < ·)) : ((insert p qs).map key).Pairwise (· < ·) := by
  induction qs with
  | nil => simp [insert]
  | cons q qs ih =>
      obtain ⟨hfirst, hrest⟩ := List.pairwise_cons.mp h
      rw [insert]
      split
      · rename_i hless
        apply List.pairwise_cons.mpr
        refine ⟨fun k hk => ?_, h⟩
        rcases List.mem_cons.mp hk with rfl | hk
        · exact hless
        · exact lt_trans hless (hfirst k hk)
      · split
        · rename_i hless
          apply List.pairwise_cons.mpr
          refine ⟨fun k hk => ?_, ih hrest⟩
          rcases mem_map_key_insert.mp hk with rfl | hk
          · exact hless
          · exact hfirst k hk
        · exact h

theorem mem_of_mem_insert {p r : Path} {qs : List Path} (h : r ∈ insert p qs) :
    r = p ∨ r ∈ qs := by
  induction qs with
  | nil => simpa [insert] using h
  | cons q qs ih =>
      rw [insert] at h
      split at h
      · simpa using h
      · split at h
        · rcases List.mem_cons.mp h with rfl | h
          · exact Or.inr List.mem_cons_self
          · exact (ih h).imp_right (List.mem_cons_of_mem q)
        · exact Or.inr h

/-- Sorting from a list that is sorted already. -/
theorem pairwise_foldl_insert (ps : List Path) {qs : List Path}
    (h : (qs.map key).Pairwise (· < ·)) :
    ((ps.foldl (fun acc p => insert p acc) qs).map key).Pairwise (· < ·) := by
  induction ps generalizing qs with
  | nil => exact h
  | cons p ps ih => exact ih (pairwise_insert h)

theorem mem_map_key_foldl_insert (ps qs : List Path) (k : List (List Nat)) :
    k ∈ (ps.foldl (fun acc p => insert p acc) qs).map key ↔
      k ∈ ps.map key ∨ k ∈ qs.map key := by
  induction ps generalizing qs with
  | nil => simp
  | cons p ps ih =>
      rw [List.foldl_cons, ih, mem_map_key_insert, List.map_cons, List.mem_cons, or_assoc,
        or_left_comm]

theorem mem_of_mem_foldl_insert {ps qs : List Path} {r : Path}
    (h : r ∈ ps.foldl (fun acc p => insert p acc) qs) : r ∈ ps ∨ r ∈ qs := by
  induction ps generalizing qs with
  | nil => exact Or.inr h
  | cons p ps ih =>
      rcases ih h with hps | hins
      · exact Or.inl (List.mem_cons_of_mem p hps)
      · rcases mem_of_mem_insert hins with rfl | hqs
        · exact Or.inl List.mem_cons_self
        · exact Or.inr hqs

/-- Sorted paths are strictly ordered, so no path occurs in two spellings. -/
theorem pairwise_sort (ps : List Path) : ((sort ps).map key).Pairwise (· < ·) :=
  pairwise_foldl_insert ps List.Pairwise.nil

theorem mem_map_key_sort {ps : List Path} {k : List (List Nat)} :
    k ∈ (sort ps).map key ↔ k ∈ ps.map key := by
  simp [sort, mem_map_key_foldl_insert]

theorem mem_of_mem_sort {ps : List Path} {p : Path} (h : p ∈ sort ps) : p ∈ ps :=
  (mem_of_mem_foldl_insert h).resolve_right List.not_mem_nil

/-- What is sorted matters only up to order, repetition and spelling. -/
theorem map_key_sort_congr {ps qs : List Path} (h : ∀ k, k ∈ ps.map key ↔ k ∈ qs.map key) :
    (sort ps).map key = (sort qs).map key := by
  apply List.SortedLT.eq_of_mem_iff (pairwise_sort ps).sortedLT (pairwise_sort qs).sortedLT
  intro k
  rw [mem_map_key_sort, mem_map_key_sort, h]

/-! ## Segments and components -/

/-- The last segment of a path counts: it ends neither in a slash nor in `/.`. -/
def EndsInName (p : Path) : Prop :=
  ∃ s, p.segments.getLast? = some s ∧ (Component.ofSegment? s).isSome = true

/-- The steps up and down that the components of a path stand for. -/
def steps (p : Path) : List Component := p.segments.filterMap Component.ofSegment?

theorem segments_ne_nil (p : Path) : p.segments ≠ [] := by
  simp [segments, Text.splitOn]

theorem head?_segments_of_isAbsolute {p : Path} (h : p.isAbsolute = true) :
    p.segments.head? = some [] := by
  obtain ⟨spelling⟩ := p
  cases spelling with
  | nil => cases h
  | cons c cs =>
      obtain rfl : c = '/' := by simpa [isAbsolute] using h
      simp [segments, Text.splitOn, Text.cutAt, Text.startsWith, Text.same]

/-- What the components of a path begin with besides its steps. -/
def lead (p : Path) : List Component :=
  if p.isAbsolute then [.root] else if p.segments.head? = some ['.'] then [.current] else []

theorem components_eq (p : Path) : p.components = p.lead ++ p.steps := by
  have hempty : Component.ofSegment? [] = none := rfl
  have hdot : Component.ofSegment? ['.'] = none := rfl
  unfold components lead steps
  cases hsegments : p.segments with
  | nil => exact absurd hsegments p.segments_ne_nil
  | cons first rest =>
      by_cases habsolute : p.isAbsolute = true
      · have hfirst := head?_segments_of_isAbsolute habsolute
        rw [hsegments, List.head?_cons, Option.some.injEq] at hfirst
        simp [habsolute, hfirst, hempty]
      · by_cases hfirst : first = ['.']
        · simp [habsolute, hfirst, hdot]
        · cases hcounts : Component.ofSegment? first <;>
            simp [habsolute, hfirst, hcounts]

/-- A step is a name or leads up. -/
theorem ne_of_mem_steps {p : Path} {c : Component} (h : c ∈ p.steps) :
    c ≠ .root ∧ c ≠ .current := by
  obtain ⟨s, -, hs⟩ := List.mem_filterMap.mp h
  unfold Component.ofSegment? at hs
  split_ifs at hs <;> cases hs <;> simp

theorem isAbsolute_iff {p : Path} : p.isAbsolute = true ↔ Component.root ∈ p.components := by
  rw [components_eq, List.mem_append, lead]
  constructor
  · intro h
    simp [h]
  · rintro (hroot | hroot)
    · by_contra h
      rw [if_neg h] at hroot
      split_ifs at hroot <;> simp at hroot
    · exact absurd rfl (ne_of_mem_steps hroot).1

theorem steps_eq (p : Path) :
    p.steps = p.components.filter fun c => c != .root && c != .current := by
  have hlead : (p.lead.filter fun c => c != .root && c != .current) = [] := by
    unfold lead
    split_ifs <;> rfl
  have hsteps : (p.steps.filter fun c => c != .root && c != .current) = p.steps := by
    apply List.filter_eq_self.mpr
    intro c hc
    simpa using ne_of_mem_steps hc
  rw [components_eq, List.filter_append, hlead, hsteps, List.nil_append]

end Path

namespace Workspace

/-! ## Following the components -/

/-- Where a step leads from a place. -/
def stepFrom (place : List Text) : Component → List Text
  | .parent => place.dropLast
  | .name n => place ++ [n]
  | _ => place

/-- Follows steps from a place; each of them needs a directory to start from. -/
def walk (root : Dir) : List Text → List Component → Option (List Text)
  | place, [] => some place
  | place, c :: rest =>
    match root.lookup place with
    | some (.folder _) => walk root (stepFrom place c) rest
    | _ => none

variable {root : Dir} {place target : List Text} {segments : List Text}

/-- A segment is a step, or it only needs a directory. -/
theorem follow_cons (s : Text) (rest : List Text) : follow root place (s :: rest) =
    match root.lookup place with
    | some (.folder _) =>
      follow root (((Component.ofSegment? s).map (stepFrom place)).getD place) rest
    | _ => none := by
  rw [follow]
  cases root.lookup place with
  | none => rfl
  | some node =>
      cases node with
      | file content => rfl
      | folder entries =>
          unfold Component.ofSegment?
          dsimp only
          split_ifs <;> rfl

theorem follow_steps (h : follow root place segments = some target) :
    walk root place (segments.filterMap Component.ofSegment?) = some target := by
  induction segments generalizing place with
  | nil => exact h
  | cons s rest ih =>
      rw [follow_cons] at h
      cases hstep : Component.ofSegment? s with
      | none =>
          rw [List.filterMap_cons_none hstep]
          rw [hstep] at h
          split at h
          · exact ih h
          · cases h
      | some c =>
          rw [List.filterMap_cons_some hstep, walk]
          rw [hstep] at h
          split at h
          · exact ih h
          · cases h

/-- Segments that do not count are passed where a step follows. -/
theorem follow_of_walk {s : Text} (hlast : segments.getLast? = some s)
    (hcounts : (Component.ofSegment? s).isSome = true)
    (h : walk root place (segments.filterMap Component.ofSegment?) = some target) :
    follow root place segments = some target := by
  induction segments generalizing place with
  | nil => cases hlast
  | cons s' rest ih =>
      rw [follow_cons]
      cases rest with
      | nil =>
          obtain rfl : s' = s := by simpa using hlast
          obtain ⟨c, hc⟩ := Option.isSome_iff_exists.mp hcounts
          rw [List.filterMap_cons_some hc, walk] at h
          rw [hc]
          split at h
          · exact h
          · cases h
      | cons s'' rest =>
          have hlast' : (s'' :: rest).getLast? = some s := by
            rwa [List.getLast?_cons_cons] at hlast
          cases hstep : Component.ofSegment? s' with
          | none =>
              rw [List.filterMap_cons_none hstep] at h
              -- the next step starts here, so there is a directory
              have hsteps : (s'' :: rest).filterMap Component.ofSegment? ≠ [] := by
                intro hnil
                have hmem := List.mem_of_getLast? hlast'
                rw [List.filterMap_eq_nil_iff.mp hnil s hmem] at hcounts
                cases hcounts
              obtain ⟨c, cs, hcs⟩ := List.exists_cons_of_ne_nil hsteps
              have hfollow := ih hlast' h
              rw [hcs, walk] at h
              split at h
              · exact hfollow
              · cases h
          | some c =>
              rw [List.filterMap_cons_some hstep, walk] at h
              split at h
              · exact ih hlast' h
              · cases h

variable {w : Workspace} {p q : Path} {a : List Text}

theorem walk_of_place? (h : w.place? p = some a) :
    walk w.root (if p.isAbsolute then [] else w.cwd) p.steps = some a := by
  unfold place? at h
  split at h
  · cases h
  · exact follow_steps h

theorem place?_of_walk (hends : p.EndsInName)
    (h : walk w.root (if p.isAbsolute then [] else w.cwd) p.steps = some a) :
    w.place? p = some a := by
  obtain ⟨s, hlast, hcounts⟩ := hends
  have hspelling : p.spelling.isEmpty = false := by
    rw [List.isEmpty_eq_false_iff]
    intro hnil
    obtain rfl : s = [] := by
      simpa [Path.segments, hnil, Text.splitOn, Text.cutAt] using hlast.symm
    cases hcounts
  rw [place?, hspelling]
  exact follow_of_walk hlast hcounts h

/-- A spelling leads where another spelling of the path leads, if it leads anywhere or its last
segment counts. -/
theorem place?_of_key (hkey : p.key = q.key) (hp : w.place? p = some a)
    (hq : q.EndsInName ∨ ∃ b, w.place? q = some b) : w.place? q = some a := by
  have hcomponents := Path.components_eq_of_key hkey
  have hsteps : p.steps = q.steps := by rw [Path.steps_eq, Path.steps_eq, hcomponents]
  have habsolute : p.isAbsolute = q.isAbsolute := by
    rw [Bool.eq_iff_iff, Path.isAbsolute_iff, Path.isAbsolute_iff, hcomponents]
  have hwalk := walk_of_place? hp
  rw [hsteps, habsolute] at hwalk
  rcases hq with hends | ⟨b, hb⟩
  · exact place?_of_walk hends hwalk
  · rw [walk_of_place? hb] at hwalk
    rw [hb, hwalk]

end Workspace

/-! ## Selected paths -/

namespace Path

theorem extensionOf?_split {name ext : Text} (h : extensionOf? name = some ext) :
    ∃ u, name = u ++ '.' :: ext := by
  unfold extensionOf? at h
  dsimp only at h
  split at h
  · rename_i hshort
    obtain rfl := Option.some.inj h
    have hname := List.takeWhile_append_dropWhile (p := (· != '.')) (l := name.reverse)
    cases hrest : name.reverse.dropWhile (· != '.') with
    | nil =>
        -- without a dot, all of the name would be taken
        rw [hrest, List.append_nil] at hname
        rw [hname, List.length_reverse] at hshort
        omega
    | cons c u =>
        have hdot := List.head?_dropWhile_not (· != '.') name.reverse
        obtain rfl : c = '.' := by simpa [hrest] using hdot
        refine ⟨u.reverse, ?_⟩
        rw [hrest] at hname
        simpa using (congrArg List.reverse hname).symm
  · cases h

theorem isSqlName_split {name : Text} (h : isSqlName name = true) :
    ∃ u ext, name = u ++ '.' :: ext ∧ ext.length = 3 ∧ '/' ∉ ext := by
  unfold isSqlName at h
  split at h
  · rename_i ext hext
    obtain ⟨u, rfl⟩ := extensionOf?_split hext
    obtain ⟨known, hknown, hsame⟩ := List.any_eq_true.mp h
    have hupper : ext.upper = known.upper := Text.same_iff.mp hsame
    have hspelled : ∀ known ∈ Options.extensions, known.length = 3 ∧ '/' ∉ known.upper := by
      decide
    obtain ⟨hlength, hslash⟩ := hspelled known hknown
    refine ⟨u, ext, rfl, (Text.length_eq_of_upper_eq hupper).trans hlength, fun hmem => ?_⟩
    apply hslash
    rw [← hupper]
    exact List.mem_map_of_mem (f := Char.toUpper) hmem
  · cases h

theorem endsInName_join {name : Text} (h : isSqlName name = true) (dir : Path) :
    (dir.join name).EndsInName := by
  obtain ⟨u, ext, rfl, hlength, hslash⟩ := isSqlName_split h
  have hspelling : ∃ t, (dir.join (u ++ '.' :: ext)).spelling = t ++ '.' :: ext := by
    unfold join
    split
    · exact ⟨dir.spelling ++ u, by simp⟩
    · exact ⟨dir.spelling ++ '/' :: u, by simp⟩
  obtain ⟨t, ht⟩ := hspelling
  obtain ⟨v, hv⟩ := Text.getLast?_splitOn_mark (d := '/') (by decide) (u := '.' :: ext)
    (by simpa using hslash) t
  refine ⟨v ++ '.' :: ext, by rw [segments, ht, hv], ?_⟩
  -- a segment as long as this is neither empty nor made of one or two dots
  have hlong : 4 ≤ (v ++ '.' :: ext).length := by simp; omega
  unfold Component.ofSegment?
  split
  · rename_i hshort
    rcases Bool.or_eq_true_iff.mp hshort with hnil | hdot
    · rw [List.isEmpty_iff.mp hnil] at hlong
      simp at hlong
    · rw [beq_iff_eq.mp hdot] at hlong
      simp at hlong
  · split <;> rfl

end Path

namespace Selection

theorem endsInName_of_mem_below {patterns : List Pattern} {dir q : Path} {d : Dir}
    (h : q ∈ below patterns dir d) : q.EndsInName := by
  induction d generalizing dir with
  | empty => cases h
  | file name content others ih =>
      simp only [below] at h
      split_ifs at h with hskips hsql
      · exact ih h
      · rcases List.mem_cons.mp h with rfl | h
        · exact Path.endsInName_join hsql dir
        · exact ih h
      · exact ih h
  | folder name entries others ihEntries ihOthers =>
      simp only [below] at h
      split_ifs at h with hskips
      · exact ihOthers h
      · rcases List.mem_append.mp h with h | h
        · exact ihEntries h
        · exact ihOthers h

/-- A selected path is an input that leads to a file, or it is found below one. -/
theorem of_mem_ofInput {w : Workspace} {patterns : List Pattern} {p q : Path}
    (h : q ∈ ofInput w patterns p) : q.EndsInName ∨ ∃ a, w.place? q = some a := by
  unfold ofInput at h
  split at h
  · rename_i content hnode
    split at h
    · obtain rfl := List.mem_singleton.mp h
      obtain ⟨a, ha, -⟩ := Option.bind_eq_some_iff.mp hnode
      exact Or.inr ⟨a, ha⟩
    · cases h
  · exact Or.inl (endsInName_of_mem_below h)
  · cases h

end Selection

namespace Workspace

variable {w : Workspace} {o : Options} {inputs inputs' : List Path}
  (hinputs : ∀ p, p ∈ inputs' ↔ p ∈ inputs)

include hinputs in
/-- Inputs given in another order, or more than once, stand for the same paths. -/
theorem key_select : (w.select o inputs').map Path.key = (w.select o inputs).map Path.key := by
  apply Path.map_key_sort_congr
  intro k
  simp only [List.mem_map, List.mem_flatMap, hinputs]

theorem of_mem_select {q : Path} (h : q ∈ w.select o inputs) :
    q.EndsInName ∨ ∃ a, w.place? q = some a := by
  obtain ⟨p, -, hq⟩ := List.mem_flatMap.mp (Path.mem_of_mem_sort h)
  exact Selection.of_mem_ofInput hq

include hinputs in
/-- If those paths lead anywhere, they lead to the same places. -/
theorem place?_select (hplaces : ∀ p ∈ w.select o inputs, (w.place? p).isSome = true) :
    (w.select o inputs').map (fun p => (p.components, w.place? p)) =
      (w.select o inputs).map fun p => (p.components, w.place? p) := by
  have hkeys := key_select (w := w) (o := o) hinputs
  have hlength : (w.select o inputs').length = (w.select o inputs).length := by
    simpa using congrArg List.length hkeys
  apply List.ext_getElem
  · simpa using hlength
  · intro i hi hi'
    simp only [List.getElem_map]
    rw [List.length_map] at hi hi'
    obtain ⟨a, ha⟩ := Option.isSome_iff_exists.mp (hplaces _ (List.getElem_mem hi'))
    have hkey : (w.select o inputs)[i].key = (w.select o inputs')[i].key := by
      have hsame := congrArg (·[i]?) hkeys
      simpa [List.getElem?_map, List.getElem?_eq_getElem hi, List.getElem?_eq_getElem hi']
        using hsame.symm
    have hplace : w.place? (w.select o inputs')[i] = some a :=
      place?_of_key hkey ha (of_mem_select (List.getElem_mem hi))
    rw [ha, hplace, Path.components_eq_of_key hkey]

end Workspace

end SqlLayout
