import Mathlib.Data.List.Dedup
import SqlLayout.Proofs.Destinations
import SqlLayout.Proofs.Runs

set_option autoImplicit false

/-! # Files that have several paths

A selected path occurs once, but a file can have several paths: `a.sql` and `./a.sql` differ in
their components and lead to one file. This module says when a run meets a file twice. Each
selected path leads to a file, to the one its components name (`Workspace.leads_of_offers`), so two
selected paths lead to one file exactly if two inputs offer it under different components. Inputs
that start alike, and from which no `..` leads up, never do (`Workspace.components_of_alike`).

No directory is taken to have two entries with one name: of such entries a path would lead to the
first one only, while the search lists them all.
-/

namespace SqlLayout

namespace Dir

/-! ## Entries with names of their own -/

/-- No directory of the tree has two entries with one name. -/
def DistinctlyNamed : Dir → Prop
  | empty => True
  | file name _ others => name ∉ others.listing.map Prod.fst ∧ others.DistinctlyNamed
  | folder name entries others =>
    name ∉ others.listing.map Prod.fst ∧ entries.DistinctlyNamed ∧ others.DistinctlyNamed

instance decidableDistinctlyNamed : (d : Dir) → Decidable d.DistinctlyNamed
  | empty => inferInstanceAs (Decidable True)
  | file name _ others =>
    have := decidableDistinctlyNamed others
    inferInstanceAs (Decidable (name ∉ others.listing.map Prod.fst ∧ others.DistinctlyNamed))
  | folder name entries others =>
    have := decidableDistinctlyNamed entries
    have := decidableDistinctlyNamed others
    inferInstanceAs (Decidable (name ∉ others.listing.map Prod.fst ∧ entries.DistinctlyNamed ∧
      others.DistinctlyNamed))

variable {d : Dir}

/-- An entry is found under its name. -/
theorem DistinctlyNamed.find? (hd : d.DistinctlyNamed) {name : Text} {node : Node}
    (h : (name, node) ∈ d.listing) : d.find? name = some node := by
  have hname : ∀ {others : Dir}, (name, node) ∈ others.listing →
      name ∈ others.listing.map Prod.fst := fun h => List.mem_map_of_mem (f := Prod.fst) h
  induction d with
  | empty => cases h
  | file n content others ih =>
      rcases List.mem_cons.mp h with heq | h
      · cases heq
        simp [Dir.find?]
      · have hne : n ≠ name := fun heq => hd.1 (heq ▸ hname h)
        simpa [Dir.find?, hne] using ih hd.2 h
  | folder n entries others _ ih =>
      rcases List.mem_cons.mp h with heq | h
      · cases heq
        simp [Dir.find?]
      · have hne : n ≠ name := fun heq => hd.1 (heq ▸ hname h)
        simpa [Dir.find?, hne] using ih hd.2.2 h

theorem DistinctlyNamed.of_find? (hd : d.DistinctlyNamed) {name : Text} {entries : Dir}
    (h : d.find? name = some (.folder entries)) : entries.DistinctlyNamed := by
  induction d with
  | empty => cases h
  | file n content others ih =>
      rw [Dir.find?] at h
      split at h
      · cases h
      · exact ih hd.2 h
  | folder n sub others _ ih =>
      rw [Dir.find?] at h
      split at h
      · cases h
        exact hd.2.1
      · exact ih hd.2.2 h

theorem DistinctlyNamed.of_lookup (hd : d.DistinctlyNamed) {place : List Text} {entries : Dir}
    (h : d.lookup place = some (.folder entries)) : entries.DistinctlyNamed := by
  fun_induction lookup d place with
  | case1 d =>
      cases h
      exact hd
  | case2 d n => exact hd.of_find? h
  | case3 d n m ns sub hfind ih => exact ih (hd.of_find? hfind) h
  | case4 => cases h

theorem lookup_concat {place : List Text} {entries : Dir}
    (h : d.lookup place = some (.folder entries)) (name : Text) :
    d.lookup (place ++ [name]) = entries.find? name := by
  fun_induction lookup d place with
  | case1 d =>
      cases h
      rfl
  | case2 d n =>
      rw [List.singleton_append, lookup, h]
      rfl
  | case3 d n m ns sub hfind ih =>
      rw [List.cons_append, List.cons_append, lookup, hfind]
      exact ih h
  | case4 => cases h

end Dir

namespace Workspace

/-! ## What an input offers -/

/-- An input offers a file: itself, if it is a SQL file, or one that it reaches by the given
names, if it is a directory. -/
inductive Offers (w : Workspace) (o : Options) (p : Path) : List Text → Prop
  | itself {content : ByteArray} {name : Text} (hfile : w.node? p = some (.file content))
      (hname : p.components.getLast? = some (.name name)) (hsql : HasSqlExtension name) :
      Offers w o p []
  | below {entries : Dir} {names : List Text} (hfolder : w.node? p = some (.folder entries))
      (hnames : entries.Reaches o names) : Offers w o p names

variable {w : Workspace} {o : Options} {inputs : List Path} {p q r : Path}
  {names names' : List Text}

theorem offers_of_mem_select (hproper : w.root.ProperlyNamed) (h : r ∈ w.select o inputs) :
    ∃ p ∈ inputs, ∃ names, w.Offers o p names ∧
      r.components = p.components ++ names.map .name := by
  obtain ⟨p, hp, hr⟩ := List.mem_flatMap.mp (Path.mem_of_mem_sort h)
  refine ⟨p, hp, ?_⟩
  rcases (Selection.exists_mem_ofInput_iff hproper).mp ⟨r, hr, rfl⟩ with
    ⟨hcomponents, ⟨content, hfile⟩, name, hname, hsql⟩ | ⟨entries, names, hfolder, hnames, hr⟩
  · exact ⟨[], .itself hfile hname hsql, by simp [hcomponents]⟩
  · exact ⟨names, .below hfolder hnames, hr⟩

theorem exists_mem_select_of_offers (hproper : w.root.ProperlyNamed) (hp : p ∈ inputs)
    (h : w.Offers o p names) :
    ∃ r ∈ w.select o inputs, r.components = p.components ++ names.map .name := by
  have hoffered : ∃ r ∈ Selection.ofInput w (o.exclude.filterMap Pattern.parse?) p,
      r.components = p.components ++ names.map .name := by
    apply (Selection.exists_mem_ofInput_iff hproper).mpr
    cases h with
    | @itself content name hfile hname hsql =>
        exact Or.inl ⟨by simp, ⟨content, hfile⟩, name, hname, hsql⟩
    | below hfolder hnames => exact Or.inr ⟨_, _, hfolder, hnames, rfl⟩
  obtain ⟨r, hr, hcomponents⟩ := hoffered
  rw [← hcomponents]
  exact Path.exists_mem_sort_iff.mpr ⟨r, List.mem_flatMap.mpr ⟨p, hp, hr⟩, rfl⟩

/-! ## Where selected paths lead -/

/-- From a directory, the names that reach a file lead to it. -/
theorem walk_of_reaches {root d : Dir} {a : List Text} (hlookup : root.lookup a = some (.folder d))
    (hd : d.DistinctlyNamed) (h : d.Reaches o names) :
    walk root a (names.map .name) = some (a ++ names) ∧
      ∃ content, root.lookup (a ++ names) = some (.file content) := by
  induction h generalizing a with
  | @file d name content hentry _ _ =>
      refine ⟨by simp [walk, hlookup, stepFrom], content, ?_⟩
      rw [Dir.lookup_concat hlookup, hd.find? hentry]
  | @folder d entries name names hentry _ _ ih =>
      have hfind := hd.find? hentry
      have hnext : root.lookup (a ++ [name]) = some (.folder entries) := by
        rw [Dir.lookup_concat hlookup, hfind]
      obtain ⟨hwalk, hfile⟩ := ih hnext (hd.of_find? hfind)
      rw [List.append_assoc, List.singleton_append] at hwalk hfile
      refine ⟨?_, hfile⟩
      rw [List.map_cons, walk, hlookup]
      exact hwalk

theorem steps_of_components (h : r.components = p.components ++ names.map .name) :
    r.steps = p.steps ++ names.map .name ∧ r.isAbsolute = p.isAbsolute := by
  constructor
  · rw [Path.steps_eq, Path.steps_eq, h, List.filter_append, List.append_right_inj]
    exact List.filter_eq_self.mpr (by simp)
  · rw [Bool.eq_iff_iff, Path.isAbsolute_iff, Path.isAbsolute_iff, h]
    simp

/-- A path that spells what an input offers leads to a file: to the names offered, below the place
of the input. -/
theorem leads_of_offers (hdistinct : w.root.DistinctlyNamed) (h : w.Offers o p names)
    (hr : r.components = p.components ++ names.map .name)
    (hends : r.EndsInName ∨ ∃ b, w.place? r = some b) :
    w.place? r = some (p.target w.cwd ++ names) ∧
      ∃ content, w.root.lookup (p.target w.cwd ++ names) = some (.file content) := by
  cases h with
  | @itself content name hfile _ _ =>
      obtain ⟨a, ha, hlookup⟩ := Option.bind_eq_some_iff.mp hfile
      -- the path can be another spelling of the input, which has the same key
      have hkey : p.key = r.key := by
        rw [Path.key, Path.key, hr, List.map_nil, List.append_nil]
      rw [← place?_eq_target ha, List.append_nil]
      exact ⟨place?_of_key hkey ha hends, content, hlookup⟩
  | @below entries _ hfolder hnames =>
      obtain ⟨a, ha, hlookup⟩ := Option.bind_eq_some_iff.mp hfolder
      obtain ⟨hsteps, habsolute⟩ := steps_of_components hr
      obtain ⟨hwalk, hfile⟩ := walk_of_reaches hlookup (hdistinct.of_lookup hlookup) hnames
      rw [← place?_eq_target ha]
      refine ⟨place?_of_walk_or hends ?_, hfile⟩
      rw [hsteps, habsolute, walk_append, walk_of_place? ha]
      exact hwalk

/-! ## Inputs that are spelled alike -/

theorem foldl_stepFrom_names (place names : List Text) :
    (names.map Component.name).foldl stepFrom place = place ++ names := by
  induction names generalizing place with
  | nil => simp
  | cons n names ih => simp [stepFrom, ih]

/-- Steps that never lead up are names. -/
theorem exists_names_of_steps (h : Component.parent ∉ p.components) :
    ∃ names : List Text, p.steps = names.map .name := by
  refine ⟨p.steps.map Component.letters, ?_⟩
  rw [List.map_map]
  refine (List.map_id p.steps).symm.trans (List.map_congr_left fun c hc => ?_)
  have hother := Path.ne_of_mem_steps hc
  cases c with
  | name n => rfl
  | root => exact absurd rfl hother.1
  | current => exact absurd rfl hother.2
  | parent => exact absurd (Path.components_eq p ▸ List.mem_append_right _ hc) h

/-- Paths that start alike, and from which no `..` leads up, are told apart by their places. -/
theorem components_of_alike (hlead : p.lead = q.lead) (hp : Component.parent ∉ p.components)
    (hq : Component.parent ∉ q.components)
    (h : p.target w.cwd ++ names = q.target w.cwd ++ names') :
    p.components ++ names.map .name = q.components ++ names'.map .name := by
  have habsolute : p.isAbsolute = q.isAbsolute := by
    have hroot : ∀ p : Path, p.isAbsolute = true ↔ p.lead = [.root] := by
      intro p
      unfold Path.lead
      split_ifs <;> simp_all
    rw [Bool.eq_iff_iff, hroot, hroot, hlead]
  obtain ⟨ps, hps⟩ := exists_names_of_steps hp
  obtain ⟨qs, hqs⟩ := exists_names_of_steps hq
  have hnames : ps ++ names = qs ++ names' := by
    rw [Path.target, Path.target, hps, hqs, habsolute, foldl_stepFrom_names,
      foldl_stepFrom_names, List.append_assoc, List.append_assoc] at h
    exact List.append_cancel_left h
  rw [Path.components_eq, Path.components_eq, hlead, hps, hqs, List.append_assoc,
    List.append_assoc, ← List.map_append, ← List.map_append, hnames]

/-! ## Runs -/

theorem paths_formatFiles (w : Workspace) (o : Options) (ps : List Path) :
    (w.formatFiles o ps).1.map FileReport.path = ps := by
  induction ps generalizing w with
  | nil => rfl
  | cons p ps ih =>
      have hstep : (w.formatFiles o (p :: ps)).1 =
          (w.formatAt o p).1 :: ((w.formatAt o p).2.formatFiles o ps).1 := rfl
      rw [hstep, List.map_cons, path_formatAt, ih]

theorem nodup_key_select (w : Workspace) (o : Options) (inputs : List Path) :
    ((w.select o inputs).map Path.key).Nodup := (Path.pairwise_sort _).imp fun h => h.ne

/-- Two selected paths with the same components are one. -/
theorem eq_of_mem_select (hp : p ∈ w.select o inputs) (hq : q ∈ w.select o inputs)
    (h : p.components = q.components) : p = q :=
  List.inj_on_of_nodup_map (nodup_key_select w o inputs) hp hq
    (congrArg (List.map Component.key) h)

/-- Inputs that offer one file give it the same components. -/
def AgreeOnFiles (w : Workspace) (o : Options) (inputs : List Path) : Prop :=
  ∀ p ∈ inputs, ∀ q ∈ inputs, ∀ names names', w.Offers o p names → w.Offers o q names' →
    p.target w.cwd ++ names = q.target w.cwd ++ names' →
    p.components ++ names.map .name = q.components ++ names'.map .name

section

variable (hproper : w.root.ProperlyNamed) (hdistinct : w.root.DistinctlyNamed)

include hproper hdistinct

theorem isSome_content?_of_mem_select (hr : r ∈ w.select o inputs) :
    (w.content? r).isSome = true := by
  obtain ⟨p, -, names, hoffers, hcomponents⟩ := offers_of_mem_select hproper hr
  obtain ⟨hplace, content, hlookup⟩ :=
    leads_of_offers hdistinct hoffers hcomponents (of_mem_select hr)
  simp [content?, node?, hplace, hlookup]

theorem nodup_place?_select_iff :
    ((w.select o inputs).map w.place?).Nodup ↔ w.AgreeOnFiles o inputs := by
  have hleads : ∀ r ∈ w.select o inputs, ∀ p names, w.Offers o p names →
      r.components = p.components ++ names.map .name →
      w.place? r = some (p.target w.cwd ++ names) :=
    fun r hr p names hoffers hcomponents =>
      (leads_of_offers hdistinct hoffers hcomponents (of_mem_select hr)).1
  constructor
  · -- one file offered twice is selected under one path, whose components both inputs give
    intro hnodup p hp q hq names names' hoffers hoffers' htarget
    obtain ⟨r, hr, hcomponents⟩ := exists_mem_select_of_offers hproper hp hoffers
    obtain ⟨s, hs, hcomponents'⟩ := exists_mem_select_of_offers hproper hq hoffers'
    have hplace : w.place? r = w.place? s := by
      rw [hleads r hr p names hoffers hcomponents, hleads s hs q names' hoffers' hcomponents',
        htarget]
    rw [← hcomponents, ← hcomponents', List.inj_on_of_nodup_map hnodup hr hs hplace]
  · -- paths to one file have the same components, and a selection has no two such paths
    intro hagree
    refine List.Nodup.map_on (fun r hr s hs hplace => ?_) ((nodup_key_select w o inputs).of_map _)
    obtain ⟨p, hp, names, hoffers, hcomponents⟩ := offers_of_mem_select hproper hr
    obtain ⟨q, hq, names', hoffers', hcomponents'⟩ := offers_of_mem_select hproper hs
    rw [hleads r hr p names hoffers hcomponents, hleads s hs q names' hoffers' hcomponents',
      Option.some.injEq] at hplace
    apply eq_of_mem_select hr hs
    rw [hcomponents, hcomponents']
    exact hagree p hp q hq names names' hoffers hoffers' hplace

end

theorem nodup_iff_length_dedup {α : Type} [DecidableEq α] (l : List α) :
    l.Nodup ↔ l.length = l.dedup.length := by
  rw [← List.dedup_eq_self]
  exact ⟨fun h => by rw [h], fun h => (List.dedup_sublist l).eq_of_length h.symm⟩

/-- A run processes each selected path, in order, and each of them leads to a file. It meets no
file twice if and only if inputs that offer one file give it the same components, and just then
the report counts as many files as there are. This is so for inputs that all start alike, and
from which no `..` leads up. -/
theorem each_file_once_iff (w : Workspace) (o : Options) (inputs : List Path)
    (hproper : w.root.ProperlyNamed) (hdistinct : w.root.DistinctlyNamed) :
    let results := (w.run o inputs).1.results
    let files := results.map fun r => w.place? r.path
    results.map FileReport.path = w.select o inputs ∧
    (∀ p ∈ w.select o inputs, (w.content? p).isSome = true) ∧
    (files.Nodup ↔ w.AgreeOnFiles o inputs) ∧
    (files.Nodup ↔ (w.run o inputs).1.counts.total = files.dedup.length) ∧
    ((∀ p ∈ inputs, ∀ q ∈ inputs, p.lead = q.lead) →
      (∀ p ∈ inputs, Component.parent ∉ p.components) → files.Nodup) := by
  intro results files
  have hpaths : results.map FileReport.path = w.select o inputs := paths_formatFiles w o _
  have hfiles : files = (w.select o inputs).map w.place? := by
    rw [← hpaths, List.map_map]
    rfl
  have honce : files.Nodup ↔ w.AgreeOnFiles o inputs := by
    rw [hfiles, nodup_place?_select_iff hproper hdistinct]
  refine ⟨hpaths, fun p hp => isSome_content?_of_mem_select hproper hdistinct hp, honce, ?_, ?_⟩
  · have hcount : (w.run o inputs).1.counts.total = files.length := by
      rw [counts_total, List.length_map]
    rw [hcount, nodup_iff_length_dedup]
  · intro hlead hparent
    apply honce.mpr
    intro p hp q hq names names' _ _ htarget
    exact components_of_alike (hlead p hp q hq) (hparent p hp) (hparent q hq) htarget

/-- Two files are met under `.` and again under `sub//`, so five are counted where there are
three. Inputs that all start with `.` name them once. -/
theorem each_file_once_iff_mixedTree :
    let w : Workspace := ⟨mixedTree, []⟩
    let o : Options := { exclude := ["old_*".toList] }
    let aliases : List Path := [⟨"sub//".toList⟩, ⟨".".toList⟩]
    let alike : List Path := [⟨"./sub//".toList⟩, ⟨".".toList⟩, ⟨"./sub/old_b.sql".toList⟩]
    w.root.ProperlyNamed ∧ w.root.DistinctlyNamed ∧
      (w.run o aliases).1.counts.total = 5 ∧
      ¬((w.run o aliases).1.results.map fun r => w.place? r.path).Nodup ∧
      ¬w.AgreeOnFiles o aliases ∧
      ((w.run o alike).1.results.map fun r => w.place? r.path).Nodup := by
  intro w o aliases alike
  have hproper : w.root.ProperlyNamed := by decide
  have hdistinct : w.root.DistinctlyNamed := by decide
  obtain ⟨-, -, hagree, hcount, -⟩ := each_file_once_iff w o aliases hproper hdistinct
  obtain ⟨-, -, -, -, halike⟩ := each_file_once_iff w o alike hproper hdistinct
  have htotal : (w.run o aliases).1.counts.total = 5 := by decide +kernel
  have htwice : ¬((w.run o aliases).1.results.map fun r => w.place? r.path).Nodup := by
    rw [hcount, htotal]
    decide +kernel
  exact ⟨hproper, hdistinct, htotal, htwice, mt hagree.mpr htwice,
    halike (by decide +kernel) (by decide +kernel)⟩

end Workspace

end SqlLayout
