import SqlLayout.Proofs.Spellings

set_option autoImplicit false

/-! # What a run selects

The selected paths are those that the inputs stand for: an input that leads to a file with the
extension of a SQL file, and everything that is reached from an input that leads to a directory,
entry by entry, through names that are not passed over (`Dir.Reaches`). The search spells the
path of an entry by joining its name to the spelling of the directory, which adds one component
(`Path.components_join`); so what it finds below a directory has the components of the directory
and, behind them, the names of the entries on the way (`Selection.exists_mem_below_iff`).

The paths come in the order of their components (`Path.key_lt_iff`).

A name is taken to have a character, and no slash among its characters. Nothing else is assumed
about a tree: of two entries with one name, both are listed. That an entry is a file or a
directory is part of what a tree is (`Dir`).
-/

namespace SqlLayout

/-! ## The order of paths -/

namespace Component

/-- The kinds of components in order: the root, `.`, `..`, then names. -/
def rank : Component → Nat
  | root => 0
  | current => 1
  | parent => 2
  | name _ => 3

/-- The letters of a name; other components have none. -/
def letters : Component → Text
  | name s => s
  | _ => []

/-- A component comes before another: it is of an earlier kind, or both are names and the first
comes earlier character by character. -/
inductive Before : Component → Component → Prop
  | kind {c d : Component} (h : c.rank < d.rank) : Before c d
  | name {s t : Text} (h : List.Lex (· < ·) s t) : Before (.name s) (.name t)

end Component

/-- An order that is read off the images of entries is read off the images of lists. -/
theorem lex_map_iff {α β : Type} {r : α → α → Prop} {s : β → β → Prop} {f : α → β}
    (hf : Function.Injective f) (h : ∀ a b, s (f a) (f b) ↔ r a b) (l m : List α) :
    List.Lex s (l.map f) (m.map f) ↔ List.Lex r l m := by
  induction l generalizing m with
  | nil =>
      cases m with
      | nil => simp [List.not_lex_nil]
      | cons b bs => exact iff_of_true .nil .nil
  | cons a as ih =>
      cases m with
      | nil => simp [List.not_lex_nil]
      | cons b bs => simp [List.cons_lex_cons_iff, h, ih, hf.eq_iff]

namespace Component

theorem before_iff {c d : Component} :
    Before c d ↔
      c.rank < d.rank ∨ c.rank = d.rank ∧ List.Lex (· < ·) c.letters d.letters := by
  constructor
  · intro h
    cases h with
    | kind h => exact Or.inl h
    | name h => exact Or.inr ⟨rfl, h⟩
  · rintro (h | ⟨hrank, hlex⟩)
    · exact .kind h
    · -- components of one kind have no letters to differ in, unless they are names
      cases c <;> cases d <;>
        first | exact .name hlex | exact absurd hlex List.not_lex_nil | simp [rank] at hrank

theorem key_lt_iff (c d : Component) : c.key < d.key ↔ Before c d := by
  have hinj : Function.Injective Char.toNat := fun x y hxy => Char.toNat_inj.mp hxy
  have hletters : List.Lex (· < ·) (c.letters.map Char.toNat) (d.letters.map Char.toNat) ↔
      List.Lex (· < ·) c.letters d.letters :=
    lex_map_iff hinj (fun _ _ => Iff.rfl) _ _
  have hkey : ∀ c : Component, c.key = c.rank :: c.letters.map Char.toNat := by
    intro c
    cases c <;> rfl
  rw [before_iff, ← hletters, hkey, hkey]
  exact List.cons_lex_cons_iff

end Component

/-- Paths are ordered component by component. -/
theorem Path.key_lt_iff (p q : Path) :
    p.key < q.key ↔ List.Lex Component.Before p.components q.components :=
  lex_map_iff (fun _ _ => Component.key_injective) Component.key_lt_iff p.components q.components

/-! ## Names -/

/-- A name has the extension of a SQL file: `sql`, `ddl` or `dml` in any letter case, behind the
last dot, which is not the first character. -/
def HasSqlExtension (name : Text) : Prop :=
  ∃ stem ext, stem ≠ [] ∧ '.' ∉ ext ∧ name = stem ++ '.' :: ext ∧
    ext.map Char.toLower ∈ ["sql".toList, "ddl".toList, "dml".toList]

namespace Path

theorem extensionOf?_eq_some_iff {name ext : Text} :
    extensionOf? name = some ext ↔ ∃ stem, stem ≠ [] ∧ '.' ∉ ext ∧ name = stem ++ '.' :: ext := by
  constructor
  · intro h
    obtain ⟨stem, hname⟩ := extensionOf?_split h
    unfold extensionOf? at h
    dsimp only at h
    split at h
    · rename_i hshort
      obtain rfl := Option.some.inj h
      refine ⟨stem, ?_, ?_, hname⟩
      · rintro rfl
        have hlength := congrArg List.length hname
        simp only [List.nil_append, List.length_cons, List.length_reverse] at hlength
        omega
      · intro hdot
        have hne := List.mem_takeWhile_imp (List.mem_reverse.mp hdot)
        simp at hne
    · cases h
  · rintro ⟨stem, hstem, hdot, rfl⟩
    -- read from the right, the first `.` is the one in front of the extension
    have htail : (stem ++ '.' :: ext).reverse.takeWhile (· != '.') = ext.reverse := by
      have hext : ∀ c ∈ ext.reverse, (c != '.') = true := by
        intro c hc
        rw [bne_iff_ne]
        rintro rfl
        exact hdot (List.mem_reverse.mp hc)
      have hspelling : (stem ++ '.' :: ext).reverse = ext.reverse ++ '.' :: stem.reverse := by simp
      rw [hspelling, List.takeWhile_append_of_pos hext]
      simp
    have hlength := List.length_pos_iff.mpr hstem
    unfold extensionOf?
    dsimp only
    rw [htail, if_pos (by simp; omega), List.reverse_reverse]

end Path

/-- Letter case is folded up or down alike. -/
theorem map_toLower_eq_iff (s t : Text) :
    s.map Char.toLower = t.map Char.toLower ↔ s.upper = t.upper := by
  have hlower : ∀ t : Text, t.upper.map Char.toLower = t.map Char.toLower := by
    intro t
    rw [Text.upper, List.map_map]
    exact List.map_congr_left fun c _ => apply_toUpper (f := Char.toLower) (by decide) c
  have hupper : ∀ t : Text, Text.upper (t.map Char.toLower) = t.upper := by
    have hcapital : ∀ n : Fin 26,
        (Char.ofNat (65 + n)).toLower.toUpper = (Char.ofNat (65 + n)).toUpper := by decide
    intro t
    rw [Text.upper, Text.upper, List.map_map]
    refine List.map_congr_left fun c _ => ?_
    show c.toLower.toUpper = c.toUpper
    by_cases h : 65 ≤ c.toNat ∧ c.toNat ≤ 90
    · obtain ⟨n, rfl⟩ := exists_letter h
      exact hcapital n
    · rw [show c.toLower = c from dif_neg h]
  constructor
  · intro h
    rw [← hupper s, h, hupper]
  · intro h
    rw [← hlower s, h, hlower]

theorem isSqlName_iff {name : Text} : isSqlName name = true ↔ HasSqlExtension name := by
  -- the list is compared in capitals, the extensions are named in small letters
  have hknown : ∀ ext : Text, Options.extensions.any (Text.same ext) = true ↔
      ext.map Char.toLower ∈ ["sql".toList, "ddl".toList, "dml".toList] := by
    intro ext
    have hsmall : ∀ known ∈ Options.extensions, known.map Char.toLower = known := by decide
    have hlist : Options.extensions = ["sql".toList, "ddl".toList, "dml".toList] := by decide
    rw [← hlist, List.any_eq_true]
    constructor
    · rintro ⟨known, hmem, hsame⟩
      have heq := (map_toLower_eq_iff ext known).mpr (Text.same_iff.mp hsame)
      rwa [heq, hsmall known hmem]
    · intro hmem
      refine ⟨_, hmem, Text.same_iff.mpr ((map_toLower_eq_iff _ _).mp ?_)⟩
      exact (hsmall _ hmem).symm
  unfold isSqlName HasSqlExtension
  constructor
  · intro h
    split at h
    · rename_i ext hext
      obtain ⟨stem, hstem, hdot, hname⟩ := Path.extensionOf?_eq_some_iff.mp hext
      exact ⟨stem, ext, hstem, hdot, hname, (hknown ext).mp h⟩
    · cases h
  · rintro ⟨stem, ext, hstem, hdot, hname, hmem⟩
    rw [Path.extensionOf?_eq_some_iff.mpr ⟨stem, hstem, hdot, hname⟩]
    exact (hknown ext).mpr hmem

/-- An entry with this name is followed: it is not hidden, and no exclude pattern that can be
read covers it. -/
def Options.Admits (o : Options) (name : Text) : Prop :=
  name.head? ≠ some '.' ∧
    ∀ t ∈ o.exclude, ∀ pattern, Pattern.parse? t = some pattern → pattern.covers name = false

namespace Selection

theorem skips_eq_false_iff {o : Options} {name : Text} :
    skips (o.exclude.filterMap Pattern.parse?) name = false ↔ o.Admits name := by
  unfold skips Options.Admits
  rw [Bool.or_eq_false_iff, beq_eq_false_iff_ne, List.any_eq_false]
  refine and_congr_right fun _ => ?_
  constructor
  · intro h t ht pattern hparse
    simpa using h pattern (List.mem_filterMap.mpr ⟨t, ht, hparse⟩)
  · intro h pattern hmem
    obtain ⟨t, ht, hparse⟩ := List.mem_filterMap.mp hmem
    simp [h t ht pattern hparse]

theorem not_admits_of_skips {o : Options} {name : Text}
    (h : skips (o.exclude.filterMap Pattern.parse?) name = true) : ¬o.Admits name := by
  rw [← skips_eq_false_iff, h]
  exact Bool.noConfusion

end Selection

/-! ## Entries of a directory -/

namespace Dir

/-- The entries of a directory, each with its name. -/
def listing : Dir → List (Text × Node)
  | empty => []
  | file name content others => (name, .file content) :: listing others
  | folder name entries others => (name, .folder entries) :: listing others

/-- Each name in the tree has a character, and no slash. -/
def ProperlyNamed : Dir → Prop
  | empty => True
  | file name _ others => name ≠ [] ∧ '/' ∉ name ∧ others.ProperlyNamed
  | folder name entries others =>
    name ≠ [] ∧ '/' ∉ name ∧ entries.ProperlyNamed ∧ others.ProperlyNamed

instance decidableProperlyNamed : (d : Dir) → Decidable d.ProperlyNamed
  | empty => inferInstanceAs (Decidable True)
  | file name _ others =>
    have := decidableProperlyNamed others
    inferInstanceAs (Decidable (name ≠ [] ∧ '/' ∉ name ∧ others.ProperlyNamed))
  | folder name entries others =>
    have := decidableProperlyNamed entries
    have := decidableProperlyNamed others
    inferInstanceAs (Decidable (name ≠ [] ∧ '/' ∉ name ∧ entries.ProperlyNamed ∧
      others.ProperlyNamed))

theorem ProperlyNamed.of_find? {d entries : Dir} {name : Text} (h : d.ProperlyNamed)
    (hfind : d.find? name = some (.folder entries)) : entries.ProperlyNamed := by
  induction d with
  | empty => cases hfind
  | file n content others ih =>
      rw [find?] at hfind
      split at hfind
      · cases hfind
      · exact ih h.2.2 hfind
  | folder n sub others _ ih =>
      rw [find?] at hfind
      split at hfind
      · cases hfind
        exact h.2.2.1
      · exact ih h.2.2.2 hfind

theorem ProperlyNamed.of_lookup {d entries : Dir} {place : List Text} (h : d.ProperlyNamed)
    (hlookup : d.lookup place = some (.folder entries)) : entries.ProperlyNamed := by
  fun_induction lookup d place with
  | case1 d =>
      cases hlookup
      exact h
  | case2 d n => exact h.of_find? hlookup
  | case3 d n m ns sub hfind ih => exact ih (h.of_find? hfind) hlookup
  | case4 => cases hlookup

/-- The names lead from a directory to a SQL file, entry by entry: the last is that of the file,
all others are those of directories, and none is passed over. -/
inductive Reaches (o : Options) : Dir → List Text → Prop
  | file {d : Dir} {name : Text} {content : ByteArray} (hentry : (name, .file content) ∈ d.listing)
      (hadmits : o.Admits name) (hsql : HasSqlExtension name) : Reaches o d [name]
  | folder {d entries : Dir} {name : Text} {names : List Text}
      (hentry : (name, .folder entries) ∈ d.listing) (hadmits : o.Admits name)
      (hnames : Reaches o entries names) : Reaches o d (name :: names)

variable {o : Options} {names : List Text}

theorem not_reaches_empty : ¬Reaches o .empty names := by
  rintro (⟨hentry, -, -⟩ | ⟨hentry, -, -⟩) <;> cases hentry

/-- More entries lead to more files. -/
theorem Reaches.of_subset {d d' : Dir} (h : Reaches o d names) (hsub : d.listing ⊆ d'.listing) :
    Reaches o d' names := by
  cases h with
  | file hentry hadmits hsql => exact .file (hsub hentry) hadmits hsql
  | folder hentry hadmits hnames => exact .folder (hsub hentry) hadmits hnames

theorem reaches_file_iff {name : Text} {content : ByteArray} {others : Dir} :
    Reaches o (.file name content others) names ↔
      (o.Admits name ∧ HasSqlExtension name ∧ names = [name]) ∨ Reaches o others names := by
  constructor
  · rintro (⟨hentry, hadmits, hsql⟩ | ⟨hentry, hadmits, hnames⟩)
    · rcases List.mem_cons.mp hentry with heq | hentry
      · cases heq
        exact Or.inl ⟨hadmits, hsql, rfl⟩
      · exact Or.inr (.file hentry hadmits hsql)
    · rcases List.mem_cons.mp hentry with heq | hentry
      · cases heq
      · exact Or.inr (.folder hentry hadmits hnames)
  · rintro (⟨hadmits, hsql, rfl⟩ | h)
    · exact .file List.mem_cons_self hadmits hsql
    · exact h.of_subset (List.subset_cons_self _ _)

theorem reaches_folder_iff {name : Text} {entries others : Dir} :
    Reaches o (.folder name entries others) names ↔
      (o.Admits name ∧ ∃ rest, Reaches o entries rest ∧ names = name :: rest) ∨
        Reaches o others names := by
  constructor
  · rintro (⟨hentry, hadmits, hsql⟩ | ⟨hentry, hadmits, hnames⟩)
    · rcases List.mem_cons.mp hentry with heq | hentry
      · cases heq
      · exact Or.inr (.file hentry hadmits hsql)
    · rcases List.mem_cons.mp hentry with heq | hentry
      · cases heq
        exact Or.inl ⟨hadmits, _, hnames, rfl⟩
      · exact Or.inr (.folder hentry hadmits hnames)
  · rintro (⟨hadmits, rest, hrest, rfl⟩ | h)
    · exact .folder List.mem_cons_self hadmits hrest
    · exact h.of_subset (List.subset_cons_self _ _)

end Dir

/-! ## Spelled paths of entries -/

/-- Text on both sides of a mark is cut on its own. -/
theorem Text.splitOn_mark_append {d : Char} (hd : isWordChar d = false) (s t : Text) :
    splitOn (s ++ d :: t) [d] = splitOn s [d] ++ splitOn t [d] := by
  induction s with
  | nil =>
      rw [List.nil_append, splitOn_mark_cons hd, if_pos rfl]
      rfl
  | cons c cs ih =>
      rw [List.cons_append, splitOn_mark_cons hd, splitOn_mark_cons hd, ih]
      split
      · rfl
      · cases hcs : splitOn cs [d] with
        | nil => simp [splitOn] at hcs
        | cons p ps => rfl

namespace Path

variable {p : Path} {name : Text}

theorem ofSegment?_eq_name (hname : name ≠ []) (hhidden : name.head? ≠ some '.') :
    Component.ofSegment? name = some (.name name) := by
  have hdot : name ≠ ['.'] := by
    rintro rfl
    exact hhidden rfl
  have hdots : name ≠ ['.', '.'] := by
    rintro rfl
    exact hhidden rfl
  simp [Component.ofSegment?, hname, hdot, hdots]

/-- A spelling with one segment more at its end, in place of segments that do not count. -/
theorem components_of_segments {q : Path} {counted passed : List Text}
    (hhead : q.spelling.head? = p.spelling.head?) (hcounted : counted ≠ [])
    (hp : p.segments = counted ++ passed) (hpassed : passed.filterMap Component.ofSegment? = [])
    (hq : q.segments = counted ++ [name])
    (hsegment : Component.ofSegment? name = some (.name name)) :
    q.components = p.components ++ [.name name] := by
  have hfirst : q.segments.head? = p.segments.head? := by
    rw [hp, hq, List.head?_append_of_ne_nil _ hcounted, List.head?_append_of_ne_nil _ hcounted]
  have hlead : q.lead = p.lead := by
    unfold lead isAbsolute
    rw [hhead, hfirst]
  have hsteps : q.steps = p.steps ++ [.name name] := by
    unfold steps
    rw [hp, hq, List.filterMap_append, List.filterMap_append, hpassed, List.append_nil]
    simp [hsegment]
  rw [components_eq, components_eq, hlead, hsteps, List.append_assoc]

/-- The entry of a directory has one component more. -/
theorem components_join (hp : p.spelling ≠ []) (hname : name ≠ []) (hslash : '/' ∉ name)
    (hhidden : name.head? ≠ some '.') :
    (p.join name).components = p.components ++ [.name name] := by
  have hmark : isWordChar '/' = false := by decide
  have hsegment := ofSegment?_eq_name hname hhidden
  have hsegments : ∀ u v : Text, '/' ∉ v →
      segments ⟨u ++ '/' :: v⟩ = segments ⟨u⟩ ++ [v] := by
    intro u v hv
    rw [segments, Text.splitOn_mark_append hmark, Text.splitOn_mark_of_not_mem hmark hv]
    rfl
  obtain ⟨spelling⟩ := p
  unfold join
  split
  · -- the slash at the end of the directory is the one in front of the name
    rename_i hends
    have hlast : spelling.getLast? = some '/' := by simpa [List.isEmpty_iff, hp] using hends
    obtain ⟨u, rfl⟩ := List.getLast?_eq_some_iff.mp hlast
    refine components_of_segments ?_ (segments_ne_nil ⟨u⟩) (hsegments u [] (by simp)) rfl ?_
      hsegment
    · cases u <;> rfl
    · rw [List.append_assoc]
      exact hsegments u name hslash
  · refine components_of_segments ?_ (segments_ne_nil ⟨spelling⟩)
      (List.append_nil _).symm rfl (hsegments spelling name hslash) hsegment
    exact List.head?_append_of_ne_nil _ hp

theorem spelling_join_ne_nil (hname : name ≠ []) : (p.join name).spelling ≠ [] := by
  unfold join
  split <;> simp [hname]

end Path

/-! ## What the search finds -/

namespace Selection

/-- Below a directory the search finds what names lead to from there. -/
theorem exists_mem_below_iff {o : Options} {dir : Path} {d : Dir} {cs : List Component}
    (hdir : dir.spelling ≠ []) (hd : d.ProperlyNamed) :
    (∃ r ∈ below (o.exclude.filterMap Pattern.parse?) dir d, r.components = cs) ↔
      ∃ names, d.Reaches o names ∧ cs = dir.components ++ names.map .name := by
  induction d generalizing dir with
  | empty => simp [below, Dir.not_reaches_empty]
  | file name content others ih =>
      obtain ⟨hname, hslash, hothers⟩ := hd
      simp only [below, Dir.reaches_file_iff, or_and_right, exists_or, ← ih hdir hothers]
      cases hskips : skips (o.exclude.filterMap Pattern.parse?) name with
      | true =>
          simp [not_admits_of_skips hskips]
      | false =>
          have hadmits := skips_eq_false_iff.mp hskips
          have hjoin := Path.components_join hdir hname hslash hadmits.1
          by_cases hsql : isSqlName name = true
          · simp [hadmits, isSqlName_iff.mp hsql, hsql, hjoin, eq_comm]
          · have hnot : ¬HasSqlExtension name := mt isSqlName_iff.mpr hsql
            simp [hnot, hsql]
  | folder name entries others ihEntries ihOthers =>
      obtain ⟨hname, hslash, hentries, hothers⟩ := hd
      simp only [below, Dir.reaches_folder_iff, or_and_right, exists_or, ← ihOthers hdir hothers]
      cases hskips : skips (o.exclude.filterMap Pattern.parse?) name with
      | true =>
          simp [not_admits_of_skips hskips]
      | false =>
          have hadmits := skips_eq_false_iff.mp hskips
          have hjoin := Path.components_join hdir hname hslash hadmits.1
          -- the search goes on from the joined path, which has one component more
          have hbelow := ihEntries (Path.spelling_join_ne_nil (p := dir) hname) hentries
          simp only [Bool.false_eq_true, if_false, List.mem_append, or_and_right, exists_or]
          refine or_congr_left ?_
          rw [hbelow, hjoin]
          constructor
          · rintro ⟨rest, hrest, rfl⟩
            exact ⟨name :: rest, ⟨hadmits, rest, hrest, rfl⟩, by simp⟩
          · rintro ⟨_, ⟨-, rest, hrest, rfl⟩, rfl⟩
            exact ⟨rest, hrest, by simp⟩

end Selection

/-- Sorting keeps a spelling of each path. -/
theorem Path.exists_mem_sort_iff {ps : List Path} {q : Path} :
    (∃ r ∈ sort ps, r.components = q.components) ↔ ∃ r ∈ ps, r.components = q.components := by
  have hkey : ∀ rs : List Path,
      (∃ r ∈ rs, r.components = q.components) ↔ q.key ∈ rs.map key := by
    intro rs
    rw [List.mem_map]
    refine exists_congr fun r => and_congr_right fun _ => ?_
    exact ⟨fun h => congrArg (List.map Component.key) h, components_eq_of_key⟩
  rw [hkey, hkey, mem_map_key_sort]

namespace Workspace

variable {w : Workspace} {p : Path}

theorem spelling_ne_nil_of_node? {node : Node} (h : w.node? p = some node) :
    p.spelling ≠ [] := by
  intro hnil
  simp [node?, place?, hnil] at h

theorem properlyNamed_of_node? {entries : Dir} (hnames : w.root.ProperlyNamed)
    (h : w.node? p = some (.folder entries)) : entries.ProperlyNamed := by
  obtain ⟨place, -, hlookup⟩ := Option.bind_eq_some_iff.mp h
  exact hnames.of_lookup hlookup

end Workspace

theorem Path.isSql_iff {p : Path} : p.isSql = true ↔
    ∃ name, p.components.getLast? = some (.name name) ∧ HasSqlExtension name := by
  unfold isSql fileName?
  cases p.components.getLast? with
  | none => simp
  | some c => cases c <;> simp [isSqlName_iff]

/-- An input stands for itself, if it is a SQL file, or for what it reaches, if it is a
directory. -/
theorem Selection.exists_mem_ofInput_iff {w : Workspace} {o : Options} {p : Path}
    {cs : List Component} (hnames : w.root.ProperlyNamed) :
    (∃ r ∈ ofInput w (o.exclude.filterMap Pattern.parse?) p, r.components = cs) ↔
      (p.components = cs ∧ (∃ content, w.node? p = some (.file content)) ∧
        ∃ name, p.components.getLast? = some (.name name) ∧ HasSqlExtension name) ∨
      ∃ entries names, w.node? p = some (.folder entries) ∧ entries.Reaches o names ∧
        cs = p.components ++ names.map .name := by
  unfold ofInput
  cases hnode : w.node? p with
  | none => simp
  | some node =>
      cases node with
      | file content =>
          rw [← Path.isSql_iff]
          cases p.isSql <;> simp
      | folder entries =>
          have hspelling := Workspace.spelling_ne_nil_of_node? hnode
          have hproper := Workspace.properlyNamed_of_node? hnames hnode
          simp [exists_mem_below_iff hspelling hproper]

namespace Workspace

/-- The selected paths are strictly ordered component by component, and up to the spelling they
are the inputs that are SQL files and the SQL files that the input directories reach. Trees hold
files and directories only (`Dir`), so this says nothing of the pipes, sockets and devices that a
walk would take below a directory. -/
theorem select_exactly_reached (w : Workspace) (o : Options) (inputs : List Path)
    (hnames : w.root.ProperlyNamed) :
    (w.select o inputs).Pairwise (fun p q =>
      List.Lex Component.Before p.components q.components ∧ p.components ≠ q.components) ∧
    ∀ q : Path, (∃ r ∈ w.select o inputs, r.components = q.components) ↔
      (∃ p ∈ inputs, p.components = q.components ∧
        (∃ content, w.node? p = some (.file content)) ∧
        ∃ name, p.components.getLast? = some (.name name) ∧ HasSqlExtension name) ∨
      ∃ p ∈ inputs, ∃ entries names, w.node? p = some (.folder entries) ∧
        entries.Reaches o names ∧ q.components = p.components ++ names.map .name := by
  constructor
  · have hsorted := List.pairwise_map.mp (Path.pairwise_sort
      (inputs.flatMap (Selection.ofInput w (o.exclude.filterMap Pattern.parse?))))
    refine hsorted.imp fun {p q} hless => ⟨(Path.key_lt_iff p q).mp hless, fun heq => ?_⟩
    exact absurd (congrArg (List.map Component.key) heq) hless.ne
  · intro q
    -- what one input gives, for each of the inputs
    have hinputs : (∃ r ∈ w.select o inputs, r.components = q.components) ↔
        ∃ p ∈ inputs, ∃ r ∈ Selection.ofInput w (o.exclude.filterMap Pattern.parse?) p,
          r.components = q.components := by
      unfold select
      rw [Path.exists_mem_sort_iff]
      constructor
      · rintro ⟨r, hr, hq⟩
        obtain ⟨p, hp, hr⟩ := List.mem_flatMap.mp hr
        exact ⟨p, hp, r, hr, hq⟩
      · rintro ⟨p, hp, r, hr, hq⟩
        exact ⟨r, List.mem_flatMap.mpr ⟨p, hp, hr⟩, hq⟩
    simp only [hinputs, Selection.exists_mem_ofInput_iff hnames, and_or_left, exists_or]

/-- A tree with a hidden file, a hidden directory, a file in capitals, and files to leave out. -/
def mixedTree : Dir :=
  .file "a.SQL".toList .empty
    (.file ".hidden.sql".toList .empty
      (.folder ".cache".toList (.file "c.sql".toList .empty .empty)
        (.folder "sub".toList
          (.file "b.ddl".toList .empty
            (.file "old_b.sql".toList .empty
              (.folder "deep".toList (.file "x.y.dml".toList .empty .empty) .empty)))
          (.file "notes.txt".toList .empty .empty))))

/-- A directory in three spellings, two of them alike, and a file that is left out on the way
down but not as an input; one of the patterns cannot be read. -/
theorem select_exactly_reached_mixedTree :
    let w : Workspace := ⟨mixedTree, []⟩
    let o : Options := { exclude := ["old_*".toList, "[".toList] }
    let inputs : List Path := [⟨"sub//".toList⟩, ⟨"./".toList⟩, ⟨"sub".toList⟩,
      ⟨"sub/old_b.sql".toList⟩]
    w.root.ProperlyNamed ∧
      (w.select o inputs).Pairwise (fun p q =>
        List.Lex Component.Before p.components q.components ∧ p.components ≠ q.components) ∧
      (∃ r ∈ w.select o inputs, r.components =
        [.name "sub".toList, .name "deep".toList, .name "x.y.dml".toList]) ∧
      (∃ r ∈ w.select o inputs, r.components = [.name "sub".toList, .name "old_b.sql".toList]) ∧
      (w.select o inputs).map (fun p => String.ofList p.spelling) =
        ["./a.SQL", "./sub/b.ddl", "./sub/deep/x.y.dml", "sub//b.ddl", "sub//deep/x.y.dml",
          "sub/old_b.sql"] := by
  intro w o inputs
  have hnames : w.root.ProperlyNamed := by decide
  obtain ⟨hordered, hselected⟩ := select_exactly_reached w o inputs hnames
  have hadmits : ∀ name ∈ ["deep".toList, "x.y.dml".toList], o.Admits name := by
    intro name hname
    rw [← Selection.skips_eq_false_iff]
    revert name
    decide +kernel
  refine ⟨hnames, hordered, ?_, ?_, by decide +kernel⟩
  · have hreaches : Dir.Reaches o
        (.file "b.ddl".toList .empty
          (.file "old_b.sql".toList .empty
            (.folder "deep".toList (.file "x.y.dml".toList .empty .empty) .empty)))
        ["deep".toList, "x.y.dml".toList] := by
      refine .folder (.tail _ (.tail _ (.head _))) (hadmits _ (by simp))
        (.file (.head _) (hadmits _ (by simp)) ?_)
      exact isSqlName_iff.mp (by decide +kernel)
    exact (hselected ⟨"sub/deep/x.y.dml".toList⟩).mpr
      (Or.inr ⟨⟨"sub".toList⟩, by decide +kernel, _, _, rfl, hreaches, by decide +kernel⟩)
  · refine (hselected ⟨"sub/old_b.sql".toList⟩).mpr (Or.inl ⟨⟨"sub/old_b.sql".toList⟩,
      by decide +kernel, rfl, ⟨_, rfl⟩, _, rfl, ?_⟩)
    exact isSqlName_iff.mp (by decide +kernel)

end Workspace

end SqlLayout
