import SqlLayout.Proofs.FileChanges
import SqlLayout.Settings

set_option autoImplicit false

/-! # The search for settings

If no settings file is named, the first existing file of one sequence is read: for each input, the
files of its directory and of all directories above it, and last the file of the user. The search
leaves out directories that come again. They are told apart by their components, and a directory
has its files under every spelling, so that never changes what is found
(`Workspace.findSettings?_eq`). What is behind the file that is found does not matter
(`Workspace.AgreesBut.loadOptions_eq`).

The search ends at a file that exists, whatever it holds. A settings file shared with other tools
that holds nothing for this one gives the defaults, and hides all files behind it
(`Workspace.loadOptions_remove`, `Workspace.readSettings_of_lacksSection`).
-/

namespace SqlLayout

namespace Workspace

/-! ## What a search looks at -/

variable {w w' : Workspace} {p q : Path} {a : List Text} {configHome : Option Path}
  {inputs : List Path}

theorem contains_eq (w : Workspace) (p : Path) : w.contains p = (w.seenAt? p).isSome := by
  rw [contains, seenAt?_eq, Option.isSome_map]

theorem isSome_entries?_iff : (w.entries? p).isSome = true ↔ w.seenAt? p = some none := by
  rw [entries?, seenAt?_eq]
  cases w.node? p with
  | none => simp
  | some node => cases node <;> simp [Node.content?]

/-- The settings at a path depend on what there is where it leads. -/
theorem readSettings_congr (h : w'.seenAt? p = w.seenAt? p) :
    w'.readSettings p = w.readSettings p := by
  rw [seenAt?_eq, seenAt?_eq] at h
  unfold readSettings
  cases hold : w.node? p with
  | none =>
      rw [hold, Option.map_none, Option.map_eq_none_iff] at h
      rw [h]
  | some node =>
      rw [hold, Option.map_some, Option.map_eq_some_iff] at h
      obtain ⟨node', hnew, hcontent⟩ := h
      rw [hnew]
      cases node <;> cases node' <;> cases hcontent <;> rfl

/-- The settings files in the order in which they count, with repeats: those of the directory of
each input and of the directories above it, and last that of the user. -/
def settingsSequence (w : Workspace) (configHome : Option Path) (inputs : List Path) : List Path :=
  (inputs.flatMap fun input => (w.searchStart input).ancestors).flatMap settingsFilesIn ++
    configHome.toList.map userSettingsFile

/-- The options given by the settings file that is chosen, the defaults if none is. -/
def optionsFrom (w : Workspace) : Option Path → Except SettingsError Options
  | some p => (w.readSettings p).bind Settings.apply
  | none => .ok {}

/-! ## Repeats -/

theorem findSome?_foldl_withoutRepeats {β : Type} {g : Path → Option β}
    (hg : ∀ p q, p.key = q.key → (g p).isSome = (g q).isSome) (ps seen : List Path) :
    (ps.foldl (fun seen p => if seen.any (Path.same p) then seen else seen ++ [p]) seen).findSome? g
      = (seen.findSome? g).or (ps.findSome? g) := by
  induction ps generalizing seen with
  | nil => simp
  | cons p ps ih =>
      rw [List.foldl_cons, ih]
      split
      · rename_i hany
        obtain ⟨q, hq, hsame⟩ := List.any_eq_true.mp hany
        -- if there is something to find here, it was found before
        cases hp : g p with
        | none => simp [hp]
        | some b =>
            have hfound : (seen.findSome? g).isSome = true := by
              apply List.findSome?_isSome_iff.mpr
              refine ⟨q, hq, ?_⟩
              rw [← hg p q (by simpa [Path.same] using hsame), hp]
              rfl
            obtain ⟨c, hc⟩ := Option.isSome_iff_exists.mp hfound
            simp [hc]
      · rw [List.findSome?_append, Option.or_assoc]
        congr 1
        rw [List.findSome?_cons, List.findSome?_cons]
        cases g p <;> simp

/-- Leaving out repeats does not change what is found first. -/
theorem findSome?_withoutRepeats {β : Type} {g : Path → Option β}
    (hg : ∀ p q, p.key = q.key → (g p).isSome = (g q).isSome) (ps : List Path) :
    (withoutRepeats ps).findSome? g = ps.findSome? g := by
  rw [withoutRepeats, findSome?_foldl_withoutRepeats hg]
  simp

theorem isEntryName_settings : IsEntryName sharedFile ∧ IsEntryName projectFile :=
  ⟨⟨by decide, by decide, by decide⟩, ⟨by decide, by decide, by decide⟩⟩

/-- A directory has its settings files under each of its spellings. -/
theorem isSome_find?_settingsFilesIn (h : p.key = q.key) :
    ((settingsFilesIn p).find? w.contains).isSome =
      ((settingsFilesIn q).find? w.contains).isSome := by
  have hcontains : ∀ {name : Text}, IsEntryName name →
      w.contains (p.join name) = w.contains (q.join name) := by
    intro name hname
    rw [contains_eq, contains_eq, seenAt?, seenAt?, place?_join_congr hname h]
  rw [Bool.eq_iff_iff, List.find?_isSome, List.find?_isSome]
  simp only [settingsFilesIn, List.mem_cons, List.not_mem_nil, or_false, exists_eq_or_imp,
    exists_eq_left, hcontains isEntryName_settings.1, hcontains isEntryName_settings.2]

theorem findSettings?_eq (w : Workspace) (configHome : Option Path) (inputs : List Path) :
    w.findSettings? configHome inputs =
      (w.settingsSequence configHome inputs).find? w.contains := by
  unfold findSettings? settingsSequence searchPath
  rw [List.find?_append, List.find?_append, List.find?_flatMap, List.find?_flatMap,
    findSome?_withoutRepeats fun _ _ => isSome_find?_settingsFilesIn]

theorem loadOptions_eq (w : Workspace) (configHome : Option Path) (inputs : List Path) :
    w.loadOptions configHome inputs none =
      w.optionsFrom ((w.settingsSequence configHome inputs).find? w.contains) := by
  rw [← findSettings?_eq, loadOptions]
  cases w.findSettings? configHome inputs <;> rfl

/-! ## Other files -/

theorem AgreesBut.settingsSequence_eq (h : w.AgreesBut w' a) (configHome : Option Path)
    (inputs : List Path) :
    w'.settingsSequence configHome inputs = w.settingsSequence configHome inputs := by
  have hstart : ∀ input, w'.searchStart input = w.searchStart input := by
    intro input
    unfold searchStart
    simp only [isSome_entries?_iff, h.folder_iff]
  unfold settingsSequence
  simp only [hstart]

/-- What is found first depends on nothing behind it. -/
theorem find?_congr_upto {α : Type} {f g : α → Bool} {l : List α}
    (hbefore : ∀ x ∈ l.takeWhile (fun x => !f x), g x = f x)
    (hfound : ∀ x ∈ l.find? f, g x = f x) : l.find? g = l.find? f := by
  induction l with
  | nil => rfl
  | cons x l ih =>
      cases hx : f x with
      | true =>
          have hg : g x = true := (hfound x (by simp [hx])).trans hx
          rw [List.find?_cons_of_pos hg, List.find?_cons_of_pos hx]
      | false =>
          simp only [List.takeWhile_cons, List.find?_cons, hx, Bool.not_false, if_true]
            at hbefore hfound
          have hg : g x = false := (hbefore x List.mem_cons_self).trans hx
          rw [List.find?_cons_of_neg (by simp [hg]), List.find?_cons_of_neg (by simp [hx])]
          exact ih (fun y hy => hbefore y (List.mem_cons_of_mem x hy)) hfound

/-- The options depend on the settings file that is chosen, and on there being none before it. -/
theorem AgreesBut.loadOptions_eq (h : w.AgreesBut w' a)
    (hbefore : ∀ c ∈ (w.settingsSequence configHome inputs).takeWhile (fun c => !w.contains c),
      w.place? c ≠ some a)
    (hchosen : ∀ c ∈ (w.settingsSequence configHome inputs).find? w.contains,
      w.place? c ≠ some a) :
    w'.loadOptions configHome inputs none = w.loadOptions configHome inputs none := by
  have hcontains : ∀ c, w.place? c ≠ some a → w'.contains c = w.contains c := by
    intro c hc
    rw [contains_eq, contains_eq, h.seenAt?_eq hc]
  have hfind : (w'.settingsSequence configHome inputs).find? w'.contains =
      (w.settingsSequence configHome inputs).find? w.contains := by
    rw [h.settingsSequence_eq]
    exact find?_congr_upto (fun c hc => hcontains c (hbefore c hc))
      fun c hc => hcontains c (hchosen c hc)
  rw [Workspace.loadOptions_eq, Workspace.loadOptions_eq, hfind]
  cases hfound : (w.settingsSequence configHome inputs).find? w.contains with
  | none => rfl
  | some c =>
      rw [optionsFrom, optionsFrom, readSettings_congr (h.seenAt?_eq (hchosen c hfound))]

end Workspace

/-! ## What settings can change -/

/-- Settings change the indent width, within its range, and the exclude patterns. -/
theorem Settings.apply_eq_ok {s : Settings} {o : Options} (h : s.apply = .ok o) :
    o = { indentWidth := o.indentWidth, exclude := o.exclude } ∧
      1 ≤ o.indentWidth ∧ o.indentWidth ≤ 16 := by
  have hstandard : 1 ≤ standardWidth ∧ standardWidth ≤ 16 := by decide
  unfold apply at h
  dsimp only at h
  split at h
  · cases h
    exact ⟨rfl, hstandard⟩
  · split at h
    · rename_i hrange
      rw [Bool.and_eq_true, decide_eq_true_eq, decide_eq_true_eq] at hrange
      cases h
      exact ⟨rfl, hrange⟩
    · cases h

theorem Workspace.optionsFrom_eq_ok {w : Workspace} {chosen : Option Path} {o : Options}
    (h : w.optionsFrom chosen = .ok o) :
    o = { indentWidth := o.indentWidth, exclude := o.exclude } ∧
      1 ≤ o.indentWidth ∧ o.indentWidth ≤ 16 := by
  cases chosen with
  | none =>
      cases h
      exact ⟨rfl, by decide, by decide⟩
  | some p =>
      rw [optionsFrom] at h
      cases hread : w.readSettings p with
      | error e =>
          rw [hread] at h
          cases h
      | ok s =>
          rw [hread] at h
          exact Settings.apply_eq_ok h

namespace Workspace

/-- Without a file named, the first existing file of the search sequence is read: leaving out
directories that come again never changes which one that is. No other file matters, unless it
comes before the one that is chosen, and the settings can change the indent width, within its
range, and the exclude patterns. -/
theorem settings_of_first_candidate (w : Workspace) (configHome : Option Path)
    (inputs : List Path) :
    let candidates := w.settingsSequence configHome inputs
    let chosen := candidates.find? w.contains
    (∀ p : Path, p.Ascent p.ancestors) ∧
    w.findSettings? configHome inputs = chosen ∧
    w.loadOptions configHome inputs none = w.optionsFrom chosen ∧
    (∀ (w' : Workspace) (a : List Text), w.AgreesBut w' a →
      (∀ c ∈ candidates.takeWhile (fun c => !w.contains c), w.place? c ≠ some a) →
      (∀ c ∈ chosen, w.place? c ≠ some a) →
        w'.loadOptions configHome inputs none = w.loadOptions configHome inputs none) ∧
    ∀ o, w.loadOptions configHome inputs none = .ok o →
      o = { indentWidth := o.indentWidth, exclude := o.exclude } ∧
        1 ≤ o.indentWidth ∧ o.indentWidth ≤ 16 := by
  intro candidates chosen
  refine ⟨Path.ascent_ancestors, findSettings?_eq w configHome inputs,
    loadOptions_eq w configHome inputs,
    fun w' a hagrees hbefore hchosen => hagrees.loadOptions_eq hbefore hchosen, fun o ho => ?_⟩
  rw [loadOptions_eq] at ho
  exact optionsFrom_eq_ok ho

/-- Settings in a directory and in the one above it. -/
def nestedSettings : Workspace :=
  ⟨.file projectFile (encode "indent_width = 8\n".toList)
    (.folder "m".toList
      (.file projectFile (encode "indent_width = 2\nexclude = [\"old_*\"]\n".toList)
        (.file "q.sql".toList .empty .empty)) .empty), []⟩

/-- The directory of the first input is searched before the one above it, and comes again, in
other spellings, for the others. The settings above it can be broken, or removed. -/
theorem settings_of_first_candidate_nestedSettings :
    let w := nestedSettings
    let inputs : List Path := [⟨"m/q.sql".toList⟩, ⟨"m//".toList⟩, ⟨"./m/r.sql".toList⟩]
    let o : Options := { indentWidth := 2, exclude := ["old_*".toList] }
    let broken := w.write ⟨projectFile⟩ (encode "indent_width".toList)
    w.AgreesBut broken [projectFile] ∧ w.AgreesBut (w.remove [projectFile]) [projectFile] ∧
      (w.settingsSequence none inputs).find? w.contains = some ⟨"m/sqlclause.toml".toList⟩ ∧
      w.loadOptions none inputs none = .ok o ∧ broken.loadOptions none inputs none = .ok o ∧
      (w.remove [projectFile]).loadOptions none inputs none = .ok o := by
  intro w inputs o broken
  obtain ⟨-, -, hload, hother, -⟩ := settings_of_first_candidate w none inputs
  have hbroken : w.AgreesBut broken [projectFile] :=
    agreesBut_write (by decide +kernel) (by rfl) _
  have hremoved : w.AgreesBut (w.remove [projectFile]) [projectFile] := (agreesBut_remove rfl).1
  have hchosen : (w.settingsSequence none inputs).find? w.contains =
      some ⟨"m/sqlclause.toml".toList⟩ := by decide +kernel
  have hoptions : w.loadOptions none inputs none = .ok o := by
    rw [hload, hchosen]
    decide +kernel
  have hbefore : ∀ c ∈ (w.settingsSequence none inputs).takeWhile (fun c => !w.contains c),
      w.place? c ≠ some [projectFile] := by decide +kernel
  have hplace : ∀ c ∈ (w.settingsSequence none inputs).find? w.contains,
      w.place? c ≠ some [projectFile] := by
    rw [hchosen]
    decide +kernel
  refine ⟨hbroken, hremoved, hchosen, hoptions, ?_, ?_⟩
  · rw [hother _ _ hbroken hbefore hplace, hoptions]
  · rw [hother _ _ hremoved hbefore hplace, hoptions]

/-! ## Settings that are passed over -/

end Workspace

/-- A settings file shared with other tools holds nothing for this one: it is a document without
the settings section. -/
def Settings.lacksSection (content : ByteArray) : Bool :=
  match (decode? content).bind Toml.parse? with
  | some doc => (sectionOf? doc).isNone
  | none => false

namespace Workspace

variable {w : Workspace} {p : Path} {dir : List Text} {content : ByteArray}
  {configHome : Option Path} {inputs : List Path}

section

variable (hfile : w.root.lookup (dir ++ [sharedFile]) = some (.file content))

include hfile

/-- Such a file gives no settings under any of its paths. -/
theorem readSettings_of_lacksSection (hsection : Settings.lacksSection content = true)
    (hp : w.place? p = some (dir ++ [sharedFile])) : w.readSettings p = .ok {} := by
  have hnode : w.node? p = some (.file content) := by rw [node?, hp, Option.bind_some, hfile]
  have hname : (p.fileName? == some projectFile) = false := by
    rw [beq_eq_false_iff_ne]
    intro hproject
    have hlast := getLast?_of_place? hp hproject
    rw [List.getLast?_concat, Option.some.injEq] at hlast
    exact absurd hlast (by decide)
  unfold Settings.lacksSection at hsection
  unfold readSettings
  rw [hnode]
  cases htext : decode? content with
  | none => simp [htext] at hsection
  | some text =>
      cases hdoc : Toml.parse? text with
      | none => simp [htext, hdoc] at hsection
      | some doc =>
          have hnone : Settings.sectionOf? doc = none := by simpa [htext, hdoc] using hsection
          simp [htext, hdoc, Settings.ofDocument, hnone, hname]

/-- Without the file, the search goes on behind its paths. -/
theorem loadOptions_remove :
    (w.remove (dir ++ [sharedFile])).loadOptions configHome inputs none =
      w.optionsFrom (((w.settingsSequence configHome inputs).filter
        fun c => w.place? c ≠ some (dir ++ [sharedFile])).find? w.contains) := by
  obtain ⟨hagrees, hgone⟩ := agreesBut_remove hfile
  have hcontains : ∀ c, (w.remove (dir ++ [sharedFile])).contains c =
      decide (w.place? c ≠ some (dir ++ [sharedFile]) ∧ w.contains c = true) := by
    intro c
    rw [contains_eq, contains_eq]
    by_cases hc : w.place? c = some (dir ++ [sharedFile])
    · have hc' := (hagrees.place?_eq c).trans hc
      simp [seenAt?, hc, hc', hgone]
    · simp [hagrees.seenAt?_eq hc, hc]
  rw [loadOptions_eq, hagrees.settingsSequence_eq, List.find?_filter]
  simp only [decide_eq_true_eq, ← hcontains]
  cases hfound : (w.settingsSequence configHome inputs).find?
      (w.remove (dir ++ [sharedFile])).contains with
  | none => rfl
  | some c =>
      have hc := List.find?_some hfound
      rw [hcontains, decide_eq_true_eq] at hc
      rw [optionsFrom, optionsFrom, readSettings_congr (hagrees.seenAt?_eq hc.1)]

end

/-- The file is passed over unless it is the one that is chosen. -/
theorem find?_filter_place? {a : List Text} {candidates : List Path}
    (h : (candidates.find? w.contains).bind w.place? ≠ some a) :
    (candidates.filter fun c => w.place? c ≠ some a).find? w.contains =
      candidates.find? w.contains := by
  rw [List.find?_filter]
  apply find?_congr_upto
  · intro c hc
    have hmissing : w.contains c = false := by simpa using List.mem_takeWhile_imp hc
    simp [hmissing]
  · intro c hc
    have hplace : w.place? c ≠ some a := by simpa [Option.mem_def.mp hc] using h
    simp [hplace]

/-- A settings file shared with other tools, without a settings section, ends the search if it is
the first one that exists: then the options are the defaults, while without it those of the next
candidate would count. So removing it changes nothing exactly if it is not the file that is
chosen, or the next candidate gives the defaults too. -/
theorem loadOptions_remove_lacksSection (w : Workspace) (configHome : Option Path)
    (inputs : List Path) {dir : List Text} {content : ByteArray}
    (hfile : w.root.lookup (dir ++ [sharedFile]) = some (.file content))
    (hsection : Settings.lacksSection content = true) :
    let place := dir ++ [sharedFile]
    let candidates := w.settingsSequence configHome inputs
    let chosen := candidates.find? w.contains
    let next := (candidates.filter fun c => w.place? c ≠ some place).find? w.contains
    (w.remove place).loadOptions configHome inputs none = w.optionsFrom next ∧
    (chosen.bind w.place? = some place → w.loadOptions configHome inputs none = .ok {}) ∧
    (chosen.bind w.place? ≠ some place →
      w.loadOptions configHome inputs none = w.optionsFrom next) ∧
    ((w.remove place).loadOptions configHome inputs none =
        w.loadOptions configHome inputs none ↔
      (chosen.bind w.place? = some place → w.optionsFrom next = .ok {})) := by
  intro place candidates chosen next
  have hload : w.loadOptions configHome inputs none = w.optionsFrom chosen :=
    loadOptions_eq w configHome inputs
  have hremoved : (w.remove place).loadOptions configHome inputs none = w.optionsFrom next :=
    loadOptions_remove hfile
  -- the shared file answers with the defaults wherever it is the one chosen
  have hshadows : chosen.bind w.place? = some place →
      w.loadOptions configHome inputs none = .ok {} := by
    intro hchosen
    obtain ⟨c, hc, hplace⟩ := Option.bind_eq_some_iff.mp hchosen
    have hdefault : Settings.apply {} = .ok {} := rfl
    rw [hload, hc, optionsFrom, readSettings_of_lacksSection hfile hsection hplace]
    exact hdefault
  -- otherwise the search passes it by, and its removal with it
  have hpassed : chosen.bind w.place? ≠ some place →
      w.loadOptions configHome inputs none = w.optionsFrom next := by
    intro hchosen
    have hnext : next = chosen := find?_filter_place? hchosen
    rw [hload, hnext]
  refine ⟨hremoved, hshadows, hpassed, ?_⟩
  rw [hremoved]
  by_cases hchosen : chosen.bind w.place? = some place
  · rw [hshadows hchosen]
    exact ⟨fun h _ => h, fun h => h hchosen⟩
  · rw [hpassed hchosen]
    exact iff_of_true rfl fun h => absurd h hchosen

/-- Settings of another tool beside the settings of this one. -/
def shadowedSettings : Workspace :=
  ⟨.file sharedFile (encode "[tool.black]\nline-length = 88\n".toList)
    (.file projectFile (encode "indent_width = 2\n".toList) .empty), []⟩

/-- The shared file is found first, and its neighbour counts only without it. -/
theorem loadOptions_remove_lacksSection_shadowedSettings :
    let w := shadowedSettings
    let inputs : List Path := [⟨"q.sql".toList⟩]
    ∃ content, w.root.lookup ([] ++ [sharedFile]) = some (.file content) ∧
      Settings.lacksSection content = true ∧
      w.loadOptions none inputs none = .ok {} ∧
      (w.remove [sharedFile]).loadOptions none inputs none = .ok { indentWidth := 2 } ∧
      (w.remove [sharedFile]).loadOptions none inputs none ≠ w.loadOptions none inputs none := by
  intro w inputs
  have hsection : Settings.lacksSection
      (encode "[tool.black]\nline-length = 88\n".toList) = true := by
    decide +kernel
  have hfile : w.root.lookup ([] ++ [sharedFile]) =
      some (.file (encode "[tool.black]\nline-length = 88\n".toList)) := rfl
  obtain ⟨hremoved, hshadows, -, hsame⟩ :=
    loadOptions_remove_lacksSection w none inputs hfile hsection
  have hnext : w.optionsFrom (((w.settingsSequence none inputs).filter
      fun c => w.place? c ≠ some ([] ++ [sharedFile])).find? w.contains) =
        .ok { indentWidth := 2 } := by decide +kernel
  have hchosen : ((w.settingsSequence none inputs).find? w.contains).bind w.place? =
      some ([] ++ [sharedFile]) := by decide +kernel
  refine ⟨_, hfile, hsection, hshadows hchosen, hremoved.trans hnext, fun heq => ?_⟩
  have hdefault := hsame.mp heq hchosen
  rw [hnext] at hdefault
  exact absurd hdefault (by decide)

end Workspace

end SqlLayout
