import SqlLayout.Program
import SqlLayout.Proofs.FileTrees
import SqlLayout.Proofs.PreservedWords

set_option autoImplicit false

/-! # Runs that look and runs that write

A run with `check` or `diff` only looks at files; the same run without them writes. If no two of
the selected paths lead to one place, the first foretells the second, file by file, up to the
comparison of words, which only the second makes (`check_foretells_write`).

All that can become of one content is listed in `formatContent_formatted`. In a whole run, every
file is reported (`results_formatFiles`) and left (`seen?_formatFiles_of_mem`) as if it were
formatted alone, and every other place is left as it is (`seen?_formatFiles_of_ne`).
-/

namespace SqlLayout

/-! ## Contents -/

theorem encode_injective {s t : Text} (h : encode s = encode t) : s = t :=
  String.ofList_inj.mp (String.toByteArray_inj.mp h)

theorem eq_encode_of_decode? {content : ByteArray} {t : Text} (h : decode? content = some t) :
    content = encode t := by
  obtain ⟨s, hs, rfl⟩ := Option.map_eq_some_iff.mp h
  unfold String.fromUTF8? at hs
  split at hs
  · obtain rfl := Option.some.inj hs
    rw [encode, String.ofList_toList]
    rfl
  · cases hs

theorem decode?_encode (t : Text) : decode? (encode t) = some t := by
  have hvalid : (encode t).IsValidUTF8 := (String.ofList t).isValidUTF8
  rw [decode?, String.fromUTF8?, dif_pos hvalid]
  exact congrArg some String.toList_ofList

/-! ## One file -/

/-- What can become of a content, with what is to be written. -/
inductive Formatted (o : Options) (content : ByteArray) : Outcome × Option ByteArray → Prop
  | unread : decode? content = none →
      Formatted o content (.failed ("Read error: " ++ notUtf8), none)
  | refused {source : Text} {e : SourceError} : content = encode source →
      formatSource o source = .error e → Formatted o content (.failed e.message, none)
  | kept {source : Text} : content = encode source → formatSource o source = .ok source →
      Formatted o content (.unchanged, none)
  | seen {source result : Text} : content = encode source → formatSource o source = .ok result →
      source ≠ result → o.looksOnly = true →
      Formatted o content (.changed (if o.diff then some (source, result) else none), none)
  | written {source result : Text} : content = encode source →
      formatSource o source = .ok result → source ≠ result → o.looksOnly = false →
      Formatted o content (.changed none, some (encode result))

theorem formatContent_encode (o : Options) (source : Text) :
    formatContent o (encode source) =
      match formatSource o source with
      | .error e => (.failed e.message, none)
      | .ok result =>
        if source = result then (.unchanged, none)
        else if o.looksOnly then
          (.changed (if o.diff then some (source, result) else none), none)
        else (.changed none, some (encode result)) := by
  simp only [formatContent, decode?_encode]
  cases formatSource o source with
  | error e => rfl
  | ok result => simp

/-- What becomes of a content is one of these. -/
theorem formatContent_formatted (o : Options) (content : ByteArray) :
    Formatted o content (formatContent o content) := by
  cases hdecode : decode? content with
  | none =>
      have heq : formatContent o content = (.failed ("Read error: " ++ notUtf8), none) := by
        simp only [formatContent, hdecode]
      rw [heq]
      exact .unread hdecode
  | some source =>
      obtain rfl := eq_encode_of_decode? hdecode
      rw [formatContent_encode]
      cases hformat : formatSource o source with
      | error e => exact .refused rfl hformat
      | ok result =>
          by_cases hsame : source = result
          · subst hsame
            simpa using Formatted.kept rfl hformat
          · cases hlooks : o.looksOnly with
            | true => simpa [hsame] using Formatted.seen rfl hformat hsame hlooks
            | false => simpa [hsame] using Formatted.written rfl hformat hsame hlooks

/-- The content a file is left with. -/
def leftContent (o : Options) (content : ByteArray) : ByteArray :=
  (formatContent o content).2.getD content

/-- Only a changed file is written, and not by looking at it. -/
theorem formatContent_unwritten {o : Options} {content : ByteArray}
    (h : o.looksOnly = true ∨ (formatContent o content).1.isChanged = false) :
    (formatContent o content).2 = none := by
  have hformatted := formatContent_formatted o content
  generalize formatContent o content = formatted at h hformatted ⊢
  cases hformatted with
  | written _ _ _ hwrites =>
      rcases h with hlooks | hchanged
      · rw [hlooks] at hwrites
        cases hwrites
      · cases hchanged
  | _ => rfl

/-- A changed file is written with its formatted text, which is another one. -/
theorem formatContent_written {o : Options} {content : ByteArray} (hwrites : o.looksOnly = false)
    (h : (formatContent o content).1.isChanged = true) :
    ∃ source result, content = encode source ∧ formatSource o source = .ok result ∧
      source ≠ result ∧ leftContent o content = encode result := by
  have hformatted := formatContent_formatted o content
  unfold leftContent
  generalize formatContent o content = formatted at h hformatted ⊢
  cases hformatted with
  | seen _ _ _ hlooks =>
      rw [hwrites] at hlooks
      cases hlooks
  | @written source result hcontent hformat hne _ =>
      exact ⟨source, result, hcontent, hformat, hne, rfl⟩
  | _ => cases h

/-- The options with `check` and `diff` as given. -/
def Options.asking (o : Options) (check diff : Bool) : Options :=
  { o with check := check, diff := diff }

/-- What looking at a content says, with what writing it says and does. -/
inductive Foretold (o : Options) (diff : Bool) (content : ByteArray) :
    Outcome → Outcome × Option ByteArray → Prop
  | failed (message : String) : Foretold o diff content (.failed message) (.failed message, none)
  | unchanged : Foretold o diff content .unchanged (.unchanged, none)
  | changed {source result : Text} : content = encode source →
      formatSource (o.asking false false) source = .ok result →
      Foretold o diff content (.changed (if diff then some (source, result) else none))
        (.changed none, some (encode result))
  | mismatch {source : Text} {m : Mismatch} (texts : Option (Text × Text)) : o.fast = false →
      content = encode source → formatSource (o.asking false false) source = .error (.mismatch m) →
      Foretold o diff content (.changed texts) (.failed (SourceError.mismatch m).message, none)

section

variable (o : Options) {check diff : Bool} (hlook : (check || diff) = true)

include hlook

/-- Looking at a text and writing it differ in the comparison of words. -/
theorem formatSource_asking (source : Text) :
    (∃ e, formatSource (o.asking check diff) source = .error e ∧
      formatSource (o.asking false false) source = .error e) ∨
    ∃ result, formatSource (o.asking check diff) source = .ok result ∧
      (formatSource (o.asking false false) source = .ok result ∨
        o.fast = false ∧ source ≠ result ∧
          ∃ m, formatSource (o.asking false false) source = .error (.mismatch m)) := by
  have hskips : (o.asking check diff).comparesWords = false := by
    unfold Options.comparesWords Options.asking
    cases check <;> cases diff <;> simp_all
  have hwidth : (o.asking check diff).indentWidth = (o.asking false false).indentWidth := rfl
  unfold formatSource
  rw [hskips, hwidth]
  cases hformat : format (o.asking false false).indentWidth source with
  | error e => exact Or.inl ⟨.format e, rfl, rfl⟩
  | ok statement =>
      refine Or.inr ⟨statement ++ ['\n'], rfl, ?_⟩
      cases hcompares : (o.asking false false).comparesWords with
      | false => exact Or.inl rfl
      | true =>
          have hfast : o.fast = false := by
            simpa [Options.comparesWords, Options.asking] using hcompares
          simp only [if_true]
          cases hbetween : Mismatch.between? source.preservedWords
              (Text.preservedWords (statement ++ ['\n'])) with
          | none => exact Or.inl rfl
          | some m =>
              refine Or.inr ⟨hfast, ?_, m, rfl⟩
              -- a text that stays as it is keeps its words
              intro hsame
              rw [← hsame, Mismatch.between?_eq_none.mpr rfl] at hbetween
              cases hbetween

/-- What looking at a content says foretells what writing it does. -/
theorem formatContent_asking (content : ByteArray) :
    Foretold o diff content (formatContent (o.asking check diff) content).1
      (formatContent (o.asking false false) content) := by
  have hlooks : (o.asking check diff).looksOnly = true := hlook
  have hwrites : (o.asking false false).looksOnly = false := rfl
  cases hdecode : decode? content with
  | none =>
      simp only [formatContent, hdecode]
      exact .failed _
  | some source =>
      obtain rfl := eq_encode_of_decode? hdecode
      rw [formatContent_encode, formatContent_encode]
      rcases formatSource_asking o hlook source with
        ⟨e, hfirst, hsecond⟩ | ⟨result, hfirst, hsecond⟩
      · rw [hfirst, hsecond]
        exact .failed e.message
      · rw [hfirst]
        by_cases hsame : source = result
        · rcases hsecond with hok | ⟨-, hne, -⟩
          · rw [hok]
            simpa [hsame] using Foretold.unchanged
          · exact absurd hsame hne
        · simp only [if_neg hsame, hlooks, if_true]
          rcases hsecond with hok | ⟨hfast, -, m, herror⟩
          · rw [hok]
            simp only [if_neg hsame, hwrites, Bool.false_eq_true, if_false]
            exact .changed rfl hok
          · rw [herror]
            exact .mismatch _ hfast rfl herror

end

namespace Workspace

/-! ## A step of a run -/

variable (w : Workspace) (o : Options) (p : Path)

theorem formatAt_of_content? {content : ByteArray} (h : w.content? p = some content) :
    w.formatAt o p = (⟨p, (formatContent o content).1⟩,
      (formatContent o content).2.elim w (w.write p)) := by
  simp only [formatAt, h]
  obtain ⟨outcome, new⟩ := formatContent o content
  cases new <;> rfl

theorem path_formatAt : (w.formatAt o p).1.path = p := by
  unfold formatAt
  split
  · rfl
  · split <;> rfl

/-- What is said of a file depends on its content only. -/
theorem formatAt_congr {w' : Workspace} (h : w'.content? p = w.content? p) :
    (w'.formatAt o p).1 = (w.formatAt o p).1 := by
  cases hcontent : w.content? p with
  | none =>
      rw [hcontent] at h
      simp only [formatAt, h, hcontent]
  | some content =>
      rw [w.formatAt_of_content? o p hcontent, w'.formatAt_of_content? o p (h.trans hcontent)]

/-- A step writes at most the file it is about. -/
theorem workspace_formatAt :
    (w.formatAt o p).2 = w ∨ ∃ new, (w.formatAt o p).2 = w.write p new := by
  unfold formatAt
  split
  · exact Or.inl rfl
  · split
    · exact Or.inl rfl
    · exact Or.inr ⟨_, rfl⟩

theorem cwd_formatAt : (w.formatAt o p).2.cwd = w.cwd := by
  rcases w.workspace_formatAt o p with h | ⟨new, h⟩
  · rw [h]
  · rw [h, cwd_write]

theorem place?_formatAt (q : Path) : (w.formatAt o p).2.place? q = w.place? q := by
  rcases w.workspace_formatAt o p with h | ⟨new, h⟩
  · rw [h]
  · rw [h, place?_write]

theorem seen?_formatAt_of_ne {a : List Text} (h : w.place? p ≠ some a) :
    (w.formatAt o p).2.root.seen? a = w.root.seen? a := by
  rcases w.workspace_formatAt o p with hsame | ⟨new, hnew⟩
  · rw [hsame]
  · rw [hnew, seen?_write, if_neg h]

/-- The place of the file holds the content it is left with. -/
theorem seen?_formatAt_self {a : List Text} (h : w.place? p = some a) :
    (w.formatAt o p).2.root.seen? a = (w.root.seen? a).map (Option.map (leftContent o)) := by
  cases hcontent : w.content? p with
  | none =>
      -- nothing can be read, so nothing is written
      have hsame : (w.formatAt o p).2 = w := by simp only [formatAt, hcontent]
      rw [hsame]
      rw [content?_eq, h, Option.bind_some] at hcontent
      cases hseen : w.root.seen? a with
      | none => rfl
      | some node =>
          rw [hseen, Option.join_some] at hcontent
          rw [hcontent]
          rfl
  | some content =>
      obtain ⟨b, hb, hseen⟩ := content?_eq_some_iff.mp hcontent
      obtain rfl : a = b := Option.some.inj (h.symm.trans hb)
      rw [w.formatAt_of_content? o p hcontent, hseen]
      unfold leftContent
      cases hnew : (formatContent o content).2 with
      | none => simpa [hnew] using hseen
      | some new => simp [hnew, seen?_write, h, hseen]

/-- Looking, and a file that is not changed, leave the workspace as it is. -/
theorem formatAt_unwritten
    (h : o.looksOnly = true ∨ (w.formatAt o p).1.outcome.isChanged = false) :
    (w.formatAt o p).2 = w := by
  cases hcontent : w.content? p with
  | none => simp only [formatAt, hcontent]
  | some content =>
      rw [w.formatAt_of_content? o p hcontent] at h ⊢
      simp only [formatContent_unwritten h, Option.elim_none]

/-! ## A whole run -/

variable {w}

theorem pairwise_apart_formatAt {ps : List Path} (h : ps.Pairwise w.Apart) :
    ps.Pairwise (w.formatAt o p).2.Apart := by
  refine h.imp fun {q r} hapart => ?_
  unfold Apart at hapart ⊢
  rwa [place?_formatAt, place?_formatAt]

variable (w) in
theorem cwd_formatFiles (ps : List Path) : (w.formatFiles o ps).2.cwd = w.cwd := by
  induction ps generalizing w with
  | nil => rfl
  | cons p ps ih => exact (ih _).trans (w.cwd_formatAt o p)

variable (w) in
theorem place?_formatFiles (ps : List Path) (q : Path) :
    (w.formatFiles o ps).2.place? q = w.place? q := by
  induction ps generalizing w with
  | nil => rfl
  | cons p ps ih => exact (ih _).trans (w.place?_formatAt o p q)

/-- A run leaves every place alone that no path leads to. -/
theorem seen?_formatFiles_of_ne {ps : List Path} {a : List Text}
    (h : ∀ p ∈ ps, w.place? p ≠ some a) :
    (w.formatFiles o ps).2.root.seen? a = w.root.seen? a := by
  induction ps generalizing w with
  | nil => rfl
  | cons p ps ih =>
      have hlater : ∀ q ∈ ps, (w.formatAt o p).2.place? q ≠ some a := by
        intro q hq
        rw [place?_formatAt]
        exact h q (List.mem_cons_of_mem p hq)
      exact (ih hlater).trans (w.seen?_formatAt_of_ne o p (h p List.mem_cons_self))

/-- A run leaves a file as if it had formatted that file alone. -/
theorem seen?_formatFiles_of_mem {ps : List Path} (hapart : ps.Pairwise w.Apart) {p : Path}
    (hp : p ∈ ps) {a : List Text} (ha : w.place? p = some a) :
    (w.formatFiles o ps).2.root.seen? a
      = (w.root.seen? a).map (Option.map (leftContent o)) := by
  induction ps generalizing w with
  | nil => cases hp
  | cons q ps ih =>
      obtain ⟨hfirst, hrest⟩ := List.pairwise_cons.mp hapart
      rcases List.mem_cons.mp hp with rfl | hlater
      · have hother : ∀ r ∈ ps, (w.formatAt o p).2.place? r ≠ some a := by
          intro r hr heq
          rw [place?_formatAt] at heq
          exact (hfirst r hr).place?_ne heq ha
        exact (seen?_formatFiles_of_ne o hother).trans (w.seen?_formatAt_self o p ha)
      · have hplace : (w.formatAt o q).2.place? p = some a := (w.place?_formatAt o q p).trans ha
        have hsame := w.seen?_formatAt_of_ne o q ((hfirst p hlater).place?_ne ha)
        calc (w.formatFiles o (q :: ps)).2.root.seen? a
            = ((w.formatAt o q).2.root.seen? a).map (Option.map (leftContent o)) :=
              ih (pairwise_apart_formatAt o q hrest) hlater hplace
          _ = (w.root.seen? a).map (Option.map (leftContent o)) := by rw [hsame]

/-- A run reports a file as if it had formatted that file alone. -/
theorem results_formatFiles {ps : List Path} (hapart : ps.Pairwise w.Apart) :
    (w.formatFiles o ps).1 = ps.map fun p => (w.formatAt o p).1 := by
  induction ps generalizing w with
  | nil => rfl
  | cons p ps ih =>
      obtain ⟨hfirst, hrest⟩ := List.pairwise_cons.mp hapart
      have hlater := ih (pairwise_apart_formatAt o p hrest)
      rw [List.map_cons]
      refine congrArg _ (hlater.trans ?_)
      -- the first step has not touched what later steps read
      apply List.map_congr_left
      intro q hq
      apply formatAt_congr
      apply content?_congr (w.place?_formatAt o p q)
      intro a ha
      exact w.seen?_formatAt_of_ne o p ((hfirst q hq).place?_ne ha)

/-- A run that writes no file leaves the workspace as it is. -/
theorem formatFiles_eq_self {ps : List Path} (h : ∀ p ∈ ps, (w.formatAt o p).2 = w) :
    (w.formatFiles o ps).2 = w := by
  induction ps with
  | nil => rfl
  | cons p ps ih =>
      have hstep : (w.formatFiles o (p :: ps)).2 = ((w.formatAt o p).2.formatFiles o ps).2 := rfl
      rw [hstep, h p List.mem_cons_self]
      exact ih fun q hq => h q (List.mem_cons_of_mem p hq)

theorem content?_formatFiles {ps : List Path} (hapart : ps.Pairwise w.Apart) {p : Path}
    (hp : p ∈ ps) : (w.formatFiles o ps).2.content? p = (w.content? p).map (leftContent o) := by
  rw [content?_eq, content?_eq, place?_formatFiles]
  cases hplace : w.place? p with
  | none => rfl
  | some a =>
      rw [Option.bind_some, Option.bind_some, seen?_formatFiles_of_mem o hapart hp hplace]
      cases w.root.seen? a <;> rfl

end Workspace

/-! ## What a run writes -/

/-- The files that a report calls changed are written with their formatted texts, which are other
ones, and nothing else is touched. -/
structure Rewrites (o : Options) (w : Workspace) (results : List FileReport) (w' : Workspace) :
    Prop where
  cwd : w'.cwd = w.cwd
  changed : ∀ r ∈ results, r.outcome.isChanged = true → ∃ a source result,
    w.place? r.path = some a ∧ w.root.seen? a = some (some (encode source)) ∧
      formatSource o source = .ok result ∧ w'.root.seen? a = some (some (encode result)) ∧
      encode result ≠ encode source
  kept : ∀ a, (∀ r ∈ results, r.outcome.isChanged = true → w.place? r.path ≠ some a) →
    w'.root.seen? a = w.root.seen? a

theorem rewrites_formatFiles {w : Workspace} {o : Options} (hwrites : o.looksOnly = false)
    {ps : List Path} (hapart : ps.Pairwise w.Apart) :
    Rewrites o w (w.formatFiles o ps).1 (w.formatFiles o ps).2 := by
  rw [Workspace.results_formatFiles o hapart]
  refine ⟨w.cwd_formatFiles o ps, ?_, ?_⟩
  · intro r hr hchanged
    obtain ⟨p, hp, rfl⟩ := List.mem_map.mp hr
    rw [w.path_formatAt]
    cases hcontent : w.content? p with
    | none =>
        simp only [Workspace.formatAt, hcontent] at hchanged
        cases hchanged
    | some content =>
        rw [w.formatAt_of_content? o p hcontent] at hchanged
        obtain ⟨source, result, rfl, hformat, hne, hleft⟩ := formatContent_written hwrites hchanged
        obtain ⟨a, ha, hseen⟩ := Workspace.content?_eq_some_iff.mp hcontent
        refine ⟨a, source, result, ha, hseen, hformat, ?_, ?_⟩
        · rw [Workspace.seen?_formatFiles_of_mem o hapart hp ha, hseen, Option.map_some,
            Option.map_some, hleft]
        · exact fun heq => hne (encode_injective heq).symm
  · intro a ha
    -- a selected file that is not changed, or a place that no selected path leads to
    by_cases hplace : ∃ p ∈ ps, w.place? p = some a
    · obtain ⟨p, hp, hpa⟩ := hplace
      have hsame : (w.formatAt o p).2 = w := by
        apply w.formatAt_unwritten o p
        right
        by_contra hchanged
        rw [Bool.not_eq_false] at hchanged
        refine ha _ (List.mem_map_of_mem hp) hchanged ?_
        rwa [w.path_formatAt]
      calc (w.formatFiles o ps).2.root.seen? a
          = (w.formatAt o p).2.root.seen? a := by
            rw [Workspace.seen?_formatFiles_of_mem o hapart hp hpa, w.seen?_formatAt_self o p hpa]
        _ = w.root.seen? a := by rw [hsame]
    · refine Workspace.seen?_formatFiles_of_ne o fun p hp hpa => ?_
      exact hplace ⟨p, hp, hpa⟩

/-! ## What looking foretells -/

/-- What a run that looks says of a file, and what the run that writes makes of it: only the
comparison of words can come between the two. -/
structure Foretells (o : Options) (diff : Bool) (w w' : Workspace) (r r' : FileReport) : Prop where
  path : r'.path = r.path
  unchanged : r.outcome = .unchanged ↔ r'.outcome = .unchanged
  failed : ∀ message, r.outcome = .failed message → r'.outcome = .failed message
  changed : ∀ texts, r.outcome = .changed texts → ∃ source,
    w.content? r.path = some (encode source) ∧
      ((∃ result, formatSource (o.asking false false) source = .ok result ∧
          texts = (if diff then some (source, result) else none) ∧ r'.outcome = .changed none ∧
          w'.content? r.path = some (encode result)) ∨
        o.fast = false ∧ ∃ m, formatSource (o.asking false false) source = .error (.mismatch m) ∧
          r'.outcome = .failed (SourceError.mismatch m).message ∧
          w'.content? r.path = some (encode source))

theorem foretells_formatAt (w : Workspace) (o : Options) {check diff : Bool}
    (hlook : (check || diff) = true) {ps : List Path} (hapart : ps.Pairwise w.Apart) {p : Path}
    (hp : p ∈ ps) :
    Foretells o diff w (w.formatFiles (o.asking false false) ps).2
      (w.formatAt (o.asking check diff) p).1 (w.formatAt (o.asking false false) p).1 := by
  have hleft := Workspace.content?_formatFiles (o.asking false false) hapart hp
  cases hcontent : w.content? p with
  | none =>
      simp only [Workspace.formatAt, hcontent]
      exact ⟨rfl, by simp, fun _ h => h, fun _ h => (by cases h)⟩
  | some content =>
      rw [w.formatAt_of_content? _ p hcontent, w.formatAt_of_content? _ p hcontent]
      rw [hcontent, Option.map_some, leftContent] at hleft
      have hforetold := formatContent_asking o hlook content
      generalize (formatContent (o.asking check diff) content).1 = first at hforetold ⊢
      generalize formatContent (o.asking false false) content = second at hforetold hleft ⊢
      cases hforetold with
      | failed message => exact ⟨rfl, by simp, fun _ h => h, fun _ h => (by cases h)⟩
      | unchanged => exact ⟨rfl, by simp, fun _ h => h, fun _ h => (by cases h)⟩
      | @changed source result hsource hformat =>
          refine ⟨rfl, by simp, fun _ h => (by cases h), fun texts h => ⟨source, ?_, Or.inl ?_⟩⟩
          · rw [hcontent, hsource]
          · exact ⟨result, hformat, (Outcome.changed.inj h).symm, rfl, hleft⟩
      | @mismatch source m texts hfast hsource hformat =>
          -- the file is refused, so it keeps its content
          refine ⟨rfl, by simp, fun _ h => (by cases h), fun _ _ => ⟨source, ?_, Or.inr ?_⟩⟩
          · rw [hcontent, hsource]
          · exact ⟨hfast, m, hformat, rfl, hleft.trans (congrArg some hsource)⟩

/-! ## Reports -/

/-- Every file is counted once. -/
theorem counts_total (r : Report) : r.counts.total = r.results.length := by
  obtain ⟨results⟩ := r
  unfold Report.counts Counts.total
  induction results with
  | nil => rfl
  | cons x results ih =>
      have hone : (if x.outcome.isUnchanged then 1 else 0) + (if x.outcome.isChanged then 1 else 0)
          + (if x.outcome.isFailed then 1 else 0) = 1 := by
        cases x.outcome <;> rfl
      simp only [List.countP_cons, List.length_cons] at ih ⊢
      omega

theorem exitCode_eq_zero_iff (o : Options) (r : Report) :
    Program.exitCode o r = 0 ↔ r.anyFailed = false ∧ (o.check = true → r.anyChanged = false) := by
  unfold Program.exitCode
  cases r.anyFailed <;> cases o.check <;> cases r.anyChanged <;> simp

/-- A check that ends with code zero has found all files unchanged. -/
theorem unchanged_of_exitCode {o : Options} (hcheck : o.check = true) {r : Report}
    (h : Program.exitCode o r = 0) : ∀ x ∈ r.results, x.outcome = .unchanged := by
  obtain ⟨hfailed, hchanged⟩ := (exitCode_eq_zero_iff o r).mp h
  rw [Report.anyFailed, List.any_eq_false] at hfailed
  have hchanged := hchanged hcheck
  rw [Report.anyChanged, List.any_eq_false] at hchanged
  intro x hx
  have hnotFailed := hfailed x hx
  have hnotChanged := hchanged x hx
  cases hout : x.outcome with
  | unchanged => rfl
  | changed texts => simp [hout, Outcome.isChanged] at hnotChanged
  | failed message => simp [hout, Outcome.isFailed] at hnotFailed

theorem exitCode_of_unchanged (o : Options) {r : Report}
    (h : ∀ x ∈ r.results, x.outcome = .unchanged) : Program.exitCode o r = 0 := by
  apply (exitCode_eq_zero_iff o r).mpr
  rw [Report.anyFailed, Report.anyChanged, List.any_eq_false, List.any_eq_false]
  constructor
  · intro x hx
    simp [h x hx, Outcome.isFailed]
  · intro _ x hx
    simp [h x hx, Outcome.isChanged]

/-! ## Both runs -/

section

variable {w : Workspace} {o : Options} {inputs : List Path} {check diff : Bool}
  (hapart : (w.select o inputs).Pairwise w.Apart)

include hapart

/-- The selection does not depend on what is asked. -/
theorem results_run (check diff : Bool) : (w.run (o.asking check diff) inputs).1.results
    = (w.select o inputs).map fun p => (w.formatAt (o.asking check diff) p).1 :=
  Workspace.results_formatFiles (o.asking check diff) hapart

theorem counts_run (check diff : Bool) :
    (w.run (o.asking check diff) inputs).1.counts.total = (w.select o inputs).length := by
  rw [counts_total, results_run hapart, List.length_map]

theorem paths_run (check diff : Bool) :
    (w.run (o.asking check diff) inputs).1.results.map FileReport.path = w.select o inputs := by
  rw [results_run hapart, List.map_map]
  calc (w.select o inputs).map (FileReport.path ∘ fun p => (w.formatAt (o.asking check diff) p).1)
      = (w.select o inputs).map id := List.map_congr_left fun p _ => w.path_formatAt _ p
    _ = w.select o inputs := List.map_id _

theorem foretells_run (hlook : (check || diff) = true) :
    List.Forall₂ (Foretells o diff w (w.run (o.asking false false) inputs).2)
      (w.run (o.asking check diff) inputs).1.results
      (w.run (o.asking false false) inputs).1.results := by
  rw [results_run hapart, results_run hapart, List.forall₂_map_left_iff,
    List.forall₂_map_right_iff, List.forall₂_same]
  exact fun p hp => foretells_formatAt w o hlook hapart hp

/-- After a check without a finding, there is nothing to write. -/
theorem run_of_clean_check
    (h : Program.exitCode (o.asking true diff) (w.run (o.asking true diff) inputs).1 = 0) :
    Program.exitCode (o.asking false false) (w.run (o.asking false false) inputs).1 = 0 ∧
      (w.run (o.asking false false) inputs).2 = w := by
  have hlooked := unchanged_of_exitCode rfl h
  rw [results_run hapart] at hlooked
  have hunchanged : ∀ p ∈ w.select o inputs,
      (w.formatAt (o.asking false false) p).1.outcome = .unchanged := by
    intro p hp
    apply (foretells_formatAt w o (Bool.true_or diff) hapart hp).unchanged.mp
    exact hlooked _ (List.mem_map_of_mem hp)
  constructor
  · apply exitCode_of_unchanged
    rw [results_run hapart]
    intro x hx
    obtain ⟨p, hp, rfl⟩ := List.mem_map.mp hx
    exact hunchanged p hp
  · refine Workspace.formatFiles_eq_self _ fun p hp => w.formatAt_unwritten _ p (Or.inr ?_)
    rw [hunchanged p hp]
    rfl

end

/-- A run that looks leaves the workspace as it is and foretells the run that writes: which files
it rewrites, and what it says of each. A check that ends with code zero means that there is
nothing to write. -/
theorem check_foretells_write (env : Environment) (o : Options) (inputs : List Path)
    {check diff : Bool} (hlook : (check || diff) = true)
    (hapart : (env.workspace.select o inputs).Pairwise env.workspace.Apart) :
    let w := env.workspace
    let looked := w.run (o.asking check diff) inputs
    let wrote := w.run (o.asking false false) inputs
    looked.2 = w ∧
    Rewrites (o.asking false false) w wrote.1.results wrote.2 ∧
    looked.1.results.map FileReport.path = w.select o inputs ∧
    List.Forall₂ (Foretells o diff w wrote.2) looked.1.results wrote.1.results ∧
    looked.1.counts.total = (w.select o inputs).length ∧
    wrote.1.counts.total = (w.select o inputs).length ∧
    (check = true → (Program.formatFiles env (o.asking check diff) inputs).code = 0 →
      (Program.formatFiles env (o.asking false false) inputs).code = 0 ∧
      (Program.formatFiles env (o.asking false false) inputs).workspace = w) := by
  intro w looked wrote
  have hleft : looked.2 = w :=
    Workspace.formatFiles_eq_self _ fun p _ => w.formatAt_unwritten _ p (Or.inl hlook)
  refine ⟨hleft, rewrites_formatFiles rfl hapart, paths_run hapart check diff,
    foretells_run hapart hlook, counts_run hapart check diff, counts_run hapart false false, ?_⟩
  rintro rfl hcode
  exact run_of_clean_check hapart hcode

/-- A file to change, one to leave, one below with a query that loses a word, and one that is not
selected. -/
def mixedFiles : Environment where
  workspace :=
    ⟨.file "a.sql".toList (encode "select a from t".toList)
      (.file "b.sql".toList (encode "SELECT\n    a\nFROM t;\n".toList)
        (.folder "sub".toList (.file "c.sql".toList (encode terminatedInner) .empty)
          (.file "notes.txt".toList (encode "select a from t".toList) .empty))), []⟩
  configHome := none
  terminalColors := false
  stdin := .empty

/-- The check takes the lossy file for one to change; the run that writes refuses it. -/
theorem check_foretells_write_mixedFiles :
    let w := mixedFiles.workspace
    let looked := w.run (({} : Options).asking true true) [⟨['.']⟩]
    let wrote := w.run (({} : Options).asking false false) [⟨['.']⟩]
    (w.select {} [⟨['.']⟩]).Pairwise w.Apart ∧ looked.2 = w ∧
      Rewrites (({} : Options).asking false false) w wrote.1.results wrote.2 ∧
      List.Forall₂ (Foretells {} true w wrote.2) looked.1.results wrote.1.results ∧
      looked.1.results.map (fun r => r.outcome.isChanged) = [true, false, true] ∧
      wrote.1.results.map (fun r => r.outcome.isChanged) = [true, false, false] := by
  have hapart : (mixedFiles.workspace.select {} [⟨['.']⟩]).Pairwise mixedFiles.workspace.Apart := by
    decide +kernel
  obtain ⟨hleft, hrewrites, -, hforetells, -⟩ :=
    check_foretells_write mixedFiles {} [⟨['.']⟩] (Bool.true_or true) hapart
  exact ⟨hapart, hleft, hrewrites, hforetells, by decide +kernel, by decide +kernel⟩

end SqlLayout
