import SqlLayout.Proofs.Brackets
import SqlLayout.Proofs.Reading
import SqlLayout.Proofs.SteadyCuts

set_option autoImplicit false

/-! # Lines on one line

A text is *neat* if `normalize` leaves it as it is. Neat texts are put together from neat texts
(`Neat.append`, `Neat.space`), and two neat texts with the same marks are equal (`Neat.ext`).

`flat` puts lines on one line. It is the neat text with the marks of the lines (`marks_flat`), so
the words that a reader finds in a rendered layout are those of its flat text.
-/

namespace SqlLayout

open Text

/-! ## Neat texts

`Tidy` is what can be said of a part of a normalized text: its blanks are single spaces. A neat
text has none at its ends either, so it can be put next to another one. -/

/-- Single spaces between words, and none at the two ends. -/
structure Neat (t : Text) : Prop where
  tidy : Tidy t
  head : ∀ c, t.head? = some c → isBlank c = false
  last : ∀ c, t.getLast? = some c → isBlank c = false

/-- Tidy texts may be put together if no blank stands at the end of the first. -/
theorem Tidy.append {a b : Text} (ha : Tidy a) (hb : Tidy b)
    (hedge : ∀ c, a.getLast? = some c → isBlank c = false) : Tidy (a ++ b) := by
  induction a with
  | nil => exact hb
  | cons c cs ih =>
      have hlast : ∀ d, cs.getLast? = some d → isBlank d = false := by
        intro d hd
        refine hedge d ?_
        cases cs with
        | nil => cases hd
        | cons x xs => rwa [List.getLast?_cons_cons]
      refine tidy_cons (ih ha.tail hlast) (fun hc => ?_)
      obtain ⟨rfl, hnext⟩ := ha [] c cs rfl hc
      refine ⟨rfl, fun d hd => ?_⟩
      cases cs with
      | nil => exact absurd (hedge ' ' rfl) (by decide)
      | cons x xs => exact hnext d (by simpa using hd)

namespace Neat

theorem nil : Neat [] := ⟨tidy_nil, fun _ h => (by cases h), fun _ h => (by cases h)⟩

/-- A neat text is its own normal form. -/
theorem normalize_eq {t : Text} (h : Neat t) : t.normalize = t :=
  normalize_eq_self h.tidy h.head h.last

theorem normalize (t : Text) : Neat t.normalize :=
  ⟨tidy_normalize t, fun _ h => head_normalize h, fun _ h => last_normalize h⟩

theorem trim {t : Text} (h : Tidy t) : Neat t.trim := by
  rw [← normalize_trim h]
  exact normalize _

/-- A text without blanks. -/
theorem of_unblank {t : Text} (h : t.all (fun c => !isBlank c) = true) : Neat t := by
  have hall : ∀ c ∈ t, isBlank c = false := by simpa using h
  refine ⟨?_, fun c hc => hall c (List.mem_of_head? hc),
    fun c hc => hall c (List.mem_of_getLast? hc)⟩
  intro a c b hsplit hc
  rw [hall c (by simp [hsplit])] at hc
  cases hc

/-- Neat texts may be put together, as neither has a blank at the cut. -/
theorem append {a b : Text} (ha : Neat a) (hb : Neat b) : Neat (a ++ b) := by
  refine ⟨ha.tidy.append hb.tidy ha.last, fun c hc => ?_, fun c hc => ?_⟩
  · cases a with
    | nil => exact hb.head c hc
    | cons x xs => exact ha.head c (by simpa using hc)
  · rw [List.getLast?_append] at hc
    cases hlast : b.getLast? with
    | none =>
        rw [hlast] at hc
        exact ha.last c (by simpa using hc)
    | some d =>
        rw [hlast] at hc
        exact hb.last c (by rw [hlast]; simpa using hc)

/-- Two neat texts with a space between them. -/
theorem space {a b : Text} (ha : Neat a) (hb : Neat b) (hane : a ≠ []) (hbne : b ≠ []) :
    Neat (a ++ ' ' :: b) := by
  have hspace : Tidy (' ' :: b) := tidy_cons hb.tidy (fun _ => ⟨rfl, hb.head⟩)
  refine ⟨ha.tidy.append hspace ha.last, fun c hc => ?_, fun c hc => ?_⟩
  · obtain ⟨x, xs, rfl⟩ := List.exists_cons_of_ne_nil hane
    exact ha.head c (by simpa using hc)
  · obtain ⟨x, xs, rfl⟩ := List.exists_cons_of_ne_nil hbne
    exact hb.last c (by simpa using hc)

/-- A keyword and a body. -/
theorem headed {keyword body : Text} (hk : Neat keyword) (hne : keyword ≠ [])
    (hb : Neat body) : Neat (Layout.headed keyword body) := by
  unfold Layout.headed
  split
  · exact hk
  · rename_i hbody
    exact hk.space hb hne (by simpa using hbody)

/-- A neat text is given by its marks. -/
theorem ext {s t : Text} (hs : Neat s) (ht : Neat t) (h : s.marks none = t.marks none) :
    s = t := by
  have hnil : ∀ {u : Text}, Neat u → (u = [] ↔ u.marks none = []) := by
    intro u hu
    constructor
    · rintro rfl
      rfl
    · intro hm
      cases u with
      | nil => rfl
      | cons c cs =>
          rw [marks, if_neg (by simp [hu.head c rfl])] at hm
          cases hm
  by_cases hne : s = []
  · rw [hne, eq_comm, hnil ht, ← h, ← hnil hs]
    exact hne
  · have hs' : s.normalize ≠ [] := by rwa [hs.normalize_eq]
    have ht' : t.normalize ≠ [] := by
      rw [ht.normalize_eq]
      exact fun ht0 => hne ((hnil hs).mpr (by rw [h]; exact (hnil ht).mp ht0))
    have h1 := expandMarks_normalize hs'
    have h2 := expandMarks_normalize ht'
    rw [hs.normalize_eq] at h1
    rw [ht.normalize_eq, ← h, h1] at h2
    simpa using h2

end Neat

/-! ### Cutting at a space -/

/-- What stands before a space. -/
theorem Neat.before_space {a r : Text} (h : Neat (a ++ ' ' :: r)) : Neat a := by
  refine ⟨h.tidy.part (a := []), fun c hc => ?_, fun c hc => ?_⟩
  · cases a with
    | nil => cases hc
    | cons x xs => exact h.head c (by simpa using hc)
  · by_contra hb
    obtain ⟨init, hinit⟩ : ∃ init, a = init ++ [c] :=
      ⟨a.dropLast, (List.dropLast_append_getLast? c hc).symm⟩
    obtain ⟨-, hnext⟩ := h.tidy init c (' ' :: r) (by simp [hinit]) (by simpa using hb)
    exact absurd (hnext ' ' rfl) (by decide)

/-- What stands behind a space. -/
theorem Neat.after_space {a r : Text} (h : Neat (a ++ ' ' :: r)) : Neat r := by
  refine ⟨?_, ?_, fun c hc => h.last c ?_⟩
  · have hsplit : Tidy ((a ++ [' ']) ++ (r ++ [])) := by simpa using h.tidy
    exact hsplit.part
  · exact (h.tidy a ' ' r rfl (by decide)).2
  · cases r with
    | nil => cases hc
    | cons x xs => simpa using hc

/-- A separator between spaces, in any case, cuts a neat text into two neat texts. -/
theorem Neat.around_separator {a s b w : Text} (hs : s.upper = ' ' :: (w ++ [' ']))
    (h : Neat (a ++ (s ++ b))) : (Neat a ∧ a ≠ []) ∧ Neat b ∧ b ≠ [] := by
  obtain ⟨m, rfl⟩ : ∃ m, s = ' ' :: (m ++ [' ']) := by
    cases s with
    | nil => cases hs
    | cons c cs =>
        obtain ⟨hc, hcs⟩ := List.cons.inj hs
        rw [(toUpper_eq_iff_of_not_word (by decide) c).mp hc]
        rcases List.eq_nil_or_concat cs with rfl | ⟨m, d, rfl⟩
        · simp at hcs
        · have hd : d.toUpper = ' ' := by
            have hlast := congrArg List.getLast? hcs
            simpa using hlast
          rw [(toUpper_eq_iff_of_not_word (by decide) d).mp hd, List.concat_eq_append]
          exact ⟨m, rfl⟩
  have hback : a ++ (' ' :: (m ++ [' ']) ++ b) = (a ++ ' ' :: m) ++ ' ' :: b := by simp
  refine ⟨⟨h.before_space, ?_⟩, ?_, ?_⟩
  · rintro rfl
    exact absurd (h.head ' ' rfl) (by decide)
  · rw [hback] at h
    exact h.after_space
  · rintro rfl
    rw [hback] at h
    exact absurd (h.last ' ' List.getLast?_concat) (by decide)

/-! ### Blanks around a text -/

theorem allBlank_space : AllBlank [' '] := by
  intro c hc
  rw [List.mem_singleton.mp hc]
  decide

theorem trimStart_append {a : Text} (ha : AllBlank a) (r : Text) :
    trimStart (a ++ r) = trimStart r :=
  List.dropWhile_append_of_pos (fun c hc => ha c hc)

theorem trimEnd_append {b : Text} (hb : AllBlank b) (r : Text) : trimEnd (r ++ b) = trimEnd r := by
  rw [trimEnd, trimEnd, List.reverse_append, List.dropWhile_append_of_pos]
  intro c hc
  exact hb c (List.mem_reverse.mp hc)

theorem trimStart_of_head {t : Text} (h : ∀ c, t.head? = some c → isBlank c = false) :
    trimStart t = t := by
  cases t with
  | nil => rfl
  | cons c cs => simp [trimStart, h c rfl]

theorem trimEnd_of_last {t : Text} (h : ∀ c, t.getLast? = some c → isBlank c = false) :
    trimEnd t = t := by
  rcases List.eq_nil_or_concat t with rfl | ⟨init, c, rfl⟩
  · rfl
  · rw [List.concat_eq_append] at h ⊢
    have hc : isBlank c = false := h c (by simp)
    simp [trimEnd, hc]

/-- There is nothing to trim. -/
theorem Neat.trim_eq {t : Text} (h : Neat t) : t.trim = t := by
  rw [Text.trim, trimStart_of_head h.head, trimEnd_of_last h.last]

/-- Trimming takes away the blanks that were put around a text, and nothing else. -/
theorem Neat.trim_blanks {a f b : Text} (hf : Neat f) (ha : AllBlank a) (hb : AllBlank b) :
    Text.trim (a ++ (f ++ b)) = f := by
  have hend : trimEnd (a ++ (f ++ b)) = trimEnd (a ++ f) := by
    rw [← List.append_assoc, trimEnd_append hb]
  cases f with
  | nil =>
      have hall : AllBlank (a ++ b) := by
        intro c hc
        rcases List.mem_append.mp hc with h | h
        · exact ha c h
        · exact hb c h
      have hstart := trimStart_append hall []
      rw [List.append_nil] at hstart
      rw [Text.trim, List.nil_append, hstart]
      rfl
  | cons c cs =>
      have hc : isBlank c = false := hf.head c rfl
      have hstart : trimStart (a ++ (c :: cs ++ b)) = c :: cs ++ b := by
        rw [trimStart_append ha]
        simp [trimStart, hc]
      rw [Text.trim, hstart, trimEnd_append hb, trimEnd_of_last hf.last]

/-- A text with a character that is not blank is not trimmed away. -/
theorem trim_ne_nil {c : Char} (hc : isBlank c = false) (cs : Text) : trim (c :: cs) ≠ [] := by
  intro hnil
  have hmarks : (trim (c :: cs)).marks none ≠ [] := by
    rw [marks_trim, marks, hc]
    simp
  rw [hnil] at hmarks
  exact hmarks rfl

/-- A space at the end is trimmed. -/
theorem trim_space (u : Text) : trim (u ++ [' ']) = trim u := by
  have hmid : trim (u ++ [' ']) = trimEnd (trimStart (u ++ [' '])) := rfl
  rw [hmid]
  by_cases hu : AllBlank u
  · have hall : AllBlank (u ++ [' ']) := by
      intro c hc
      rcases List.mem_append.mp hc with h | h
      · exact hu c h
      · exact allBlank_space c h
    have h1 := trimStart_append hall []
    have h2 := trimStart_append hu []
    rw [List.append_nil] at h1 h2
    rw [trim, h1, h2]
  · have hstart : trimStart (u ++ [' ']) = trimStart u ++ [' '] := by
      rw [trimStart, trimStart, List.dropWhile_append, if_neg]
      intro hempty
      refine hu (fun c hc => ?_)
      have hnil : u.dropWhile isBlank = [] := by simpa using hempty
      exact List.dropWhile_eq_nil_iff.mp hnil c hc
    rw [hstart, trimEnd_append allBlank_space, trim]

/-! ## Words and joins -/

/-- A run is not empty, and each of its characters passes the test. -/
theorem mem_runsFrom {p : Char → Bool} {inside : Bool} {t w : Text}
    (h : w ∈ runsFrom p inside t) : w ≠ [] ∧ ∀ c ∈ w, p c = true := by
  induction t generalizing inside with
  | nil => cases h
  | cons c cs ih =>
      rw [runsFrom] at h
      split at h
      · rename_i hc
        split at h
        · exact ih h
        · rcases List.mem_cons.mp h with rfl | h
          · refine ⟨by simp [hc], fun d hd => ?_⟩
            simpa using List.mem_takeWhile_imp hd
          · exact ih h
      · exact ih h

/-- Words have no blanks. -/
theorem mem_words {t w : Text} (h : w ∈ t.words) : w ≠ [] ∧ ∀ c ∈ w, isBlank c = false := by
  obtain ⟨hne, hall⟩ := mem_runsFrom h
  exact ⟨hne, fun c hc => by simpa using hall c hc⟩

/-- Joined texts are joined by the separator. -/
theorem join_append {sep : Text} {a b : List Text} (ha : a ≠ []) (hb : b ≠ []) :
    join sep (a ++ b) = join sep a ++ sep ++ join sep b := by
  induction a with
  | nil => exact absurd rfl ha
  | cons x xs ih =>
      cases xs with
      | nil =>
          obtain ⟨y, ys, rfl⟩ := List.exists_cons_of_ne_nil hb
          simp [join]
      | cons y ys =>
          have hrest := ih (by simp)
          simp only [List.cons_append] at hrest ⊢
          rw [join, hrest, join]
          simp

/-- Words joined are empty only if there are none. -/
theorem join_eq_nil {sep : Text} {ws : List Text} (h : ∀ w ∈ ws, w ≠ []) :
    join sep ws = [] ↔ ws = [] := by
  cases ws with
  | nil => simp [join]
  | cons w ws =>
      have hw : w ≠ [] := h w (by simp)
      cases ws with
      | nil => simp [join, hw]
      | cons v vs => simp [join, hw]

/-! ## Lines

`flat` joins the words of all lines. It is put together line by line by `flat_append`, and
`headed` is the same operation on two texts: a space between them, unless the second is empty. -/

theorem mem_lineWords {lines : List Line} {w : Text}
    (h : w ∈ lines.flatMap fun l => l.text.words) : w ≠ [] ∧ ∀ c ∈ w, isBlank c = false := by
  obtain ⟨l, -, hw⟩ := List.mem_flatMap.mp h
  exact mem_words hw

@[simp] theorem flat_nil : flat [] = [] := rfl

theorem flat_singleton (l : Line) : flat [l] = l.text.normalize := by
  simp [flat, Text.normalize]

/-- Two groups of lines on one line: a space stands between them, unless one of them has no
words. -/
theorem flat_append (a b : List Line) :
    flat (a ++ b) = if flat a = [] then flat b else Layout.headed (flat a) (flat b) := by
  have hwords : ∀ lines : List Line,
      join [' '] (lines.flatMap fun l => l.text.words) = [] ↔
        (lines.flatMap fun l => l.text.words) = [] :=
    fun lines => join_eq_nil (fun w hw => (mem_lineWords hw).1)
  have ha := hwords a
  have hb := hwords b
  unfold flat Layout.headed
  rw [List.flatMap_append]
  split
  · rename_i h
    rw [ha.mp h, List.nil_append]
  · rename_i h
    split
    · rename_i h'
      rw [hb.mp (by simpa using h'), List.append_nil]
    · rename_i h'
      rw [join_append (fun h0 => h (ha.mpr h0)) (fun h0 => h' (by simp [hb.mpr h0]))]
      simp

/-- A neat line in front of others. -/
theorem flat_cons {l : Line} (h : Neat l.text) (ls : List Line) :
    flat (l :: ls) = if l.text = [] then flat ls else Layout.headed l.text (flat ls) := by
  rw [← List.singleton_append, flat_append, flat_singleton, h.normalize_eq]

/-- A line that is not empty, in front of others. -/
theorem flat_cons_of_ne {l : Line} (h : Neat l.text) (hne : l.text ≠ []) (ls : List Line) :
    flat (l :: ls) = Layout.headed l.text (flat ls) := by
  rw [flat_cons h, if_neg hne]

/-- How far lines stand in is not seen on one line. -/
theorem flat_shift (k : Nat) (query : Query) : flat (query.shift k).lines = flat query.lines := by
  simp [flat, Query.shift, Line.shift, List.flatMap_map]

/-- Lines on one line are a neat text. -/
theorem neat_flat (lines : List Line) : Neat (flat lines) := by
  induction lines with
  | nil => exact Neat.nil
  | cons l ls ih =>
      rw [← List.singleton_append, flat_append, flat_singleton]
      split
      · exact ih
      · rename_i hne
        exact (Neat.normalize l.text).headed hne ih

theorem neat_onOneLine (layout : Layout) : Neat (Layout.onOneLine layout) := by
  cases layout with
  | ok block => exact neat_flat block.lines
  | error fault => exact Neat.nil

/-- Putting lines on one line keeps their marks: a line starts after a blank in either form. -/
theorem marks_flat (lines : List Line) : (flat lines).marks none = lineMarks lines := by
  induction lines with
  | nil => rfl
  | cons l ls ih =>
      rw [← List.singleton_append, flat_append, flat_singleton, lineMarks_append]
      have hl : lineMarks [l] = l.text.normalize.marks none := by
        simp [marks_normalize]
      split
      · rename_i hnil
        rw [ih, hl, hnil]
        rfl
      · rw [Layout.marks_headed, ih, hl]

end SqlLayout
