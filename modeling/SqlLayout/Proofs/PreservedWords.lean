import SqlLayout.Proofs.Characters
import SqlLayout.Source

set_option autoImplicit false

/-! # The preserved words of a formatted text

A list of words is spelled by its characters, each with whether a word starts there
(`spell`). The preserved words of a text are spelled by the keys of its marks
(`spell_preservedWords`), so they stay the same exactly if the keys do, and that is what
`keepsWords` is about.
-/

namespace SqlLayout

namespace Text

/-! ## Spelling words -/

/-- The characters of a word, the first of which starts it. -/
def spellWord : Text → List (Bool × Char)
  | [] => []
  | c :: cs => (true, c) :: cs.map (false, ·)

/-- The characters of words, each with whether a word starts there. -/
def spell (ws : List Text) : List (Bool × Char) := ws.flatMap spellWord

theorem spell_append (ws vs : List Text) : spell (ws ++ vs) = spell ws ++ spell vs := by
  simp [spell]

/-- The first character of a spelling is marked as such. -/
theorem spell_ne_letter {ws : List Text} (hws : [] ∉ ws) (c : Char) (x : List (Bool × Char)) :
    (false, c) :: x ≠ spell ws := by
  intro heq
  cases ws with
  | nil => cases heq
  | cons w ws =>
      cases w with
      | nil => simp at hws
      | cons a as =>
          simp only [spell, List.flatMap_cons, spellWord, List.cons_append, List.cons.injEq,
            Prod.mk.injEq] at heq
          exact Bool.false_ne_true heq.1.1

/-- The letters of a word end where the next word starts. -/
theorem letters_injective {cs ds : Text} {ws vs : List Text} (hws : [] ∉ ws) (hvs : [] ∉ vs)
    (h : cs.map (false, ·) ++ spell ws = ds.map (false, ·) ++ spell vs) :
    cs = ds ∧ spell ws = spell vs := by
  induction cs generalizing ds with
  | nil =>
      cases ds with
      | nil => exact ⟨rfl, h⟩
      | cons d ds => exact absurd h.symm (spell_ne_letter hws d _)
  | cons c cs ih =>
      cases ds with
      | nil => exact absurd h (spell_ne_letter hvs c _)
      | cons d ds =>
          simp only [List.map_cons, List.cons_append, List.cons.injEq, Prod.mk.injEq,
            true_and] at h
          obtain ⟨rfl, hrest⟩ := h
          obtain ⟨rfl, htail⟩ := ih hrest
          exact ⟨rfl, htail⟩

/-- Words that are not empty can be read back. -/
theorem spell_injective {ws vs : List Text} (hw : [] ∉ ws) (hv : [] ∉ vs)
    (h : spell ws = spell vs) : ws = vs := by
  induction ws generalizing vs with
  | nil =>
      cases vs with
      | nil => rfl
      | cons v vs =>
          cases v with
          | nil => simp at hv
          | cons d ds => cases h
  | cons w ws ih =>
      simp only [List.mem_cons, not_or] at hw
      obtain ⟨c, cs, rfl⟩ := List.exists_cons_of_ne_nil (Ne.symm hw.1)
      cases vs with
      | nil => cases h
      | cons v vs =>
          simp only [List.mem_cons, not_or] at hv
          obtain ⟨d, ds, rfl⟩ := List.exists_cons_of_ne_nil (Ne.symm hv.1)
          simp only [spell, List.flatMap_cons, spellWord, List.cons_append, List.cons.injEq,
            Prod.mk.injEq, true_and] at h
          obtain ⟨rfl, hrest⟩ := h
          obtain ⟨rfl, htail⟩ := letters_injective hw.2 hv.2 hrest
          rw [ih hw.2 hv.2 htail]

/-! ## Words cut at dividers -/

theorem divideFrom_cons (c : Char) (cs : Text) :
    divideFrom (c :: cs) = if isDivider c then
      ([], [c] :: consPiece (divideFrom cs).1 (divideFrom cs).2)
      else (c :: (divideFrom cs).1, (divideFrom cs).2) := rfl

/-- A word without blanks: its first piece goes on if the word does, and starts anew behind a
divider. -/
theorem spell_divideFrom {w : Text} (hw : ∀ c ∈ w, isBlank c = false) :
    (∀ e, Fresh e → spell (w.divide.map upper) = (w.marks e).map Mark.key) ∧
      ∀ p, isDivider p = false →
        (divideFrom w).1.upper.map (false, ·) ++ spell ((divideFrom w).2.map upper)
          = (w.marks (some p)).map Mark.key := by
  induction w with
  | nil => exact ⟨fun _ _ => rfl, fun _ _ => rfl⟩
  | cons c cs ih =>
      have hc : isBlank c = false := hw c (by simp)
      obtain ⟨ihFresh, ihGo⟩ := ih (fun d hd => hw d (by simp [hd]))
      rw [divide, divideFrom_cons]
      by_cases hd : isDivider c = true
      · -- a divider is a word of its own, and what follows it starts one
        have hrest := ihFresh (some c) (Fresh.of_divider hd)
        have hkey : ∀ e, Mark.key ⟨e, c⟩ = (true, c.toUpper) := by
          intro e
          cases e <;> simp [Mark.key, Mark.opens, hd]
        constructor
        · intro e _
          simp only [hd, if_true, marks, hc, Bool.false_eq_true, if_false, List.map_cons, hkey,
            consPiece, List.isEmpty_nil, ← hrest]
          rfl
        · intro p _
          simp only [hd, if_true, marks, hc, Bool.false_eq_true, if_false, List.map_cons, hkey,
            ← hrest]
          rfl
      · have hd' : isDivider c = false := by simpa using hd
        have hrest := ihGo c hd'
        constructor
        · intro e he
          have hkey : Mark.key ⟨e, c⟩ = (true, c.toUpper) := by
            cases e with
            | none => rfl
            | some p =>
                have hp : isDivider p = true := by simpa [Fresh] using he
                simp [Mark.key, Mark.opens, hp]
          simp only [hd', Bool.false_eq_true, if_false, marks, hc, List.map_cons, hkey,
            consPiece, List.isEmpty_cons, ← hrest]
          rfl
        · intro p hp
          have hkey : Mark.key ⟨some p, c⟩ = (false, c.toUpper) := by
            simp [Mark.key, Mark.opens, hp, hd']
          simp only [hd', Bool.false_eq_true, if_false, marks, hc, List.map_cons, hkey, ← hrest]
          rfl

/-- The words of a text, cut at dividers, are spelled by the keys of its marks. -/
theorem spell_words (t : Text) :
    spell ((words t).flatMap fun w => w.divide.map upper) = (t.marks none).map Mark.key := by
  have hword : ∀ (t : Text), ∀ c ∈ t.takeWhile (fun c => !isBlank c), isBlank c = false := by
    intro t c hc
    simpa using List.mem_takeWhile_imp hc
  -- inside a word, what is left of it belongs to a run that has begun before the text
  suffices h : spell ((runsFrom (fun c => !isBlank c) false t).flatMap
        fun w => w.divide.map upper) = (t.marks none).map Mark.key ∧
      ∀ e, (Text.marks e (t.takeWhile fun c => !isBlank c)).map Mark.key
          ++ spell ((runsFrom (fun c => !isBlank c) true t).flatMap fun w => w.divide.map upper)
        = (t.marks e).map Mark.key from h.1
  induction t with
  | nil => exact ⟨rfl, fun _ => rfl⟩
  | cons c cs ih =>
      obtain ⟨ihStart, ihGo⟩ := ih
      by_cases hc : isBlank c = true
      · constructor
        · simpa [runsFrom, hc, marks] using ihStart
        · intro e
          simpa [runsFrom, hc, marks, List.takeWhile_cons] using ihStart
      · have hc' : isBlank c = false := by simpa using hc
        have htake : (c :: cs).takeWhile (fun c => !isBlank c)
            = c :: cs.takeWhile fun c => !isBlank c := by simp [hc']
        constructor
        · have hruns : runsFrom (fun c => !isBlank c) false (c :: cs)
              = (c :: cs.takeWhile fun c => !isBlank c)
                :: runsFrom (fun c => !isBlank c) true cs := by
            simp [runsFrom, hc']
          have hfirst := (spell_divideFrom (htake ▸ hword (c :: cs))).1 none Fresh.none
          rw [hruns, List.flatMap_cons, spell_append, hfirst, marks, marks, hc']
          simp only [Bool.false_eq_true, if_false, List.map_cons, List.cons_append]
          rw [ihGo]
        · intro e
          have hruns : runsFrom (fun c => !isBlank c) true (c :: cs)
              = runsFrom (fun c => !isBlank c) true cs := by simp [runsFrom, hc']
          rw [hruns, htake, marks, marks, hc']
          simp only [Bool.false_eq_true, if_false, List.map_cons, List.cons_append]
          rw [ihGo]

/-! ## Preserved words -/

/-- The text whose words are preserved. -/
def wordSource (t : Text) : Text :=
  if t.trimEnd.getLast? == some terminator then t.trimEnd.dropLast else t.trimEnd

theorem spell_preservedWords (t : Text) :
    spell t.preservedWords = (t.wordSource.marks none).map Mark.key := spell_words _

theorem not_mem_preservedWords (t : Text) : [] ∉ t.preservedWords := by
  have hfrom : ∀ w : Text, [] ∉ (divideFrom w).2 := by
    intro w
    induction w with
    | nil => simp [divideFrom]
    | cons c cs ih =>
        rw [divideFrom_cons]
        split
        · simp only [List.mem_cons, not_or]
          refine ⟨by simp, ?_⟩
          unfold consPiece
          split
          · exact ih
          · rename_i hne
            simp only [List.mem_cons, not_or]
            exact ⟨fun h => hne (by simp [← h]), ih⟩
        · exact ih
  intro hmem
  simp only [preservedWords, List.mem_flatMap, List.mem_map] at hmem
  obtain ⟨w, -, p, hp, hnil⟩ := hmem
  obtain rfl : p = [] := by simpa [upper] using hnil
  unfold divide consPiece at hp
  -- only a piece that is not empty is put in front
  split at hp
  · exact hfrom w hp
  · rename_i hne
    rcases List.mem_cons.mp hp with h | h
    · exact hne (by simp [← h])
    · exact hfrom w h

/-- Preserved words are compared by comparing keys. -/
theorem preservedWords_eq_iff {s t : Text} :
    s.preservedWords = t.preservedWords ↔
      (s.wordSource.marks none).map Mark.key = (t.wordSource.marks none).map Mark.key := by
  rw [← spell_preservedWords, ← spell_preservedWords]
  constructor
  · intro h
    rw [h]
  · exact spell_injective (not_mem_preservedWords s) (not_mem_preservedWords t)

/-- The marks without one terminator at the end. -/
theorem marks_wordSource {t : Text} {v : List Mark} {e : Option Char}
    (h : t.marks none = v ++ [⟨e, terminator⟩]) : t.wordSource.marks none = v := by
  have hlast : t.trimEnd.getLast? = some terminator := by
    rw [← last_marks (fun c hc => last_trimEnd hc) none, marks_trimEnd, h]
    simp
  have hsplit : t.trimEnd.dropLast ++ [terminator] = t.trimEnd :=
    List.dropLast_append_getLast? terminator hlast
  have hmarks := marks_trimEnd none t
  rw [← hsplit, marks_append, h] at hmarks
  have hsource : t.wordSource = t.trimEnd.dropLast := by
    rw [wordSource, hlast]
    rfl
  rw [hsource]
  exact (List.append_inj' hmarks rfl).1

theorem marks_wordSource_self {t : Text}
    (h : t.normalize.getLast? ≠ some terminator) :
    t.wordSource.marks none = t.marks none := by
  have hlast : t.trimEnd.getLast? = t.normalize.getLast? := by
    rw [← last_marks (fun c hc => last_trimEnd hc) none, marks_trimEnd, ← marks_normalize,
      last_marks (fun c hc => last_normalize hc)]
  have hsource : t.wordSource = t.trimEnd := by
    rw [wordSource, hlast, if_neg (by simpa using h)]
  rw [hsource, marks_trimEnd]

/-- The words of a text are preserved from its statement. -/
theorem marks_wordSource_statement (t : Text) :
    t.wordSource.marks none = t.normalize.withoutTerminator.marks none := by
  rcases marks_statement t with ⟨hlast, h⟩ | ⟨e, h⟩
  · rw [marks_wordSource_self hlast, h]
  · exact marks_wordSource h

end Text

/-! ## The comparison -/

theorem Mismatch.firstDifference_eq_none {i : Nat} {ws vs : List Text}
    (hlen : ws.length = vs.length) : firstDifference i ws vs = none ↔ ws = vs := by
  induction ws generalizing i vs with
  | nil =>
      cases vs with
      | nil => simp [firstDifference]
      | cons v vs => cases hlen
  | cons w ws ih =>
      cases vs with
      | nil => cases hlen
      | cons v vs =>
          rw [firstDifference]
          split
          · rename_i heq
            obtain rfl : w = v := by simpa using heq
            rw [ih (by simpa using hlen)]
            simp
          · rename_i hne
            have hne' : w ≠ v := by simpa using hne
            simp [hne']

/-- The comparison finds a mismatch exactly if there is one. -/
theorem Mismatch.between?_eq_none {ws vs : List Text} : between? ws vs = none ↔ ws = vs := by
  unfold between?
  constructor
  · intro h
    split at h
    · cases h
    · rename_i hfirst
      split at h
      · rename_i hlen
        exact (firstDifference_eq_none (by simpa using hlen)).mp hfirst
      · cases h
  · rintro rfl
    rw [(firstDifference_eq_none rfl).mpr rfl]
    simp

/-- The preserved words stay exactly if the layout cuts between them. -/
theorem preservedWords_eq_iff_keepsWords {width : Nat} {t o : Text} (h : format width t = .ok o) :
    Text.preservedWords (o ++ ['\n']) = t.preservedWords ↔ keepsWords t = true := by
  obtain ⟨v, e, hv, hspread, -⟩ := spread_format h (Ready.untracked _) (fun hne => absurd rfl hne)
  have hresult : Text.marks none (o ++ ['\n']) = v ++ [⟨e, terminator⟩] := by
    rw [Text.marks_append, hv]
    simp [Text.marks, show isBlank '\n' = true by decide]
  have hsource := congrArg (List.map Mark.key)
    (Text.toMark_glyphs none none t.normalize.withoutTerminator)
  rw [List.map_map] at hsource
  rw [Text.preservedWords_eq_iff, Text.marks_wordSource hresult, Text.marks_wordSource_statement,
    ← hspread.exact, ← hsource]
  exact eq_comm

/-- Formatting a text keeps its preserved words exactly if the layout cuts between them, and
otherwise the comparison refuses the formatted text. -/
theorem format_preservedWords {width : Nat} {t o : Text} (h : format width t = .ok o) :
    (Text.preservedWords (o ++ ['\n']) = t.preservedWords ↔ keepsWords t = true) ∧
      ∀ opts : Options, opts.indentWidth = width → opts.comparesWords = true →
        ((∃ m, formatSource opts t = .error (.mismatch m)) ↔ keepsWords t = false) := by
  have hwords := preservedWords_eq_iff_keepsWords h
  refine ⟨hwords, fun opts hwidth hcompares => ?_⟩
  unfold formatSource
  simp only [hwidth, h, hcompares, if_true]
  cases hbetween : Mismatch.between? t.preservedWords (Text.preservedWords (o ++ ['\n'])) with
  | none =>
      have hkeeps := hwords.mp (Mismatch.between?_eq_none.mp hbetween).symm
      simp [hkeeps]
  | some m =>
      have hdiffers : ¬ keepsWords t = true := by
        intro hkeeps
        rw [Mismatch.between?_eq_none.mpr (hwords.mpr hkeeps).symm] at hbetween
        cases hbetween
      simp [hdiffers]

/-- A query in a condition whose inner query ends with a terminator of its own. -/
def terminatedInner : Text := "SELECT a FROM t WHERE x IN (SELECT id FROM u;)".toList

/-- The terminator of an inner query is lost, and with it a preserved word. -/
theorem format_preservedWords_terminatedInner :
    ∃ o, format 4 terminatedInner = .ok o ∧
      Text.preservedWords (o ++ ['\n']) ≠ terminatedInner.preservedWords ∧
      ∃ m, formatSource {} terminatedInner = .error (.mismatch m) := by
  have hcut : keepsWords terminatedInner = false := by decide +kernel
  have haccepted : (format 4 terminatedInner).isOk = true := by decide +kernel
  cases hformat : format 4 terminatedInner with
  | error e =>
      rw [hformat] at haccepted
      cases haccepted
  | ok o =>
      obtain ⟨hwords, hrefused⟩ := format_preservedWords hformat
      refine ⟨o, rfl, ?_, (hrefused {} rfl rfl).mpr hcut⟩
      rw [Ne, hwords, hcut]
      decide

end SqlLayout
