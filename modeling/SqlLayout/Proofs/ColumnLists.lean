import SqlLayout.Proofs.CaseLines
import SqlLayout.Proofs.Stacks
import SqlLayout.Proofs.Subqueries
import SqlLayout.Proofs.Verdicts

set_option autoImplicit false

/-! # Columns on one line

Where a list of columns is cut is a matter of its lexemes: a comma outside everything that no
`OVER` follows (`Whole` says that there is none). A column that is laid out has the same lexemes,
so the columns, put on one line with commas between them, are cut apart again
(`columns_listed`), and each of them is laid out as before (`relaid_column`). So the lines of
a `SELECT` clause, put on one line, are laid out as before (`selectClause_again`).
-/

namespace SqlLayout

open Text

/-! ## The next word

The scan for columns looks ahead from a comma to the next word. In lexemes this is the word of
the first of them, if it starts one. -/

/-- The word that the first lexeme starts. -/
def leadWord (l : List Lexeme) : Option Text := l.head?.bind Lexeme.word

/-- Only an empty list lets the text behind it be seen. -/
theorem leadWord_append {l : List Lexeme} (h : l ≠ []) (m : List Lexeme) :
    leadWord (l ++ m) = leadWord l := by
  rw [leadWord, List.head?_append_of_ne_nil _ h]
  rfl

/-- A lost terminator started no word, and neither does the parenthesis behind it. -/
theorem Thinned.leadWord_eq {l l' : List Lexeme} (h : Thinned l l') : leadWord l' = leadWord l := by
  cases h with
  | nil => rfl
  | keep x h => rfl
  | drop hx hxw hy hyw h => exact hyw.trans hxw.symm

/-- The next word of a text, read off its lexemes. -/
theorem nextIs_iff {w : Text} (hw : w ≠ []) {n : Nesting} (hn : n.isQuoted = false)
    {e : Option Char} (he : e.any isWordChar = false) (t : Text) :
    nextIs w t = true ↔ leadWord (lexemes n (t.marks e)) = some w.upper := by
  have hsound : n.quoting.Sound := by
    rw [Nesting.eq_of_unquoted hn]
    trivial
  have hrests := Nesting.rests_of_unquoted hn
  obtain ⟨a, ha, ht⟩ := trimStart_split t
  -- the blanks in front have no lexemes, so the text may start with its first character
  have hlex : lexemes n (t.marks e) = lexemes n (t.trimStart.marks none) := by
    have hedge : (edge e a).any isWordChar = false := by
      rw [ha.edge_eq]
      split
      · exact he
      · rfl
    conv_lhs => rw [ht]
    rw [lexemes_append hsound (hrests e) a _ (Or.inl hedge), lexemes_allBlank ha,
      Nesting.scan_allBlank hn ha, List.nil_append]
    exact lexemes_edge hsound hn hedge _
  rw [hlex, nextIs, same_iff]
  cases hcs : t.trimStart with
  | nil =>
      refine iff_of_false ?_ (by simp [leadWord, lexemes, marks])
      intro hnil
      exact hw (List.length_eq_zero_iff.mp (length_eq_of_upper_eq hnil).symm)
  | cons c cs =>
      have hc : isBlank c = false := head_trimStart (t := t) (by rw [hcs]; rfl)
      rw [lexemes_cons hc (hrests none)]
      -- a word starts here, or the next word is empty
      cases hcw : isWordChar c with
      | true =>
          simp only [leadWord, List.head?_cons, Option.bind_some, hn, Bool.not_false,
            Option.any_none, Bool.and_self, if_true, Option.some.injEq]
      | false =>
          have hfirst : firstWord (c :: cs) = [] := by simp [firstWord, hcw]
          rw [hfirst]
          refine iff_of_false ?_ (by simp [leadWord])
          intro hnil
          exact hw (List.length_eq_zero_iff.mp (length_eq_of_upper_eq hnil).symm)

theorem startsKeyword_eq_nextIs {k t : Text} (hk : k.all isWordChar = true) (ht : Neat t) :
    startsKeyword t k = nextIs k t := by
  rw [Bool.eq_iff_iff, startsKeyword_iff_firstWord hk, nextIs, same_iff,
    trimStart_of_head ht.head]

/-- Whether a neat text starts with a keyword is a matter of its lexemes, so a layout of it starts
with the keyword as well, or does not either. -/
theorem startsKeyword_eq_of_thinned {k s t : Text} (hk : k.all isWordChar = true) (hne : k ≠ [])
    (hs : Neat s) (ht : Neat t)
    (h : Thinned (lexemes .start (s.marks none)) (lexemes .start (t.marks none))) :
    startsKeyword t k = startsKeyword s k := by
  rw [startsKeyword_eq_nextIs hk ht, startsKeyword_eq_nextIs hk hs, Bool.eq_iff_iff,
    nextIs_iff hne (n := .start) rfl (e := none) rfl,
    nextIs_iff hne (n := .start) rfl (e := none) rfl,
    h.leadWord_eq]

/-! ## Commas between columns

`EndsColumn` says of a lexeme what the scan asks at a comma: that it stands outside literals and
parentheses, that no `CASE` is open, and that `OVER` does not follow. The last is about the
lexemes behind it, which belong to the next column or to what is put behind this one; `Closing`
keeps a text that is put there from changing the answer. -/

/-- The number of open `CASE` words behind a lexeme. -/
def Lexeme.casesAfter (depth : Nat) (x : Lexeme) : Nat :=
  match x.word with
  | some w => caseDepthAfter depth w
  | none => depth

/-- A comma that ends a column. -/
def EndsColumn (depth : Nat) (x : Lexeme) (rest : List Lexeme) : Prop :=
  x.char = ',' ∧ x.quoted = false ∧ x.depth = 0 ∧ depth = 0 ∧ leadWord rest ≠ some Keyword.OVER

/-- No comma among the lexemes ends a column. -/
def Whole : Nat → List Lexeme → Prop
  | _, [] => True
  | depth, x :: l => ¬ EndsColumn depth x l ∧ Whole (x.casesAfter depth) l

/-- The words of lexemes are counted one lexeme after another. -/
theorem openCases_cons (depth : Nat) (x : Lexeme) (l : List Lexeme) :
    openCases depth ((x :: l).filterMap Lexeme.word)
      = openCases (x.casesAfter depth) (l.filterMap Lexeme.word) := by
  unfold Lexeme.casesAfter
  cases hw : x.word with
  | none => rw [List.filterMap_cons_none hw]
  | some w => rw [List.filterMap_cons_some hw]; rfl

/-- Losing terminators makes no comma end a column. -/
theorem Thinned.whole {l l' : List Lexeme} (h : Thinned l l') {depth : Nat} (hl : Whole depth l) :
    Whole depth l' := by
  induction h generalizing depth with
  | nil => trivial
  | keep x h ih =>
      refine ⟨?_, ih hl.2⟩
      rintro ⟨hc, hq, hd, hz, hlead⟩
      exact hl.1 ⟨hc, hq, hd, hz, by rw [← h.leadWord_eq]; exact hlead⟩
  | @drop x y l l' hx hxw hy hyw h ih =>
      have hxc : x.casesAfter depth = depth := by rw [Lexeme.casesAfter, hxw]
      obtain ⟨-, hwhole⟩ := hl
      rw [hxc] at hwhole
      refine ⟨?_, ih hwhole.2⟩
      rintro ⟨hc, -⟩
      rw [hy] at hc
      exact absurd hc (by decide)

theorem allBlank_of_marks {e : Option Char} {t : Text} (h : t.marks e = []) : AllBlank t := by
  induction t generalizing e with
  | nil => intro c hc; cases hc
  | cons c cs ih =>
      rw [marks] at h
      split at h
      · rename_i hc
        intro d hd
        rcases List.mem_cons.mp hd with rfl | hd
        · exact hc
        · exact ih h d hd
      · cases h

theorem allBlank_of_lexemes {n : Nesting} {e : Option Char} {t : Text}
    (h : lexemes n (t.marks e) = []) : AllBlank t := by
  refine allBlank_of_marks (e := e) ?_
  cases hm : t.marks e with
  | nil => rfl
  | cons m v => rw [hm] at h; cases h

/-- A text that does not lengthen the word before it and does not start with `OVER`. -/
structure Closing (z : Text) : Prop where
  head : z.head?.any isWordChar = false
  next : nextIs Keyword.OVER z = false

theorem closing_nil : Closing [] := ⟨rfl, by decide⟩

theorem closing_comma (t : Text) : Closing (',' :: t) := by
  refine ⟨rfl, ?_⟩
  have htrim : trimStart (',' :: t) = ',' :: t := trimStart_of_head fun c hc => by
    obtain rfl : ',' = c := by simpa using hc
    decide
  rw [nextIs, htrim]
  rfl

/-- What the text behind a comma starts with, read off the lexemes of a column. -/
theorem nextIs_append_iff {n : Nesting} (hn : n.isQuoted = false) (r : Text) {z : Text}
    (hz : Closing z) : nextIs Keyword.OVER (r ++ z) = true ↔
      leadWord (lexemes n (Text.marks (some ',') r)) = some Keyword.OVER := by
  have hsound : n.quoting.Sound := by
    rw [Nesting.eq_of_unquoted hn]
    trivial
  by_cases hnil : lexemes n (Text.marks (some ',') r) = []
  · have hblank := allBlank_of_lexemes hnil
    refine iff_of_false ?_ (by simp [hnil, leadWord])
    have hnext : nextIs Keyword.OVER (r ++ z) = nextIs Keyword.OVER z := by
      rw [nextIs, trimStart_append hblank, nextIs]
    rw [hnext, hz.next]
    decide
  · rw [nextIs_iff (by decide) hn (e := some ',') (by decide),
      lexemes_append hsound (Nesting.rests_of_unquoted hn _) r z (Or.inr hz.head),
      leadWord_append hnil]
    exact Iff.rfl

/-- The lexeme of a character that ends a column. -/
theorem endsColumn_iff {n : Nesting} {c : Char} (r : Text) {z : Text}
    (hz : Closing z) (depth : Nat) (w : Option Text) :
    (c == ',' && n.isOutermost && depth == 0 && !nextIs Keyword.OVER (r ++ z)) = true ↔
      EndsColumn depth ⟨c.toUpper, n.depth, n.isQuoted, w⟩
        (lexemes (n.next c) (Text.marks (some c) r)) := by
  have hcomma : c.toUpper = ',' ↔ c = ',' := toUpper_eq_iff_of_not_word (by decide) c
  simp only [EndsColumn, hcomma, Nesting.isOutermost, Bool.and_eq_true, beq_iff_eq,
    Bool.not_eq_true']
  by_cases hc : c = ','
  · subst hc
    cases hq : n.isQuoted with
    | true => simp
    | false =>
        have hnext : n.next ',' = n := by
          rw [Nesting.eq_of_unquoted hq]
          rfl
        have hlead : nextIs Keyword.OVER (r ++ z) = false ↔
            leadWord (lexemes n (Text.marks (some ',') r)) ≠ some Keyword.OVER := by
          rw [Ne, ← nextIs_append_iff hq r hz, Bool.not_eq_true]
        rw [hnext, hlead]
        tauto
  · simp [hc]

/-- What the word of a lexeme does to the count of open `CASE` words, on both sides. -/
theorem casesAfter_word {n : Nesting} {e : Option Char} {c : Char} (depth : Nat) (t : Text) :
    Lexeme.casesAfter depth ⟨c.toUpper, n.depth, n.isQuoted,
        if !n.isQuoted && isWordChar c && !e.any isWordChar then some (firstWord t).upper else none⟩
      = if !n.isQuoted && isWordChar c && !e.any isWordChar then caseDepthAfter depth (firstWord t)
        else depth := by
  unfold Lexeme.casesAfter
  split
  · rename_i w hw
    dsimp only at hw
    split at hw
    · rename_i hcond
      obtain rfl := Option.some.inj hw
      rw [if_pos hcond, caseDepthAfter_upper]
    · cases hw
  · rename_i hw
    dsimp only at hw
    split at hw
    · cases hw
    · rename_i hcond
      rw [if_neg hcond]

theorem isWordChar_of_isBlank {c : Char} (h : isBlank c = true) : isWordChar c = false := by
  cases hw : isWordChar c with
  | false => rfl
  | true =>
      rw [not_isBlank_of (Or.inr (Or.inr (Or.inl hw)))] at h
      cases h

/-- A blank goes to the column it stands in, and a word ends at it. -/
theorem columnsFrom_blank {c : Char} (hc : isBlank c = true) (n : Nesting) (w : Bool)
    (depth : Nat) (t : Text) :
    columnsFrom n w depth (c :: t)
      = (c :: (columnsFrom (n.next c) false depth t).1,
        (columnsFrom (n.next c) false depth t).2) := by
  have hword : isWordChar c = false := isWordChar_of_isBlank hc
  have hcomma : (c == ',') = false := by
    rw [beq_eq_false_iff_ne]
    rintro rfl
    exact absurd hc (by decide)
  rw [columnsFrom_cons]
  simp only [hword, hcomma, Bool.and_false, Bool.false_and, Bool.false_eq_true, if_false]

/-- A column stays whole, and the text behind it is cut as it would be on its own. -/
theorem columnsFrom_append {n : Nesting} (hn : n.quoting.Sound) {e : Option Char}
    (he : n.Rests e) {depth : Nat} {p z : Text} (hz : Closing z)
    (hp : Whole depth (lexemes n (p.marks e))) :
    columnsFrom n (e.any isWordChar) depth (p ++ z)
      = (p ++ (columnsFrom (n.scan p) ((edge e p).any isWordChar)
          (openCases depth ((lexemes n (p.marks e)).filterMap Lexeme.word)) z).1,
        (columnsFrom (n.scan p) ((edge e p).any isWordChar)
          (openCases depth ((lexemes n (p.marks e)).filterMap Lexeme.word)) z).2) := by
  induction p generalizing n e depth with
  | nil => rfl
  | cons c cs ih =>
      have hsound := Nesting.sound_next hn c
      rw [List.cons_append, edge_cons]
      have hscan : n.scan (c :: cs) = (n.next c).scan cs := rfl
      by_cases hblank : isBlank c = true
      · rw [lexemes_blank hn hblank] at hp ⊢
        have hih := ih hsound (Nesting.rests_next hn hblank) hp
        rw [Option.any_none] at hih
        rw [columnsFrom_blank hblank, if_pos hblank, hscan, hih, List.cons_append]
      · have hblank' : isBlank c = false := by simpa using hblank
        -- `z` closes the column, so no word runs into it
        have hfirst : firstWord (c :: (cs ++ z)) = firstWord (c :: cs) :=
          firstWord_append (e := none) (Or.inr hz.head)
        rw [lexemes_cons hblank' he] at hp ⊢
        obtain ⟨hends, hwhole⟩ := hp
        rw [columnsFrom_cons, openCases_cons]
        rw [casesAfter_word] at hwhole ⊢
        rw [← endsColumn_iff cs hz] at hends
        have hih := ih hsound (Nesting.rests_some _ c) hwhole
        simp only [hblank', Bool.false_eq_true, if_false, Option.any_some, hscan, hfirst]
          at hih hends ⊢
        rw [if_neg hends, hih]
        simp

/-- A comma outside everything cuts a list. -/
theorem columnsFrom_comma {t : Text} (h : nextIs Keyword.OVER t = false) (w : Bool) :
    columnsFrom .start w 0 (',' :: t)
      = ([], (columnsFrom .start false 0 t).1 :: (columnsFrom .start false 0 t).2) := by
  have hword : isWordChar ',' = false := by decide
  have hstart : Nesting.start.next ',' = .start := rfl
  rw [columnsFrom_cons]
  simp only [hword, hstart, h, Bool.and_false, Bool.false_and, Bool.false_eq_true, if_false]
  rfl

/-- A space in front of a list goes to its first column. -/
theorem columnsFrom_space (t : Text) : columnsFrom .start false 0 (' ' :: t)
    = (' ' :: (columnsFrom .start false 0 t).1, (columnsFrom .start false 0 t).2) :=
  columnsFrom_blank (by decide) .start false 0 t

/-- The first column of a list and what follows it. -/
theorem columnsFrom_split {n : Nesting} (hn : n.quoting.Sound) {e : Option Char}
    (he : n.Rests e) (depth : Nat) (t : Text) :
    ∃ p z, t = p ++ z ∧ (columnsFrom n (e.any isWordChar) depth t).1 = p ∧
      Whole depth (lexemes n (p.marks e)) ∧
      ((z = [] ∧ (columnsFrom n (e.any isWordChar) depth t).2 = []) ∨
        ∃ t', z = ',' :: t' ∧ n.scan p = .start ∧
          openCases depth ((lexemes n (p.marks e)).filterMap Lexeme.word) = 0 ∧
          nextIs Keyword.OVER t' = false ∧
          (columnsFrom n (e.any isWordChar) depth t).2
            = (columnsFrom .start false 0 t').1 :: (columnsFrom .start false 0 t').2) := by
  induction t generalizing n e depth with
  | nil => exact ⟨[], [], rfl, rfl, trivial, Or.inl ⟨rfl, rfl⟩⟩
  | cons c cs ih =>
      have hsound := Nesting.sound_next hn c
      by_cases hblank : isBlank c = true
      · obtain ⟨p, z, ht, h1, hwhole, h2⟩ := ih hsound (Nesting.rests_next hn hblank) depth
        have hcols := columnsFrom_blank hblank n (e.any isWordChar) depth cs
        rw [Option.any_none] at h1 h2
        refine ⟨c :: p, z, by rw [ht]; rfl, by rw [hcols, h1], ?_, ?_⟩
        · rw [lexemes_blank hn hblank]
          exact hwhole
        · rw [hcols, lexemes_blank hn hblank]
          exact h2
      · have hblank' : isBlank c = false := by simpa using hblank
        by_cases hcut : (c == ',' && n.isOutermost && depth == 0 && !nextIs Keyword.OVER cs) = true
        · -- the comma ends an empty column
          simp only [Nesting.isOutermost, Bool.and_eq_true, beq_iff_eq, Bool.not_eq_true'] at hcut
          obtain ⟨⟨⟨rfl, hd, hq⟩, rfl⟩, hnext⟩ := hcut
          obtain rfl : n = .start := by
            rw [Nesting.eq_of_unquoted hq, hd]
            rfl
          rw [columnsFrom_comma hnext]
          exact ⟨[], ',' :: cs, rfl, rfl, trivial, Or.inr ⟨cs, rfl, rfl, rfl, hnext, rfl⟩⟩
        · obtain ⟨p, z, ht, h1, hwhole, h2⟩ := ih hsound (Nesting.rests_some _ c)
            (if !n.isQuoted && isWordChar c && !e.any isWordChar
              then caseDepthAfter depth (firstWord (c :: cs)) else depth)
          have hz : Closing z := by
            rcases h2 with ⟨rfl, -⟩ | ⟨t', rfl, -⟩
            · exact closing_nil
            · exact closing_comma t'
          have hfirst : firstWord (c :: cs) = firstWord (c :: p) := by
            rw [ht]
            exact firstWord_append (e := none) (Or.inr hz.head)
          have hcols : columnsFrom n (e.any isWordChar) depth (c :: cs)
              = (c :: (columnsFrom (n.next c) ((some c).any isWordChar)
                  (if !n.isQuoted && isWordChar c && !e.any isWordChar
                    then caseDepthAfter depth (firstWord (c :: cs)) else depth) cs).1,
                (columnsFrom (n.next c) ((some c).any isWordChar)
                  (if !n.isQuoted && isWordChar c && !e.any isWordChar
                    then caseDepthAfter depth (firstWord (c :: cs)) else depth) cs).2) := by
            rw [columnsFrom_cons]
            exact if_neg hcut
          refine ⟨c :: p, z, by rw [ht]; rfl, by rw [hcols, h1], ?_, ?_⟩
          · rw [lexemes_cons hblank' he]
            refine ⟨?_, ?_⟩
            · rw [← endsColumn_iff p hz, ← ht]
              exact hcut
            · rw [casesAfter_word, ← hfirst]
              exact hwhole
          · rw [hcols, lexemes_cons hblank' he, openCases_cons, casesAfter_word, ← hfirst]
            exact h2

/-! ## Columns that stay apart

`Separate` collects what makes a list of columns be cut at its own commas and nowhere else. It
is about the lexemes of the columns alone, and so passes from the columns of a body
(`separate_columns`) to their layouts (`Separate.of_laid`). -/

/-- The lexemes of a text on its own. -/
def lexemesOf (t : Text) : List Lexeme := lexemes .start (t.marks none)

/-- Columns that are cut apart at the commas between them, and nowhere else. -/
def Separate : List Text → Prop
  | [] => True
  | [p] => Whole 0 (lexemesOf p)
  | p :: q :: rest =>
    Whole 0 (lexemesOf p) ∧ Nesting.after p = .start ∧
      openCases 0 ((lexemesOf p).filterMap Lexeme.word) = 0 ∧
      leadWord (lexemesOf q) ≠ some Keyword.OVER ∧ Separate (q :: rest)

theorem Separate.tail {p q : Text} {rest : List Text} (h : Separate (p :: q :: rest)) :
    Separate (q :: rest) :=
  h.2.2.2.2

theorem Separate.whole {p : Text} {rest : List Text} (h : Separate (p :: rest)) :
    Whole 0 (lexemesOf p) := by
  cases rest with
  | nil => exact h
  | cons q rest => exact h.1

/-- No column has a comma that would end it. -/
theorem Separate.whole_of_mem {ps : List Text} (h : Separate ps) {p : Text} (hp : p ∈ ps) :
    Whole 0 (lexemesOf p) := by
  induction ps with
  | nil => cases hp
  | cons q rest ih =>
      rcases List.mem_cons.mp hp with rfl | hp
      · exact h.whole
      · cases rest with
        | nil => cases hp
        | cons r rest => exact ih h.tail hp

/-- A list without a comma that ends a column is one column. -/
theorem columnsFrom_whole {p : Text} (h : Whole 0 (lexemesOf p)) :
    columnsFrom .start false 0 p = (p, []) := by
  have hcols := columnsFrom_append (n := .start) trivial (Nesting.rests_of_unquoted rfl none)
    closing_nil h
  rw [List.append_nil] at hcols
  exact hcols.trans (by simp [columnsFrom])

/-- The first column of a list is cut off at the comma behind it. -/
theorem columnsFrom_separate {p q : Text} {rest : List Text} (h : Separate (p :: q :: rest))
    {t : Text} (ht : nextIs Keyword.OVER t = false) :
    columnsFrom .start false 0 (p ++ ',' :: t)
      = (p, (columnsFrom .start false 0 t).1 :: (columnsFrom .start false 0 t).2) := by
  obtain ⟨hwhole, hafter, hcases, -⟩ := h
  have hcols := columnsFrom_append (n := .start) trivial (Nesting.rests_of_unquoted rfl none)
    (closing_comma t) hwhole
  have hscan : Nesting.start.scan p = .start := hafter
  have hopen : openCases 0 ((lexemes .start (p.marks none)).filterMap Lexeme.word) = 0 := hcases
  rw [hscan, hopen, columnsFrom_comma ht, List.append_nil] at hcols
  exact hcols

/-- Trimming keeps the lexemes. -/
theorem lexemesOf_trim (t : Text) : lexemesOf t.trim = lexemesOf t := by
  rw [lexemesOf, marks_trim, lexemesOf]

/-- Whether `OVER` follows a comma is seen in the column behind it. -/
theorem nextIs_eq_false_iff {p z : Text} (hz : Closing z) :
    nextIs Keyword.OVER (p ++ z) = false ↔ leadWord (lexemesOf p) ≠ some Keyword.OVER := by
  have hedge : lexemesOf p = lexemes .start (p.marks (some ',')) :=
    (lexemes_edge (n := .start) trivial rfl (by decide) p).symm
  rw [hedge, Ne, ← nextIs_append_iff (n := .start) rfl p hz, Bool.not_eq_true]

/-- The columns of a list stay apart. Each of them was cut off by a comma that ends a column, so
what the scan knew at that comma holds: no parenthesis and no `CASE` was open, and the column
behind it does not start with `OVER`. -/
theorem separate_columnsFrom {t p : Text} {ps : List Text}
    (h : columnsFrom .start false 0 t = (p, ps)) : Separate ((p :: ps).map trim) := by
  induction ps generalizing t p with
  | nil =>
      obtain ⟨p', z, -, h1, hwhole, -⟩ := columnsFrom_split (n := .start) trivial
        (Nesting.rests_of_unquoted rfl none) 0 t
      have hp : (columnsFrom .start false 0 t).1 = p' := h1
      obtain rfl : p = p' := by rw [← hp, h]
      show Whole 0 (lexemesOf (trim p))
      rw [lexemesOf_trim]
      exact hwhole
  | cons q qs ih =>
      obtain ⟨p', z, -, h1, hwhole, h2⟩ := columnsFrom_split (n := .start) trivial
        (Nesting.rests_of_unquoted rfl none) 0 t
      have hp : (columnsFrom .start false 0 t).1 = p' := h1
      obtain rfl : p = p' := by rw [← hp, h]
      have hsnd : (columnsFrom .start false 0 t).2 = q :: qs := by rw [h]
      rcases h2 with ⟨-, h2⟩ | ⟨t', -, hscan, hcases, hnext, h2⟩
      · have hnil : (columnsFrom .start false 0 t).2 = [] := h2
        rw [hnil] at hsnd
        cases hsnd
      · have hrest : (columnsFrom .start false 0 t).2
            = (columnsFrom .start false 0 t').1 :: (columnsFrom .start false 0 t').2 := h2
        rw [hsnd] at hrest
        obtain ⟨hq, hqs⟩ := List.cons.inj hrest
        have htail := ih (t := t') (p := q) (by rw [hq, hqs])
        refine ⟨?_, ?_, ?_, ?_, htail⟩
        · rw [lexemesOf_trim]
          exact hwhole
        · exact after_eq_of_marks (marks_trim p).symm hscan
        · rw [lexemesOf_trim]
          exact hcases
        · -- the next column does not start with `OVER`
          obtain ⟨q', z', ht', h1', -, h2'⟩ := columnsFrom_split (n := .start) trivial
            (Nesting.rests_of_unquoted rfl none) 0 t'
          have hq' : (columnsFrom .start false 0 t').1 = q' := h1'
          obtain rfl : q = q' := by rw [hq, hq']
          rw [lexemesOf_trim]
          rw [ht'] at hnext
          have hz' : Closing z' := by
            rcases h2' with ⟨rfl, -⟩ | ⟨t'', rfl, -⟩
            · exact closing_nil
            · exact closing_comma t''
          exact (nextIs_eq_false_iff hz').mp hnext

/-- Layouts of columns that stay apart stay apart. -/
theorem Separate.of_laid {cs : List Text} (h : Separate cs) {f : Text → Text}
    (hf : ∀ c ∈ cs, Laid (c.glyphs none none) ((f c).marks none)) : Separate (cs.map f) := by
  have hthin : ∀ c ∈ cs, Thinned (lexemesOf c) (lexemesOf (f c)) :=
    fun c hc => (hf c hc).thinned_text (n := .start) rfl rfl
  induction cs with
  | nil => trivial
  | cons p rest ih =>
      cases rest with
      | nil => exact (hthin p (by simp)).whole h
      | cons q rest =>
          obtain ⟨hwhole, hafter, hcases, hlead, hrest⟩ := h
          have hp := hthin p (by simp)
          refine ⟨hp.whole hwhole, (hf p (by simp)).after_eq_start hafter, ?_, ?_, ?_⟩
          · rw [hp.words_eq]
            exact hcases
          · rw [(hthin q (by simp)).leadWord_eq]
            exact hlead
          · exact ih hrest (fun c hc => hf c (List.mem_cons_of_mem _ hc))
              (fun c hc => hthin c (List.mem_cons_of_mem _ hc))

/-! ## Columns cut apart again

On one line there is a comma between two columns, and a space behind it unless nothing follows.
`Listed` allows both. -/

/-- A text that lists columns with commas between them, and perhaps a space behind a comma. -/
inductive Listed : List Text → Text → Prop where
  | last (p : Text) : Listed [p] p
  | cons (p : Text) {q : Text} {rest : List Text} {t u : Text} (h : Listed (q :: rest) t)
      (hu : u = t ∨ u = ' ' :: t) : Listed (p :: q :: rest) (p ++ ',' :: u)

/-- A list starts with its first column. -/
theorem Listed.split {p : Text} {rest : List Text} {t : Text} (h : Listed (p :: rest) t) :
    ∃ z, Closing z ∧ t = p ++ z := by
  cases h with
  | last => exact ⟨[], closing_nil, (List.append_nil p).symm⟩
  | cons _ _ _ => exact ⟨_, closing_comma _, rfl⟩

/-- Columns that stay apart are cut apart again. -/
theorem columnsFrom_listed {ps : List Text} {t : Text} (h : Listed ps t) (hps : Separate ps)
    (htrim : ∀ p ∈ ps, p.trim = p) :
    trim (columnsFrom .start false 0 t).1 :: (columnsFrom .start false 0 t).2.map trim = ps := by
  induction h with
  | last p => rw [columnsFrom_whole hps, List.map_nil, htrim p List.mem_cons_self]
  | @cons p q rest t u hlisted hu ih =>
      have hrest := ih hps.tail fun x hx => htrim x (List.mem_cons_of_mem _ hx)
      have hnext : nextIs Keyword.OVER u = false := by
        have hspace : nextIs Keyword.OVER (' ' :: t) = nextIs Keyword.OVER t := rfl
        have hsame : nextIs Keyword.OVER u = nextIs Keyword.OVER t := by
          rcases hu with rfl | rfl
          · rfl
          · exact hspace
        obtain ⟨z, hz, rfl⟩ := hlisted.split
        rw [hsame]
        exact (nextIs_eq_false_iff hz).mpr hps.2.2.2.1
      have hcols : trim (columnsFrom .start false 0 u).1 = trim (columnsFrom .start false 0 t).1 ∧
          (columnsFrom .start false 0 u).2 = (columnsFrom .start false 0 t).2 := by
        rcases hu with rfl | rfl
        · exact ⟨rfl, rfl⟩
        · rw [columnsFrom_space]
          exact ⟨rfl, rfl⟩
      rw [columnsFrom_separate hps hnext, htrim p List.mem_cons_self, List.map_cons, hcols.1,
        hcols.2, hrest]

/-- Columns that stay apart are the columns of any text that lists them. A list of one empty column
is left out, since a text of blanks has no columns. -/
theorem columns_listed {ps : List Text} {t : Text} (h : Listed ps t) (hps : Separate ps)
    (htrim : ∀ p ∈ ps, p.trim = p) (hne : ps ≠ [[]]) : columns t = ps := by
  have hcols := columnsFrom_listed h hps htrim
  rw [columns_eq]
  dsimp only
  split
  · rename_i hempty
    simp only [Bool.and_eq_true, List.isEmpty_iff] at hempty
    rw [hempty.1, hempty.2] at hcols
    exact absurd hcols.symm hne
  · rw [List.map_cons, hcols]

/-! ## A column -/

namespace Layout

/-- A column is laid out as before once its lines are put on one line. What has to be seen is that
the line is still of the same kind: a `CASE` expression starts with `CASE`, and for the others
neither that nor whether `OVER` occurs has changed, both being a matter of lexemes. -/
theorem relaid_column {text suffix : Text} {level : Nat} {block : Block} (hn : Neat text)
    (hne : text ≠ [] ∨ suffix ≠ ' ' :: Keyword.AND) (hs : IsSuffix suffix)
    (h : column level text suffix = .ok block) : Relaid (column level) text suffix block := by
  have hcol := h
  unfold column at h
  split at h
  case isTrue hcase =>
    have hlay : ∀ s, column level text s = caseExpression text s level := by
      intro s
      rw [column, if_pos hcase]
    -- the line starts with `CASE` again
    obtain ⟨hr, hcase'⟩ := relaid_caseExpression hn hcase hs h
    refine ⟨hr.neat, by rw [hlay]; exact hr.flat, ?_⟩
    rw [hlay, column, if_pos hcase']
    exact hr.again
  case isFalse hcase =>
    split at h
    case isTrue hover =>
      have hlay : ∀ s, column level text s = windowFunction text s level := by
        intro s
        rw [column, if_neg hcase, if_pos hover]
      have htne : text ≠ [] := by
        rintro rfl
        exact absurd hover (by decide)
      have hr := relaid_windowFunction hn htne hs h
      have hlaid := laid_of_lays (lays_windowFunction h Track.clear_none Fresh.none) hr.flat
      have hthin := hlaid.thinned_text (n := .start) rfl rfl
      have hcase' := startsKeyword_eq_of_thinned (k := Keyword.CASE) (by decide) (by decide) hn
        (neat_onOneLine _) hthin
      have hover' := hasKeyword_eq_of_thinned (k := Keyword.OVER) (by decide) (by decide) hthin
      refine ⟨hr.neat, by rw [hlay]; exact hr.flat, ?_⟩
      rw [hlay, column, hcase', hover', if_neg hcase, if_pos hover]
      exact hr.again
    case isFalse hover =>
      obtain rfl := Except.ok.inj h
      refine relaid_plain hn hne hs fun s => ?_
      rw [column, if_neg hcase, if_neg hover]

/-! ## Columns on one line -/

/-- The same for columns with a comma and a space between each two. -/
theorem columns_listText {ps : List Text} (h : Separate ps) (hneat : ∀ p ∈ ps, Neat p)
    (hne : ps ≠ [[]]) : columns (listText [','] ps) = ps := by
  have hlisted : ∀ p rest, Listed (p :: rest) (listText [','] (p :: rest)) := by
    intro p rest
    induction rest generalizing p with
    | nil => exact .last p
    | cons q rest ih =>
        rw [listText, headed]
        split
        · rename_i hnil
          have hrest := ih q
          rw [List.isEmpty_iff.mp hnil] at hrest
          exact .cons p hrest (Or.inl rfl)
        · rw [List.append_assoc]
          exact .cons p (ih q) (Or.inr rfl)
  cases ps with
  | nil => rfl
  | cons p rest => exact columns_listed (hlisted p rest) h (fun x hx => (hneat x hx).trim_eq) hne

/-! ## `SELECT` -/

theorem neat_of_mem_columns {body c : Text} (hb : Tidy body) (hc : c ∈ body.columns) : Neat c := by
  obtain ⟨ps, hps, hparted⟩ := parted_columns (Ready.untracked body)
    (List.ne_nil_of_mem hc)
  rw [hps] at hc
  obtain ⟨p, hp, rfl⟩ := List.mem_map.mp hc
  exact Neat.trim (hparted.tidy hb p hp)

/-- The columns of any body stay apart. -/
theorem separate_columns (body : Text) : Separate body.columns := by
  rw [columns_eq]
  dsimp only
  split
  · trivial
  · exact separate_columnsFrom rfl

theorem columns_ne (body : Text) : body.columns ≠ [[]] := by
  rw [columns_eq]
  dsimp only
  split
  · simp
  · rename_i hne
    intro h
    rw [List.map_cons, List.cons.injEq, List.map_eq_nil_iff] at h
    exact hne (by rw [h.1, h.2]; rfl)

/-- The lines of a `SELECT` clause: its keyword, and those of its columns. -/
theorem selectClause_ok {body : Text} {level : Nat} {block : Block}
    (h : selectClause body level = .ok block) :
    ∃ lines, stack (column (level + 1)) (separated [','] body.columns) = .ok lines ∧
      block = ⟨⟨level, Keyword.SELECT⟩ :: lines, level⟩ := by
  unfold selectClause at h
  cases hstack : stack (column (level + 1)) (separated [','] body.columns) with
  | error f =>
      rw [hstack] at h
      cases h
  | ok lines =>
      rw [hstack] at h
      exact ⟨lines, rfl, (Except.ok.inj h).symm⟩

/-- The lines of a `SELECT` clause, read again. -/
theorem selectClause_again {body : Text} (hb : Neat body) {level : Nat} {block : Block}
    (h : selectClause body level = .ok block) :
    ∃ body', Neat body' ∧ flat block.lines = headed Keyword.SELECT body' ∧
      (∀ l ∈ block.lines, Neat l.text) ∧ selectClause body' level = .ok block := by
  obtain ⟨lines, hstack, rfl⟩ := selectClause_ok h
  have hrelaid : ∀ c ∈ body.columns, ∀ s block, s = [] ∨ s = [','] →
      column (level + 1) c s = .ok block → Relaid (column (level + 1)) c s block := by
    intro c hc s block hs hlay
    refine relaid_column (neat_of_mem_columns hb.tidy hc) (Or.inr ?_) ?_ hlay
    · rcases hs with rfl | rfl <;> decide
    · rcases hs with rfl | rfl
      · exact Or.inl rfl
      · exact Or.inr (Or.inl rfl)
  obtain ⟨hneat, hflat⟩ := flat_stack (by decide) hstack
    (fun c hc s block hs hlay => ⟨(hrelaid c hc s block hs hlay).neat,
      (hrelaid c hc s block hs hlay).flat⟩)
  have hagain := stack_again hstack
    (fun c hc s block hs hlay => (hrelaid c hc s block hs hlay).again)
  -- a laid-out column has the marks of the column
  have hlaid : ∀ c ∈ body.columns,
      Laid (c.glyphs none none) ((lineOf (column (level + 1)) c).marks none) := by
    intro c hc
    obtain ⟨s, block, hs, hlay⟩ := exists_block_of_stack hstack c hc
    exact laid_of_lays (lays_column hlay Track.clear_none Fresh.none)
      (hrelaid c hc s block hs hlay).flat
  have hcolumns : columns (flat lines) = body.columns.map (lineOf (column (level + 1))) := by
    rw [hflat]
    refine columns_listText ((separate_columns body).of_laid hlaid) ?_ ?_
    · intro p hp
      obtain ⟨c, -, rfl⟩ := List.mem_map.mp hp
      exact neat_onOneLine _
    · intro hone
      obtain ⟨c, hc, hline⟩ := List.map_eq_singleton_iff.mp hone
      have hmem : c ∈ body.columns := by rw [hc]; exact List.mem_cons_self
      have hcnil : c = [] := by
        by_contra hne
        exact (hlaid c hmem).ne_nil (marks_ne_nil hne (neat_of_mem_columns hb.tidy hmem).last)
          hline
      rw [hcnil] at hc
      exact columns_ne body hc
  have hselect : Neat Keyword.SELECT := Neat.of_unblank (by decide)
  refine ⟨flat lines, neat_flat lines, ?_, ?_, ?_⟩
  · exact flat_cons_of_ne hselect (by simp [Keyword.SELECT]) lines
  · intro l hl
    rcases List.mem_cons.mp hl with rfl | hl
    · exact hselect
    · exact hneat l hl
  · rw [selectClause, hcolumns, hagain]

end Layout

end SqlLayout
