import SqlLayout.Proofs.Rescans
import SqlLayout.Proofs.WordCuts

set_option autoImplicit false

/-! # Layouts in parentheses

A window function, a value list and a subquery are laid out alike: a line that opens a
parenthesis, the lines of what it encloses, and a line that closes it. `lays_bracket` is about
all three: it takes a respacing of what stands before the parenthesis and one of what it
encloses. The window function is put together from it here (`lays_windowFunction`), the other two
where conditions are laid out.
-/

namespace SqlLayout

/-! ## The marks of lines -/

/-- The marks of lines, each of which starts after a blank. -/
def lineMarks (lines : List Line) : List Mark := lines.flatMap fun l => l.text.marks none

@[simp] theorem lineMarks_nil : lineMarks [] = [] := rfl

@[simp] theorem lineMarks_cons (l : Line) (ls : List Line) :
    lineMarks (l :: ls) = l.text.marks none ++ lineMarks ls := rfl

@[simp] theorem lineMarks_append (ls ls' : List Line) :
    lineMarks (ls ++ ls') = lineMarks ls ++ lineMarks ls' := by
  simp [lineMarks]

theorem lineMarks_map (level : Nat) (texts : List Text) :
    lineMarks (texts.map fun t => ⟨level, t⟩) = texts.flatMap fun t => t.marks none := by
  simp [lineMarks, List.flatMap_map]

/-- Lines that spread the glyphs `v` and end with a suffix. -/
def Lays (P : Prop) (v : List Glyph) (suffix : Text) (lines : List Line) : Prop :=
  ∃ v' e, lineMarks lines = v' ++ suffix.marks e ∧ Spread P v v'

theorem Lays.congr {P Q : Prop} {v : List Glyph} {suffix : Text} {lines : List Line}
    (h : Lays P v suffix lines) (hPQ : P ↔ Q) : Lays Q v suffix lines := by
  obtain ⟨v', e, hm, hs⟩ := h
  exact ⟨v', e, hm, hs.congr hPQ⟩

namespace Layout

open Text

/-- A text on a line of its own, at a place where any line may start, stays as it is. -/
theorem lays_plain {q : Track} (hq : q.Clear) {e : Option Char} (he : Fresh e)
    (text suffix : Text) (level : Nat) :
    Lays True (text.glyphs e q) suffix (plain text suffix level).lines := by
  refine ⟨text.marks none, edge none text, ?_, Spread.fresh hq he text⟩
  simp [plain, marks_append]

/-- A keyword and its body, mark by mark. -/
theorem marks_headed (keyword body : Text) :
    (headed keyword body).marks none = keyword.marks none ++ body.marks none := by
  unfold headed
  split
  · rename_i hb
    have hnil : body = [] := by simpa using hb
    simp [hnil, marks]
  · rw [marks_append, marks]
    rfl

/-- The line that opens a parenthesis: what stands before it, its keyword, and `(`. -/
theorem marks_openLine (before keyword : Text) :
    (openLine before keyword).marks none
      = before.marks none ++ (keyword.marks none ++ [⟨none, '('⟩]) := by
  have hopener : Text.marks none (if keyword.isEmpty then ['('] else keyword ++ [' ', '('])
      = keyword.marks none ++ [⟨none, '('⟩] := by
    split
    · rename_i hk
      have hnil : keyword = [] := by simpa using hk
      subst hnil
      rfl
    · rw [marks_append]
      rfl
  unfold openLine
  dsimp only
  split
  · rename_i hb
    have hnil : before = [] := by simpa using hb
    subst hnil
    exact hopener
  · rw [marks_append]
    exact congrArg _ hopener

/-- The line that closes a parenthesis: `)`, what follows it, and the suffix. -/
theorem marks_closeLine (after suffix : Text) :
    ∃ e, (closeLine after suffix).marks none
      = ⟨none, ')'⟩ :: (after.marks none ++ suffix.marks e) := by
  unfold closeLine
  split
  · rename_i ha
    have hnil : after = [] := by simpa using ha
    subst hnil
    exact ⟨some ')', rfl⟩
  · refine ⟨edge none after, ?_⟩
    show ⟨none, ')'⟩ :: Text.marks none (after ++ suffix) = _
    rw [marks_append]

/-- A parenthesis, before which stands `pre`. The parenthesis that closes it belongs to what it
encloses, as a terminator in front of it may be lost. -/
theorem lays_bracket {P Q : Prop} {q : Track} {e : Option Char} {pre u v suffix : Text}
    {pm im : List Mark} {lines : List Line} (hpre : (q.scan pre).Clear)
    (hu : Quoting.outside.scan u = .outside)
    (hP : Spread P (pre.glyphs e q) pm)
    (hQ : Spread Q ((u ++ [')']).glyphs (some '(') (q.scan pre)) (im ++ [⟨none, ')'⟩]))
    (hlines : ∃ e', lineMarks lines = pm ++ ⟨none, '('⟩ ::
      (im ++ ⟨none, ')'⟩ :: (Text.marks none (Text.trim v) ++ suffix.marks e'))) :
    Lays (P ∧ Q) (Text.glyphs e q (pre ++ '(' :: (u ++ ')' :: v))) suffix lines := by
  obtain ⟨e', hlines⟩ := hlines
  have hopen : (q.scan pre).scan ['('] = q.scan pre := hpre.scan_eq (by decide)
  have hinner : ((q.scan pre).scan (u ++ [')'])).Clear := by
    refine hpre.scan_of_outside ?_
    rw [Quoting.scan_append, hu]
    rfl
  have hedge : edge (some '(') (u ++ [')']) = some ')' := by
    rw [edge_concat]
    rfl
  -- what stands before the parenthesis, the parenthesis, what it encloses, and the rest
  have htext : pre ++ '(' :: (u ++ ')' :: v) = pre ++ (['('] ++ ((u ++ [')']) ++ v)) := by simp
  have hv : Spread True (Text.glyphs (some ')') ((q.scan pre).scan (u ++ [')'])) v)
      (Text.marks none (Text.trim v)) := by
    rw [marks_trim]
    exact Spread.fresh hinner (Fresh.of_divider (by decide)) v
  refine ⟨pm ++ (⟨none, '('⟩ :: (im ++ ⟨none, ')'⟩ :: Text.marks none (Text.trim v))), e', ?_, ?_⟩
  · rw [hlines]
    simp
  · rw [htext, glyphs_append, glyphs_append, glyphs_append, hopen]
    have h1 : Spread True (Text.glyphs (edge e pre) (q.scan pre) ['(']) [⟨none, '('⟩] :=
      Spread.divider hpre _ _ (by decide) (Or.inl rfl)
    have h2 := hQ.append_true (hedge ▸ hv)
    have h3 := hP.append (h1.true_append h2)
    simpa [edge_concat, edge_cons, show isBlank '(' = false by decide] using h3

/-! ## Keywords inside a piece

A line may start at a keyword, since a keyword stands where a word starts; and behind it, since
it ends where a word ends. Whether the preserved words stay is another matter: a cut between two
characters that are no dividers pulls a word apart (`divided`). So each cut adds one condition,
and nothing else does. -/

/-- What is divided or breakable is seen at the first character. -/
theorem divided_append {k : Text} (hk : k ≠ []) (e : Option Char) (r : Text) :
    divided e (k ++ r) = divided e k := by
  cases k with
  | nil => exact absurd rfl hk
  | cons c cs => cases e <;> rfl

theorem breakable_append {k : Text} (hk : k ≠ []) (e : Option Char) (r : Text) :
    breakable e (k ++ r) = breakable e k := by
  cases k with
  | nil => exact absurd rfl hk
  | cons c cs => rfl

/-- Trimming a piece leaves its first cut as it was. -/
theorem trim_edge {q : Track} (hq : q.Clear) {e : Option Char} {t : Text}
    (he : breakable e t = true) :
    ∃ e', t.glyphs e q = t.trim.glyphs e' q ∧ breakable e' t.trim = true ∧
      divided e' t.trim = divided e t := by
  obtain ⟨a, b, ha, hb, ht⟩ := trim_split t
  refine ⟨edge e a, ?_, ?_⟩
  · conv_lhs => rw [ht]
    rw [glyphs_append, glyphs_append, ha.glyphs_eq, hb.glyphs_eq, hq.scan_eq ha.isQuoteMark,
      List.nil_append, List.append_nil]
  · cases a with
    | nil =>
        rw [edge_nil]
        -- no blanks in front, so the first character is the same, unless there is none
        cases hc : t.trim with
        | nil =>
            refine ⟨rfl, ?_⟩
            rw [ht, hc]
            cases b with
            | nil => rfl
            | cons d ds =>
                have hd : isBlank d = true := hb d (by simp)
                cases e <;> simp [divided, hd]
        | cons c cs =>
            have hhead : t = (c :: cs) ++ b := by rw [ht, hc]; rfl
            rw [hhead, breakable_append (by simp)] at he
            rw [hhead, divided_append (by simp)]
            exact ⟨he, rfl⟩
    | cons c cs =>
        -- blanks in front divide whatever follows them
        have hnone : edge e (c :: cs) = none := by rw [ha.edge_eq, if_neg (by simp)]
        have hblank : isBlank c = true := ha c (by simp)
        rw [hnone]
        refine ⟨Fresh.none.breakable _, ?_⟩
        rw [Fresh.none.divided, ht]
        cases e <;> simp [divided, hblank]

/-- The pieces of a text around keywords that are looked for one behind the other: the text
before the first of them, and a line for each of those found. -/
def cutKeywords : List Text → Text → Text × List Text
  | [], t => (t, [])
  | k :: ks, t =>
    match aroundKeyword t k with
    | (before, none) => (before, [])
    | (before, some after) =>
      (before, headed k (cutKeywords ks after).1 :: (cutKeywords ks after).2)

/-- A keyword of the layout: a word, or words with a space between them. -/
structure IsKeyword (k : Text) : Prop where
  upper : k.upper = k
  words : k.all (fun c => isWordChar c || c == ' ') = true
  head : k.head?.any isWordChar = true
  last : k.getLast?.any isWordChar = true

namespace IsKeyword

theorem ne_nil {k : Text} (h : IsKeyword k) : k ≠ [] := by
  rintro rfl
  exact absurd h.head (by decide)

/-- A keyword has only word characters and spaces. -/
theorem mem_cases {k : Text} (h : IsKeyword k) {c : Char} (hc : c ∈ k) :
    isWordChar c = true ∨ c = ' ' := by
  simpa using List.all_eq_true.mp h.words c hc

theorem unquoted {k : Text} (h : IsKeyword k) : Unquoted k := by
  intro c hc
  rcases h.mem_cases hc with hw | rfl
  · by_contra hq
    simp only [isQuoteMark, Bool.not_eq_false, Bool.or_eq_true, beq_iff_eq] at hq
    rcases hq with (rfl | rfl) | rfl <;> exact absurd hw (by decide)
  · decide

theorem isWordChar_head {k : Text} (h : IsKeyword k) {c : Char} (hc : k.head? = some c) :
    isWordChar c = true := by
  simpa [hc] using h.head

theorem isWordChar_last {k : Text} (h : IsKeyword k) {c : Char} (hc : k.getLast? = some c) :
    isWordChar c = true := by
  simpa [hc] using h.last

end IsKeyword

/-- An occurrence of a keyword cuts a text in three. -/
theorem occurrence_split {k t : Text} {i : Nat} (h : OccursAt k t i) :
    ∃ a s b, t = a ++ (s ++ b) ∧ a.length = i ∧ s.upper = k.upper ∧ a = t.take i ∧
      b = t.drop (i + k.length) := by
  have hs := h.spelled
  refine ⟨t.take i, (t.drop i).take k.length, t.drop (i + k.length), ?_, ?_, hs, rfl, rfl⟩
  · rw [← List.drop_drop, List.take_append_drop, List.take_append_drop]
  · obtain ⟨c, hc, -⟩ := h.head
    have hlt : i < t.length := by
      by_contra hge
      rw [List.drop_of_length_le (by omega)] at hc
      cases hc
    rw [List.length_take]
    omega

/-- The last character of a text that is read from a clear place. -/
theorem edge_eq_getLast? {e : Option Char} {t : Text} (ht : t ≠ []) :
    edge e t = t.getLast?.filter (fun c => !isBlank c) := by
  rcases List.eq_nil_or_concat t with rfl | ⟨init, c, rfl⟩
  · exact absurd rfl ht
  · rw [List.concat_eq_append, edge_concat, List.getLast?_concat]
    by_cases hc : isBlank c = true <;> simp [Option.filter, hc]

/-- What a text touches on its left does not matter to its right edge. -/
theorem edge_eq_edge {e e' : Option Char} {t : Text} (ht : t ≠ []) : edge e t = edge e' t := by
  rw [edge_eq_getLast? ht, edge_eq_getLast? ht]

/-- A line may start at a word that follows no word character. -/
theorem breakable_word {e : Option Char} {c : Char} {cs : Text} (hc : isWordChar c = true)
    (he : ∀ p ∈ e, isWordChar p = false) : breakable e (c :: cs) = true := by
  cases e with
  | none => simp [breakable, loose]
  | some p => simp [breakable, loose, hc, he p rfl]

/-- A line may start behind a word. -/
theorem breakable_of_not_word {p : Char} (hp : isWordChar p = true) {t : Text}
    (ht : ∀ c, t.head? = some c → isWordChar c = false) : breakable (some p) t = true := by
  cases t with
  | nil => rfl
  | cons c cs => simp [breakable, loose, hp, ht c rfl]

/-- A spelling of a keyword ends with a word character. -/
theorem IsKeyword.edge_eq {k s : Text} (hk : IsKeyword k) (hs : s.upper = k.upper) :
    ∃ p, isWordChar p = true ∧ ∀ e, edge e s = some p := by
  have hlen : s.length = k.length := length_eq_of_upper_eq hs
  rcases List.eq_nil_or_concat s with rfl | ⟨init, p, rfl⟩
  · exact absurd (List.length_eq_zero_iff.mp hlen.symm) hk.ne_nil
  · have hlast : k.upper.getLast? = some p.toUpper := by
      rw [← hs]
      simp [Text.upper]
    rw [hk.upper] at hlast
    have hword : isWordChar p = true := by
      rw [← isWordChar_toUpper]
      exact hk.isWordChar_last hlast
    refine ⟨p, hword, fun e => ?_⟩
    rw [List.concat_eq_append, edge_concat, not_isBlank_of (Or.inr (Or.inr (Or.inl hword)))]
    rfl

/-- A keyword stands at a clear place, and so does what follows it. -/
theorem clear_before_keyword {k a t : Text} (hocc : OccursAt k (a ++ t) a.length) {q : Track}
    (hq : q.Clear) : (q.scan a).Clear := by
  have hagrees : (q.scan a).Agrees (Nesting.start.scan a) := hq.agrees_start.scan a
  refine hagrees.clear ?_
  have hunquoted := hocc.unquoted
  rwa [List.take_left] at hunquoted

/-- The text in front of a keyword, and the keyword on the next line. -/
theorem spread_before_keyword {k a s b : Text} (hk : IsKeyword k) (hs : s.upper = k.upper)
    (hocc : OccursAt k (a ++ (s ++ b)) a.length) {q : Track} (hq : q.Clear) {e : Option Char}
    (he : breakable e (a ++ (s ++ b)) = true) :
    Spread (divided e (a ++ (s ++ b)) = true ∧ Text.dividedAt (a ++ (s ++ b)) a.length = true)
      (Text.glyphs e q (a ++ s)) (a.marks none ++ k.marks none) := by
  have hsne : s ≠ [] := by
    intro hnil
    have hlen := length_eq_of_upper_eq hs
    rw [hnil] at hlen
    exact hk.ne_nil (List.length_eq_zero_iff.mp hlen.symm)
  have hclear : (q.scan a).Clear := clear_before_keyword hocc hq
  -- the keyword is written in capitals, and may be spelled otherwise
  have hrecased : ∀ {q : Track}, q.Clear → Recased q s k := by
    intro q hq
    have h := Recased.upper hq (unquoted_of_upper_eq hs hk.unquoted)
    rwa [hs, hk.upper] at h
  have hat : Text.dividedAt (a ++ (s ++ b)) a.length = divided (edge none a) s := by
    rw [Text.dividedAt, List.take_left, List.drop_left, divided_append hsne]
  rw [hat]
  by_cases ha : a = []
  · subst ha
    simp only [List.nil_append, edge_nil] at he ⊢
    rw [breakable_append hsne] at he
    rw [divided_append hsne]
    refine (Spread.recased_line (hrecased hq) hq he).congr ?_
    simp [Fresh.none.divided s]
  · rw [glyphs_append, divided_append ha]
    rw [breakable_append ha] at he
    have hedge : edge e a = edge none a := edge_eq_edge ha
    -- a word starts with the keyword, so a line may start there
    have hbreak : breakable (edge e a) s = true := by
      obtain ⟨c, hc, hword⟩ := hocc.head
      obtain ⟨d, ds, rfl⟩ := List.exists_cons_of_ne_nil hsne
      rw [List.drop_left] at hc
      obtain rfl : d = c := by simpa using hc
      refine breakable_word hword (fun p hp => ?_)
      rw [edge_eq_getLast? ha] at hp
      refine hocc.before p ?_
      rw [List.take_left]
      exact (Option.filter_eq_some_iff.mp hp).1
    rw [← hedge]
    exact (Spread.verbatim_line hq he).append (Spread.recased_line (hrecased hclear) hclear hbreak)

/-- Keywords that are looked for one behind the other, each on a line of its own. The edge of
the text may be any at which a line may start. -/
theorem spread_cutKeywords {ks : List Text} (hks : ∀ k ∈ ks, IsKeyword k) {t : Text} {q : Track}
    (hq : q.Clear) {e : Option Char} (he : breakable e t = true) :
    Spread (divided e t = true ∧ keywordsDivided ks t = true) (t.glyphs e q)
      ((cutKeywords ks t).1.marks none
        ++ (cutKeywords ks t).2.flatMap fun l => l.marks none) := by
  induction ks generalizing t q e with
  | nil =>
      simp only [cutKeywords, keywordsDivided, List.flatMap_nil, List.append_nil, and_true]
      exact Spread.verbatim_line hq he
  | cons k ks ih =>
      have hk : IsKeyword k := hks k (by simp)
      rw [cutKeywords, keywordsDivided, aroundKeyword]
      cases hfirst : t.firstOccurrence? k with
      | none =>
          simp only [List.flatMap_nil, List.append_nil, and_true]
          rw [marks_trim]
          exact Spread.verbatim_line hq he
      | some i =>
          have hocc := occursAt_of_firstOccurrence? hfirst
          obtain ⟨a, s, b, ht, rfl, hs, ha, hb⟩ := occurrence_split hocc
          rw [ht] at hocc he
          have hbefore := spread_before_keyword hk hs hocc hq he
          obtain ⟨p, hword, hp⟩ := hk.edge_eq hs
          have hclear : (q.scan a).Clear := clear_before_keyword hocc hq
          have hscan : q.scan (a ++ s) = q.scan a := by
            rw [Track.scan_append]
            exact hclear.scan_eq (unquoted_of_upper_eq hs hk.unquoted)
          have hsplit : t = (a ++ s) ++ b := by rw [ht, List.append_assoc]
          have hend : t.dividedAt (a.length + k.length) = divided (some p) b := by
            have hlen : (a ++ s).length = a.length + k.length := by
              rw [List.length_append, length_eq_of_upper_eq hs]
            rw [Text.dividedAt, ← hlen, hsplit, List.take_left, List.drop_left, edge_append, hp]
          have hafter : breakable (some p) b = true := by
            refine breakable_of_not_word hword (fun c hc => hocc.after c ?_)
            rw [← ht, ← hb]
            exact hc
          -- what follows the keyword is trimmed and searched for the next one
          obtain ⟨e', hglyphs, hbreak, hdivided⟩ := trim_edge hclear hafter
          have hrest := ih (fun k' hk' => hks k' (by simp [hk'])) hclear hbreak
          rw [hdivided, ← hglyphs] at hrest
          have hall := hbefore.append hrest
          rw [← ht] at hall
          have hg : t.glyphs e q = Text.glyphs e q (a ++ s) ++ b.glyphs (some p) (q.scan a) := by
            rw [hsplit, glyphs_append, edge_append, hp, hscan]
          rw [hg]
          dsimp only
          rw [← ha, ← hb, hend]
          simp only [List.flatMap_cons, marks_trim, marks_headed, List.append_assoc] at hall ⊢
          refine hall.congr ?_
          simp only [Bool.and_eq_true]
          tauto

/-! ## Window functions

A column with `OVER` and two parentheses falls into what stands before `OVER`, the keyword, the
blanks behind it, the specification and what follows. The first three and the specification are
respaced on their own and put together by `lays_bracket`. -/

theorem windowKeywords_isKeyword : ∀ k ∈ windowKeywords, IsKeyword k := by
  intro k hk
  simp only [windowKeywords, List.mem_cons, List.not_mem_nil, or_false] at hk
  rcases hk with rfl | rfl | rfl <;> exact ⟨by decide, by decide, by decide, by decide⟩

theorem over_isKeyword : IsKeyword Keyword.OVER := ⟨by decide, by decide, by decide, by decide⟩

/-- The lines from `ORDER BY` on are the cuts at `ROWS`. -/
theorem orderLines_eq (t : Text) :
    orderLines t = headed Keyword.ORDER_BY (cutKeywords [Keyword.ROWS] t).1 ::
      (cutKeywords [Keyword.ROWS] t).2 := by
  cases haround : aroundKeyword t Keyword.ROWS with
  | mk order after => cases after <;> simp [orderLines, cutKeywords, haround]

theorem partitionLines_eq (t : Text) :
    partitionLines t
      = headed Keyword.PARTITION_BY (cutKeywords [Keyword.ORDER_BY, Keyword.ROWS] t).1 ::
        (cutKeywords [Keyword.ORDER_BY, Keyword.ROWS] t).2 := by
  rw [cutKeywords]
  cases haround : aroundKeyword t Keyword.ORDER_BY with
  | mk partition after => cases after <;> simp [partitionLines, haround, orderLines_eq]

/-- The lines of a window specification, up to an empty one at the beginning. -/
theorem marks_windowLines (spec : Text) :
    ((windowLines spec).flatMap fun l => l.marks none)
      = (cutKeywords windowKeywords spec).1.marks none
        ++ (cutKeywords windowKeywords spec).2.flatMap fun l => l.marks none := by
  rw [windowLines, windowKeywords, cutKeywords, aroundKeyword]
  cases spec.firstOccurrence? Keyword.PARTITION_BY with
  | none =>
      dsimp only
      rw [marks_trim]
      split
      · rename_i hempty
        have hnil : spec = [] := by simpa using hempty
        subst hnil
        rfl
      · simp
  | some i =>
      dsimp only
      rw [partitionLines_eq]
      split
      · rename_i hempty
        have hnil : Text.trim (spec.take i) = [] := by simpa using hempty
        rw [hnil]
        rfl
      · rfl

/-- What a parenthesis encloses, with the parenthesis that closes it. -/
theorem spread_closing {Q : Prop} {q : Track} (hq : q.Clear) {u : Text}
    (hu : Quoting.outside.scan u = .outside) {e : Option Char} {im : List Mark}
    (h : Spread Q (u.glyphs e q) im) :
    Spread Q (Text.glyphs e q (u ++ [')'])) (im ++ [⟨none, ')'⟩]) := by
  have hclear : (q.scan u).Clear := hq.scan_of_outside hu
  rw [glyphs_append]
  exact h.append_true (Spread.divider hclear _ _ (by decide) (Or.inl rfl))

/-- What stands before the first `OVER`, the keyword, blanks, and the rest of a column. -/
theorem over_split {column : Text} {i : Nat}
    (hfirst : column.firstOccurrence? Keyword.OVER = some i) :
    ∃ a s ws, column = ((a ++ s) ++ ws) ++
        Text.trimStart (column.drop (i + Keyword.OVER.length)) ∧
      ((a ++ s) ++ ws).length
        = column.length - (Text.trimStart (column.drop (i + Keyword.OVER.length))).length ∧
      a.length = i ∧ a = column.take i ∧ s.upper = Keyword.OVER.upper ∧ AllBlank ws := by
  obtain ⟨a, s, b, ht, rfl, hs, ha, hb⟩ :=
    occurrence_split (occursAt_of_firstOccurrence? hfirst)
  obtain ⟨ws, hws, hbws⟩ := trimStart_split b
  rw [← hb]
  have hcolumn : column = ((a ++ s) ++ ws) ++ b.trimStart := by
    rw [ht, List.append_assoc, List.append_assoc, ← hbws]
  refine ⟨a, s, ws, hcolumn, ?_, rfl, ha, hs, hws⟩
  have hlen := congrArg List.length hcolumn
  rw [List.length_append] at hlen
  omega

/-- A window specification: what stands before `OVER`, the keyword, blanks, and a
parenthesis. -/
theorem windowFunction_split {column spec trailing : Text} {i : Nat}
    (hfirst : column.firstOccurrence? Keyword.OVER = some i)
    (henc : column.enclosed? (column.length
      - (Text.trimStart (column.drop (i + Keyword.OVER.length))).length)
        = some (spec, trailing)) :
    ∃ a s ws u v, column = ((a ++ s) ++ ws) ++ '(' :: (u ++ ')' :: v) ∧ a.length = i ∧
      a = column.take i ∧ s.upper = Keyword.OVER.upper ∧ AllBlank ws ∧ spec = Text.trim u ∧
      trailing = Text.trim v ∧ Encloses u := by
  obtain ⟨a, s, ws, hcolumn, hopening, hlen, ha, hs, hws⟩ := over_split hfirst
  obtain ⟨pre, u, v, hpre, hlen', hspec, htrailing, hu⟩ := enclosed?_split henc
  obtain ⟨rfl, -⟩ := List.append_inj (hpre.symm.trans hcolumn) (hlen'.trans hopening.symm)
  exact ⟨a, s, ws, u, v, hpre, hlen, ha, hs, hws, hspec, htrailing, hu⟩

/-- The lines of a window function respace it. The preserved words stay exactly if every cut falls
where a word ends anyway: the one in front of `OVER`, and those at the keywords between the
parentheses (`windowDivided`). -/
theorem lays_windowFunction {column suffix : Text} {level : Nat} {block : Block}
    (h : windowFunction column suffix level = .ok block) {q : Track} (hq : q.Clear)
    {e : Option Char} (he : Fresh e) :
    Lays (windowDivided column = true) (column.glyphs e q) suffix block.lines := by
  unfold windowFunction at h
  unfold windowDivided
  cases hfirst : column.firstOccurrence? Keyword.OVER with
  | none =>
      simp only [hfirst, Except.ok.injEq] at h
      rw [← h]
      exact (lays_plain hq he _ _ _).congr (by simp)
  | some i =>
      simp only [hfirst] at h ⊢
      split at h
      case isFalse hparen =>
        rw [if_neg hparen]
        simp only [Except.ok.injEq] at h
        rw [← h]
        exact (lays_plain hq he _ _ _).congr (by simp)
      case isTrue hparen =>
        rw [if_pos hparen]
        cases henc : column.enclosed?
            (column.length
              - (Text.trimStart (column.drop (i + Keyword.OVER.length))).length) with
        | none => simp [henc] at h
        | some pair =>
            obtain ⟨spec, trailing⟩ := pair
            simp only [henc, Except.ok.injEq] at h ⊢
            have hocc := occursAt_of_firstOccurrence? hfirst
            obtain ⟨a, s, ws, u, v, ht, rfl, ha, hs, hws, rfl, rfl, hu⟩ :=
              windowFunction_split hfirst henc
            have ht' : column = a ++ (s ++ (ws ++ '(' :: (u ++ ')' :: v))) := by simp [ht]
            rw [ht'] at hocc
            have hbefore := spread_before_keyword over_isKeyword hs hocc hq (he.breakable _)
            have hclear : (q.scan a).Clear := clear_before_keyword hocc hq
            have hscan : q.scan ((a ++ s) ++ ws) = q.scan a := by
              rw [Track.scan_append, Track.scan_append, hclear.scan_eq
                (unquoted_of_upper_eq hs over_isKeyword.unquoted), hclear.scan_eq hws.isQuoteMark]
            have hhead : Spread (column.dividedAt a.length = true)
                (Text.glyphs e q ((a ++ s) ++ ws)) (a.marks none ++ Keyword.OVER.marks none) := by
              rw [glyphs_append, hws.glyphs_eq, List.append_nil]
              refine hbefore.congr ?_
              rw [← ht', he.divided]
              simp
            -- what the parenthesis encloses
            have hfresh : Fresh (some '(') := Fresh.of_divider (by decide)
            obtain ⟨e', hglyphs, hbreak, hdivided⟩ := trim_edge hclear (hfresh.breakable u)
            have hspec := spread_cutKeywords windowKeywords_isKeyword hclear hbreak
            rw [hdivided, hfresh.divided, ← hglyphs, ← marks_windowLines] at hspec
            have hinner := spread_closing hclear hu.quoting hspec
            rw [← hscan] at hinner hclear
            have hlines : ∃ e', lineMarks block.lines =
                (a.marks none ++ Keyword.OVER.marks none) ++ ⟨none, '('⟩ ::
                  (((windowLines (Text.trim u)).flatMap fun l => l.marks none) ++ ⟨none, ')'⟩ ::
                    (Text.marks none (Text.trim v) ++ suffix.marks e')) := by
              obtain ⟨e'', hclose⟩ := marks_closeLine (Text.trim v) suffix
              refine ⟨e'', ?_⟩
              rw [← h, ← ha]
              simp [marks_openLine, hclose, marks_trimEnd, lineMarks_map]
            have hbracket := lays_bracket hclear hu.quoting hhead hinner hlines
            rw [ht]
            rw [ht] at hbracket
            exact hbracket.congr (by simp)

end Layout

end SqlLayout
