import SqlLayout.Proofs.Brackets

set_option autoImplicit false

/-! # The parenthesis around a keyword

A condition is laid out around its first `SELECT`, in the parenthesis around that word. Both are
found by looking at lexemes: `LeadsTo` says what stands before the keyword, and
`leadsTo_of_openAround?` finds it. A layout of the text leads to the same keyword
(`LeadsTo.of_laid`).
-/

namespace SqlLayout

open Text

/-! ## Words of a laid-out text -/

/-- A layout keeps the words of a text, so it has the same keywords. -/
theorem hasKeyword_eq_of_thinned {k s t : Text} (hk : k.all isWordChar = true) (hup : k.upper = k)
    (h : Thinned (lexemes .start (s.marks none)) (lexemes .start (t.marks none))) :
    t.hasKeyword k = s.hasKeyword k := by
  have hfalse : t.hasKeyword k = false ↔ s.hasKeyword k = false := by
    rw [hasKeyword_eq_false_iff, hasKeyword_eq_false_iff, occurrences_eq_nil_iff hk hup,
      occurrences_eq_nil_iff hk hup, h.words_eq]
  cases hs : s.hasKeyword k <;> cases ht : t.hasKeyword k <;> simp_all

/-- The lexemes around a parenthesis. -/
theorem lexemes_paren {a : Text} {d : Nat} (ha : Nesting.after a = ⟨d, .outside⟩) (s : Text) :
    lexemes .start (Text.marks none (a ++ '(' :: s))
      = lexemes .start (a.marks none) ++ ⟨'(', d, false, none⟩ ::
        lexemes ⟨d + 1, .outside⟩ (s.marks none) := by
  have hsound : Quoting.Sound .outside := trivial
  have hrests : Nesting.Rests ⟨d, .outside⟩ (edge none a) := Nesting.rests_of_unquoted rfl _
  rw [lexemes_append (n := .start) trivial (Nesting.rests_of_unquoted rfl none) a ('(' :: s)
    (Or.inr rfl)]
  have hscan : Nesting.scan .start a = ⟨d, .outside⟩ := ha
  rw [hscan, lexemes_cons (by decide) hrests]
  have hword : isWordChar '(' = false := by decide
  have hnext : Nesting.next ⟨d, .outside⟩ '(' = ⟨d + 1, .outside⟩ := rfl
  rw [hnext, lexemes_edge (n := ⟨d + 1, .outside⟩) hsound rfl (by decide) s]
  simp only [hword, Bool.and_false, Bool.false_and]
  rfl

/-! ## The parenthesis around a keyword -/

/-- After `before` and an opening parenthesis comes `s`, which closes what it opens, and then the
first `k` of the whole text, at the beginning of `x`. -/
structure LeadsTo (k before s x : Text) (d : Nat) : Prop where
  nesting : Nesting.after before = ⟨d, .outside⟩
  guarded : Guarded (d + 1) (lexemes ⟨d + 1, .outside⟩ (s.marks none))
  scan : Nesting.scan ⟨d + 1, .outside⟩ s = ⟨d + 1, .outside⟩
  edge : (edge none s).any isWordChar = false
  head : x.head?.any isWordChar = true
  word : (firstWord x).upper = k
  outer : k ∉ (lexemes .start (before.marks none)).filterMap Lexeme.word
  inner : k ∉ (lexemes ⟨d + 1, .outside⟩ (s.marks none)).filterMap Lexeme.word

/-- Behind an opening parenthesis the scan goes on one level deeper. -/
theorem after_paren {a : Text} {d : Nat} (ha : Nesting.after a = ⟨d, .outside⟩) (s : Text) :
    Nesting.after (a ++ '(' :: s) = Nesting.scan ⟨d + 1, .outside⟩ s := by
  have hscan : List.foldl Nesting.next .start a = ⟨d, .outside⟩ := ha
  rw [Nesting.after, Nesting.scan, List.foldl_append, hscan]
  rfl

/-- A keyword occurs before the parenthesis or behind it. -/
theorem occurrences_paren_eq_nil_iff {k : Text} (hk : k.all isWordChar = true)
    (hup : k.upper = k) {a : Text} {d : Nat} (ha : Nesting.after a = ⟨d, .outside⟩) (s : Text) :
    occurrences (a ++ '(' :: s) k = [] ↔
      k ∉ (lexemes .start (a.marks none)).filterMap Lexeme.word ∧
        k ∉ (lexemes ⟨d + 1, .outside⟩ (s.marks none)).filterMap Lexeme.word := by
  rw [occurrences_eq_nil_iff hk hup, lexemes_paren ha, List.filterMap_append,
    List.filterMap_cons_none rfl, List.mem_append, not_or]

theorem edge_paren (a s : Text) (h : (edge none s).any isWordChar = false) :
    (edge none (a ++ '(' :: s)).any isWordChar = false := by
  rw [edge_append, edge_cons]
  cases s with
  | nil => rfl
  | cons c cs =>
      have hedge : edge (some '(') (c :: cs) = edge none (c :: cs) :=
        Layout.edge_eq_edge (by simp)
      rw [if_neg (by decide), hedge]
      exact h

/-- The first `k` of the text and the parenthesis around it. -/
theorem LeadsTo.openAround? {k before s x : Text} {d : Nat} (h : LeadsTo k before s x d)
    (hk : k.all isWordChar = true) (hup : k.upper = k) {z : Text}
    (hz : firstWord (x ++ z) = firstWord x) :
    (firstOccurrence? (before ++ '(' :: (s ++ (x ++ z))) k).bind
      (Text.openAround? (before ++ '(' :: (s ++ (x ++ z)))) = some before.length := by
  have hstart : startsKeyword (x ++ z) k = true := by
    rw [startsKeyword_iff_firstWord hk, hz, h.word, hup]
  have hhead : (x ++ z).head?.any isWordChar = true := by
    have hx := h.head
    cases x with
    | nil => cases hx
    | cons c cs => exact hx
  have hfirst : firstOccurrence? ((before ++ '(' :: s) ++ (x ++ z)) k
      = some (before ++ '(' :: s).length := by
    refine firstOccurrence?_append hk ?_ ?_ ?_ hhead hstart
    · exact (occurrences_paren_eq_nil_iff hk hup h.nesting s).mpr ⟨h.outer, h.inner⟩
    · exact edge_paren before s h.edge
    · rw [after_paren h.nesting, h.scan]
      rfl
  have hassoc : before ++ '(' :: (s ++ (x ++ z)) = (before ++ '(' :: s) ++ (x ++ z) := by simp
  rw [hassoc, hfirst, ← hassoc, Option.bind_some]
  have hlen : (before ++ '(' :: s).length = before.length + 1 + s.length := by
    rw [List.length_append, List.length_cons]
    omega
  rw [hlen]
  exact openAround?_of_guarded h.nesting h.guarded (by rw [h.scan]) (x ++ z)

/-- A closing parenthesis behind what is enclosed closes the outer one. -/
theorem not_guarded_of_close {u x : Text} {d : Nat} (hu : Encloses u) :
    ¬ Guarded (d + 1) (lexemes ⟨d + 1, .outside⟩ (Text.marks none (u ++ ')' :: x))) := by
  intro hg
  have hscan := hu.scan_deeper d
  have hrests : Nesting.Rests ⟨d + 1, .outside⟩ (edge none u) := Nesting.rests_of_unquoted rfl _
  rw [lexemes_append (n := ⟨d + 1, .outside⟩) trivial (Nesting.rests_of_unquoted rfl none) u
    (')' :: x) (Or.inr rfl), hscan, lexemes_cons (by decide) hrests] at hg
  have hlt := hg _ (List.mem_append_right _ List.mem_cons_self) rfl rfl
  exact absurd hlt (Nat.lt_irrefl _)

/-- The first `k` with a parenthesis around it stands inside that parenthesis. -/
theorem leadsTo_of_openAround? {k before u v : Text} {p : Nat} (hk : k.all isWordChar = true)
    (hup : k.upper = k) (hu : Encloses u)
    (hfirst : firstOccurrence? (before ++ '(' :: (u ++ ')' :: v)) k = some p)
    (hopen : Text.openAround? (before ++ '(' :: (u ++ ')' :: v)) p = some before.length) :
    ∃ s x d, u = s ++ x ∧ LeadsTo k before s x d := by
  obtain ⟨s0, r, ht, rfl, hocc, hedge, hq, hhead, hstart⟩ := firstOccurrence?_split hk hfirst
  obtain ⟨a, s, d, htake, hlen, hafter, hguarded, hdepth⟩ := openAround?_split hopen
  rw [ht, List.take_left] at htake
  subst htake
  obtain ⟨rfl, hrest⟩ : before = a ∧ '(' :: (u ++ ')' :: v) = '(' :: (s ++ r) :=
    List.append_inj (by simpa using ht) hlen.symm
  have hsplit : u ++ ')' :: v = s ++ r := (List.cons.inj hrest).2
  have hscan : Nesting.scan ⟨d + 1, .outside⟩ s = ⟨d + 1, .outside⟩ := by
    rw [after_paren hafter] at hq
    rw [Nesting.eq_of_unquoted hq, hdepth]
  rcases List.append_eq_append_iff.mp hsplit with ⟨y, rfl, hy⟩ | ⟨x, rfl, hx⟩
  · -- the parenthesis would be closed before the keyword
    exfalso
    cases y with
    | nil =>
        rw [List.nil_append] at hy
        rw [← hy] at hhead
        cases hhead
    | cons c cs =>
        obtain ⟨rfl, -⟩ := List.cons.inj hy
        exact not_guarded_of_close hu hguarded
  · obtain ⟨houter, hinner⟩ := (occurrences_paren_eq_nil_iff hk hup hafter s).mp hocc
    have hxne : x ≠ [] := by
      rintro rfl
      rw [hx] at hhead
      cases hhead
    have hword : firstWord r = firstWord x := by
      rw [hx]
      obtain ⟨c, cs, rfl⟩ := List.exists_cons_of_ne_nil hxne
      exact firstWord_append (e := none) (Or.inr rfl)
    refine ⟨s, x, d, rfl, hafter, hguarded, hscan, ?_, ?_, ?_, houter, hinner⟩
    · cases s with
      | nil => rfl
      | cons c cs =>
          have hsame : edge (some '(') (c :: cs) = edge none (c :: cs) :=
            Layout.edge_eq_edge (by simp)
          rw [edge_append, edge_cons, if_neg (by decide), hsame] at hedge
          exact hedge
    · rw [hx] at hhead
      cases x with
      | nil => exact absurd rfl hxne
      | cons c cs => exact hhead
    · rw [← hword, (startsKeyword_iff_firstWord hk).mp hstart, hup]

/-- Where the scan stands outside literals is a matter of marks. -/
theorem after_eq_of_marks {s t : Text} (h : s.marks none = t.marks none) {d : Nat}
    (hs : Nesting.after s = ⟨d, .outside⟩) : Nesting.after t = ⟨d, .outside⟩ := by
  obtain ⟨hd, hq⟩ := scan_eq_readAll sound_start (Nesting.rests_of_unquoted rfl none) s
  obtain ⟨hd', hq'⟩ := scan_eq_readAll sound_start (Nesting.rests_of_unquoted rfl none) t
  have hscan : Nesting.scan .start s = ⟨d, .outside⟩ := hs
  rw [hscan, h] at hd hq
  have hunq : (Nesting.after t).isQuoted = false := hq'.trans hq.symm
  rw [Nesting.eq_of_unquoted hunq]
  congr
  exact hd'.trans hd.symm

/-- A layout of what the parenthesis encloses leads to the same keyword. -/
theorem LeadsTo.of_laid {k before before' s x f : Text} {d : Nat} {q : Track}
    (h : LeadsTo k before s x d) (hbefore : before'.marks none = before.marks none)
    (hlaid : Laid (Text.glyphs (some '(') q ((s ++ x) ++ [')'])) (f.marks none ++ [⟨none, ')'⟩])) :
    ∃ s' x', f ++ [' ', ')'] = s' ++ x' ∧ LeadsTo k before' (' ' :: s') x' d := by
  have hsound : Nesting.quoting ⟨d + 1, .outside⟩ |>.Sound := trivial
  have hrests : ∀ e, Nesting.Rests ⟨d + 1, .outside⟩ e := Nesting.rests_of_unquoted rfl
  have hmarks : Text.marks none (f ++ [' ', ')']) = f.marks none ++ [⟨none, ')'⟩] := by
    rw [marks_append]
    rfl
  rw [← hmarks] at hlaid
  have hthin := hlaid.thinned_text (n := ⟨d + 1, .outside⟩) rfl (by decide)
  -- the keyword is a lexeme with a word, so the layout has it as well
  have hxne : x ≠ [] := by
    rintro rfl
    exact absurd h.head (by decide)
  obtain ⟨c, cs, rfl⟩ := List.exists_cons_of_ne_nil hxne
  have hc : isWordChar c = true := h.head
  have hword : firstWord (c :: cs ++ [')']) = firstWord (c :: cs) :=
    firstWord_append (e := none) (Or.inr rfl)
  rw [List.append_assoc, lexemes_append hsound (hrests none) s _ (Or.inl h.edge), h.scan,
    List.cons_append, lexemes_cons (not_isBlank_of (Or.inr (Or.inr (Or.inl hc)))) (hrests _),
    ← List.cons_append, hword, h.word] at hthin
  simp only [Nesting.isQuoted, hc, h.edge, Bool.not_false, Bool.and_self, if_true] at hthin
  obtain ⟨a', b', hsplit, ha, -⟩ := hthin.split (by simp)
  obtain ⟨s', x', hf, hs', hedge, hunq, hdepth, hfirst, hhead⟩ :=
    exists_split_of_lexemes hsound (hrests none) hsplit rfl
  have hblank : lexemes ⟨d + 1, .outside⟩ (Text.marks none (' ' :: s')) = a' := by
    rw [lexemes_blank hsound (by decide), ← hs']
    rfl
  refine ⟨s', x', hf, after_eq_of_marks hbefore.symm h.nesting, ?_, ?_, ?_, hhead, hfirst, ?_, ?_⟩
  · rw [hblank]
    exact ha.guarded h.guarded
  · have hscan : Nesting.scan ⟨d + 1, .outside⟩ (' ' :: s') = Nesting.scan ⟨d + 1, .outside⟩ s' :=
      rfl
    rw [hscan, Nesting.eq_of_unquoted hunq, hdepth]
  · rw [edge_cons]
    exact hedge
  · rw [hbefore]
    exact h.outer
  · rw [hblank, ha.words_eq]
    exact h.inner

end SqlLayout
