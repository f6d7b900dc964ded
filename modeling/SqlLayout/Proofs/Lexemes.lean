import SqlLayout.Proofs.Reading

set_option autoImplicit false

/-! # Lexemes

What the scans of this library see of a mark: its character up to case, the parentheses open
before it, whether it stands in a literal, and the word that starts there. A layout keeps all of
that, mark by mark; only a terminator in front of a closing parenthesis may go (`Laid.thinned`).
So whatever a scan decides by looking at lexemes, it decides again on the laid-out text.

`lexemes_blank` and `lexemes_cons` read the lexemes of a text one character at a time.
-/

namespace SqlLayout

open Text

/-! ## Nesting, mark by mark -/

namespace Nesting

/-- The number of open parentheses once a character is read. -/
def depthAfter (n : Nesting) (c : Char) : Nat :=
  if n.isQuoted then n.depth
  else if c = '(' then n.depth + 1
  else if c = ')' then n.depth - 1
  else n.depth

theorem next_eq (n : Nesting) (c : Char) : n.next c = ⟨n.depthAfter c, n.quoting.next c⟩ := by
  have hquoting := n.quoting_next c
  obtain ⟨d, q⟩ := n
  have hdepth : (Nesting.next ⟨d, q⟩ c).depth = Nesting.depthAfter ⟨d, q⟩ c := by
    cases q with
    | escaped m => rfl
    | inside m =>
        simp only [next, next?, depthAfter, isQuoted]
        split_ifs <;> rfl
    | outside =>
        simp only [next, next?, depthAfter, isQuoted, Bool.false_eq_true, if_false, beq_iff_eq]
        by_cases hmark : isQuoteMark c = true
        · have h1 : c ≠ '(' := by rintro rfl; exact absurd hmark (by decide)
          have h2 : c ≠ ')' := by rintro rfl; exact absurd hmark (by decide)
          simp [hmark, h1, h2]
        · by_cases hopen : c = '('
          · subst hopen
            rfl
          · by_cases hclose : c = ')'
            · subst hclose
              cases d <;> rfl
            · simp [hmark, hopen, hclose]
  generalize Nesting.next ⟨d, q⟩ c = m at hquoting hdepth
  obtain ⟨d', q'⟩ := m
  simp only at hquoting hdepth
  rw [hquoting, hdepth]

theorem depth_next (n : Nesting) (c : Char) : (n.next c).depth = n.depthAfter c := by
  rw [next_eq]

/-- Reads a mark, and the space before it. -/
def read (n : Nesting) (m : Mark) : Nesting := ⟨n.depthAfter m.char, n.quoting.read m⟩

/-- Reads marks, one after another. -/
def readAll (n : Nesting) (v : List Mark) : Nesting := v.foldl read n

theorem next_blank {n : Nesting} (h : n.quoting.Sound) {c : Char}
    (hc : isBlank c = true) : n.next c = ⟨n.depth, n.quoting.next ' '⟩ := by
  have hopen : c ≠ '(' := by rintro rfl; exact absurd hc (by decide)
  have hclose : c ≠ ')' := by rintro rfl; exact absurd hc (by decide)
  have hmark : isQuoteMark c = false := by
    by_contra hq
    rw [not_isBlank_of (Or.inl (by simpa using hq))] at hc
    cases hc
  have hslash : c ≠ '\x5c' := by rintro rfl; exact absurd hc (by decide)
  have hquoting : n.quoting.next c = n.quoting.next ' ' := by
    rw [Quoting.next_space h]
    generalize n.quoting = q at h
    cases q with
    | outside => simp [Quoting.next, hmark]
    | inside m => exact h.next_inside hmark hslash
    | escaped m => rfl
  rw [next_eq, hquoting]
  simp [depthAfter, hopen, hclose]

/-- A blank in front of a text that follows a blank does not matter. -/
def Rests (n : Nesting) (e : Option Char) : Prop := e = none → n.next ' ' = n

theorem rests_some (n : Nesting) (c : Char) : n.Rests (some c) := fun h => by cases h

theorem rests_of_unquoted {n : Nesting} (h : n.isQuoted = false) (e : Option Char) :
    n.Rests e := by
  intro _
  obtain ⟨d, q⟩ := n
  cases q with
  | outside => rfl
  | inside m => cases h
  | escaped m => cases h

theorem rests_next {n : Nesting} (h : n.quoting.Sound) {c : Char} (hc : isBlank c = true) :
    (n.next c).Rests none := by
  intro _
  rw [next_blank h hc, next_blank (h.next ' ') (by decide), Quoting.next_space h]
  obtain ⟨d, q⟩ := n
  cases q with
  | outside => rfl
  | inside m => simp [Quoting.next_space h]
  | escaped m => simp [Quoting.next_space (show (Quoting.inside m).Sound from h)]

theorem sound_next {n : Nesting} (h : n.quoting.Sound) (c : Char) :
    (n.next c).quoting.Sound := by
  rw [quoting_next]
  exact h.next c

/-- A space before a mark that touches nothing is read with the mark. -/
theorem read_next_space {n : Nesting} (h : n.quoting.Sound) {m : Mark} (hm : m.left = none) :
    (n.next ' ').read m = n.read m := by
  have hrest := rests_next h (show isBlank ' ' = true by decide) rfl
  have hquoted : (n.next ' ').isQuoted = n.isQuoted := by
    rw [isQuoted_eq, isQuoted_eq, quoting_next, SqlLayout.isQuoted_next_space h]
  have hquoting : (n.quoting.next ' ').next ' ' = n.quoting.next ' ' := by
    have := congrArg Nesting.quoting hrest
    rwa [quoting_next, quoting_next] at this
  simp only [read, depthAfter, hquoted, quoting_next, Quoting.read_eq, hm, Option.isNone_none,
    if_true, hquoting]
  rw [next_blank h (by decide)]

/-- A mark of a text is read as its character. -/
theorem read_eq_next {n : Nesting} {m : Mark} (h : n.Rests m.left) : n.read m = n.next m.char := by
  rw [next_eq, read, Quoting.read_eq]
  split
  · rename_i hnone
    have hrest := congrArg Nesting.quoting (h (by simpa using hnone))
    rw [quoting_next] at hrest
    rw [hrest]
  · rfl

/-- The case of letters does not matter to the nesting. -/
theorem next_toUpper {n : Nesting} (h : n.quoting.Sound) (c : Char) :
    n.next c.toUpper = n.next c := by
  have hopen : c.toUpper = '(' ↔ c = '(' := toUpper_eq_iff_of_not_word (by decide) c
  have hclose : c.toUpper = ')' ↔ c = ')' := toUpper_eq_iff_of_not_word (by decide) c
  rw [next_eq, next_eq, h.next_toUpper, depthAfter, depthAfter]
  simp only [hopen, hclose]

theorem scan_upper {n : Nesting} (h : n.quoting.Sound) (w : Text) :
    n.scan w.upper = n.scan w := by
  induction w generalizing n with
  | nil => rfl
  | cons c cs ih =>
      show Nesting.scan (n.next c.toUpper) (upper cs) = Nesting.scan (n.next c) cs
      rw [next_toUpper h, ih (sound_next h c)]

theorem scan_eq_of_upper {n : Nesting} (h : n.quoting.Sound) {w w' : Text}
    (hw : w'.upper = w.upper) : n.scan w' = n.scan w := by
  rw [← scan_upper h w', hw, scan_upper h]

end Nesting

/-! ## Lexemes -/

/-- What a scan sees of a mark. -/
structure Lexeme where
  /-- The character in upper case. -/
  char : Char
  /-- The number of parentheses open before it. -/
  depth : Nat
  /-- Whether it stands in a literal. -/
  quoted : Bool
  /-- The word, in upper case, that starts here outside literals. -/
  word : Option Text
deriving DecidableEq, Repr

namespace Mark

/-- Whether a word starts at the mark. -/
def startsWord (m : Mark) : Bool := isWordChar m.char && !m.left.any isWordChar

/-- Whether the mark continues a word. -/
def continuesWord (m : Mark) : Bool := isWordChar m.char && m.left.any isWordChar

end Mark

/-- What the marks add to a word before them, in upper case. -/
def wordTail (v : List Mark) : Text := (v.takeWhile Mark.continuesWord).map (·.char.toUpper)

/-- The lexemes of marks, where `n` is the nesting before them. -/
def lexemes : Nesting → List Mark → List Lexeme
  | _, [] => []
  | n, m :: v =>
    ⟨m.char.toUpper, n.depth, n.isQuoted,
      if !n.isQuoted && m.startsWord then some (m.char.toUpper :: wordTail v) else none⟩ ::
      lexemes (n.read m) v

/-! ### The lexemes of a text -/

theorem wordTail_marks {c : Char} (hc : isWordChar c = true) (cs : Text) :
    wordTail (cs.marks (some c)) = upper (cs.takeWhile isWordChar) := by
  induction cs generalizing c with
  | nil => rfl
  | cons d ds ih =>
      by_cases hd : isWordChar d = true
      · have hblank : isBlank d = false := not_isBlank_of (Or.inr (Or.inr (Or.inl hd)))
        have hhead : Mark.continuesWord ⟨some c, d⟩ = true := by
          simp [Mark.continuesWord, hc, hd]
        rw [marks, hblank]
        simp only [Bool.false_eq_true, if_false]
        rw [wordTail, List.takeWhile_cons, hhead, List.takeWhile_cons, hd]
        simp only [if_true, List.map_cons, upper]
        exact congrArg _ (ih hd)
      · rw [List.takeWhile_cons, if_neg hd, marks]
        split
        · -- the word has ended, as the next mark touches nothing
          cases hm : marks none ds with
          | nil => rfl
          | cons m v =>
              have hl := linked_marks none ds
              rw [hm] at hl
              have hleft : m.left = none := hl.1.elim id id
              simp [wordTail, Mark.continuesWord, hleft, upper]
        · simp [wordTail, Mark.continuesWord, hd, upper]

theorem lexemes_blank {n : Nesting} (h : n.quoting.Sound) {c : Char} (hc : isBlank c = true)
    (e : Option Char) (cs : Text) :
    lexemes n (Text.marks e (c :: cs)) = lexemes (n.next c) (cs.marks none) := by
  have hspace : n.next c = n.next ' ' := by
    rw [Nesting.next_blank h hc, Nesting.next_blank h (by decide)]
  rw [marks, if_pos hc, hspace]
  cases hm : cs.marks none with
  | nil => rfl
  | cons m v =>
      have hl := linked_marks none cs
      rw [hm] at hl
      have hleft : m.left = none := hl.1.elim id id
      have hquoted : (n.next ' ').isQuoted = n.isQuoted := by
        rw [Nesting.isQuoted_eq, Nesting.isQuoted_eq, Nesting.quoting_next,
          isQuoted_next_space h]
      have hdepth : (n.next ' ').depth = n.depth := by
        rw [Nesting.next_blank h (by decide)]
      rw [lexemes, lexemes, Nesting.read_next_space h hleft, hquoted, hdepth]

theorem lexemes_cons {n : Nesting} {c : Char} (hc : isBlank c = false) {e : Option Char}
    (he : n.Rests e) (cs : Text) :
    lexemes n (Text.marks e (c :: cs)) =
      ⟨c.toUpper, n.depth, n.isQuoted,
        if !n.isQuoted && isWordChar c && !e.any isWordChar then
          some (firstWord (c :: cs)).upper else none⟩ ::
        lexemes (n.next c) (cs.marks (some c)) := by
  rw [marks, hc]
  simp only [Bool.false_eq_true, if_false]
  rw [lexemes, Nesting.read_eq_next (m := ⟨e, c⟩) he]
  congr 2
  by_cases hw : isWordChar c = true
  · simp only [Mark.startsWord, hw, Bool.true_and, Bool.and_true]
    rw [wordTail_marks hw, firstWord, List.takeWhile_cons, if_pos hw]
    rfl
  · simp [Mark.startsWord, hw]

/-- What a text touches does not matter to its lexemes, if that is no word. -/
theorem lexemes_edge {n : Nesting} (h : n.quoting.Sound) (hq : n.isQuoted = false)
    {e : Option Char} (he : e.any isWordChar = false) (t : Text) :
    lexemes n (t.marks e) = lexemes n (t.marks none) := by
  cases t with
  | nil => rfl
  | cons c cs =>
      by_cases hc : isBlank c = true
      · rw [lexemes_blank h hc, lexemes_blank h hc]
      · have hc' : isBlank c = false := by simpa using hc
        rw [lexemes_cons hc' (Nesting.rests_of_unquoted hq e),
          lexemes_cons hc' (Nesting.rests_of_unquoted hq none)]
        simp [he]

/-- A scan ends as the reading of the marks does, but for blanks. -/
theorem scan_eq_readAll {n : Nesting} (h : n.quoting.Sound) {e : Option Char} (he : n.Rests e)
    (t : Text) :
    (n.scan t).depth = (n.readAll (t.marks e)).depth ∧
      (n.scan t).isQuoted = (n.readAll (t.marks e)).isQuoted := by
  induction t generalizing n e with
  | nil => exact ⟨rfl, rfl⟩
  | cons c cs ih =>
      have hscan : n.scan (c :: cs) = (n.next c).scan cs := rfl
      rw [hscan]
      by_cases hc : isBlank c = true
      · have hih := ih (Nesting.sound_next h c) (Nesting.rests_next h hc)
        -- a blank reads like the space in front of the next mark, and at the end there is no next
        -- mark
        have hspace : n.next c = n.next ' ' := by
          rw [Nesting.next_blank h hc, Nesting.next_blank h (by decide)]
        rw [marks, if_pos hc]
        cases hm : marks none cs with
        | nil =>
            rw [hm] at hih
            rw [hih.1, hih.2, hspace]
            refine ⟨by rw [Nesting.next_blank h (by decide)]; rfl, ?_⟩
            show (n.next ' ').isQuoted = n.isQuoted
            rw [Nesting.isQuoted_eq, Nesting.isQuoted_eq, Nesting.quoting_next,
              isQuoted_next_space h]
        | cons m v =>
            have hl := linked_marks none cs
            rw [hm] at hl hih
            have hleft : m.left = none := hl.1.elim id id
            rw [hih.1, hih.2, hspace]
            rw [Nesting.readAll, List.foldl_cons, Nesting.read_next_space h hleft]
            exact ⟨rfl, rfl⟩
      · have hih := ih (e := some c) (Nesting.sound_next h c) (Nesting.rests_some _ c)
        rw [marks, if_neg hc]
        simp only [Nesting.readAll, List.foldl_cons]
        rw [Nesting.read_eq_next (m := ⟨e, c⟩) he]
        exact hih

/-! ## Lexemes of a laid-out text -/

/-- Lexemes of which some terminators in front of closing parentheses may be missing. -/
inductive Thinned : List Lexeme → List Lexeme → Prop
  | nil : Thinned [] []
  | keep (x : Lexeme) {l l' : List Lexeme} : Thinned l l' → Thinned (x :: l) (x :: l')
  | drop {x y : Lexeme} {l l' : List Lexeme} : x.char = terminator → x.word = none →
      y.char = ')' → y.word = none → Thinned l l' → Thinned (x :: y :: l) (y :: l')

theorem Recase.eq_iff {c d : Char} (h : Recase c d) {x : Char} (hx : isWordChar x = false) :
    d = x ↔ c = x := by
  rcases h with rfl | rfl
  · rfl
  · exact toUpper_eq_iff_of_not_word hx c

/-- A blank is put neither into a word nor taken from between two words. -/
theorem Mark.Kept.left_any {g m : Mark} (h : g.Kept m) (hc : isWordChar g.char = true) :
    m.left.any isWordChar = g.left.any isWordChar := by
  rcases h.left with ⟨hnone, hloose⟩ | hcomma | ⟨p, p', hp, hp', hpp⟩
  · have hdiv : isDivider g.char = false := by
      by_contra hd
      have hd' : isDivider g.char = true := by simpa using hd
      simp only [isDivider, Bool.or_eq_true, beq_iff_eq] at hd'
      rcases hd' with (hd' | hd') | hd' <;> rw [hd'] at hc <;> exact absurd hc (by decide)
    cases hl : g.left with
    | none => rw [hnone]
    | some p =>
        rw [hl] at hloose
        have hp : isWordChar p = false := by
          simp only [loose, hdiv, Bool.or_false, hc, Bool.or_eq_true, bne_iff_ne] at hloose
          rcases hloose with hloose | hloose
          · simp only [isDivider, Bool.or_eq_true, beq_iff_eq] at hloose
            rcases hloose with (rfl | rfl) | rfl <;> decide
          · simpa using hloose
        simp [hnone, hp]
  · rw [hcomma] at hc
    exact absurd hc (by decide)
  · simp [hp, hp', hpp.isWordChar_eq]

theorem Mark.Kept.startsWord_eq {g m : Mark} (h : g.Kept m) : m.startsWord = g.startsWord := by
  unfold Mark.startsWord
  rw [h.char.isWordChar_eq]
  cases hc : isWordChar g.char with
  | false => rfl
  | true => rw [h.left_any hc]

theorem Mark.Kept.continuesWord_eq {g m : Mark} (h : g.Kept m) :
    m.continuesWord = g.continuesWord := by
  unfold Mark.continuesWord
  rw [h.char.isWordChar_eq]
  cases hc : isWordChar g.char with
  | false => rfl
  | true => rw [h.left_any hc]

theorem Laid.wordTail_eq {v : List Glyph} {v' : List Mark} (h : Laid v v') :
    wordTail v' = wordTail (v.map Glyph.toMark) := by
  have hstop : ∀ {m : Mark} {w : List Mark}, isWordChar m.char = false →
      wordTail (m :: w) = [] := by
    intro m w hm
    simp [wordTail, Mark.continuesWord, hm]
  induction h with
  | nil => rfl
  | @keep g m v v' hk _ _ ih =>
      simp only [wordTail, List.map_cons, List.takeWhile_cons, hk.continuesWord_eq] at ih ⊢
      split
      · simp only [List.map_cons, hk.char.toUpper_eq, ih]
      · rfl
  | @drop a b m v v' ha hb _ _ hk _ _ _ =>
      rw [List.map_cons, hstop (by rw [hk.char.isWordChar_eq, hb]; decide),
        hstop (by rw [ha]; decide)]

/-- A laid-out text has the lexemes of the text, but for lost terminators. -/
theorem Laid.thinned {v : List Glyph} {v' : List Mark} (h : Laid v v') {n : Nesting}
    (hn : n.quoting.Sound) {e : Option Char} (he : n.quoting.Escapes e)
    (hv : Linked e (v.map Glyph.toMark)) :
    Thinned (lexemes n (v.map Glyph.toMark)) (lexemes n v') ∧
      n.readAll v' = n.readAll (v.map Glyph.toMark) := by
  induction h generalizing n e with
  | nil => exact ⟨.nil, rfl⟩
  | @keep g m v v' hk _ hrest ih =>
      obtain ⟨hleft, hlater⟩ := hv
      have hdepth : n.depthAfter m.char = n.depthAfter g.char := by
        simp only [Nesting.depthAfter, hk.char.eq_iff (show isWordChar '(' = false by decide),
          hk.char.eq_iff (show isWordChar ')' = false by decide)]
      have hread : n.read m = n.read g.toMark := by
        rw [Nesting.read, Nesting.read, hdepth, Quoting.read_kept hn he hleft hk]
      obtain ⟨hthin, hall⟩ := ih (n := n.read g.toMark) (hn.read g.toMark)
        (Quoting.escapes_read g.toMark) hlater
      simp only [List.map_cons, lexemes, Nesting.readAll, List.foldl_cons, hread,
        hk.char.toUpper_eq, hk.startsWord_eq, hrest.wordTail_eq]
      exact ⟨.keep _ hthin, hall⟩
  | @drop a b m v v' ha hb _ hm hk _ hrest ih =>
      obtain ⟨-, -, hlater⟩ := hv
      have hmc : m.char = ')' := (hk.char.eq_iff (by decide)).mpr hb
      -- the lost terminator leaves the nesting as it was, but for an escape inside a literal
      have hquoted : (n.read a.toMark).isQuoted = n.isQuoted := by
        rw [Nesting.isQuoted_eq, Nesting.isQuoted_eq]
        show (n.quoting.read a.toMark).isQuoted = _
        have ha' : isQuoteMark a.toMark.char = false := by rw [ha]; decide
        rcases n.quoting.eq_outside_or_isQuoted with hout | hq
        · rw [hout, Quoting.read_outside, ha']
          rfl
        · rw [hq, hn.isQuoted_read hq ha']
      have hdepth : (n.read a.toMark).depth = n.depth := by
        show n.depthAfter a.char = _
        rw [ha]
        simp [Nesting.depthAfter, terminator]
      have hread : n.read m = (n.read a.toMark).read b.toMark := by
        have hafter : n.depthAfter m.char = (n.read a.toMark).depthAfter b.char := by
          simp only [Nesting.depthAfter, hquoted, hdepth, hmc, hb]
        show Nesting.mk _ _ = Nesting.mk _ _
        rw [hafter]
        exact congrArg _ (Quoting.read_drop hn ha hb hm hk.char)
      obtain ⟨hthin, hall⟩ := ih (n := (n.read a.toMark).read b.toMark)
        ((hn.read a.toMark).read b.toMark) (Quoting.escapes_read b.toMark) hlater
      have hplain : ∀ {k : Mark}, isWordChar k.char = false → k.startsWord = false := by
        intro k hk
        simp [Mark.startsWord, hk]
      have ha0 : a.toMark.startsWord = false := hplain (by rw [ha]; decide)
      have hb0 : b.toMark.startsWord = false := hplain (by rw [hb]; decide)
      have hm0 : m.startsWord = false := hplain (by rw [hmc]; decide)
      simp only [List.map_cons, lexemes, Nesting.readAll, List.foldl_cons, hread, ha0, hb0, hm0,
        hquoted, hdepth, Bool.and_false, Bool.false_eq_true, if_false, hmc, hb]
      refine ⟨.drop ?_ rfl rfl rfl hthin, hall⟩
      show a.char.toUpper = terminator
      rw [ha]
      rfl

end SqlLayout
