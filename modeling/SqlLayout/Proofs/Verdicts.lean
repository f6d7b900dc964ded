import SqlLayout.Proofs.Rescans
import SqlLayout.Statement.Columns

set_option autoImplicit false

/-! # The check of a laid-out statement

The check of a statement is a matter of its lexemes: where parentheses are closed and
terminators stand, what is open at the end, and which words are `CASE` or `END`
(`validate_eq_ok_iff`). So a layout of an accepted statement is accepted (`validate_of_laid`).
-/

namespace SqlLayout

open Text

/-- The number of open `CASE` words after the given words. -/
def openCases (depth : Nat) (words : List Text) : Nat := words.foldl caseDepthAfter depth

theorem caseDepthAfter_upper (depth : Nat) (w : Text) :
    caseDepthAfter depth w.upper = caseDepthAfter depth w := by
  simp only [caseDepthAfter, same_upper]

/-- The word that a lexeme starts counts as it is spelled in the text. -/
theorem openCases_lexeme (depth : Nat) (c : Char) (d : Nat) (quoted b : Bool) (w : Text)
    (l : List Lexeme) :
    openCases depth
        (List.filterMap Lexeme.word (⟨c, d, quoted, if b then some w.upper else none⟩ :: l))
      = openCases (if b then caseDepthAfter depth w else depth) (l.filterMap Lexeme.word) := by
  cases b with
  | false => rfl
  | true =>
      simp only [if_true, List.filterMap_cons, openCases, List.foldl_cons, caseDepthAfter_upper]

namespace Check

theorem length_casesAfter (cases : List Nat) (i : Nat) (w : Text) :
    (casesAfter cases i w).length = caseDepthAfter cases.length w := by
  unfold casesAfter caseDepthAfter
  split_ifs
  · rfl
  · simp
  · rfl

/-- The parentheses on the stack are those that are open. -/
def Stacked (k : Check) : Prop := k.parens.length = k.nesting.depth

/-- The check once the character `c` is read, which is followed by `cs` and not at fault. -/
def next (k : Check) (c : Char) (cs : Text) : Check where
  index := k.index + 1
  nesting := k.nesting.next c
  inWord := isWordChar c
  parens :=
    if k.nesting.isQuoted then k.parens
    else if c = '(' then k.index :: k.parens
    else if c = ')' then k.parens.tail
    else k.parens
  cases :=
    if !k.nesting.isQuoted && isWordChar c && !k.inWord then
      casesAfter k.cases k.index (firstWord (c :: cs))
    else k.cases
  quoteStart := if !k.nesting.isQuoted && isQuoteMark c then k.index else k.quoteStart

/-- Reading a character that is no word character, outside literals. -/
theorem read_of_not_word {k : Check} (hq : k.nesting.isQuoted = false) {c : Char}
    (hw : isWordChar c = false) (whole cs : Text) :
    k.read whole c cs =
      if c = ')' ∧ k.parens = [] then .error (.unbalancedParentheses (whole.byteOffset k.index))
      else if c = terminator ∧ k.nesting.depth = 0 then
        .error (.severalStatements (whole.byteOffset k.index))
      else .ok (k.next c cs) := by
  have hclose : ∀ {p : Prop}, ¬ ('(' = ')' ∧ p) := fun h => absurd h.1 (by decide)
  have hend : ∀ {p : Prop}, ¬ ('(' = terminator ∧ p) := fun h => absurd h.1 (by decide)
  have hend' : ∀ {p : Prop}, ¬ (')' = terminator ∧ p) := fun h => absurd h.1 (by decide)
  unfold read
  simp only [hq, hw, Bool.false_eq_true, if_false, beq_iff_eq, Bool.and_eq_true]
  -- a parenthesis that opens is never at fault
  by_cases hopen : c = '('
  · subst hopen
    rw [if_pos rfl, if_neg hclose, if_neg hend]
    simp [next, hq, hw, isQuoteMark]
  · rw [if_neg hopen]
    by_cases hc : c = ')'
    · subst hc
      rw [if_pos rfl, if_neg hend']
      cases hp : k.parens with
      | nil => simp
      | cons p ps => simp [next, hq, hw, hp, isQuoteMark]
    · simp only [hc, if_false, false_and]
      split
      · rfl
      · cases hm : isQuoteMark c <;> simp [next, hq, hw, hopen, hc, hm]

/-- A `)` that nothing opened and a terminator outside everything are at fault; any other
character is read. -/
theorem read_eq_next (k : Check) (whole : Text) (c : Char) (cs : Text) :
    k.read whole c cs =
      if k.nesting.isQuoted = false ∧ c = ')' ∧ k.parens = [] then
        .error (.unbalancedParentheses (whole.byteOffset k.index))
      else if k.nesting.isQuoted = false ∧ c = terminator ∧ k.nesting.depth = 0 then
        .error (.severalStatements (whole.byteOffset k.index))
      else .ok (k.next c cs) := by
  cases hq : k.nesting.isQuoted with
  | true => simp [read, hq, next]
  | false =>
      cases hw : isWordChar c with
      | false => simp only [read_of_not_word hq hw, true_and]
      | true =>
          -- a word character is no parenthesis, no terminator and no quote mark
          have hopen : c ≠ '(' := by rintro rfl; exact absurd hw (by decide)
          have hclose : c ≠ ')' := by rintro rfl; exact absurd hw (by decide)
          have hend : c ≠ terminator := by rintro rfl; exact absurd hw (by decide)
          have hmark : isQuoteMark c = false := by
            rw [← Bool.not_eq_true]
            intro hm
            simp only [isQuoteMark, Bool.or_eq_true, beq_iff_eq] at hm
            rcases hm with (rfl | rfl) | rfl <;> exact absurd hw (by decide)
          cases hin : k.inWord <;>
            simp [read, next, hq, hw, hin, hopen, hclose, hend, hmark]

/-- What has been read is read as `next` says. -/
theorem eq_next_of_read {k k' : Check} {whole : Text} {c : Char} {cs : Text}
    (h : k.read whole c cs = .ok k') : k' = k.next c cs := by
  rw [read_eq_next] at h
  split_ifs at h with hclose hend
  exact (Except.ok.inj h).symm

theorem Stacked.next {k : Check} (hk : k.Stacked) (c : Char) (cs : Text) :
    (k.next c cs).Stacked := by
  have hdepth : (k.nesting.next c).depth = k.nesting.depthAfter c := k.nesting.depth_next c
  unfold Stacked at hk ⊢
  show (if _ then _ else _ : List Nat).length = (k.nesting.next c).depth
  rw [hdepth, Nesting.depthAfter]
  split_ifs <;> simp [hk]

/-- A closing parenthesis and a terminator are at fault where no parenthesis is open. -/
theorem read_eq {k : Check} (hk : k.Stacked) (whole : Text) (c : Char) (cs : Text) :
    if k.nesting.isQuoted = false ∧ (c = ')' ∨ c = terminator) ∧ k.nesting.depth = 0 then
      ∃ f, k.read whole c cs = .error f
    else
      ∃ k', k.read whole c cs = .ok k' ∧ k'.Stacked ∧ k'.nesting = k.nesting.next c ∧
        k'.inWord = isWordChar c ∧
        k'.cases.length =
          if !k.nesting.isQuoted && isWordChar c && !k.inWord then
            caseDepthAfter k.cases.length (firstWord (c :: cs))
          else k.cases.length := by
  have hparens : k.parens = [] ↔ k.nesting.depth = 0 := by
    rw [← List.length_eq_zero_iff, hk]
  simp only [read_eq_next, hparens]
  split
  · rename_i hfault
    obtain ⟨hq, rfl | rfl, hd⟩ := hfault
    · exact ⟨_, if_pos ⟨hq, rfl, hd⟩⟩
    · rw [if_neg (fun h => absurd h.2.1 (by decide))]
      exact ⟨_, if_pos ⟨hq, rfl, hd⟩⟩
  · rename_i hfault
    rw [if_neg (fun h => hfault ⟨h.1, Or.inl h.2.1, h.2.2⟩),
      if_neg (fun h => hfault ⟨h.1, Or.inr h.2.1, h.2.2⟩)]
    refine ⟨_, rfl, hk.next c cs, rfl, rfl, ?_⟩
    simp only [next]
    split
    · exact length_casesAfter _ _ _
    · rfl

/-- The verdict is good if nothing is open. -/
theorem verdict_eq_ok_iff {k : Check} (hk : k.Stacked) (whole : Text) :
    k.verdict whole = .ok () ↔ k.nesting = .start ∧ k.cases = [] := by
  unfold verdict
  cases hq : k.nesting.isQuoted with
  | true =>
      simp only [if_true, reduceCtorEq, false_iff, not_and]
      intro hstart
      rw [hstart] at hq
      cases hq
  | false =>
      -- outside literals, the scan stands at the start exactly if no parenthesis is open
      have hstart : k.nesting = .start ↔ k.parens = [] := by
        rw [Nesting.eq_of_unquoted hq, ← List.length_eq_zero_iff, hk, Nesting.start]
        simp
      rw [hstart]
      simp only [Bool.false_eq_true, if_false]
      cases hp : k.parens.getLast? with
      | some i =>
          have hne : k.parens ≠ [] := by
            intro h0
            rw [h0] at hp
            cases hp
          simp [hne]
      | none =>
          have hnil : k.parens = [] := List.getLast?_eq_none_iff.mp hp
          cases hc : k.cases.getLast? with
          | some i =>
              have hne : k.cases ≠ [] := by
                intro h0
                rw [h0] at hc
                cases hc
              simp [hne]
          | none => simp [hnil, List.getLast?_eq_none_iff.mp hc]

/-- A run succeeds if no character is at fault and nothing is open at the end. -/
theorem run_eq_ok_iff {k : Check} (hk : k.Stacked) (hs : k.nesting.quoting.Sound)
    {e : Option Char} (he : k.nesting.Rests e) (hin : k.inWord = e.any isWordChar)
    (whole t : Text) :
    k.run whole t = .ok () ↔
      (∀ x ∈ lexemes k.nesting (t.marks e), x.quoted = false →
        x.char = ')' ∨ x.char = terminator → 0 < x.depth) ∧
      k.nesting.scan t = .start ∧
      openCases k.cases.length ((lexemes k.nesting (t.marks e)).filterMap Lexeme.word) = 0 := by
  induction t generalizing k e with
  | nil =>
      have hscan : k.nesting.scan [] = k.nesting := rfl
      rw [run, hscan, verdict_eq_ok_iff hk]
      simp [marks, lexemes, openCases]
  | cons c cs ih =>
      have hread := read_eq hk whole c cs
      have hscan : k.nesting.scan (c :: cs) = (k.nesting.next c).scan cs := rfl
      rw [run, hscan]
      by_cases hb : isBlank c = true
      · -- a blank is never at fault and has no lexeme
        have hclose : ¬ (c = ')' ∨ c = terminator) := by
          rintro (rfl | rfl) <;> exact absurd hb (by decide)
        have hword : isWordChar c = false := by rw [isWordChar_eq_any, if_pos hb]; rfl
        rw [if_neg (fun h => hclose h.2.1)] at hread
        obtain ⟨k', hok, hk', hn', hin', hcases⟩ := hread
        rw [hword] at hin' hcases
        simp only [hok]
        rw [ih hk' (by rw [hn']; exact Nesting.sound_next hs c)
          (e := none) (by rw [hn']; exact Nesting.rests_next hs hb) hin', hn',
          lexemes_blank hs hb]
        simp only [Bool.and_false, Bool.false_and, Bool.false_eq_true, if_false] at hcases
        rw [hcases]
      · have hb' : isBlank c = false := by simpa using hb
        rw [lexemes_cons hb' he]
        by_cases hfault : k.nesting.isQuoted = false ∧ (c = ')' ∨ c = terminator) ∧
            k.nesting.depth = 0
        · -- the run stops here, and the first lexeme says the same
          rw [if_pos hfault] at hread
          obtain ⟨f, hf⟩ := hread
          simp only [hf, reduceCtorEq, false_iff, not_and]
          intro hall
          obtain ⟨hq, hc, hd⟩ := hfault
          have hhead := (List.forall_mem_cons.mp hall).1 hq
            (by rcases hc with rfl | rfl <;> [exact Or.inl rfl; exact Or.inr rfl])
          exact absurd hd (Nat.pos_iff_ne_zero.mp hhead)
        · rw [if_neg hfault] at hread
          obtain ⟨k', hok, hk', hn', hin', hcases⟩ := hread
          simp only [hok]
          rw [ih hk' (by rw [hn']; exact Nesting.sound_next hs c) (e := some c)
            (by rw [hn']; exact Nesting.rests_some _ c) hin', hn', hcases, hin,
            openCases_lexeme]
          have hup : ∀ d : Char, isWordChar d = false → (c.toUpper = d ↔ c = d) :=
            fun d hd => toUpper_eq_iff_of_not_word hd c
          have hhead : k.nesting.isQuoted = false →
              c.toUpper = ')' ∨ c.toUpper = terminator → 0 < k.nesting.depth := by
            rw [hup ')' (by decide), hup terminator (by decide)]
            intro hq hc
            by_contra hd
            exact hfault ⟨hq, hc, by omega⟩
          simp only [List.forall_mem_cons]
          constructor
          · rintro ⟨h1, h2⟩
            exact ⟨⟨hhead, h1⟩, h2⟩
          · rintro ⟨⟨-, h1⟩, h2⟩
            exact ⟨h1, h2⟩

end Check

/-- What the check accepts. -/
theorem validate_eq_ok_iff (s : Text) :
    validate s = .ok () ↔
      (∀ x ∈ lexemes .start (s.marks none), x.quoted = false →
        x.char = ')' ∨ x.char = terminator → 0 < x.depth) ∧
      Nesting.after s = .start ∧
      openCases 0 ((lexemes .start (s.marks none)).filterMap Lexeme.word) = 0 :=
  Check.run_eq_ok_iff (k := Check.start) (e := none) rfl trivial
    (Nesting.rests_of_unquoted rfl none) rfl s s

/-- The layout of an accepted statement is accepted. -/
theorem validate_of_laid {q : Track} {s t : Text} (h : validate s = .ok ())
    (hlaid : Laid (s.glyphs none q) (t.marks none)) : validate t = .ok () := by
  rw [validate_eq_ok_iff] at h ⊢
  obtain ⟨hall, hend, hcases⟩ := h
  have hthin := hlaid.thinned_text (n := .start) rfl rfl
  refine ⟨fun x hx => hall x (hthin.subset hx), ?_, ?_⟩
  · exact hlaid.after_eq_start hend
  · rw [hthin.words_eq]
    exact hcases

end SqlLayout
