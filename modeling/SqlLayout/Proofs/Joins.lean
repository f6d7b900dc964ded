import SqlLayout.Proofs.Bracketed
import SqlLayout.Proofs.Clauses

set_option autoImplicit false

/-! # Joins on one line

The head of a join is broken in front of each `SELECT`. On one line it is the head with a space
there (`spaceOut`), and it is broken in the same places again (`headLines_spaceOut`). A space in
front of a `SELECT` makes no new `ON` between spaces (`Free.spaceOut`), so the condition of the
join is found again, too (`joinClause_again`).
-/

namespace SqlLayout

open Text

namespace Layout

/-! ## Pieces of a head

The head is broken at places that a search has found, but here it is read character by
character, with `breaksAt` for the question whether a line starts. `headLines_pieces` shows that
both give the same lines; from there on the places are not needed any more. -/

/-- Whether a head is broken in front of `c`, which touches `e` and is followed by `cs`. -/
def breaksAt (e : Option Char) (n : Nesting) (c : Char) (cs : Text) : Bool :=
  !n.isQuoted && isWordChar c && !e.any isWordChar && startsKeyword (c :: cs) Keyword.SELECT

/-- What a text touches that follows `c`. -/
def touched (c : Char) : Option Char := if isBlank c then none else some c

/-- The text before the first break and the pieces from there on. -/
def headPieces : Option Char → Nesting → Text → Text × List Text
  | _, _, [] => ([], [])
  | e, n, c :: cs =>
    let rest := headPieces (touched c) (n.next c) cs
    if breaksAt e n c cs then ([], (c :: rest.1) :: rest.2) else (c :: rest.1, rest.2)

/-- A text with a space in front of each break. -/
def spaceOut : Option Char → Nesting → Text → Text
  | _, _, [] => []
  | e, n, c :: cs =>
    let rest := c :: spaceOut (touched c) (n.next c) cs
    if e.isSome && breaksAt e n c cs then ' ' :: rest else rest

/-- A head is broken where a `SELECT` occurs. -/
theorem occurrencesFrom_select (i : Nat) (n : Nesting) (e : Option Char) (c : Char) (cs : Text) :
    occurrencesFrom Keyword.SELECT i n (e.any isWordChar) (c :: cs)
      = (if breaksAt e n c cs then [i] else []) ++
        occurrencesFrom Keyword.SELECT (i + 1) (n.next c) ((touched c).any isWordChar) cs := by
  rw [occurrencesFrom_cons, breaksAt, touched, ← isWordChar_eq_any]

/-- The lines of a head from the piece on that starts behind `a`, of which `u` has been read. -/
theorem headLines_pieces {u : Text} (hne : u ≠ []) (hu : ∀ c, u.head? = some c → isBlank c = false)
    (a t : Text) (e : Option Char) (n : Nesting) (level : Nat) :
    headLines (a ++ (u ++ t)) level a.length
        (occurrencesFrom Keyword.SELECT (a.length + u.length) n (e.any isWordChar) t)
      = headLine level a.length (trim (u ++ (headPieces e n t).1))
        :: (headPieces e n t).2.map fun p => ⟨level + 1, trim p⟩ := by
  induction t generalizing a u e n with
  | nil => simp [occurrencesFrom, headLines, headPieces]
  | cons c cs ih =>
      rw [occurrencesFrom_select, headPieces]
      by_cases hbreak : breaksAt e n c cs = true
      · -- a break: the piece read so far is a line, and `c` starts the next one
        have hc : isBlank c = false := by
          simp only [breaksAt, Bool.and_eq_true] at hbreak
          exact not_isBlank_of (Or.inr (Or.inr (Or.inl hbreak.1.1.2)))
        have hpiece : List.drop a.length (List.take (a.length + u.length) (a ++ (u ++ c :: cs)))
            = u := by
          rw [← List.append_assoc, List.take_left' (by simp), List.drop_left]
        have htrim : (trim u).isEmpty = false := by
          obtain ⟨d, ds, rfl⟩ := List.exists_cons_of_ne_nil hne
          exact List.isEmpty_eq_false_iff.mpr (trim_ne_nil (hu d rfl) ds)
        have hrest := ih (u := [c]) (by simp) (fun d hd => by simp at hd; rwa [← hd]) (a ++ u)
          (touched c) (n.next c)
        have hlater : headLine level (a ++ u).length
            (trim ([c] ++ (headPieces (touched c) (n.next c) cs).1))
            = ⟨level + 1, trim (c :: (headPieces (touched c) (n.next c) cs).1)⟩ := by
          have hpos : ((a ++ u).length == 0) = false := by
            have := List.length_pos_of_ne_nil hne
            simp only [List.length_append, beq_eq_false_iff_ne]
            omega
          rw [headLine, hpos]
          rfl
        rw [hlater] at hrest
        simp only [hbreak, if_true, List.singleton_append, headLines, hpiece, htrim,
          Bool.false_eq_true, if_false, List.append_nil, List.map_cons]
        rw [← hrest]
        simp only [List.append_assoc, List.length_append, List.length_singleton,
          List.singleton_append]
      · -- no break: `c` goes on with the piece
        have hrest := ih (u := u ++ [c]) (by simp)
          (fun d hd => hu d (by cases u <;> simp_all)) a (touched c) (n.next c)
        simp only [hbreak, Bool.false_eq_true, if_false, List.nil_append]
        simpa [Nat.add_assoc] using hrest

/-! ## A head with spaces

A space in front of a break ends the word before it, and no break was inside a word. So neither
the breaks nor the words move, and the pieces get a space at their ends, which is trimmed. -/

/-- No break falls inside a word. -/
theorem firstWord_spaceOut {c : Char} (hc : isWordChar c = true) (n : Nesting) (t : Text) :
    firstWord (spaceOut (some c) n t) = firstWord t := by
  induction t generalizing c n with
  | nil => rfl
  | cons d ds ih =>
      have hbreak : breaksAt (some c) n d ds = false := by simp [breaksAt, hc]
      rw [spaceOut, hbreak]
      simp only [Bool.and_false, Bool.false_eq_true, if_false, firstWord, List.takeWhile_cons]
      by_cases hd : isWordChar d = true
      · have htouched : touched d = some d := by
          rw [touched, not_isBlank_of (Or.inr (Or.inr (Or.inl hd)))]
          rfl
        have hrest := ih hd (n.next d)
        unfold firstWord at hrest
        rw [if_pos hd, if_pos hd, htouched, hrest]
      · rw [if_neg hd, if_neg hd]

/-- A space put in front of a later break does not change this one. -/
theorem breaksAt_spaceOut (e : Option Char) (n : Nesting) (c : Char) (cs : Text) :
    breaksAt e n c (spaceOut (touched c) (n.next c) cs) = breaksAt e n c cs := by
  by_cases hc : isWordChar c = true
  · have htouched : touched c = some c := by
      rw [touched, not_isBlank_of (Or.inr (Or.inr (Or.inl hc)))]
      rfl
    have hfirst : firstWord (c :: spaceOut (touched c) (n.next c) cs) = firstWord (c :: cs) := by
      have hrest := firstWord_spaceOut hc (n.next c) cs
      unfold firstWord at hrest ⊢
      rw [htouched, List.takeWhile_cons, List.takeWhile_cons, hrest]
    have hstart : startsKeyword (c :: spaceOut (touched c) (n.next c) cs) Keyword.SELECT
        = startsKeyword (c :: cs) Keyword.SELECT := by
      rw [Bool.eq_iff_iff, startsKeyword_iff_firstWord (by decide),
        startsKeyword_iff_firstWord (by decide), hfirst]
    rw [breaksAt, hstart]
    rfl
  · simp [breaksAt, hc]

/-- A space in front of a break is the end of the piece before it. -/
theorem headPieces_space {n : Nesting} (hn : n.isQuoted = false) (e : Option Char) (t : Text) :
    headPieces e n (' ' :: t) = (' ' :: (headPieces none n t).1, (headPieces none n t).2) := by
  have hbreak : breaksAt e n ' ' t = false := by
    simp [breaksAt, show isWordChar ' ' = false by decide]
  have hnext : n.next ' ' = n := Nesting.rests_of_unquoted hn none rfl
  have htouched : touched ' ' = none := rfl
  rw [headPieces, hbreak, hnext, htouched]
  rfl

/-- A head on one line has the same pieces, up to spaces at their ends. -/
theorem headPieces_spaceOut (e : Option Char) (n : Nesting) (t : Text) :
    (∀ u, trim (u ++ (headPieces e n (spaceOut e n t)).1) = trim (u ++ (headPieces e n t).1)) ∧
      (headPieces e n (spaceOut e n t)).2.map trim = (headPieces e n t).2.map trim := by
  induction t generalizing e n with
  | nil => exact ⟨fun u => rfl, rfl⟩
  | cons c cs ih =>
      obtain ⟨ih1, ih2⟩ := ih (touched c) (n.next c)
      have hagain := breaksAt_spaceOut e n c cs
      by_cases hbreak : breaksAt e n c cs = true
      · have hpieces : headPieces e n (c :: cs)
            = ([], (c :: (headPieces (touched c) (n.next c) cs).1)
              :: (headPieces (touched c) (n.next c) cs).2) := by
          rw [headPieces, hbreak]
          rfl
        have hlater := ih1 [c]
        simp only [List.singleton_append] at hlater
        rw [hpieces, spaceOut, hbreak]
        cases e with
        | none =>
            simp only [Option.isSome_none, Bool.false_and, Bool.false_eq_true, if_false,
              headPieces, hagain, hbreak, if_true, List.map_cons, hlater, ih2]
            exact ⟨fun u => trivial, trivial⟩
        | some d =>
            have hunquoted : n.isQuoted = false := by
              simp only [breaksAt, Bool.and_eq_true, Bool.not_eq_true'] at hbreak
              exact hbreak.1.1.1
            -- behind the space the same keyword stands
            have hnone : breaksAt none n c (spaceOut (touched c) (n.next c) cs) = true := by
              have hd : (some d).any isWordChar = false := by
                simp only [breaksAt, Bool.and_eq_true, Bool.not_eq_true'] at hbreak
                exact hbreak.1.2
              rw [← hbreak, ← hagain, breaksAt, breaksAt, hd]
              rfl
            simp only [Option.isSome_some, Bool.true_and, if_true, headPieces_space hunquoted,
              headPieces, hnone, List.map_cons, hlater, ih2]
            exact ⟨fun u => by rw [trim_space, List.append_nil], trivial⟩
      · have hpieces : headPieces e n (c :: cs)
            = (c :: (headPieces (touched c) (n.next c) cs).1,
              (headPieces (touched c) (n.next c) cs).2) := by
          simp [headPieces, hbreak]
        have hspaced : headPieces e n (spaceOut e n (c :: cs))
            = (c :: (headPieces (touched c) (n.next c) (spaceOut (touched c) (n.next c) cs)).1,
              (headPieces (touched c) (n.next c) (spaceOut (touched c) (n.next c) cs)).2) := by
          simp [spaceOut, headPieces, hagain, hbreak]
        rw [hpieces, hspaced]
        refine ⟨fun u => ?_, ih2⟩
        have hu := ih1 (u ++ [c])
        simpa using hu

/-- The lines of a head are its pieces: the first at the level of the join, the others one step
further in. -/
theorem headLines_eq {c : Char} (hc : isBlank c = false) (cs : Text) (level : Nat) :
    headLines (c :: cs) level 0 (occurrences (c :: cs) Keyword.SELECT)
      = ⟨level, trim (c :: (headPieces (some c) (Nesting.start.next c) cs).1)⟩
        :: (headPieces (some c) (Nesting.start.next c) cs).2.map
          fun p => ⟨level + 1, trim p⟩ := by
  have hlines := headLines_pieces (u := [c]) (by simp) (fun d hd => by simp at hd; rwa [← hd])
    [] cs (some c) (Nesting.start.next c) level
  have htouched : touched c = some c := by simp [touched, hc]
  have hocc : occurrences (c :: cs) Keyword.SELECT
      = (if breaksAt none .start c cs then [0] else []) ++ occurrencesFrom Keyword.SELECT 1
        (Nesting.start.next c) ((some c).any isWordChar) cs := by
    have hfrom := occurrencesFrom_select 0 .start none c cs
    rw [htouched] at hfrom
    exact hfrom
  rw [hocc]
  -- an empty piece in front is left out
  split
  · have hnil : trim [] = [] := rfl
    simpa [headLines, headLine, hnil] using hlines
  · simpa [headLine] using hlines

/-- No space goes in front of a head. -/
theorem spaceOut_cons {c : Char} (hc : isBlank c = false) (cs : Text) :
    spaceOut none .start (c :: cs) = c :: spaceOut (some c) (Nesting.start.next c) cs := by
  simp [spaceOut, touched, hc]

/-- A head on one line is broken in the same places. -/
theorem headLines_spaceOut {head : Text} (hn : Neat head) (hne : head ≠ []) (level : Nat) :
    headLines (spaceOut none .start head) level 0
        (occurrences (spaceOut none .start head) Keyword.SELECT)
      = headLines head level 0 (occurrences head Keyword.SELECT) := by
  obtain ⟨c, cs, rfl⟩ := List.exists_cons_of_ne_nil hne
  have hc : isBlank c = false := hn.head c rfl
  have hspaced := spaceOut_cons hc cs
  obtain ⟨h1, h2⟩ := headPieces_spaceOut (some c) (Nesting.start.next c) cs
  have hfirst := h1 [c]
  have hmap : ∀ ps : List Text, ps.map (fun p => (⟨level + 1, trim p⟩ : Line))
      = (ps.map trim).map (fun p => ⟨level + 1, p⟩) := fun ps => by simp
  rw [hspaced, headLines_eq hc, headLines_eq hc, hmap, hmap, h2]
  simpa using hfirst

/-! ## A head on one line -/

/-- A head with spaces has the marks of its pieces, each behind a blank. -/
theorem marks_spaceOut (e : Option Char) (n : Nesting) (t : Text) :
    (spaceOut e n t).marks e
      = (headPieces e n t).1.marks e ++ (headPieces e n t).2.flatMap (marks none) := by
  induction t generalizing e n with
  | nil => rfl
  | cons c cs ih =>
      have hrest := ih (touched c) (n.next c)
      by_cases hbreak : breaksAt e n c cs = true
      · have hc : isBlank c = false := by
          simp only [breaksAt, Bool.and_eq_true] at hbreak
          exact not_isBlank_of (Or.inr (Or.inr (Or.inl hbreak.1.1.2)))
        have htouched : touched c = some c := by simp [touched, hc]
        rw [htouched] at hrest
        cases e with
        | none => simp [spaceOut, headPieces, hbreak, marks, hc, htouched, hrest]
        | some d =>
            simp [spaceOut, headPieces, hbreak, marks, hc, htouched, hrest,
              show isBlank ' ' = true by decide]
      · by_cases hc : isBlank c = true
        · have htouched : touched c = none := by simp [touched, hc]
          rw [htouched] at hrest
          simp [spaceOut, headPieces, hbreak, marks, hc, htouched, hrest]
        · have htouched : touched c = some c := by simp [touched, hc]
          rw [htouched] at hrest
          simp [spaceOut, headPieces, hbreak, marks, hc, htouched, hrest]

/-- At the beginning there is no space. -/
theorem head?_spaceOut_none (n : Nesting) (t : Text) : (spaceOut none n t).head? = t.head? := by
  cases t with
  | nil => rfl
  | cons c cs => simp [spaceOut]

/-- The last character stays. -/
theorem getLast?_spaceOut (e : Option Char) (n : Nesting) (t : Text) :
    (spaceOut e n t).getLast? = t.getLast? := by
  induction t generalizing e n with
  | nil => rfl
  | cons c cs ih =>
      have hrest := ih (touched c) (n.next c)
      have hlast : (c :: spaceOut (touched c) (n.next c) cs).getLast? = (c :: cs).getLast? := by
        rw [List.getLast?_cons, List.getLast?_cons, hrest]
      rw [spaceOut]
      split
      · rw [List.getLast?_cons_cons, hlast]
      · exact hlast

/-- The spaces are single: a break stands at a word, which is not blank, and behind a character that
is not blank. -/
theorem tidy_spaceOut {t : Text} (h : Tidy t) (e : Option Char) (n : Nesting) :
    Tidy (spaceOut e n t) := by
  induction t generalizing e n with
  | nil => exact tidy_nil
  | cons c cs ih =>
      have hrest : Tidy (c :: spaceOut (touched c) (n.next c) cs) := by
        refine tidy_cons (ih h.tail _ _) (fun hc => ?_)
        obtain ⟨rfl, hnext⟩ := h [] c cs rfl hc
        refine ⟨rfl, fun d hd => hnext d ?_⟩
        rwa [show touched ' ' = none from rfl, head?_spaceOut_none] at hd
      rw [spaceOut]
      split
      · rename_i hbreak
        refine tidy_cons hrest (fun _ => ⟨rfl, fun d hd => ?_⟩)
        obtain rfl : c = d := by simpa using hd
        simp only [breaksAt, Bool.and_eq_true] at hbreak
        exact not_isBlank_of (Or.inr (Or.inr (Or.inl hbreak.2.1.1.2)))
      · exact hrest

/-- A neat head stays neat. -/
theorem neat_spaceOut {t : Text} (h : Neat t) (n : Nesting) : Neat (spaceOut none n t) := by
  refine ⟨tidy_spaceOut h.tidy none n, fun c hc => h.head c ?_, fun c hc => h.last c ?_⟩
  · rwa [head?_spaceOut_none] at hc
  · rwa [getLast?_spaceOut] at hc

/-- The lines of a head on one line. -/
theorem flat_headLines {head : Text} (hn : Neat head) (hne : head ≠ []) (level : Nat) :
    flat (headLines head level 0 (occurrences head Keyword.SELECT)) =
      spaceOut none .start head := by
  refine (neat_flat _).ext (neat_spaceOut hn .start) ?_
  obtain ⟨c, cs, rfl⟩ := List.exists_cons_of_ne_nil hne
  have hc : isBlank c = false := hn.head c rfl
  have hspaced := spaceOut_cons hc cs
  have hmarks := marks_spaceOut (some c) (Nesting.start.next c) cs
  rw [marks_flat, headLines_eq hc, lineMarks_cons, hspaced, marks, hc]
  simp only [Bool.false_eq_true, if_false, hmarks, marks_trim, lineMarks, List.flatMap_map]
  simp [marks, hc]

/-- The pieces make up the head. -/
theorem headPieces_part (e : Option Char) (n : Nesting) (t : Text) :
    t = (headPieces e n t).1 ++ (headPieces e n t).2.flatten := by
  induction t generalizing e n with
  | nil => rfl
  | cons c cs ih =>
      have hrest := ih (touched c) (n.next c)
      by_cases hbreak : breaksAt e n c cs = true
      · simp [headPieces, hbreak, ← hrest]
      · simp [headPieces, hbreak, ← hrest]

/-- The lines of a neat head are neat. -/
theorem neat_headLines {head : Text} (hn : Neat head) (hne : head ≠ []) (level : Nat) :
    ∀ l ∈ headLines head level 0 (occurrences head Keyword.SELECT), Neat l.text := by
  obtain ⟨c, cs, rfl⟩ := List.exists_cons_of_ne_nil hne
  have hsplit := headPieces_part (some c) (Nesting.start.next c) cs
  have htidy : ∀ p, p = c :: (headPieces (some c) (Nesting.start.next c) cs).1 ∨
      p ∈ (headPieces (some c) (Nesting.start.next c) cs).2 → Tidy p := by
    rintro p (rfl | hp)
    · have hpart : Tidy ([] ++ ((c :: (headPieces (some c) (Nesting.start.next c) cs).1) ++
          (headPieces (some c) (Nesting.start.next c) cs).2.flatten)) := by
        have h := hn.tidy
        rwa [hsplit] at h
      exact hpart.part
    · obtain ⟨a, b, hab⟩ := List.append_of_mem hp
      have hpart : Tidy ((c :: (headPieces (some c) (Nesting.start.next c) cs).1 ++ a.flatten) ++
          (p ++ b.flatten)) := by
        have h := hn.tidy
        rw [hsplit, hab] at h
        simpa using h
      exact hpart.part
  intro l hl
  rw [headLines_eq (hn.head c rfl)] at hl
  rcases List.mem_cons.mp hl with rfl | hl
  · exact Neat.trim (htidy _ (Or.inl rfl))
  · obtain ⟨p, hp, rfl⟩ := List.mem_map.mp hl
    exact Neat.trim (htidy p (Or.inr hp))

/-! ## No new separators

A new ` ON ` would need one of the new spaces, and behind a new space stands the `S` of a
`SELECT`. In ` ON ` no space is followed by an `S`: the first by an `O`, the last by nothing,
but then a letter stands before it. This is what `unbroken` asks, and it is decided once. -/

/-- Whether no character of `p` is a space in front of a `SELECT`, where `inWord` is about the
character before. -/
def unbroken : Bool → Text → Bool
  | _, [] => true
  | inWord, c :: p => (c != ' ' || inWord || p.head?.any (· != 'S')) && unbroken (isWordChar c) p

/-- A prefix is compared character by character. -/
theorem startsWith_cons (c d : Char) (t p : Text) :
    startsWith (c :: t) (d :: p) = (c.toUpper == d.toUpper && startsWith t p) := by
  simp [startsWith, same, upper, List.cons_beq_cons]

/-- A `SELECT` starts with its first letter. -/
theorem toUpper_of_breaksAt {e : Option Char} {n : Nesting} {c : Char} {cs : Text}
    (h : breaksAt e n c cs = true) : c.toUpper = 'S' := by
  simp only [breaksAt, Bool.and_eq_true] at h
  have hstart := (startsKeyword_iff.mp h.2).1
  simp only [Keyword.SELECT, List.length_cons, List.take_succ_cons, upper, List.map_cons,
    List.cons.injEq] at hstart
  exact hstart.1

/-- What stands in a text with spaces, and is not made by them, stands in the text. -/
theorem startsWith_of_spaceOut {p : Text} (hup : p.upper = p) {e : Option Char}
    (hp : unbroken (e.any isWordChar) p = true) {n : Nesting} {t z : Text}
    (h : startsWith (spaceOut e n t ++ z) p = true) : startsWith (t ++ z) p = true := by
  induction p generalizing e n t with
  | nil => exact h
  | cons d p ih =>
      obtain ⟨hd, hup'⟩ := List.cons.inj hup
      rw [unbroken, Bool.and_eq_true] at hp
      cases t with
      | nil => exact h
      | cons c cs =>
          rw [spaceOut] at h
          split at h
          · -- a space and a `SELECT`
            rename_i hbreak
            rw [Bool.and_eq_true] at hbreak
            have hword : e.any isWordChar = false := by
              have hbreak' := hbreak.2
              simp only [breaksAt, Bool.and_eq_true, Bool.not_eq_true'] at hbreak'
              exact hbreak'.1.2
            rw [List.cons_append, startsWith_cons, Bool.and_eq_true, beq_iff_eq, hd] at h
            obtain ⟨rfl, h⟩ := h
            obtain ⟨x, p', rfl⟩ : ∃ x p', p = x :: p' := by
              cases p with
              | nil => simp [hword] at hp
              | cons x p' => exact ⟨x, p', rfl⟩
            rw [List.cons_append, startsWith_cons, Bool.and_eq_true, beq_iff_eq,
              toUpper_of_breaksAt hbreak.2] at h
            have hx : x = 'S' := by
              rw [h.1]
              exact (List.cons.inj hup').1.symm
            simp [hword, hx] at hp
          · rw [List.cons_append, startsWith_cons, Bool.and_eq_true, beq_iff_eq] at h
            rw [List.cons_append, startsWith_cons, Bool.and_eq_true, beq_iff_eq]
            refine ⟨h.1, ih hup' ?_ h.2⟩
            have hclass : isWordChar c = isWordChar d := by
              rw [← isWordChar_toUpper, h.1, isWordChar_toUpper]
            rw [touched, ← isWordChar_eq_any, hclass]
            exact hp.2

/-- No separator starts in `t`, which is followed by `z`. -/
def Free (sep z : Text) : Text → Prop
  | [] => True
  | c :: cs => startsWith (c :: cs ++ z) sep = false ∧ Free sep z cs

/-- A separator is not found before the text behind. -/
theorem Free.find?_eq {sep z t : Text} (h : Free sep z t) :
    find? sep (t ++ z) = (find? sep z).map (· + t.length) := by
  induction t with
  | nil => simp
  | cons c cs ih =>
      have hstart := h.1
      rw [List.cons_append] at hstart ⊢
      rw [find?, hstart, ih h.2]
      cases find? sep z <;> simp [Nat.add_assoc]

/-- Before the first place of a separator, none starts. -/
theorem free_of_find? {sep z t : Text}
    (h : find? sep (t ++ z) = some t.length ∨ find? sep (t ++ z) = none) : Free sep z t := by
  induction t with
  | nil => trivial
  | cons c cs ih =>
      rw [List.cons_append, find?] at h
      by_cases hstart : startsWith (c :: (cs ++ z)) sep = true
      · simp [hstart] at h
      · refine ⟨by simpa using hstart, ih ?_⟩
        simpa [hstart] using h

/-- Spaces in front of each `SELECT` make no new `ON` between spaces. -/
theorem Free.spaceOut {t z : Text} (h : Free onSeparator z t) (e : Option Char) (n : Nesting) :
    Free onSeparator z (spaceOut e n t) := by
  induction t generalizing e n with
  | nil => trivial
  | cons c cs ih =>
      have hspaced : startsWith (Layout.spaceOut e n (c :: cs) ++ z) onSeparator = false := by
        by_contra hs
        have hp : unbroken (e.any isWordChar) onSeparator = true := by
          cases e.any isWordChar <;> decide
        have hstart := startsWith_of_spaceOut (by decide) hp (by simpa using hs)
        rw [h.1] at hstart
        cases hstart
      rw [Layout.spaceOut] at hspaced ⊢
      split at hspaced
      · rename_i hbreak
        rw [if_pos hbreak]
        refine ⟨hspaced, ?_, ih h.2 _ _⟩
        rw [Bool.and_eq_true] at hbreak
        rw [List.cons_append, onSeparator, startsWith_cons, toUpper_of_breaksAt hbreak.2]
        rfl
      · rename_i hbreak
        rw [if_neg hbreak]
        exact ⟨hspaced, ih h.2 _ _⟩

/-! ## Joins -/

/-- A text in front that is not broken stays as it is. -/
theorem spaceOut_append {s r : Text} {e : Option Char} (hr : Severed (edge e s) r) {n : Nesting}
    {i : Nat} (h : occurrencesFrom Keyword.SELECT i n (e.any isWordChar) s = []) :
    spaceOut e n (s ++ r) = s ++ spaceOut (edge e s) (n.scan s) r := by
  induction s generalizing e n i with
  | nil => rfl
  | cons c cs ih =>
      rw [occurrencesFrom_select, List.append_eq_nil_iff] at h
      have hbreak : breaksAt e n c cs = false := by
        by_contra hbreak
        rw [if_pos (by simpa using hbreak)] at h
        exact absurd h.1 (by simp)
      have hstart : startsKeyword (c :: (cs ++ r)) Keyword.SELECT
          = startsKeyword (c :: cs) Keyword.SELECT := by
        rw [Bool.eq_iff_iff, startsKeyword_iff_firstWord (by decide),
          startsKeyword_iff_firstWord (by decide), ← List.cons_append, firstWord_append hr]
      have hbreak' : breaksAt e n c (cs ++ r) = false := by
        rw [← hbreak, breaksAt, breaksAt, hstart]
      have hrest := ih (e := touched c) hr h.2
      rw [List.cons_append, spaceOut, hbreak', Bool.and_false, hrest]
      rfl

/-- A keyword that starts a join. -/
structure IsJoin (keyword : Text) : Prop where
  neat : Neat keyword
  ne_nil : keyword ≠ []
  after : Nesting.after keyword = .start
  occurrences : keyword.occurrences Keyword.SELECT = []

/-- The keyword of a join is not broken, so the spaces go into its target. -/
theorem spaceOut_headed {keyword : Text} (hk : IsJoin keyword) (target : Text) :
    spaceOut none .start (headed keyword target)
      = headed keyword (spaceOut none .start target) := by
  have hocc : occurrencesFrom Keyword.SELECT 0 .start ((none : Option Char).any isWordChar)
      keyword = [] := hk.occurrences
  have hscan : Nesting.start.scan keyword = .start := hk.after
  cases target with
  | nil =>
      have hall := spaceOut_append (r := []) (Or.inr rfl) hocc
      simpa [headed, spaceOut] using hall
  | cons c cs =>
      have hall := spaceOut_append (r := ' ' :: c :: cs) (Or.inr rfl) hocc
      have hspace : ∀ e, spaceOut e .start (' ' :: c :: cs)
          = ' ' :: spaceOut none .start (c :: cs) := by
        intro e
        have hbreak : breaksAt e .start ' ' (c :: cs) = false := by
          simp [breaksAt, show isWordChar ' ' = false by decide]
        rw [spaceOut, hbreak, Bool.and_false]
        rfl
      have hne : (spaceOut none .start (c :: cs)).isEmpty = false := by simp [spaceOut]
      rw [headed, headed, hne]
      rw [hscan, hspace] at hall
      exact hall

theorem headed_ne_nil {keyword : Text} (h : keyword ≠ []) (body : Text) :
    headed keyword body ≠ [] := by
  unfold headed
  split
  · exact h
  · simp

/-- The head of a join is neat. -/
theorem IsJoin.headed {keyword : Text} (hk : IsJoin keyword) {target : Text} (ht : Neat target) :
    Neat (headed keyword target) ∧ Layout.headed keyword target ≠ [] :=
  ⟨hk.neat.headed hk.ne_nil ht, headed_ne_nil hk.ne_nil target⟩

/-- The head of a join is broken as before if its target has spaces at the breaks. -/
theorem headLines_headed_spaceOut {keyword : Text} (hk : IsJoin keyword) {target : Text}
    (ht : Neat target) (level : Nat) :
    headLines (headed keyword (spaceOut none .start target)) level 0
        (occurrences (headed keyword (spaceOut none .start target)) Keyword.SELECT)
      = headLines (headed keyword target) level 0
        (occurrences (headed keyword target) Keyword.SELECT) := by
  rw [← spaceOut_headed hk]
  exact headLines_spaceOut (hk.headed ht).1 (hk.headed ht).2 level

/-- A join without a condition has none with spaces at the breaks. -/
theorem joinParts_spaceOut {body : Text} (h : find? onSeparator body = none) :
    joinParts (spaceOut none .start body) = (spaceOut none .start body, none) := by
  have hfree : Free onSeparator [] body :=
    free_of_find? (Or.inr (by rw [List.append_nil]; exact h))
  have hnone := (hfree.spaceOut none .start).find?_eq
  rw [List.append_nil] at hnone
  rw [joinParts, hnone]
  rfl

/-- The condition of a join is found again behind its target with spaces at the breaks. -/
theorem joinParts_spaceOut_on {a s c : Text} (ha : Neat a) (hc : Neat c)
    (hs : s.upper = onSeparator.upper)
    (h : find? onSeparator (a ++ (s ++ c)) = some a.length) :
    joinParts (spaceOut none .start a ++ (onSeparator ++ c))
      = (spaceOut none .start a, some c) := by
  have hfree : Free onSeparator (onSeparator ++ c) a :=
    free_of_find? (Or.inl (find?_append (by decide) hs h c))
  have hzero : find? onSeparator (onSeparator ++ c) = some 0 :=
    (find?_eq_some_iff (by decide)).mpr
      ⟨startsWith_append rfl c, fun j hj => absurd hj (Nat.not_lt_zero j)⟩
  have hfind : find? onSeparator (spaceOut none .start a ++ (onSeparator ++ c))
      = some (spaceOut none .start a).length := by
    rw [(hfree.spaceOut none .start).find?_eq, hzero]
    simp
  simp only [joinParts, hfind, List.take_left, (neat_spaceOut ha .start).trim_eq]
  rw [← List.append_assoc, List.drop_left' (by simp), hc.trim_eq]

/-- The lines of a join, read again. -/
theorem joinClause_again {keyword body : Text} (hk : IsJoin keyword) (hb : Neat body)
    {level : Nat} {block : Block} (h : joinClause keyword body level = .ok block) :
    ∃ body', Neat body' ∧ flat block.lines = headed keyword body' ∧
      (∀ l ∈ block.lines, Neat l.text) ∧ joinClause keyword body' level = .ok block := by
  cases hfind : find? onSeparator body with
  | none =>
      have hparts : joinParts body = (body, none) := by simp [joinParts, hfind]
      simp only [joinClause, hparts] at h
      obtain rfl := Except.ok.inj h
      obtain ⟨hneat, hne⟩ := hk.headed hb
      refine ⟨spaceOut none .start body, neat_spaceOut hb .start, ?_,
        neat_headLines hneat hne level, ?_⟩
      · rw [← spaceOut_headed hk]
        exact flat_headLines hneat hne level
      · simp only [joinClause, joinParts_spaceOut hfind, headLines_headed_spaceOut hk hb]
  | some i =>
      obtain ⟨a, s, c, rfl, ha, hs, hparts⟩ := joinParts_split hfind
      obtain ⟨⟨hna, hane⟩, hnc, hcne⟩ := hb.around_separator (w := Keyword.ON) hs
      rw [hna.trim_eq, hnc.trim_eq] at hparts
      simp only [joinClause, hparts] at h
      obtain rfl := Except.ok.inj h
      obtain ⟨hneat, hne⟩ := hk.headed hna
      have hplace : find? onSeparator (a ++ (s ++ c)) = some a.length := by
        have hle := find?_le_length hfind
        have hlen := congrArg List.length ha
        rw [List.length_take] at hlen
        rw [hfind]
        exact congrArg some (by omega)
      -- the new body is the target with spaces at the breaks, `ON`, and the condition
      have hna' : Neat (spaceOut none .start a) := neat_spaceOut hna .start
      have hane' : spaceOut none .start a ≠ [] := by
        obtain ⟨x, xs, rfl⟩ := List.exists_cons_of_ne_nil hane
        simp [spaceOut]
      have hon : headed Keyword.ON c = Keyword.ON ++ ' ' :: c := by
        rw [headed, if_neg (by simpa using hcne)]
      have honNeat : Neat (headed Keyword.ON c) :=
        (Neat.of_unblank (by decide)).headed (by decide) hnc
      refine ⟨spaceOut none .start a ++ (onSeparator ++ c), ?_, ?_, ?_, ?_⟩
      · have hspace := hna'.space honNeat hane' (by rw [hon]; simp)
        rw [hon] at hspace
        exact hspace
      · rw [flat_append, flat_headLines hneat hne, flat_singleton, spaceOut_headed hk,
          if_neg (hk.headed hna').2, honNeat.normalize_eq, hon]
        simp [headed, hane', Keyword.ON, onSeparator]
      · intro l hl
        rcases List.mem_append.mp hl with hl | hl
        · exact neat_headLines hneat hne level l hl
        · rw [List.mem_singleton.mp hl]
          exact honNeat
      · simp only [joinClause, joinParts_spaceOut_on hna hnc hs hplace,
          headLines_headed_spaceOut hk hna]

end Layout

end SqlLayout
