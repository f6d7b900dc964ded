import Mathlib.Data.Nat.Find
import SqlLayout.Proofs.CaseLines
import SqlLayout.Proofs.PlacedWords

set_option autoImplicit false

/-! # Where a CASE expression ends

The check and the cut into columns count `CASE` and `END` as words, wherever these stand outside
literals: a `CASE` at the start of a text that the check accepts ends at the word that brings the
count back to zero (`exists_endsAt`). The layout of the expression reads tokens, so it only counts
words that stand alone, between spaces and outside parentheses (`aloneDepth`).

The layout breaks off at the word that brings its own count back to zero, and fails if there is
none (`branchLines_ends`). So it agrees with the check exactly if both counts come back to zero at
one place; that is so if every `CASE` and `END` up to there stands alone.
-/

namespace SqlLayout

open Text

/-! ## Counts that come back to zero -/

/-- A count of open `CASE` words that a text starts with comes back to zero at the word at
index `p`. -/
def EndsAt (depth : Nat → Nat) (p : Nat) : Prop :=
  (∀ j, 0 < j → j ≤ p → 0 < depth j) ∧ depth (p + 1) = 0

theorem EndsAt.unique {depth : Nat → Nat} {p q : Nat} (hp : EndsAt depth p)
    (hq : EndsAt depth q) : p = q := by
  have hle : ∀ {p q}, EndsAt depth p → EndsAt depth q → ¬p < q := by
    intro p q hp hq hlt
    have hpos := hq.1 (p + 1) (Nat.succ_pos p) hlt
    rw [hp.2] at hpos
    exact absurd hpos (lt_irrefl 0)
  have h1 := hle hp hq
  have h2 := hle hq hp
  omega

/-- A count that is zero somewhere, and not at once, comes back to zero. -/
theorem exists_endsAt {depth : Nat → Nat} {n : Nat} (hstart : 0 < depth 1) (hn : 0 < n)
    (hend : depth n = 0) : ∃ p, p < n ∧ 0 < p ∧ EndsAt depth p := by
  have hex : ∃ j, 0 < j ∧ depth j = 0 := ⟨n, hn, hend⟩
  classical
  obtain ⟨hpos, hzero⟩ := Nat.find_spec hex
  have hle : Nat.find hex ≤ n := Nat.find_min' hex ⟨hn, hend⟩
  have hne : Nat.find hex ≠ 1 := by
    intro h
    rw [h] at hzero
    omega
  refine ⟨Nat.find hex - 1, by omega, by omega, fun j hj hjp => ?_, ?_⟩
  · have hmin := Nat.find_min hex (m := j) (by omega)
    rw [not_and] at hmin
    exact Nat.pos_of_ne_zero (hmin hj)
  · rw [Nat.sub_add_cancel hpos]
    exact hzero

namespace Text

/-! ## Words that the check counts -/

/-- What the check accepts has no open `CASE` at its end. -/
theorem caseDepth_of_run {whole a t : Text} {k : Check} (hwhole : whole = a ++ t)
    (hnesting : k.nesting = Nesting.after a) (hin : k.inWord = a.getLast?.any isWordChar)
    (hcases : k.cases.length = whole.caseDepth a.length) (h : k.run whole t = .ok ()) :
    whole.caseDepth whole.length = 0 := by
  induction t generalizing a k with
  | nil =>
      rw [Check.run, Check.verdict] at h
      rw [List.append_nil] at hwhole
      rw [← hwhole] at hcases
      rw [← hcases, List.length_eq_zero_iff, ← List.getLast?_eq_none_iff]
      split at h
      · cases h
      · split at h
        · cases h
        · cases h
        · assumption
  | cons c cs ih =>
      rw [Check.run, Check.read_eq_next] at h
      split_ifs at h
      refine ih (a := a ++ [c]) (k := k.next c cs) ?_ ?_ ?_ ?_ h
      · rw [hwhole, List.append_assoc]
        rfl
      · have hnext : (k.next c cs).nesting = k.nesting.next c := rfl
        rw [hnext, hnesting]
        simp [Nesting.after, Nesting.scan]
      · rw [List.getLast?_concat]
        rfl
      · -- the stack of the check is as high as the depth
        rw [List.length_append, List.length_singleton, hwhole, caseDepth_append, ← hnesting, ← hin,
          ← hwhole, ← hcases]
        show (if _ then _ else _ : List Nat).length = _
        split
        · exact Check.length_casesAfter _ _ _
        · rfl

theorem caseDepth_of_validate {c : Text} (h : validate c = .ok ()) : c.caseDepth c.length = 0 :=
  caseDepth_of_run (a := []) (k := Check.start) rfl rfl rfl rfl h

/-- A `CASE` that ends does so at an `END`. -/
theorem endWord_of_endsAt {x : Text} {p : Nat} (hp : 0 < p) (h : EndsAt x.caseDepth p) :
    x.startsWord p = true ∧ (firstWord (x.drop p)).same Keyword.END = true := by
  have hopen := h.1 p hp (Nat.le_refl p)
  have hclosed := h.2
  rw [caseDepth_succ] at hclosed
  split at hclosed
  · rename_i hword
    refine ⟨hword, ?_⟩
    unfold caseDepthAfter at hclosed
    split_ifs at hclosed with hcase hend
    · exact hend
    · omega
  · omega

/-! ## Words that stand alone -/

/-- No parenthesis and no literal is open in front of a word, and on both sides of it there is a
space or an end of the text. -/
def standsAlone (x : Text) (i : Nat) : Bool :=
  (Nesting.after (x.take i)).isOutermost && (x.take i).getLast?.all (· == ' ') &&
    ((x.drop i).dropWhile isWordChar).head?.all (· == ' ')

/-- The number of open `CASE` words before an index, where only the word at the start of the text
and words that stand alone count. -/
def aloneDepth (x : Text) (i : Nat) : Nat :=
  openCases 0
    (((x.wordsBefore i).filter fun word => word.1 == 0 || x.standsAlone word.1).map Prod.snd)

theorem aloneDepth_succ (x : Text) (i : Nat) :
    x.aloneDepth (i + 1) =
      if x.startsWord i && (i == 0 || x.standsAlone i) then
        caseDepthAfter (x.aloneDepth i) (firstWord (x.drop i))
      else x.aloneDepth i := by
  unfold aloneDepth
  rw [wordsBefore_succ, List.filter_append, List.map_append, openCases, List.foldl_append]
  cases hword : x.startsWord i with
  | false => rfl
  | true =>
      cases hcounts : i == 0 || x.standsAlone i with
      | false => simp [hcounts, openCases]
      | true => simp [hcounts, openCases]

theorem startsWord_of_length_le {x : Text} {j : Nat} (h : x.length ≤ j) :
    x.startsWord j = false := by
  unfold startsWord
  rw [List.getElem?_eq_none h]
  rfl

theorem aloneDepth_of_length_le {x : Text} {j : Nat} (h : x.length ≤ j) :
    x.aloneDepth j = x.aloneDepth x.length := by
  induction j, h using Nat.le_induction with
  | base => rfl
  | succ j hj ih =>
      rw [aloneDepth_succ, startsWord_of_length_le hj, Bool.false_and,
        if_neg Bool.false_ne_true, ih]

/-- Behind the first character of a run without spaces, nothing stands alone. -/
theorem aloneDepth_within {x a w rest : Text} (hx : x = a ++ (w ++ rest))
    (hw : ∀ c ∈ w, c ≠ ' ') {i : Nat} (hlow : a.length < i) (hhigh : i ≤ a.length + w.length) :
    x.aloneDepth i = x.aloneDepth (a.length + 1) := by
  induction i, hlow using Nat.le_induction with
  | base => rfl
  | succ i hi ih =>
      have hlast : ∃ c ∈ w, (x.take i).getLast? = some c := by
        have hbound : i - 1 - a.length < w.length := by omega
        refine ⟨w[i - 1 - a.length], List.getElem_mem hbound, ?_⟩
        rw [List.getLast?_take, if_neg (by omega), hx, List.getElem?_append_right (by omega),
          List.getElem?_append_left hbound, List.getElem?_eq_getElem hbound, Option.some_or]
      obtain ⟨c, hc, hlast⟩ := hlast
      have hnot : x.standsAlone i = false := by
        unfold standsAlone
        rw [hlast, Option.all_some, beq_eq_false_iff_ne.mpr (hw c hc), Bool.and_false,
          Bool.false_and]
      have hzero : (i == 0) = false := beq_eq_false_iff_ne.mpr (by omega)
      rw [aloneDepth_succ, hnot, hzero, Bool.or_false, Bool.and_false, if_neg Bool.false_ne_true]
      exact ih (by omega)

end Text

theorem Solid.ne_space {w : Text} (hw : Solid w) : ∀ c ∈ w, c ≠ ' ' := by
  rintro c hc rfl
  exact absurd (hw.unblank ' ' hc) (by decide)

/-- The number of open `CASE` words once a token is read. -/
def Token.caseDepthAfter (t : Token) (depth : Nat) : Nat :=
  if t.spells Keyword.CASE then depth + 1
  else if t.spells Keyword.END then depth - 1
  else depth

namespace Text

variable {x a w rest : Text}

/-- A token that is one word is the word that the text goes on with, and nothing touches it. -/
theorem firstWord_solid (hall : ∀ c ∈ w, isWordChar c = true) (hrest : Layout.Resumes rest) :
    firstWord (w ++ rest) = w ∧ ((w ++ rest).dropWhile isWordChar).head?.all (· == ' ') = true := by
  unfold firstWord
  rw [List.takeWhile_append_of_pos hall, List.dropWhile_append_of_pos hall]
  rcases hrest with rfl | ⟨r, rfl⟩
  · simp
  · simp [isWordChar]

/-- A token with other characters is not alone with the word it starts with. -/
theorem touched_of_solid (hw : Solid w) (hall : ¬∀ c ∈ w, isWordChar c = true) :
    ((w ++ rest).dropWhile isWordChar).head?.all (· == ' ') = false := by
  have hne : w.dropWhile isWordChar ≠ [] := by
    intro hnil
    exact hall (List.dropWhile_eq_nil_iff.mp hnil)
  obtain ⟨d, ds, hd⟩ := List.exists_cons_of_ne_nil hne
  have hmem : d ∈ w := by
    apply (List.dropWhile_sublist isWordChar).subset
    rw [hd]
    exact List.mem_cons_self
  rw [List.dropWhile_append, hd]
  simpa using hw.ne_space d hmem

theorem same_eq_false_of_touched {k : Text} (hk : k.all isWordChar = true)
    (hall : ¬∀ c ∈ w, isWordChar c = true) : w.same k = false := by
  rw [← Bool.not_eq_true, same_iff]
  exact fun h => hall (isWordChar_of_upper h hk)

/-- A token counts if it is a word that stands alone. -/
theorem aloneDepth_token (hx : x = a ++ ' ' :: (w ++ rest)) (hw : Solid w)
    (hrest : Layout.Resumes rest) (i : Nat) :
    x.aloneDepth (a.length + 1) = x.aloneDepth a.length ∧
      x.aloneDepth (a.length + 2) =
        Token.caseDepthAfter ⟨w, i, (Nesting.after a).next ' '⟩ (x.aloneDepth a.length) := by
  have hspace : x.aloneDepth (a.length + 1) = x.aloneDepth a.length := by
    have hword : x.startsWord a.length = false := by
      rw [hx, startsWord_append]
      simp [isWordChar]
    rw [aloneDepth_succ, hword, Bool.false_and, if_neg Bool.false_ne_true]
  refine ⟨hspace, ?_⟩
  have hcut : x = (a ++ [' ']) ++ (w ++ rest) := by simp [hx]
  have htake : x.take (a.length + 1) = a ++ [' '] := by
    rw [hcut, List.take_left' (by simp)]
  have hdrop : x.drop (a.length + 1) = w ++ rest := by
    rw [hcut, List.drop_left' (by simp)]
  have hafter : Nesting.after (a ++ [' ']) = (Nesting.after a).next ' ' := by
    simp [Nesting.after, Nesting.scan]
  have hzero : (a.length + 1 == 0) = false := rfl
  rw [aloneDepth_succ, hspace, hzero, Bool.false_or]
  unfold standsAlone startsWord Token.caseDepthAfter Token.spells
  rw [htake, hdrop, hafter, List.getLast?_concat]
  generalize (Nesting.after a).next ' ' = m
  by_cases hall : ∀ c ∈ w, isWordChar c = true
  · obtain ⟨hfirst, htouched⟩ := firstWord_solid hall hrest
    obtain ⟨d, ds, rfl⟩ := List.exists_cons_of_ne_nil hw.ne_nil
    have hchar : x[a.length + 1]? = some d := by
      rw [← List.head?_drop, hdrop]
      rfl
    have hd : isWordChar d = true := hall d List.mem_cons_self
    have hblank : isWordChar ' ' = false := by decide
    rw [hfirst, htouched, hchar]
    unfold caseDepthAfter
    cases hout : m.isOutermost with
    | false => simp
    | true => simp [hd, hblank, isQuoted_eq_false_of_isOutermost hout]
  · -- other characters touch the word, so the token spells no keyword either
    have hk := fun {k : Text} (hk : k.all isWordChar = true) => same_eq_false_of_touched hk hall
    rw [touched_of_solid hw hall, hk (by decide), hk (by decide)]
    simp

/-- A token that leaves the count above zero does so up to its end. -/
theorem aloneDepth_past_token (hx : x = a ++ ' ' :: (w ++ rest)) (hw : Solid w)
    (hrest : Layout.Resumes rest) (i : Nat) {d d' : Nat} (hbefore : x.aloneDepth a.length = d + 1)
    (hafter : Token.caseDepthAfter ⟨w, i, (Nesting.after a).next ' '⟩ (d + 1) = d' + 1) :
    x.aloneDepth (a ++ ' ' :: w).length = d' + 1 ∧
      ∀ j, a.length ≤ j → j ≤ (a ++ ' ' :: w).length → 0 < x.aloneDepth j := by
  obtain ⟨hspace, htoken⟩ := aloneDepth_token hx hw hrest i
  rw [hbefore] at hspace htoken
  have hcut : x = (a ++ [' ']) ++ (w ++ rest) := by simp [hx]
  have hlength : (a ++ ' ' :: w).length = a.length + 1 + w.length := by simp; omega
  -- the count changes at the first character of the token only
  have hinside : ∀ j, a.length + 1 < j → j ≤ (a ++ ' ' :: w).length →
      x.aloneDepth j = d' + 1 := by
    intro j hlow hhigh
    have hwithin := aloneDepth_within hcut hw.ne_space (i := j) (by simpa using hlow)
      (by simp at hhigh ⊢; omega)
    rw [hwithin, List.length_append, List.length_singleton, htoken]
    exact hafter
  have hpos := List.length_pos_iff.mpr hw.ne_nil
  refine ⟨hinside _ (by omega) (Nat.le_refl _), fun j hlow hhigh => ?_⟩
  rcases Nat.lt_or_ge (a.length + 1) j with hj | hj
  · rw [hinside j hj hhigh]
    exact Nat.succ_pos d'
  · obtain rfl | rfl : j = a.length ∨ j = a.length + 1 := by omega
    · omega
    · omega

end Text

namespace Layout

/-! ## The branches of the expression -/

/-- The lines of an expression break off at the word `e`, an `END`. The text `x` is read up to the
end of `a`, and `line` is the line so far; up to letter case the lines say that line and `u`, and
the tokens that are left say what follows `e`. -/
structure BreaksOff (x a line : Text) (lines : List Text) (after : List Token)
    (u e : Text) : Prop where
  text : x = (a ++ u) ++ ' ' :: (e ++ spell (after.map Token.text))
  spelled : e.upper = Keyword.END
  said : upper (join [' '] lines) = upper (line ++ u)
  opened : ∀ j, a.length ≤ j → j ≤ (a ++ u).length + 1 → 0 < x.aloneDepth j
  closed : x.aloneDepth ((a ++ u).length + 2) = 0

/-- A token in front that does not close the expression. -/
theorem BreaksOff.step {x a line line' w u e : Text} {lines lines' : List Text}
    {after : List Token} (h : BreaksOff x (a ++ ' ' :: w) line' lines' after u e)
    (hsaid : upper (join [' '] lines) = upper (line ++ ' ' :: (w ++ u)))
    (hopened : ∀ j, a.length ≤ j → j ≤ (a ++ ' ' :: w).length → 0 < x.aloneDepth j) :
    BreaksOff x a line lines after (' ' :: (w ++ u)) e := by
  have happend : (a ++ ' ' :: w) ++ u = a ++ ' ' :: (w ++ u) := by simp
  refine ⟨?_, h.spelled, hsaid, fun j hlow hhigh => ?_, ?_⟩
  · rw [← happend]
    exact h.text
  · rcases Nat.le_total j (a ++ ' ' :: w).length with hj | hj
    · exact hopened j hlow hj
    · rw [← happend] at hhigh
      exact h.opened j hj hhigh
  · rw [← happend]
    exact h.closed

/-- The branches break off where the count of words that stand alone comes back to zero. The
induction is over the words; the count is one more than the number of inner `CASE` words. -/
theorem branchLines_ends {ws : List Text} (hws : ∀ w ∈ ws, Solid w) {x a : Text}
    (hx : x = a ++ spell ws) {nested : Nat} (hdepth : x.aloneDepth a.length = nested + 1)
    (line : Text) :
    match branchLines nested line (Token.scan a.length (Nesting.after a) false (spell ws)) with
    | none => ∀ j, a.length ≤ j → 0 < x.aloneDepth j
    | some (lines, after) => ∃ u e, BreaksOff x a line lines after u e := by
  induction ws generalizing a nested line with
  | nil =>
      intro j hj
      obtain rfl : x = a := by simpa [spell] using hx
      rw [aloneDepth_of_length_le hj, hdepth]
      exact Nat.succ_pos nested
  | cons w ws ih =>
      have hw := hws w List.mem_cons_self
      have hws' : ∀ v ∈ ws, Solid v := fun v hv => hws v (List.mem_cons_of_mem _ hv)
      have hcut : x = a ++ ' ' :: (w ++ spell ws) := by rw [hx, spell_cons]
      have hcut' : x = (a ++ ' ' :: w) ++ spell ws := by simp [hcut]
      have hlength : a.length + 1 + w.length = (a ++ ' ' :: w).length := by simp; omega
      have hafter : ((Nesting.after a).next ' ').scan w = Nesting.after (a ++ ' ' :: w) := by
        simp [Nesting.after, Nesting.scan]
      rw [Token.scan_spell hw, hlength, hafter]
      obtain ⟨hspace, htoken⟩ := aloneDepth_token hcut hw (resumes_spell ws) (a.length + 1)
      rw [hdepth] at hspace htoken
      rcases branchLines_cons nested line ⟨w, a.length + 1, (Nesting.after a).next ' '⟩
        (Token.scan (a ++ ' ' :: w).length (Nesting.after (a ++ ' ' :: w)) false (spell ws)) with
        ⟨hzero, hcase, hend, hstep⟩ | ⟨nested', w', hdepth', hwritten, hstep⟩
      · -- the word is the `END`: up to its first character one `CASE` is open, behind it none
        rw [hstep]
        refine ⟨[], w, ?_, (Token.upper_of_spells hend).symm, by simp [join],
          fun j hlow hhigh => ?_, ?_⟩
        · rw [Token.text_scan_spell hws', List.append_nil]
          exact hcut
        · rw [List.append_nil] at hhigh
          rcases Nat.eq_or_lt_of_le hlow with rfl | hlt
          · omega
          · obtain rfl : j = a.length + 1 := by omega
            omega
        · rw [List.append_nil, htoken]
          simp [Token.caseDepthAfter, hcase, hend, hzero]
      · have hupper : upper w' = upper w := hwritten.upper_eq
        obtain ⟨hread, hopened⟩ :=
          aloneDepth_past_token hcut hw (resumes_spell ws) (a.length + 1) hdepth hdepth'.symm
        have hnever : (∀ j, (a ++ ' ' :: w).length ≤ j → 0 < x.aloneDepth j) →
            ∀ j, a.length ≤ j → 0 < x.aloneDepth j := by
          intro hrest j hj
          rcases Nat.le_total j (a ++ ' ' :: w).length with hle | hge
          · exact hopened j hj hle
          · exact hrest j hge
        have hkept : ∀ u : Text, upper (' ' :: (w' ++ u)) = upper (' ' :: (w ++ u)) := by
          intro u
          have htext : upper (w' ++ u) = upper (w ++ u) := by
            rw [upper_append, upper_append, hupper]
          exact congrArg (List.cons _) htext
        rcases hstep with hstep | hstep
        · -- the word goes on the line so far
          have hrest := ih hws' hcut' hread (line ++ ' ' :: w')
          rw [hstep]
          split
          · rename_i hnone
            rw [hnone] at hrest
            exact hnever hrest
          · rename_i lines after hsome
            rw [hsome] at hrest
            obtain ⟨u, e, h⟩ := hrest
            refine ⟨_, e, h.step ?_ hopened⟩
            rw [h.said, List.append_assoc, List.cons_append, upper_append, upper_append, hkept]
        · -- the word starts a line
          have hrest := ih hws' hcut' hread w'
          rw [hstep]
          cases hbranch : branchLines nested' w' (Token.scan (a ++ ' ' :: w).length
              (Nesting.after (a ++ ' ' :: w)) false (spell ws)) with
          | none =>
              rw [hbranch] at hrest
              exact hnever hrest
          | some found =>
              rw [hbranch] at hrest
              obtain ⟨u, e, h⟩ := hrest
              obtain ⟨y, ys, hlines⟩ := List.exists_cons_of_ne_nil (branchLines_ne_nil hbranch)
              refine ⟨_, e, h.step ?_ hopened⟩
              -- the line so far is a line of its own
              rw [hlines, join, ← hlines, List.append_assoc, upper_append, upper_append,
                upper_append, h.said, ← upper_append, ← hkept]
              rfl

/-! ## The whole expression -/

/-- The layout of an expression breaks at index `p`: the `END` line stands for the text from there
on, and the lines before it say, up to letter case, what stands before. -/
def BreaksAt (c : Text) (p : Nat) (suffix : Text) (level : Nat) (block : Block) : Prop :=
  ∃ (lines : List Text) (e rest : Text), c.drop p = e ++ rest ∧ e.upper = Keyword.END ∧
    block = ⟨hanging level lines ++ [⟨level + 1, Keyword.END ++ rest ++ suffix⟩], level⟩ ∧
    upper (join [' '] lines ++ [' ']) = upper (c.take p)

theorem BreaksAt.unique {c suffix : Text} {p q level : Nat} {block : Block}
    (hp : BreaksAt c p suffix level block) (hq : BreaksAt c q suffix level block) : p = q := by
  obtain ⟨lines, e, rest, hdrop, he, rfl, -⟩ := hp
  obtain ⟨lines', e', rest', hdrop', he', hblock, -⟩ := hq
  have hlast := congrArg (fun b : Block => b.lines.getLast?) hblock
  simp only [List.getLast?_concat, Option.some.injEq, Line.mk.injEq, List.append_cancel_right_eq,
    List.append_cancel_left_eq, true_and] at hlast
  subst hlast
  have hlength : ∀ {e : Text}, e.upper = Keyword.END → e.length = 3 := by
    intro e he
    rw [← length_upper, he]
    rfl
  have h1 := congrArg List.length hdrop
  have h2 := congrArg List.length hdrop'
  simp only [List.length_drop, List.length_append, hlength he, hlength he'] at h1 h2
  omega

variable {c : Text}

/-- Up to the end of its first token, one `CASE` is open in an expression. -/
theorem startsWord_zero (hcase : c.startsKeyword Keyword.CASE = true) :
    c.startsWord 0 = true ∧ ∀ d, caseDepthAfter d (firstWord (c.drop 0)) = d + 1 := by
  have hfirst : c.firstWord.upper = Keyword.CASE.upper :=
    (startsKeyword_iff_firstWord (by decide)).mp hcase
  constructor
  · cases c with
    | nil => cases hfirst
    | cons d ds =>
        have hd : isWordChar d = true := by
          by_contra hnot
          rw [firstWord, List.takeWhile_cons_of_neg hnot] at hfirst
          cases hfirst
        simp [startsWord, hd, Nesting.after, Nesting.scan, Nesting.start, Nesting.isQuoted]
  · intro d
    rw [List.drop_zero, caseDepthAfter, if_pos (same_iff.mpr hfirst)]

theorem caseDepth_one (hcase : c.startsKeyword Keyword.CASE = true) : c.caseDepth 1 = 1 := by
  obtain ⟨hword, hopens⟩ := startsWord_zero hcase
  rw [caseDepth_succ, hword, if_pos rfl, hopens]
  rfl

theorem aloneDepth_one (hcase : c.startsKeyword Keyword.CASE = true) : c.aloneDepth 1 = 1 := by
  obtain ⟨hword, hopens⟩ := startsWord_zero hcase
  rw [aloneDepth_succ, hword, beq_self_eq_true, Bool.true_or, Bool.and_self, if_pos rfl, hopens]
  rfl

/-- The layout of an expression breaks where the count of words that stand alone comes back to
zero, and fails if it does not. -/
theorem caseExpression_breaks (hneat : c.normalize = c)
    (hcase : c.startsKeyword Keyword.CASE = true) (suffix : Text) (level : Nat) :
    (∃ p block, EndsAt c.aloneDepth p ∧ caseExpression c suffix level = .ok block ∧
      BreaksAt c p suffix level block) ∨
    (∀ p, ¬EndsAt c.aloneDepth p) ∧
      caseExpression c suffix level = .error (.unterminated .caseExpression (excerpt c 0)) := by
  obtain ⟨s, r, ws, hc, hspelled, -, hw, hws⟩ := exists_caseWords (hneat ▸ Neat.normalize c) hcase
  have hlay := caseExpression_spell hspelled hw ws suffix level
  have hupper : upper (s ++ r) = upper (Keyword.CASE ++ r) := by
    rw [upper_append, upper_append, hspelled]
  rw [← hc] at hlay
  generalize s ++ r = w at hc hw hlay hupper
  -- nothing closes the expression in its first word
  have hfirst : ∀ j, 0 < j → j ≤ w.length → c.aloneDepth j = 1 := by
    intro j hlow hhigh
    have hwithin := aloneDepth_within (a := []) (x := c) hc hw.ne_space (i := j) hlow
      (by simpa using hhigh)
    rw [hwithin]
    exact aloneDepth_one hcase
  have hread : c.aloneDepth w.length = 0 + 1 :=
    hfirst _ (List.length_pos_iff.mpr hw.ne_nil) (Nat.le_refl _)
  have hends := branchLines_ends hws hc hread (Keyword.CASE ++ r)
  rw [hlay]
  cases hbranch : branchLines 0 (Keyword.CASE ++ r)
      (Token.scan w.length (Nesting.after w) false (spell ws)) with
  | none =>
      rw [hbranch] at hends
      refine Or.inr ⟨fun p hp => ?_, rfl⟩
      have hpos : 0 < c.aloneDepth (p + 1) := by
        rcases Nat.le_total (p + 1) w.length with hle | hge
        · rw [hfirst (p + 1) (Nat.succ_pos p) hle]
          exact Nat.one_pos
        · exact hends (p + 1) hge
      rw [hp.2] at hpos
      exact absurd hpos (lt_irrefl 0)
  | some found =>
      rw [hbranch] at hends
      obtain ⟨u, e, h⟩ := hends
      have hcut : c = ((w ++ u) ++ [' ']) ++ (e ++ spell (found.2.map Token.text)) := by
        simpa using h.text
      have hplace : ((w ++ u) ++ [' ']).length = (w ++ u).length + 1 := by
        rw [List.length_append, List.length_singleton]
      have htake : c.take ((w ++ u).length + 1) = (w ++ u) ++ [' '] := by
        rw [hcut, List.take_left' hplace]
      have hdrop : c.drop ((w ++ u).length + 1) = e ++ spell (found.2.map Token.text) := by
        rw [hcut, List.drop_left' hplace]
      have hsaid : upper (join [' '] found.1) = upper (w ++ u) := by
        rw [h.said, upper_append (Keyword.CASE ++ r), upper_append w, hupper]
      refine Or.inl ⟨(w ++ u).length + 1, _, ⟨fun j hlow hhigh => ?_, h.closed⟩, rfl,
        found.1, e, _, hdrop, h.spelled, ?_, ?_⟩
      · rcases Nat.le_total j w.length with hle | hge
        · rw [hfirst j hlow hle]
          exact Nat.one_pos
        · exact h.opened j hge hhigh
      · rw [caseBlock, endLine_eq]
      · rw [htake, upper_append, upper_append, hsaid]

/-- If the words that count for the check stand alone, both counts agree. -/
theorem aloneDepth_eq_caseDepth {p : Nat}
    (h : ∀ j, 0 < j → j ≤ p → c.startsWord j = true →
      (firstWord (c.drop j)).same Keyword.CASE = true ∨
        (firstWord (c.drop j)).same Keyword.END = true → c.standsAlone j = true)
    {i : Nat} (hi : i ≤ p + 1) : c.aloneDepth i = c.caseDepth i := by
  induction i with
  | zero => rfl
  | succ i ih =>
      rw [aloneDepth_succ, caseDepth_succ, ih (by omega)]
      cases hword : c.startsWord i with
      | false => rfl
      | true =>
          cases hcounts : i == 0 || c.standsAlone i with
          | true => rfl
          | false =>
              -- the word is neither `CASE` nor `END`
              rw [Bool.or_eq_false_iff, beq_eq_false_iff_ne] at hcounts
              have hother := mt (h i (by omega) (by omega) hword) (by simp [hcounts.2])
              rw [not_or, Bool.not_eq_true, Bool.not_eq_true] at hother
              simp [caseDepthAfter, hother.1, hother.2]

/-- A `CASE` at the start of an accepted text has an `END` for the check. The layout breaks there
exactly if its own count of words comes back to zero there, which is so if each `CASE` and `END`
up to there stands alone. In any case it breaks where its own count comes back to zero, and fails
if it does not. -/
theorem caseExpression_ends_as_checked (c suffix : Text) (level : Nat) (hneat : c.normalize = c)
    (hcase : c.startsKeyword Keyword.CASE = true) (hvalid : validate c = .ok ()) :
    ∃ p, EndsAt c.caseDepth p ∧ c.startsWord p = true ∧
      (firstWord (c.drop p)).same Keyword.END = true ∧
      ((∃ block, caseExpression c suffix level = .ok block ∧ BreaksAt c p suffix level block) ↔
        EndsAt c.aloneDepth p) ∧
      ((∀ j, 0 < j → j ≤ p → c.startsWord j = true →
        (firstWord (c.drop j)).same Keyword.CASE = true ∨
          (firstWord (c.drop j)).same Keyword.END = true → c.standsAlone j = true) →
        EndsAt c.aloneDepth p) ∧
      (∀ q, EndsAt c.aloneDepth q →
        ∃ block, caseExpression c suffix level = .ok block ∧ BreaksAt c q suffix level block) ∧
      ((∀ q, ¬EndsAt c.aloneDepth q) →
        caseExpression c suffix level =
          .error (.unterminated .caseExpression (excerpt c 0))) := by
  have hopen : 0 < c.caseDepth 1 := by
    rw [caseDepth_one hcase]
    exact Nat.one_pos
  have hlength : 0 < c.length := by
    rw [List.length_pos_iff]
    rintro rfl
    cases hcase
  -- the check ends with no open `CASE`, so its count comes back to zero on the way
  obtain ⟨p, -, hp, hends⟩ := exists_endsAt hopen hlength (caseDepth_of_validate hvalid)
  obtain ⟨hword, hend⟩ := endWord_of_endsAt hp hends
  have hbreaks := caseExpression_breaks hneat hcase suffix level
  have hlaid : ∀ q, EndsAt c.aloneDepth q →
      ∃ block, caseExpression c suffix level = .ok block ∧ BreaksAt c q suffix level block := by
    intro q hq
    rcases hbreaks with ⟨q', block, hq', hok, hat⟩ | ⟨hnone, -⟩
    · exact ⟨block, hok, hq'.unique hq ▸ hat⟩
    · exact absurd hq (hnone q)
  refine ⟨p, hends, hword, hend, ⟨?_, hlaid p⟩, fun halone => ?_, hlaid, fun hnone => ?_⟩
  · rintro ⟨block, hok, hat⟩
    rcases hbreaks with ⟨q, block', hq, hok', hat'⟩ | ⟨-, herror⟩
    · obtain rfl : block = block' := by
        rw [hok] at hok'
        exact Except.ok.inj hok'
      rwa [hat.unique hat']
    · rw [hok] at herror
      cases herror
  · -- both counts agree up to `p`, so they come back to zero together
    refine ⟨fun j hj hjp => ?_, ?_⟩
    · rw [aloneDepth_eq_caseDepth halone (by omega)]
      exact hends.1 j hj hjp
    · rw [aloneDepth_eq_caseDepth halone (Nat.le_refl _)]
      exact hends.2
  · rcases hbreaks with ⟨q, -, hq, -, -⟩ | ⟨-, herror⟩
    · exact absurd hq (hnone q)
    · exact herror

/-- A column with a `CASE` in a branch, and an `END` in a literal. -/
def nestedCaseColumn : Text :=
  "case f(x) when (a) then case when b then 1 end else 'END' end as y".toList

/-- The layout breaks at the last `END`. -/
theorem caseExpression_ends_as_checked_nestedCaseColumn :
    nestedCaseColumn.normalize = nestedCaseColumn ∧
      nestedCaseColumn.startsKeyword Keyword.CASE = true ∧
      validate nestedCaseColumn = .ok () ∧
      ∃ p block, EndsAt nestedCaseColumn.caseDepth p ∧
        caseExpression nestedCaseColumn [','] 1 = .ok block ∧
        BreaksAt nestedCaseColumn p [','] 1 block ∧
        block.lines.map (fun l => (l.level, String.ofList l.text)) =
          [(1, "CASE f(x)"), (2, "WHEN (a) THEN case when b then 1 end"), (2, "ELSE 'END'"),
            (2, "END as y,")] := by
  have hneat : nestedCaseColumn.normalize = nestedCaseColumn := by decide +kernel
  have hcase : nestedCaseColumn.startsKeyword Keyword.CASE = true := by decide
  have hvalid : validate nestedCaseColumn = .ok () := by decide +kernel
  have hall : ∀ j < nestedCaseColumn.length, 0 < j → nestedCaseColumn.startsWord j = true →
      (firstWord (nestedCaseColumn.drop j)).same Keyword.CASE = true ∨
        (firstWord (nestedCaseColumn.drop j)).same Keyword.END = true →
      nestedCaseColumn.standsAlone j = true := by decide +kernel
  obtain ⟨p, hends, -, -, hbreaks, halone, -⟩ :=
    caseExpression_ends_as_checked nestedCaseColumn [','] 1 hneat hcase hvalid
  have hcounts : EndsAt nestedCaseColumn.aloneDepth p := by
    refine halone fun j hj _ hword => hall j ?_ hj hword
    by_contra hge
    rw [startsWord_of_length_le (Nat.le_of_not_lt hge)] at hword
    cases hword
  obtain ⟨block, hok, hat⟩ := hbreaks.mpr hcounts
  refine ⟨hneat, hcase, hvalid, p, block, hends, hok, hat, ?_⟩
  have hlines : (caseExpression nestedCaseColumn [','] 1).map (fun b =>
      b.lines.map fun l => (l.level, String.ofList l.text)) =
        .ok [(1, "CASE f(x)"), (2, "WHEN (a) THEN case when b then 1 end"), (2, "ELSE 'END'"),
          (2, "END as y,")] := by decide +kernel
  rw [hok] at hlines
  exact Except.ok.inj hlines

/-- An `END` that something touches counts for the check, and not for the layout. -/
example : validate "CASE WHEN a THEN 1 END::int".toList = .ok () ∧
    caseExpression "CASE WHEN a THEN 1 END::int".toList [] 0 =
      .error (.unterminated .caseExpression "CASE WHEN a THEN 1 END::".toList) := by
  decide +kernel

end Layout

end SqlLayout
