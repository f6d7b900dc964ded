import SqlLayout.Proofs.Marks
import SqlLayout.Scan.Keyword
import SqlLayout.Text.Search
import Mathlib.Data.List.TakeWhile

set_option autoImplicit false

/-! # Where searches cut a text

What trimming, the flat search and the keyword search find, as equations between a text and
its parts: `trim_split`, `find?_eq_some_iff`, `mem_occurrences_iff`.
-/

namespace SqlLayout.Text

/-! ## Trimming -/

/-- What trimming takes away at the beginning is blank. -/
theorem trimStart_split (t : Text) : ∃ a, AllBlank a ∧ t = a ++ t.trimStart :=
  ⟨t.takeWhile isBlank, fun _ hc => List.mem_takeWhile_imp hc,
    (List.takeWhile_append_dropWhile).symm⟩

/-- What it takes away at the end is blank. -/
theorem trimEnd_split (t : Text) : ∃ b, AllBlank b ∧ t = t.trimEnd ++ b := by
  refine ⟨(t.reverse.takeWhile isBlank).reverse, ?_, ?_⟩
  · intro c hc
    exact List.mem_takeWhile_imp (List.mem_reverse.mp hc)
  · have h := List.takeWhile_append_dropWhile (p := isBlank) (l := t.reverse)
    have h' := congrArg List.reverse h
    rw [List.reverse_append, List.reverse_reverse] at h'
    exact h'.symm

/-- The text up to `j` is the text up to `i` and the slice between them. -/
theorem take_append_slice (t : Text) {i j : Nat} (h : i ≤ j) :
    t.take i ++ (t.take j).drop i = t.take j := by
  have h1 := List.take_append_drop i (t.take j)
  rwa [List.take_take, Nat.min_eq_left h] at h1

/-- The text from `i` on is the slice up to `j` and the text from there on. -/
theorem drop_eq_slice_append (t : Text) {i j : Nat} (h : i ≤ j) :
    t.drop i = (t.take j).drop i ++ t.drop j := by
  refine List.append_cancel_left (show t.take i ++ _ = t.take i ++ _ from ?_)
  rw [← List.append_assoc, take_append_slice t h, List.take_append_drop, List.take_append_drop]

/-- A text is its trimmed text between blanks. -/
theorem trim_split (t : Text) : ∃ a b, AllBlank a ∧ AllBlank b ∧ t = a ++ (t.trim ++ b) := by
  obtain ⟨a, ha, hta⟩ := trimStart_split t
  obtain ⟨b, hb, htb⟩ := trimEnd_split t.trimStart
  refine ⟨a, b, ha, hb, ?_⟩
  rw [trim, ← htb]
  exact hta

/-- Trimming drops no mark; what is left touches what the text touched, or a blank. -/
theorem glyphs_trim {q : Track} (hq : q.Clear) (e : Option Char) (t : Text) :
    ∃ e', (e' = e ∨ e' = none) ∧ t.glyphs e q = t.trim.glyphs e' q := by
  obtain ⟨a, b, ha, hb, ht⟩ := trim_split t
  refine ⟨edge e a, ?_, ?_⟩
  · rw [ha.edge_eq]
    split
    · exact Or.inl rfl
    · exact Or.inr rfl
  · conv_lhs => rw [ht]
    rw [glyphs_append, glyphs_append, ha.glyphs_eq, hb.glyphs_eq, hq.scan_eq ha.isQuoteMark,
      List.nil_append, List.append_nil]

/-- Trimming drops nothing from a text that starts after a blank. -/
theorem glyphs_trim_none {q : Track} (hq : q.Clear) (t : Text) :
    t.trim.glyphs none q = t.glyphs none q := by
  obtain ⟨e', he', hg⟩ := glyphs_trim hq none t
  obtain rfl : e' = none := he'.elim id id
  exact hg.symm

theorem marks_trim (t : Text) : t.trim.marks none = t.marks none := by
  obtain ⟨a, b, ha, hb, ht⟩ := trim_split t
  have he : edge none a = none := by
    rw [ha.edge_eq]
    split <;> rfl
  conv_rhs => rw [ht]
  rw [marks_append, marks_append, ha.marks_eq, hb.marks_eq, he, List.nil_append,
    List.append_nil]

theorem marks_trimEnd (e : Option Char) (t : Text) : t.trimEnd.marks e = t.marks e := by
  obtain ⟨b, hb, ht⟩ := trimEnd_split t
  conv_rhs => rw [ht]
  rw [marks_append, hb.marks_eq, List.append_nil]

theorem glyphs_trimEnd (e : Option Char) (q : Track) (t : Text) :
    t.trimEnd.glyphs e q = t.glyphs e q := by
  obtain ⟨b, hb, ht⟩ := trimEnd_split t
  conv_rhs => rw [ht]
  rw [glyphs_append, hb.glyphs_eq, List.append_nil]

/-! ## Equality up to case -/

theorem same_iff {s t : Text} : s.same t = true ↔ s.upper = t.upper := by
  simp [same]

@[simp] theorem upper_upper (t : Text) : t.upper.upper = t.upper := by
  rw [upper, upper, List.map_map]
  exact List.map_congr_left fun c _ => apply_toUpper (by decide) c

@[simp] theorem same_upper (s t : Text) : s.upper.same t = s.same t := by
  rw [same, upper_upper]
  rfl

@[simp] theorem length_upper (t : Text) : t.upper.length = t.length := by
  simp [upper]

theorem upper_append (s t : Text) : (s ++ t).upper = s.upper ++ t.upper := by
  simp [upper]

theorem length_eq_of_upper_eq {s t : Text} (h : s.upper = t.upper) : s.length = t.length := by
  simpa using congrArg List.length h

/-- The beginning of a text that starts with `p`. -/
theorem startsWith_split {t p : Text} (h : t.startsWith p = true) :
    ∃ s r, t = s ++ r ∧ s.upper = p.upper := by
  refine ⟨t.take p.length, t.drop p.length, (List.take_append_drop _ _).symm, ?_⟩
  exact same_iff.mp h

theorem startsWith_append {s p : Text} (h : s.upper = p.upper) (r : Text) :
    (s ++ r).startsWith p = true := by
  have hlen : s.length = p.length := length_eq_of_upper_eq h
  rw [startsWith, ← hlen, List.take_left, same_iff]
  exact h

theorem startsWith_nil {p : Text} (hp : p ≠ []) : startsWith [] p = false := by
  cases p with
  | nil => exact absurd rfl hp
  | cons a as => simp [startsWith, same, upper]

/-! ## Flat search

The flat search looks at neither words nor literals: it finds the first place where the text goes
on with the needle, up to case. -/

/-- The place that is found is the first one where the text goes on with the needle. -/
theorem find?_eq_some_iff {needle : Text} (hn : needle ≠ []) {t : Text} {i : Nat} :
    find? needle t = some i ↔
      startsWith (t.drop i) needle = true ∧ ∀ j < i, startsWith (t.drop j) needle = false := by
  induction t generalizing i with
  | nil =>
      have hne : needle.isEmpty = false := by simpa using hn
      simp [find?, hne, startsWith_nil hn]
  | cons c cs ih =>
      rw [find?]
      -- the needle is here, or the search goes on and all places move by one
      by_cases hc : startsWith (c :: cs) needle = true
      · rw [if_pos hc]
        constructor
        · intro h
          obtain rfl : 0 = i := by simpa using h
          exact ⟨hc, by simp⟩
        · rintro ⟨-, hlt⟩
          cases i with
          | zero => rfl
          | succ i =>
              have h0 := hlt 0 (by omega)
              rw [List.drop_zero, hc] at h0
              cases h0
      · rw [if_neg hc]
        have hc' : startsWith (c :: cs) needle = false := by simpa using hc
        cases i with
        | zero => simp [hc']
        | succ i =>
            simp only [Option.map_eq_some_iff, Nat.add_right_cancel_iff, exists_eq_right, ih,
              List.drop_succ_cons]
            refine and_congr_right (fun _ => ?_)
            constructor
            · intro h j hj
              cases j with
              | zero => exact hc'
              | succ j => exact h j (by omega)
            · intro h j hj
              exact h (j + 1) (by omega)

/-- Nothing is found exactly if the text goes on with the needle nowhere. -/
theorem find?_eq_none_iff {needle : Text} (hn : needle ≠ []) {t : Text} :
    find? needle t = none ↔ ∀ j, startsWith (t.drop j) needle = false := by
  induction t with
  | nil =>
      have hne : needle.isEmpty = false := by simpa using hn
      simp [find?, hne, startsWith_nil hn]
  | cons c cs ih =>
      rw [find?]
      by_cases hc : startsWith (c :: cs) needle = true
      · rw [if_pos hc]
        simp only [reduceCtorEq, false_iff, not_forall]
        exact ⟨0, by simp [hc]⟩
      · rw [if_neg hc]
        refine Option.map_eq_none_iff.trans (ih.trans ?_)
        constructor
        · intro h j
          cases j with
          | zero => simpa using hc
          | succ j => exact h j
        · intro h j
          exact h (j + 1)

/-- A place in the text, or its end. -/
theorem find?_le_length {needle t : Text} {i : Nat} (h : find? needle t = some i) :
    i ≤ t.length := by
  induction t generalizing i with
  | nil =>
      rw [find?] at h
      split at h
      · exact (Option.some.inj h).symm.le
      · cases h
  | cons c cs ih =>
      rw [find?] at h
      split at h
      · rw [← Option.some.inj h]
        exact Nat.zero_le _
      · obtain ⟨j, hj, rfl⟩ := Option.map_eq_some_iff.mp h
        exact Nat.succ_le_succ (ih hj)

/-- A separator behind `a` is found there, if not before. -/
theorem exists_find?_append {sep : Text} (hsep : sep ≠ []) (a rest : Text) :
    ∃ i, find? sep (a ++ (sep ++ rest)) = some i ∧ i ≤ a.length := by
  have hthere : startsWith ((a ++ (sep ++ rest)).drop a.length) sep = true := by
    rw [List.drop_left]
    exact startsWith_append rfl rest
  cases hfind : find? sep (a ++ (sep ++ rest)) with
  | none =>
      rw [(find?_eq_none_iff hsep).mp hfind] at hthere
      cases hthere
  | some i =>
      refine ⟨i, rfl, ?_⟩
      by_contra hlt
      rw [((find?_eq_some_iff hsep).mp hfind).2 a.length (by omega)] at hthere
      cases hthere

/-! ## Cutting at one character -/

/-- A separator of one character that is no letter is met in one case only. -/
theorem startsWith_mark {d : Char} (hd : isWordChar d = false) (c : Char) (cs : Text) :
    startsWith (c :: cs) [d] = (c == d) := by
  rw [Bool.eq_iff_iff, startsWith, same_iff]
  simp only [List.length_singleton, List.take_succ_cons, List.take_zero, upper, List.map_cons,
    List.map_nil, List.cons.injEq, and_true, beq_iff_eq]
  rw [(toUpper_eq_iff_of_not_word hd d).mpr rfl]
  exact toUpper_eq_iff_of_not_word hd c

/-- A text is cut at a mark character by character. -/
theorem splitOn_mark_cons {d : Char} (hd : isWordChar d = false) (c : Char) (cs : Text) :
    splitOn (c :: cs) [d] =
      if c = d then [] :: splitOn cs [d] else (splitOn cs [d]).modifyHead (c :: ·) := by
  have hnil : ([d] : Text).isEmpty = false := rfl
  simp only [splitOn, hnil, Bool.false_eq_true, if_false]
  rw [cutAt, startsWith_mark hd]
  by_cases hc : c = d
  · simp [hc]
  · simp [hc]

theorem splitOn_mark_of_not_mem {d : Char} (hd : isWordChar d = false) {x : Text} (hx : d ∉ x) :
    splitOn x [d] = [x] := by
  induction x with
  | nil => rfl
  | cons c cs ih =>
      simp only [List.mem_cons, not_or] at hx
      rw [splitOn_mark_cons hd, if_neg (Ne.symm hx.1), ih hx.2, List.modifyHead_cons]

/-- The last piece keeps what a text ends with, if there is no mark in it. -/
theorem getLast?_splitOn_mark {d : Char} (hd : isWordChar d = false) {u : Text} (hu : d ∉ u)
    (t : Text) : ∃ v, (splitOn (t ++ u) [d]).getLast? = some (v ++ u) := by
  induction t with
  | nil => exact ⟨[], by rw [List.nil_append, splitOn_mark_of_not_mem hd hu]; rfl⟩
  | cons c cs ih =>
      obtain ⟨v, hv⟩ := ih
      rw [List.cons_append, splitOn_mark_cons hd]
      cases hs : splitOn (cs ++ u) [d] with
      | nil => simp [hs] at hv
      | cons p ps =>
          rw [hs] at hv
          split
          · exact ⟨v, by rw [List.getLast?_cons_cons, hv]⟩
          · cases ps with
            | nil =>
                obtain rfl : p = v ++ u := by simpa using hv
                exact ⟨c :: v, rfl⟩
            | cons q qs => exact ⟨v, by simpa [List.getLast?_cons_cons] using hv⟩

/-! ## Whole words outside literals -/

/-- The text reads `keyword` at index `i`, as a word of its own outside literals. -/
structure OccursAt (keyword t : Text) (i : Nat) : Prop where
  spelled : upper ((t.drop i).take keyword.length) = keyword.upper
  head : ∃ c, (t.drop i).head? = some c ∧ isWordChar c = true
  unquoted : (Nesting.after (t.take i)).isQuoted = false
  before : ∀ c, (t.take i).getLast? = some c → isWordChar c = false
  after : ∀ c, (t.drop (i + keyword.length)).head? = some c → isWordChar c = false

theorem startsKeyword_iff {t keyword : Text} :
    t.startsKeyword keyword = true ↔
      upper (t.take keyword.length) = keyword.upper ∧
        ∀ c, (t.drop keyword.length).head? = some c → isWordChar c = false := by
  rw [startsKeyword, Bool.and_eq_true, startsWith, same_iff]
  refine and_congr_right (fun _ => ?_)
  cases (t.drop keyword.length).head? <;> simp

/-- Whether a word goes on behind a text is told by its last character. -/
theorem inWord_cons (w : Bool) (d : Char) (a : Text) :
    ((d :: a).getLast?.map isWordChar).getD w
      = (a.getLast?.map isWordChar).getD (isWordChar d) := by
  cases a with
  | nil => rfl
  | cons x xs =>
      rw [List.getLast?_cons_cons]
      simp [List.getLast?_cons]

/-- The scan finds the places at which the word before it has ended. -/
theorem mem_occurrencesFrom_iff {keyword : Text} {t : Text} {i j : Nat} {n : Nesting}
    {w : Bool} :
    j ∈ occurrencesFrom keyword i n w t ↔
      ∃ a c b, t = a ++ c :: b ∧ j = i + a.length ∧ (n.scan a).isQuoted = false ∧
        isWordChar c = true ∧ ((a.getLast?.map isWordChar).getD w) = false ∧
        startsKeyword (c :: b) keyword = true := by
  induction t generalizing i n w with
  | nil => simp [occurrencesFrom]
  | cons d ds ih =>
      -- the places further on, said of the text with `d` in front
      have hrest : (j ∈ occurrencesFrom keyword (i + 1) (n.next d) (isWordChar d) ds) ↔
          ∃ a c b, d :: ds = (d :: a) ++ c :: b ∧ j = i + (d :: a).length ∧
            (n.scan (d :: a)).isQuoted = false ∧ isWordChar c = true ∧
            (((d :: a).getLast?.map isWordChar).getD w) = false ∧
            startsKeyword (c :: b) keyword = true := by
        rw [ih]
        refine exists_congr fun a => exists_congr fun c => exists_congr fun b => ?_
        have hs : n.scan (d :: a) = (n.next d).scan a := rfl
        rw [inWord_cons, hs, List.cons_append, List.length_cons]
        constructor
        · rintro ⟨h1, h2, h3⟩
          exact ⟨by rw [h1], by omega, h3⟩
        · rintro ⟨h1, h2, h3⟩
          exact ⟨by simpa using h1, by omega, h3⟩
      rw [occurrencesFrom]
      constructor
      · intro h
        by_cases hhere : (!n.isQuoted && isWordChar d && !w && startsKeyword (d :: ds) keyword)
            = true
        · rw [if_pos hhere] at h
          rcases List.mem_cons.mp h with rfl | h
          · simp only [Bool.and_eq_true, Bool.not_eq_true'] at hhere
            obtain ⟨⟨⟨h1, h2⟩, h3⟩, h4⟩ := hhere
            exact ⟨[], d, ds, rfl, rfl, h1, h2, h3, h4⟩
          · obtain ⟨a, c, b, h⟩ := hrest.mp h
            exact ⟨d :: a, c, b, h⟩
        · rw [if_neg hhere] at h
          obtain ⟨a, c, b, h⟩ := hrest.mp h
          exact ⟨d :: a, c, b, h⟩
      · -- nothing stands before the place exactly if it is the first one
        rintro ⟨a, c, b, h1, h2, h3, h4, h5, h6⟩
        cases a with
        | nil =>
            obtain ⟨rfl, rfl⟩ : d = c ∧ ds = b := by simpa using h1
            have hq : n.isQuoted = false := h3
            have hw : w = false := h5
            rw [if_pos (by simp [hq, h4, hw, h6])]
            simp [h2]
        | cons x xs =>
            obtain ⟨rfl, hds⟩ : d = x ∧ ds = xs ++ c :: b := by simpa using h1
            have hmem := hrest.mpr ⟨xs, c, b, by rw [hds]; rfl, h2, h3, h4, h5, h6⟩
            split
            · exact List.mem_cons_of_mem _ hmem
            · exact hmem

/-- The keyword search finds all places where the keyword stands, and no others. `OccursAt` says
this without the scan: by what is spelled there, what stands on both sides, and the literals
before. -/
theorem mem_occurrences_iff {keyword t : Text} {i : Nat} :
    i ∈ t.occurrences keyword ↔ OccursAt keyword t i := by
  rw [occurrences, mem_occurrencesFrom_iff]
  constructor
  · rintro ⟨a, c, b, rfl, hi, hq, hc, hw, hk⟩
    obtain rfl : i = a.length := by omega
    obtain ⟨hs, hafter⟩ := startsKeyword_iff.mp hk
    refine ⟨?_, ?_, ?_, ?_, ?_⟩
    · rw [List.drop_left]; exact hs
    · exact ⟨c, by simp, hc⟩
    · rw [List.take_left]; exact hq
    · intro d hd
      rw [List.take_left] at hd
      simpa [hd] using hw
    · intro d hd
      rw [List.drop_append, List.drop_of_length_le (by omega), List.nil_append,
        Nat.add_sub_cancel_left] at hd
      exact hafter d hd
  · rintro ⟨hs, ⟨c, hhead, hc⟩, hq, hb, ha⟩
    -- the text from the place on starts with `c`, so the place is inside the text
    obtain ⟨b, hdrop⟩ : ∃ b, t.drop i = c :: b := by
      cases hd : t.drop i with
      | nil => rw [hd] at hhead; cases hhead
      | cons x xs =>
          rw [hd] at hhead
          obtain rfl : x = c := by simpa using hhead
          exact ⟨xs, rfl⟩
    have hlt : i < t.length := by
      by_contra hge
      rw [List.drop_of_length_le (by omega)] at hdrop
      cases hdrop
    refine ⟨t.take i, c, b, ?_, ?_, hq, hc, ?_, ?_⟩
    · rw [← hdrop, List.take_append_drop]
    · rw [List.length_take]; omega
    · cases hl : (t.take i).getLast? with
      | none => rfl
      | some d => simpa using hb d hl
    · rw [startsKeyword_iff, ← hdrop]
      refine ⟨hs, ?_⟩
      intro d hd
      rw [List.drop_drop] at hd
      exact ha d hd

/-- Places are found from left to right. -/
theorem pairwise_occurrences (t k : Text) : (t.occurrences k).Pairwise (· < ·) := by
  suffices h : ∀ i n w, (occurrencesFrom k i n w t).Pairwise (· < ·) from h 0 .start false
  induction t with
  | nil => exact fun _ _ _ => .nil
  | cons c cs ih =>
      intro i n w
      rw [occurrencesFrom]
      split
      · refine List.Pairwise.cons (fun j hj => ?_) (ih _ _ _)
        obtain ⟨a, -, -, -, hj', -⟩ := mem_occurrencesFrom_iff.mp hj
        omega
      · exact ih _ _ _

theorem occursAt_of_firstOccurrence? {keyword t : Text} {i : Nat}
    (h : t.firstOccurrence? keyword = some i) : OccursAt keyword t i :=
  mem_occurrences_iff.mp (List.mem_of_mem_head? h)

end SqlLayout.Text
