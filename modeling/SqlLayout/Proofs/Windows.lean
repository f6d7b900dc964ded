import SqlLayout.Proofs.Bracketed

set_option autoImplicit false

/-! # Window functions on one line

A text that is cut at a keyword, put on one line with spaces around the keyword, is cut at the
same place again (`aroundKeyword_spaced`): what stands before it did not hold the keyword, and a
space does not make one. So a window specification has the same parts (`windowLines_flat`), and
a window function is laid out as before (`relaid_windowFunction`).
-/

namespace SqlLayout

open Text

/-! ## The text before a keyword

That the text before the first occurrence holds none is not a matter of its characters alone: an
occurrence must not be followed by more of a word, and the cut takes away what followed. But that
was a blank, now trimmed, or the first letter of the keyword, and the keyword does not touch a
word on its left. -/

/-- Blanks do not end a literal, and do not start one. -/
theorem Nesting.isQuoted_scan_allBlank {n : Nesting} (h : n.quoting.Sound) {t : Text}
    (ht : AllBlank t) : (n.scan t).isQuoted = n.isQuoted := by
  have hread := (scan_eq_readAll h (e := some 'x') (Nesting.rests_some n 'x') t).2
  rw [hread, ht.marks_eq]
  rfl

/-- An occurrence ends inside the text. -/
theorem Text.OccursAt.length_le {k t : Text} {j : Nat} (h : OccursAt k t j) :
    j + k.length ≤ t.length := by
  obtain ⟨c, hc, -⟩ := h.head
  have hne : t.drop j ≠ [] := by
    intro hnil
    rw [hnil] at hc
    cases hc
  have hpos := List.length_pos_of_ne_nil hne
  have hlen := length_eq_of_upper_eq h.spelled
  rw [List.length_take, List.length_drop] at hlen
  rw [List.length_drop] at hpos
  omega

/-- An occurrence stays one when text follows that does not lengthen the word. -/
theorem Text.OccursAt.append {k t r : Text} {j : Nat} (h : OccursAt k t j)
    (hr : j + k.length = t.length → r.head?.any isWordChar = false) :
    OccursAt k (t ++ r) j := by
  have hle := h.length_le
  have hdrop : ∀ m, m ≤ t.length → (t ++ r).drop m = t.drop m ++ r :=
    fun m hm => List.drop_append_of_le_length hm
  have htake : (t ++ r).take j = t.take j := List.take_append_of_le_length (by omega)
  refine ⟨?_, ?_, ?_, ?_, ?_⟩
  · rw [hdrop j (by omega), List.take_append_of_le_length (by rw [List.length_drop]; omega)]
    exact h.spelled
  · obtain ⟨c, hc, hcw⟩ := h.head
    refine ⟨c, ?_, hcw⟩
    rw [hdrop j (by omega), List.head?_append, hc]
    rfl
  · rw [htake]
    exact h.unquoted
  · rw [htake]
    exact h.before
  · intro c hc
    rw [hdrop _ hle] at hc
    -- at the very end the word behind it is that of `r`
    by_cases hend : j + k.length = t.length
    · rw [hend, List.drop_length, List.nil_append] at hc
      have hword := hr hend
      rwa [hc] at hword
    · refine h.after c ?_
      rw [List.head?_append_of_ne_nil _ (by
        intro hnil
        have hlen := congrArg List.length hnil
        rw [List.length_drop, List.length_nil] at hlen
        omega)] at hc
      exact hc

/-- The first occurrence is the leftmost one: occurrences are listed from left to right. -/
theorem le_of_firstOccurrence? {k t : Text} {i j : Nat} (h : t.firstOccurrence? k = some i)
    (hj : OccursAt k t j) : i ≤ j := by
  have hmem := mem_occurrences_iff.mpr hj
  have hsorted := pairwise_occurrences t k
  unfold firstOccurrence? at h
  cases hocc : t.occurrences k with
  | nil => rw [hocc] at h; cases h
  | cons x xs =>
      rw [hocc] at h hmem hsorted
      obtain rfl : x = i := by simpa using h
      rcases List.mem_cons.mp hmem with h0 | h0
      · omega
      · exact Nat.le_of_lt ((List.pairwise_cons.mp hsorted).1 j h0)

/-- The text before the first occurrence of a keyword does not hold it. -/
theorem occurrences_before {k t : Text} {i : Nat} (hk : Layout.IsKeyword k)
    (h : t.firstOccurrence? k = some i) : occurrences (trimEnd (t.take i)) k = [] := by
  by_contra hne
  obtain ⟨j, hj⟩ := List.exists_mem_of_ne_nil _ hne
  have hoccurs := mem_occurrences_iff.mp hj
  have hfirst := occursAt_of_firstOccurrence? h
  obtain ⟨b, hb, htake⟩ := trimEnd_split (t.take i)
  generalize trimEnd (t.take i) = p at hoccurs htake
  have hpos := List.length_pos_of_ne_nil hk.ne_nil
  have hlen : p.length ≤ i := by
    have hl := congrArg List.length htake
    rw [List.length_take, List.length_append] at hl
    omega
  have hsplit : t = p ++ (b ++ t.drop i) := by
    rw [← List.append_assoc, ← htake, List.take_append_drop]
  have hwhole : OccursAt k t j := by
    rw [hsplit]
    refine hoccurs.append fun hend => ?_
    cases b with
    | cons c cs =>
        have hc : isBlank c = true := hb c (by simp)
        cases hw : isWordChar c with
        | false => simpa using hw
        | true => rw [not_isBlank_of (Or.inr (Or.inr (Or.inl hw)))] at hc; cases hc
    | nil =>
        -- then the word would go on into the keyword
        exfalso
        rw [List.append_nil] at htake
        have hspelled := hoccurs.spelled
        rw [List.take_of_length_le (by rw [List.length_drop]; omega)] at hspelled
        obtain ⟨c, hc, hedge⟩ := hk.edge_eq hspelled
        have hdrop : p.drop j ≠ [] := by
          intro hnil
          have hl := congrArg List.length hnil
          rw [List.length_drop, List.length_nil] at hl
          omega
        have hlast := hedge none
        rw [Layout.edge_eq_getLast? hdrop, List.getLast?_drop, if_neg (by omega)] at hlast
        have hbefore := hfirst.before c (by
          rw [htake]
          exact (Option.filter_eq_some_iff.mp hlast).1)
        rw [hbefore] at hc
        cases hc
  have hle := le_of_firstOccurrence? h hwhole
  have hlt := hoccurs.length_le
  omega

/-! ## Keywords between spaces

A keyword that is put behind a space could be found too early, starting in the text before the
space and reading over it into itself. That takes a keyword which, moved by some letters, agrees
with itself around a space; `Unlapped` rules this out and is decided for each keyword. -/

namespace Layout

/-- No beginning of the keyword, a space and the keyword again spell it. -/
def Unlapped (k : Text) : Prop :=
  ∀ p < k.length, k ≠ k.take p ++ ' ' :: k.take (k.length - p - 1)

/-- A keyword does not start before a space and end after it, in the next keyword. -/
theorem startsKeyword_space {k : Text} (hk : IsKeyword k) (hlap : Unlapped k) (u r : Text) :
    startsKeyword (u ++ ' ' :: (k ++ r)) k = startsKeyword u k := by
  rw [Bool.eq_iff_iff, startsKeyword_iff, startsKeyword_iff, hk.upper]
  by_cases hlen : k.length ≤ u.length
  · rw [List.take_append_of_le_length hlen, List.drop_append_of_le_length hlen]
    refine and_congr_right fun _ => ?_
    cases hd : u.drop k.length with
    | nil =>
        refine iff_of_true ?_ ?_
        · intro c hc
          obtain rfl : ' ' = c := by simpa using hc
          decide
        · intro c hc
          cases hc
    | cons c cs => simp
  · refine iff_of_false ?_ ?_
    · -- the keyword would reach over the space into the next one, and so overlap itself
      rintro ⟨hspelled, -⟩
      refine hlap u.length (by omega) ?_
      have htake : List.take k.length (u ++ ' ' :: (k ++ r))
          = u ++ ' ' :: k.take (k.length - u.length - 1) := by
        obtain ⟨n, hn⟩ : ∃ n, k.length = u.length + (n + 1) := ⟨k.length - u.length - 1, by omega⟩
        rw [hn, List.take_append, List.take_of_length_le (by omega)]
        simp only [Nat.add_sub_cancel_left, List.take_succ_cons]
        rw [List.take_append_of_le_length (by omega)]
        simp
      rw [htake, upper_append] at hspelled
      have hu : k.take u.length = upper u := by
        rw [← hspelled, List.take_append_of_le_length (by simp), List.take_of_length_le (by simp)]
      have hrest : upper (' ' :: k.take (k.length - u.length - 1))
          = ' ' :: k.take (k.length - u.length - 1) := by
        have hkeep : upper (k.take (k.length - u.length - 1)) = k.take (k.length - u.length - 1) :=
          calc upper (k.take (k.length - u.length - 1))
              = (upper k).take (k.length - u.length - 1) := List.map_take
            _ = k.take (k.length - u.length - 1) := by rw [hk.upper]
        show Char.toUpper ' ' :: upper (k.take (k.length - u.length - 1)) = _
        rw [hkeep]
        rfl
      rw [hu, ← hrest]
      exact hspelled.symm
    · rintro ⟨hspelled, -⟩
      have hl := congrArg List.length hspelled
      rw [length_upper, List.length_take] at hl
      omega

/-- In a line that starts with a text without the keyword, the keyword is found right behind that
text and its space. -/
theorem firstOccurrence?_spaced {k b r : Text} (hk : IsKeyword k) (hlap : Unlapped k)
    (hb : b.occurrences k = []) (hq : (Nesting.after b).isQuoted = false)
    (hr : ∀ c, r.head? = some c → isWordChar c = false) :
    firstOccurrence? (spaced b ++ (k ++ r)) k = some (spaced b).length := by
  obtain ⟨c, cs, rfl⟩ := List.exists_cons_of_ne_nil hk.ne_nil
  have hc : isWordChar c = true := hk.isWordChar_head rfl
  have hstart : startsKeyword (c :: cs ++ r) (c :: cs) = true := by
    rw [startsKeyword_iff, List.take_left, List.drop_left]
    exact ⟨rfl, hr⟩
  have hread : ∀ i n, n.isQuoted = false →
      (occurrencesFrom (c :: cs) i n false (c :: cs ++ r)).head? = some i := by
    intro i n hn
    rw [List.cons_append, occurrencesFrom_cons]
    simp only [hn, hc, Bool.not_false, Bool.and_self, Bool.true_and]
    rw [← List.cons_append, hstart]
    rfl
  unfold firstOccurrence? spaced
  by_cases hnil : b = []
  · rw [if_pos hnil]
    exact hread 0 .start rfl
  · -- neither the text nor its space holds the keyword, so the scan comes to it first
    rw [if_neg hnil, List.append_assoc, List.singleton_append, List.length_append]
    have hsplit := occurrencesFrom_append (k := c :: cs) (s := b) (r := ' ' :: (c :: cs ++ r))
      (fun x xs _ => startsKeyword_space hk hlap (x :: xs) r) 0 .start none
    have hnext : ((Nesting.after b).next ' ').isQuoted = false := by
      rw [Nesting.isQuoted_eq, Nesting.quoting_next]
      have hout : (Nesting.after b).quoting = .outside := by
        rw [Nesting.eq_of_unquoted hq]
      rw [hout]
      decide
    rw [occurrences, show (false : Bool) = (none : Option Char).any isWordChar from rfl, hsplit]
    have hb' : occurrencesFrom (c :: cs) 0 .start ((none : Option Char).any isWordChar) b = [] := hb
    rw [hb', occurrencesFrom_cons]
    simp only [show isWordChar ' ' = false from by decide, Bool.and_false, Bool.false_and,
      List.nil_append, Bool.false_eq_true, if_false]
    have hlast := hread (0 + b.length + 1) _ hnext
    rw [Nat.zero_add] at hlast ⊢
    exact hlast

/-- Trimming takes the space behind a text away again. -/
theorem trim_spaced {b : Text} (hb : Neat b) : trim (spaced b) = b := by
  unfold spaced
  split
  · rename_i hnil
    rw [hnil]
    rfl
  · simpa using hb.trim_blanks (a := []) (fun c hc => by cases hc) allBlank_space

theorem trimEnd_spaced {b : Text} (hb : Neat b) : trimEnd (spaced b) = b := by
  unfold spaced
  split
  · rename_i hnil
    rw [hnil]
    rfl
  · rw [trimEnd_append allBlank_space, trimEnd_of_last hb.last]

/-- Cutting a line at the keyword gives back the two texts it was put together from. Of the text
behind the keyword only the start matters: it may hold the keyword again. -/
theorem aroundKeyword_spaced {k b f : Text} (hk : IsKeyword k) (hlap : Unlapped k)
    (hb : b.occurrences k = []) (hq : (Nesting.after b).isQuoted = false) (hbn : Neat b)
    (hf : Neat f) : aroundKeyword (spaced b ++ headed k f) k = (b, some f) := by
  obtain ⟨r, hr, hheaded, htrim⟩ : ∃ r : Text, (∀ c, r.head? = some c → isWordChar c = false) ∧
      headed k f = k ++ r ∧ trim r = f := by
    unfold headed
    by_cases hnil : f = []
    · exact ⟨[], fun c hc => (by cases hc), by simp [hnil], hnil.symm⟩
    · refine ⟨' ' :: f, fun c hc => ?_, by simp [hnil], ?_⟩
      · obtain rfl : ' ' = c := by simpa using hc
        decide
      · simpa using hf.trim_blanks allBlank_space (b := []) (fun c hc => by cases hc)
  unfold aroundKeyword
  rw [hheaded, firstOccurrence?_spaced hk hlap hb hq hr]
  dsimp only
  rw [List.take_left, trim_spaced hbn, ← List.append_assoc, ← List.length_append, List.drop_left,
    htrim]

/-- A text that is not cut is left whole. -/
theorem aroundKeyword_none {t k b : Text} (ht : Neat t) (h : aroundKeyword t k = (b, none)) :
    b = t := by
  unfold aroundKeyword at h
  cases hfirst : t.firstOccurrence? k with
  | some i => simp [hfirst] at h
  | none =>
      simp only [hfirst, Prod.mk.injEq, and_true] at h
      rw [← h, ht.trim_eq]

/-- What stands before the first occurrence of a keyword. -/
theorem before_firstOccurrence? {t k : Text} {i : Nat} (hk : IsKeyword k) (ht : Neat t)
    (h : t.firstOccurrence? k = some i) :
    trim (t.take i) = trimEnd (t.take i) ∧ occurrences (trimEnd (t.take i)) k = [] ∧
      (Nesting.after (trimEnd (t.take i))).isQuoted = false ∧ Neat (trimEnd (t.take i)) := by
  have htidy : Tidy ([] ++ (t.take i ++ t.drop i)) := by simpa using ht.tidy
  -- the text starts with no blank, so trimming takes away only what stands at its end
  have hstart : trimStart (t.take i) = t.take i := by
    refine trimStart_of_head fun c hc => ht.head c ?_
    cases t with
    | nil => simp at hc
    | cons d ds =>
        cases i with
        | zero => simp at hc
        | succ i => simpa using hc
  have htrim : trim (t.take i) = trimEnd (t.take i) := by rw [trim, hstart]
  refine ⟨htrim, occurrences_before hk h, ?_, ?_⟩
  · -- the blanks at its end do not move the scan
    obtain ⟨c, hc, htake⟩ := trimEnd_split (t.take i)
    have hunq := (occursAt_of_firstOccurrence? h).unquoted
    rw [htake] at hunq
    generalize trimEnd (t.take i) = p at hunq
    rw [Nesting.after, Nesting.scan, List.foldl_append] at hunq
    rw [← hunq]
    exact (Nesting.isQuoted_scan_allBlank (Nesting.sound_scan (n := .start) trivial p) hc).symm
  · rw [← htrim]
    exact Neat.trim htidy.part

/-- The parts around a keyword, if it occurs. -/
theorem aroundKeyword_some {t k b f : Text} (hk : IsKeyword k) (ht : Neat t)
    (h : aroundKeyword t k = (b, some f)) :
    b.occurrences k = [] ∧ (Nesting.after b).isQuoted = false ∧ Neat b ∧ Neat f := by
  unfold aroundKeyword at h
  cases hfirst : t.firstOccurrence? k with
  | none => simp [hfirst] at h
  | some i =>
      simp only [hfirst, Prod.mk.injEq, Option.some.injEq] at h
      obtain ⟨rfl, rfl⟩ := h
      obtain ⟨htrim, hocc, hq, hneat⟩ := before_firstOccurrence? hk ht hfirst
      have hright : Tidy (t.take (i + k.length) ++ (t.drop (i + k.length) ++ [])) := by
        simpa using ht.tidy
      rw [htrim]
      exact ⟨hocc, hq, hneat, Neat.trim hright.part⟩

/-! ## Window specifications

A specification is cut at its keywords in turn, each time in what the last cut left on its
right. The line of all parts has the same nesting (`partsText_cons`), so the argument is an
induction over the keywords. -/

/-- Parts of a specification on one line. -/
def partsText (before : Text) (parts : List Text) : Text :=
  flat ((consPiece before parts).map fun p => ⟨0, p⟩)

theorem neat_partsText (before : Text) (parts : List Text) : Neat (partsText before parts) :=
  neat_flat _

/-- Without parts, the line is the text before them. -/
theorem partsText_nil {before : Text} (hb : Neat before) : partsText before [] = before := by
  unfold partsText consPiece
  by_cases hnil : before = []
  · simp [hnil]
  · simp only [List.isEmpty_iff, hnil, if_false, List.map_cons, List.map_nil]
    rw [flat_singleton]
    exact hb.normalize_eq

/-- The line of a text and its parts is the text, the first keyword, and the line of what belongs
to that keyword with the other parts. This is the shape that `aroundKeyword_spaced` cuts. -/
theorem partsText_cons {before k b : Text} (hb : Neat before) (hk : Neat k) (hkne : k ≠ [])
    (hbody : Neat b) (ps : List Text) :
    partsText before (headed k b :: ps) = spaced before ++ headed k (partsText b ps) := by
  have hheaded : Neat (headed k b) := hk.headed hkne hbody
  have hne : headed k b ≠ [] := by
    unfold headed
    split <;> simp [hkne]
  -- the keyword and what belongs to it, which may be nothing
  have hrest : flat ((headed k b :: ps).map fun p => (⟨0, p⟩ : Line))
      = headed k (partsText b ps) := by
    rw [List.map_cons, flat_cons_of_ne hheaded hne]
    unfold partsText consPiece
    by_cases hnil : b = []
    · simp [hnil, headed]
    · simp only [List.isEmpty_iff, hnil, if_false, List.map_cons]
      rw [flat_cons_of_ne hbody hnil]
      generalize flat (ps.map fun p => (⟨0, p⟩ : Line)) = f
      by_cases hf : f = [] <;> simp [headed, hnil, hf]
  unfold partsText consPiece spaced
  by_cases hnil : before = []
  · simp only [hnil, List.isEmpty_nil, if_true, List.nil_append]
    exact hrest
  · simp only [List.isEmpty_iff, hnil, if_false, List.map_cons]
    rw [flat_cons_of_ne hb hnil, ← List.map_cons, hrest]
    have hne' : headed k (partsText b ps) ≠ [] := by
      unfold headed
      split <;> simp [hkne]
    rw [headed, if_neg (by simpa using hne')]
    simp [partsText, consPiece]

/-- What the parts of a specification have in common. -/
structure Searched (k : Text) : Prop where
  keyword : IsKeyword k
  neat : Neat k
  unlapped : Unlapped k

/-- Cutting a neat text at keywords leaves neat texts. -/
theorem neat_cutKeywords {ks : List Text} (hks : ∀ k ∈ ks, Searched k) {t : Text}
    (ht : Neat t) : Neat (cutKeywords ks t).1 ∧ ∀ p ∈ (cutKeywords ks t).2, Neat p := by
  induction ks generalizing t with
  | nil => exact ⟨ht, fun p hp => by cases hp⟩
  | cons k ks ih =>
      have hk := hks k (by simp)
      rw [cutKeywords]
      split
      · rename_i before hnone
        refine ⟨?_, fun p hp => by cases hp⟩
        rw [aroundKeyword_none ht hnone]
        exact ht
      · rename_i before after hsome
        obtain ⟨-, -, hb, ha⟩ := aroundKeyword_some hk.keyword ht hsome
        obtain ⟨h1, h2⟩ := ih (fun k hk => hks k (List.mem_cons_of_mem _ hk)) ha
        refine ⟨hb, fun p hp => ?_⟩
        rcases List.mem_cons.mp hp with rfl | hp
        · exact hk.neat.headed hk.keyword.ne_nil h1
        · exact h2 p hp

/-- A text that is cut at keywords, put on one line, is cut into the same parts again. -/
theorem cutKeywords_partsText {ks : List Text} (hks : ∀ k ∈ ks, Searched k) {t : Text}
    (ht : Neat t) :
    cutKeywords ks (partsText (cutKeywords ks t).1 (cutKeywords ks t).2) = cutKeywords ks t := by
  induction ks generalizing t with
  | nil =>
      have hcut : cutKeywords [] t = (t, []) := rfl
      rw [hcut, partsText_nil ht, hcut]
  | cons k ks ih =>
      have hk := hks k (by simp)
      have hks' : ∀ k ∈ ks, Searched k := fun k hk => hks k (List.mem_cons_of_mem _ hk)
      cases haround : aroundKeyword t k with
      | mk before after =>
          cases after with
          | none =>
              obtain rfl := aroundKeyword_none ht haround
              have hcut : cutKeywords (k :: ks) before = (before, []) := by
                rw [cutKeywords, haround]
              rw [hcut, partsText_nil ht, hcut]
          | some after =>
              obtain ⟨hocc, hq, hb, ha⟩ := aroundKeyword_some hk.keyword ht haround
              have hcut : cutKeywords (k :: ks) t = (before,
                  headed k (cutKeywords ks after).1 :: (cutKeywords ks after).2) := by
                rw [cutKeywords, haround]
              rw [hcut]
              dsimp only
              rw [partsText_cons hb hk.neat hk.keyword.ne_nil (neat_cutKeywords hks' ha).1,
                cutKeywords,
                aroundKeyword_spaced hk.keyword hk.unlapped hocc hq hb (neat_partsText _ _)]
              dsimp only
              rw [ih hks' ha]

/-- The keywords of a window specification qualify: none of them overlaps itself across a space. -/
theorem searched_windowKeywords : ∀ k ∈ windowKeywords, Searched k := by
  intro k hk
  refine ⟨windowKeywords_isKeyword k hk, ?_, ?_⟩
  · have hneat : k.normalize = k := by
      revert k
      decide
    rw [← hneat]
    exact Neat.normalize k
  · revert k
    unfold Unlapped
    decide

/-- The lines of a specification are its cuts at `PARTITION BY`, `ORDER BY` and `ROWS`, each looked
for behind the one before it. -/
theorem windowLines_eq {spec : Text} (h : Neat spec) :
    windowLines spec = consPiece (cutKeywords windowKeywords spec).1
      (cutKeywords windowKeywords spec).2 := by
  rw [windowKeywords, cutKeywords]
  cases haround : aroundKeyword spec Keyword.PARTITION_BY with
  | mk before after =>
      cases after with
      | none => simp [windowLines, consPiece, haround, aroundKeyword_none h haround]
      | some partition => simp [windowLines, consPiece, haround, partitionLines_eq]

theorem flat_map_level (level : Nat) (texts : List Text) :
    flat (texts.map fun t => ⟨level, t⟩) = flat (texts.map fun t => ⟨0, t⟩) := by
  unfold flat
  rw [List.flatMap_map, List.flatMap_map]

/-- The parts of a window specification are found again on one line. -/
theorem windowLines_flat {spec : Text} (h : Neat spec) (level : Nat) :
    windowLines (flat ((windowLines spec).map fun p => ⟨level, p⟩)) = windowLines spec := by
  have hflat : flat ((windowLines spec).map fun p => (⟨level, p⟩ : Line))
      = partsText (cutKeywords windowKeywords spec).1 (cutKeywords windowKeywords spec).2 := by
    rw [flat_map_level, windowLines_eq h, partsText]
  rw [hflat, windowLines_eq (neat_partsText _ _),
    cutKeywords_partsText searched_windowKeywords h, windowLines_eq h]

/-- The lines of a window specification are neat. -/
theorem neat_windowLines {spec : Text} (h : Neat spec) : ∀ p ∈ windowLines spec, Neat p := by
  obtain ⟨h1, h2⟩ := neat_cutKeywords searched_windowKeywords h
  rw [windowLines_eq h]
  unfold consPiece
  intro p hp
  split at hp
  · exact h2 p hp
  · rcases List.mem_cons.mp hp with rfl | hp
    · exact h1
    · exact h2 p hp

/-! ## Window functions

What stands before `OVER` and between its parentheses is read back from the line by the two
sections above and by `enclosed?_bracketed`. -/

/-- What the layout of a window function is, when `OVER` has its two parentheses. -/
theorem windowFunction_eq_ok {column spec after rest : Text} {i : Nat}
    (hfirst : column.firstOccurrence? Keyword.OVER = some i)
    (hrest : trimStart (column.drop (i + Keyword.OVER.length)) = '(' :: rest)
    (henc : column.enclosed? (column.length - (rest.length + 1)) = some (spec, after))
    (suffix : Text) (level : Nat) :
    windowFunction column suffix level
      = .ok (bracketBlock level (trimEnd (column.take i)) Keyword.OVER
        ((windowLines spec).map fun p => ⟨level + 1, p⟩) after suffix) := by
  unfold windowFunction
  simp only [hfirst, hrest, List.head?_cons, beq_self_eq_true, if_true, List.length_cons, henc]
  rfl

/-- A column is laid out as a window function in one of two ways: on one line, because `OVER` is
missing or no parenthesis follows it, or with the specification in lines of its own. -/
theorem windowFunction_split_ok {column suffix : Text} {level : Nat} {block : Block}
    (h : windowFunction column suffix level = .ok block) :
    (∀ s l, windowFunction column s l = .ok (plain column s l)) ∨
    ∃ i rest spec after, column.firstOccurrence? Keyword.OVER = some i ∧
      trimStart (column.drop (i + Keyword.OVER.length)) = '(' :: rest ∧
      column.enclosed? (column.length - (rest.length + 1)) = some (spec, after) := by
  cases hfirst : column.firstOccurrence? Keyword.OVER with
  | none =>
      left
      intro s l
      simp [windowFunction, hfirst]
  | some i =>
      cases hrest : trimStart (column.drop (i + Keyword.OVER.length)) with
      | nil =>
          left
          intro s l
          simp [windowFunction, hfirst, hrest]
      | cons c rest =>
          by_cases hc : c = '('
          · right
            subst hc
            cases henc : column.enclosed? (column.length - (rest.length + 1)) with
            | none => simp [windowFunction, hfirst, hrest, henc] at h
            | some pair => exact ⟨i, rest, pair.1, pair.2, rfl, hrest, henc⟩
          · left
            intro s l
            simp [windowFunction, hfirst, hrest, hc]

/-- An item on a line of its own is found again, for the line is the item. -/
theorem relaid_plain {lay : Text → Text → Layout} {item suffix : Text} {level : Nat}
    (hn : Neat item) (hne : item ≠ [] ∨ suffix ≠ ' ' :: Keyword.AND) (hs : IsSuffix suffix)
    (hlay : ∀ s, lay item s = .ok (plain item s level)) :
    Relaid lay item suffix (plain item suffix level) := by
  -- an empty item has no suffix that starts with a space
  have hneat : Neat (item ++ suffix) := by
    by_cases hnil : item = []
    · subst hnil
      rcases hs with rfl | rfl | rfl
      · exact Neat.nil
      · exact Neat.of_unblank (by decide)
      · simp at hne
    · exact Neat.suffixed hn hnil hs
  have htext : onOneLine (lay item []) = item := by
    rw [hlay]
    show flat [_] = item
    rw [flat_singleton]
    dsimp only
    rw [List.append_nil, hn.normalize_eq]
  refine ⟨?_, ?_, ?_⟩
  · intro l hl
    obtain rfl := List.mem_singleton.mp hl
    exact hneat
  · rw [htext]
    show flat [_] = _
    rw [flat_singleton]
    exact hneat.normalize_eq
  · rw [htext]
    exact hlay suffix

/-- In a bracketed text, `OVER` and its parenthesis are found behind what stands before them. -/
theorem windowFunction_bracketed {b f after : Text} (hf : Neat f) (hinner : Encloses f)
    (hafter : Neat after) (hb : Neat b) (hocc : b.occurrences Keyword.OVER = [])
    (hq : (Nesting.after b).isQuoted = false) (suffix : Text) (level : Nat) :
    windowFunction (bracketed b Keyword.OVER f after) suffix level
      = .ok (bracketBlock level b Keyword.OVER ((windowLines f).map fun p => ⟨level + 1, p⟩) after
        suffix) := by
  have henc := enclosed?_bracketed hf hinner hafter b Keyword.OVER
  have htext : bracketed b Keyword.OVER f after = spaced b ++ (Keyword.OVER ++
      ([' '] ++ '(' :: (innerText f ++ ')' :: afterText after))) := by
    simp [bracketed, openText, spaced, Keyword.OVER]
  have hfirst : firstOccurrence? (bracketed b Keyword.OVER f after) Keyword.OVER
      = some (spaced b).length := by
    rw [htext]
    refine firstOccurrence?_spaced over_isKeyword ?_ hocc hq ?_
    · unfold Unlapped
      decide
    · intro c hc
      obtain rfl : ' ' = c := by simpa using hc
      decide
  -- behind `OVER` and one space comes the parenthesis
  have hrest : trimStart ((bracketed b Keyword.OVER f after).drop
      ((spaced b).length + Keyword.OVER.length))
        = '(' :: (innerText f ++ ')' :: afterText after) := by
    rw [htext, ← List.append_assoc, ← List.length_append, List.drop_left,
      trimStart_append allBlank_space]
    refine trimStart_of_head fun c hc => ?_
    obtain rfl : '(' = c := by simpa using hc
    decide
  -- the parenthesis is counted from the end of the text
  have hlen : (bracketed b Keyword.OVER f after).length
      - ((innerText f ++ ')' :: afterText after).length + 1)
        = (openText b Keyword.OVER).length := by
    rw [bracketed, List.length_append, List.length_cons]
    omega
  rw [← hlen] at henc
  have hagain := windowFunction_eq_ok hfirst hrest henc suffix level
  rwa [htext, List.take_left, trimEnd_spaced hb, ← htext] at hagain

/-- A window function is laid out as before once its lines are put on one line. The line holds
`OVER` and its parenthesis where they were (`windowFunction_bracketed`), and between the
parentheses the same specification (`windowLines_flat`). -/
theorem relaid_windowFunction {column suffix : Text} {level : Nat} {block : Block}
    (hn : Neat column) (hne : column ≠ []) (hs : IsSuffix suffix)
    (h : windowFunction column suffix level = .ok block) :
    Relaid (fun t s => windowFunction t s level) column suffix block := by
  rcases windowFunction_split_ok h with hplain | ⟨i, rest, spec, after, hfirst, hrest, henc⟩
  · obtain rfl : plain column suffix level = block := by
      rw [hplain suffix level] at h
      exact Except.ok.inj h
    exact relaid_plain hn (Or.inl hne) hs fun s => hplain s level
  · have hlay := windowFunction_eq_ok hfirst hrest henc
    obtain rfl : bracketBlock level (trimEnd (column.take i)) Keyword.OVER
        ((windowLines spec).map fun p => ⟨level + 1, p⟩) after suffix = block := by
      rw [hlay suffix level] at h
      exact Except.ok.inj h
    obtain ⟨hspec, hafter⟩ := neat_enclosed hn.tidy henc
    obtain ⟨-, hocc, hq, hb⟩ := before_firstOccurrence? over_isKeyword hn hfirst
    -- of the text in front, only that it has no `OVER` outside literals matters
    generalize trimEnd (column.take i) = b at hocc hq hb hlay
    have hOVER : Neat Keyword.OVER := Neat.of_unblank (by decide)
    have hinner : Encloses (flat ((windowLines spec).map fun p => ⟨level + 1, p⟩)) := by
      obtain ⟨pre, u, v, -, -, rfl, -, hu⟩ := enclosed?_split henc
      refine encloses_flat hu fun e he => ?_
      rw [lineMarks_map, marks_windowLines]
      exact ⟨_, spread_cutKeywords windowKeywords_isKeyword Track.clear_none (he.breakable _)⟩
    refine relaid_bracket hb hOVER hafter hs ?_ (hlay [] level) ?_
    · intro l hl
      obtain ⟨p, hp, rfl⟩ := List.mem_map.mp hl
      exact neat_windowLines hspec p hp
    rw [windowFunction_bracketed (neat_flat _) hinner hafter hb hocc hq, windowLines_flat hspec]

end Layout

end SqlLayout
