import SqlLayout.Proofs.ByteCuts

set_option autoImplicit false

/-! # Leftmost splits

`splitOn` cuts a text at the leftmost occurrences of a separator that do not overlap. What that
means is said here without a scan: `LeftmostSplit` puts the pieces and the separators together to
the text again, and demands of each cut that the separator does not stand further to the left in
what is then left of the text. There is one such split only (`LeftmostSplit.eq_splitOn`).

A search through bytes in upper case reports offsets (`Bytewise.Leftmost`). The parts of the text
between them, in its own spelling, are the same pieces (`splitOn_leftmost`).
-/

namespace SqlLayout

open Text Layout

namespace Text

/-! ## Occurrences -/

/-- The separator stands at an index, up to ASCII case. -/
def StandsAt (sep t : Text) (i : Nat) : Prop :=
  ∃ a s b, t = a ++ (s ++ b) ∧ a.length = i ∧ s.upper = sep.upper

/-- The separator stands at an index and at none before it. -/
def FirstAt (sep t : Text) (i : Nat) : Prop :=
  StandsAt sep t i ∧ ∀ j < i, ¬ StandsAt sep t j

theorem standsAt_iff {sep : Text} (hsep : sep ≠ []) {t : Text} {i : Nat} :
    StandsAt sep t i ↔ startsWith (t.drop i) sep = true := by
  constructor
  · rintro ⟨a, s, b, rfl, rfl, hs⟩
    rw [List.drop_left]
    exact startsWith_append hs b
  · intro h
    obtain ⟨s, b, hsplit, hs⟩ := startsWith_split h
    have hle : i + sep.length ≤ t.length := le_length_of_spelled hsep (same_iff.mp h)
    refine ⟨t.take i, s, b, ?_, List.length_take_of_le (by omega), hs⟩
    rw [← hsplit, List.take_append_drop]

theorem find?_eq_some_iff_firstAt {sep : Text} (hsep : sep ≠ []) {t : Text} {i : Nat} :
    find? sep t = some i ↔ FirstAt sep t i := by
  simp only [find?_eq_some_iff hsep, FirstAt, standsAt_iff hsep, Bool.not_eq_true]

theorem find?_eq_none_iff_standsAt {sep : Text} (hsep : sep ≠ []) {t : Text} :
    find? sep t = none ↔ ∀ i, ¬ StandsAt sep t i := by
  simp only [find?_eq_none_iff hsep, standsAt_iff hsep, Bool.not_eq_true]

/-! ## Pieces and separators -/

/-- The pieces with the separators between neighbours. -/
def weave : List Text → List Text → Text
  | [], _ => []
  | p :: _, [] => p
  | p :: ps, s :: seps => p ++ (s ++ weave ps seps)

/-- The text begins with its first piece. -/
theorem exists_weave_eq (p : Text) (ps seps : List Text) : ∃ r, weave (p :: ps) seps = p ++ r := by
  cases seps with
  | nil => exact ⟨[], (List.append_nil p).symm⟩
  | cons s seps => exact ⟨_, rfl⟩

/-- `ps` are the pieces of a text and `seps` what stands between them. At each cut, what is left of
the text has the separator behind its first piece and nowhere before. -/
structure LeftmostSplit (sep t : Text) (ps seps : List Text) : Prop where
  whole : t = weave ps seps
  count : ps.length = seps.length + 1
  spelled : ∀ s ∈ seps, s.upper = sep.upper
  first : ∀ i p, i < seps.length → ps[i]? = some p →
    FirstAt sep (weave (ps.drop i) (seps.drop i)) p.length
  last : ∀ p, ps.getLast? = some p → ∀ i, ¬ StandsAt sep p i

namespace LeftmostSplit

theorem single {sep p : Text} (h : ∀ i, ¬ StandsAt sep p i) : LeftmostSplit sep p [p] [] where
  whole := rfl
  count := rfl
  spelled := by simp
  first := by simp
  last := by
    intro q hq
    obtain rfl : p = q := by simpa using hq
    exact h

theorem cons {sep p s r : Text} {ps seps : List Text} (hs : s.upper = sep.upper)
    (hfirst : FirstAt sep (p ++ (s ++ r)) p.length) (h : LeftmostSplit sep r ps seps) :
    LeftmostSplit sep (p ++ (s ++ r)) (p :: ps) (s :: seps) where
  whole := by rw [weave, ← h.whole]
  count := by rw [List.length_cons, List.length_cons, h.count]
  spelled := List.forall_mem_cons.mpr ⟨hs, h.spelled⟩
  first := by
    intro i q hi hq
    cases i with
    | zero =>
        obtain rfl : p = q := by simpa using hq
        rw [List.drop_zero, List.drop_zero, weave, ← h.whole]
        exact hfirst
    | succ i => exact h.first i q (by simpa using hi) (by simpa using hq)
  last := by
    intro q hq
    have hne : ps ≠ [] := List.ne_nil_of_length_pos (by rw [h.count]; omega)
    rw [List.getLast?_cons_of_ne_nil hne] at hq
    exact h.last q hq

/-- Behind the first cut there is such a split again. -/
theorem tail {sep t p s : Text} {ps seps : List Text}
    (h : LeftmostSplit sep t (p :: ps) (s :: seps)) :
    LeftmostSplit sep (weave ps seps) ps seps where
  whole := rfl
  count := by simpa using h.count
  spelled := fun x hx => h.spelled x (List.mem_cons_of_mem s hx)
  first := fun i q hi hq => h.first (i + 1) q (by simpa using hi) (by simpa using hq)
  last := by
    intro q hq
    have hcount : ps.length = seps.length + 1 := by simpa using h.count
    have hne : ps ≠ [] := List.ne_nil_of_length_pos (by omega)
    exact h.last q (by rwa [List.getLast?_cons_of_ne_nil hne])

end LeftmostSplit

/-- The first cut is at the first occurrence, and the split goes on behind it. -/
theorem splitOn_append {sep : Text} (hsep : sep ≠ []) {p s r : Text} (hs : s.upper = sep.upper)
    (h : FirstAt sep (p ++ (s ++ r)) p.length) :
    splitOn (p ++ (s ++ r)) sep = p :: splitOn r sep := by
  have hlength : s.length = sep.length := length_eq_of_upper_eq hs
  have hbehind : (p ++ (s ++ r)).drop (p.length + sep.length) = r := by
    rw [← hlength, ← List.drop_drop, List.drop_left, List.drop_left]
  rw [splitOn_of_find? hsep ((find?_eq_some_iff_firstAt hsep).mpr h), List.take_left, hbehind]

/-- The pieces of `splitOn` make a leftmost split. The induction is on the length of the text: each
cut takes a separator away. -/
theorem exists_leftmostSplit {sep : Text} (hsep : sep ≠ []) (t : Text) :
    ∃ seps, LeftmostSplit sep t (t.splitOn sep) seps := by
  induction hn : t.length using Nat.strong_induction_on generalizing t with
  | _ n ih =>
      cases hfind : find? sep t with
      | none =>
          rw [splitOn_of_find?_eq_none hsep hfind]
          exact ⟨[], .single ((find?_eq_none_iff_standsAt hsep).mp hfind)⟩
      | some i =>
          have hfirst := (find?_eq_some_iff_firstAt hsep).mp hfind
          obtain ⟨p, s, r, rfl, rfl, hs⟩ := hfirst.1
          have hshorter : r.length < n := by
            have hpos := List.length_pos_of_ne_nil hsep
            rw [← hn, List.length_append, List.length_append, length_eq_of_upper_eq hs]
            omega
          obtain ⟨seps, hrest⟩ := ih r.length hshorter r rfl
          rw [splitOn_append hsep hs hfirst]
          exact ⟨s :: seps, hrest.cons hs hfirst⟩

/-- No other pieces make a leftmost split. -/
theorem LeftmostSplit.eq_splitOn {sep : Text} (hsep : sep ≠ []) {t : Text} {ps seps : List Text}
    (h : LeftmostSplit sep t ps seps) : ps = t.splitOn sep := by
  induction seps generalizing t ps with
  | nil =>
      obtain ⟨p, rfl⟩ := List.length_eq_one_iff.mp h.count
      obtain rfl : t = p := h.whole
      have hnone : find? sep t = none := (find?_eq_none_iff_standsAt hsep).mpr (h.last t rfl)
      rw [splitOn_of_find?_eq_none hsep hnone]
  | cons s seps ih =>
      obtain ⟨p, ps, rfl⟩ := List.exists_cons_of_length_eq_add_one h.count
      have hs : s.upper = sep.upper := h.spelled s List.mem_cons_self
      have hfirst : FirstAt sep (p ++ (s ++ weave ps seps)) p.length :=
        h.first 0 p (Nat.succ_pos _) rfl
      have hrest : ps = splitOn (weave ps seps) sep := ih h.tail
      rw [h.whole, weave, splitOn_append hsep hs hfirst, ← hrest]

/-- The search in what is left of the text finds the next cut, by characters and by bytes. -/
theorem LeftmostSplit.find?_eq {sep : Text} (hsep : sep ≠ []) {t : Text} {ps seps : List Text}
    (h : LeftmostSplit sep t ps seps) {i : Nat} {p : Text} (hi : i < seps.length)
    (hp : ps[i]? = some p) :
    find? sep (weave (ps.drop i) (seps.drop i)) = some p.length ∧
      find? sep.octets (weave (ps.drop i) (seps.drop i)).octets = some p.byteLength := by
  have hfind : find? sep (weave (ps.drop i) (seps.drop i)) = some p.length :=
    (find?_eq_some_iff_firstAt hsep).mpr (h.first i p hi hp)
  refine ⟨hfind, ?_⟩
  have hdrop : ps.drop i = p :: ps.drop (i + 1) := by
    obtain ⟨hlt, rfl⟩ := List.getElem?_eq_some_iff.mp hp
    exact List.drop_eq_getElem_cons hlt
  obtain ⟨r, hr⟩ := exists_weave_eq p (ps.drop (i + 1)) (seps.drop i)
  rw [← hdrop] at hr
  rw [find?_octets hsep, hfind, Option.map_some, hr, byteOffset_append, length_octets]

end Text

/-! ## Searching bytes in upper case -/

namespace Bytewise

/-- The offsets, from `start` on, of the leftmost occurrences of `needle` that do not overlap. -/
inductive Leftmost (needle hay : Text) : Nat → List Nat → Prop
  | none {start : Nat} : (∀ j, start ≤ j → ¬ needle <+: hay.drop j) → Leftmost needle hay start []
  | found {start i : Nat} {rest : List Nat} : start ≤ i → needle <+: hay.drop i →
      (∀ j, start ≤ j → j < i → ¬ needle <+: hay.drop j) →
      Leftmost needle hay (i + needle.length) rest → Leftmost needle hay start (i :: rest)

/-- A search can report only one list of offsets. -/
theorem Leftmost.unique {needle hay : Text} {start : Nat} {is js : List Nat}
    (hi : Leftmost needle hay start is) (hj : Leftmost needle hay start js) : is = js := by
  induction hi generalizing js with
  | none hfree =>
      cases hj with
      | none => rfl
      | found hle hhere => exact absurd hhere (hfree _ hle)
  | @found start i _ hle hhere hbefore _ ih =>
      cases hj with
      | none hfree => exact absurd hhere (hfree _ hle)
      | @found _ j _ hle' hhere' hbefore' hrest =>
          -- neither of the two first offsets comes before the other
          rcases Nat.lt_trichotomy i j with hlt | rfl | hlt
          · exact absurd hhere (hbefore' i hle hlt)
          · rw [ih hrest]
          · exact absurd hhere' (hbefore j hle' hlt)

theorem matchesFrom_of_find?_eq_none {sep x : Text} (hsep : sep ≠ []) (h : find? sep x = none)
    (i : Nat) : matchesFrom sep i 0 x = [] := by
  have hfree := (find?_eq_none_iff hsep).mp h
  calc matchesFrom sep i 0 x = matchesFrom sep i 0 (x ++ []) := by rw [List.append_nil]
    _ = matchesFrom sep (i + x.length) 0 [] :=
        matchesFrom_pass (fun b _ => by rw [List.append_nil]; exact hfree b) i
    _ = [] := rfl

/-- The scan passes on to the first occurrence and goes on behind it. -/
theorem matchesFrom_of_find? {sep x : Text} (hsep : sep ≠ []) {k : Nat} (h : find? sep x = some k)
    (i : Nat) :
    matchesFrom sep i 0 x =
      (i + k) :: matchesFrom sep (i + k + sep.length) 0 (x.drop (k + sep.length)) := by
  obtain ⟨hhere, hbefore⟩ := (find?_eq_some_iff hsep).mp h
  have hle : k + sep.length ≤ x.length := le_length_of_spelled hsep (same_iff.mp hhere)
  have hlength : (x.take k).length = k := List.length_take_of_le (by omega)
  have hfree : ∀ b < (x.take k).length, startsWith ((x.take k ++ x.drop k).drop b) sep = false := by
    intro b hb
    rw [List.take_append_drop]
    exact hbefore b (by omega)
  calc matchesFrom sep i 0 x
      = matchesFrom sep i 0 (x.take k ++ x.drop k) := by rw [List.take_append_drop]
    _ = matchesFrom sep (i + k) 0 (x.drop k) := by rw [matchesFrom_pass hfree, hlength]
    _ = _ := by rw [matchesFrom_found hsep hhere, List.drop_drop]

theorem isPrefix_drop_iff {sep x : Text} {i k : Nat} :
    sep.upper <+: x.upper.drop (i + k) ↔ startsWith ((x.drop i).drop k) sep = true := by
  rw [startsWith_iff_isPrefix, List.drop_drop, drop_upper]

/-- The scan up to case reports what a search in upper case does. -/
theorem leftmost_matchesFrom {sep : Text} (hsep : sep ≠ []) (x : Text) (start : Nat) :
    Leftmost sep.upper x.upper start (matchesFrom sep start 0 (x.drop start)) := by
  induction hn : x.length - start using Nat.strong_induction_on generalizing start with
  | _ n ih =>
      cases hfind : find? sep (x.drop start) with
      | none =>
          rw [matchesFrom_of_find?_eq_none hsep hfind]
          refine .none fun j hj => ?_
          obtain ⟨k, rfl⟩ := Nat.exists_eq_add_of_le hj
          rw [isPrefix_drop_iff, (find?_eq_none_iff hsep).mp hfind k]
          exact Bool.false_ne_true
      | some k =>
          -- `k` is counted from `start`, and the next search starts behind the separator there
          obtain ⟨hhere, hbefore⟩ := (find?_eq_some_iff hsep).mp hfind
          have hshorter : x.length - (start + k + sep.length) < n := by
            have hle := le_length_of_spelled hsep (same_iff.mp hhere)
            have hpos := List.length_pos_of_ne_nil hsep
            rw [List.length_drop] at hle
            omega
          rw [matchesFrom_of_find? hsep hfind, List.drop_drop, ← Nat.add_assoc]
          refine .found (Nat.le_add_right start k) (isPrefix_drop_iff.mpr hhere)
            (fun j hj hlt => ?_) ?_
          · obtain ⟨m, rfl⟩ := Nat.exists_eq_add_of_le hj
            rw [isPrefix_drop_iff, hbefore m (by omega)]
            exact Bool.false_ne_true
          · rw [length_upper]
            exact ih _ hshorter _ rfl

/-- What a search for a separator in the bytes of a text reports, both in upper case. -/
theorem leftmost_matches {sep : Text} (hsep : sep ≠ []) (t : Text) :
    Leftmost sep.upper.octets t.upper.octets 0 (matchesFrom sep.octets 0 0 t.octets) := by
  rw [octets_upper, octets_upper]
  exact leftmost_matchesFrom (octets_ne_nil_of_ne_nil hsep) t.octets 0

/-- Whatever leftmost offsets a search in upper case reports, they cut the text into its pieces. -/
theorem piecesFrom?_of_leftmost {sep : Text} (hsep : sep ≠ []) {t : Text} {offsets : List Nat}
    (h : Leftmost sep.upper.octets t.upper.octets 0 offsets) :
    piecesFrom? t sep.byteLength 0 offsets = some (t.splitOn sep) := by
  rw [h.unique (leftmost_matches hsep t)]
  exact split?_eq hsep t

end Bytewise

/-! ## The split -/

namespace Text

/-- The pieces of a text are those of its leftmost split, and of no other: with the separators, in
the spelling they have there, they are the text; in what is left of the text at each cut, the search
finds the separator just behind the next piece; and it finds none in the last piece. The loop over
the bytes cuts at the offsets that a search in upper case reports, and gets these pieces. The
conditions of a normal text between ` AND ` are normal texts that are not empty. -/
theorem splitOn_leftmost {sep : Text} (hsep : sep ≠ []) (t : Text) :
    (∃ seps, LeftmostSplit sep t (t.splitOn sep) seps ∧
      (∀ i p, i < seps.length → (t.splitOn sep)[i]? = some p →
        find? sep (weave ((t.splitOn sep).drop i) (seps.drop i)) = some p.length ∧
        find? sep.octets (weave ((t.splitOn sep).drop i) (seps.drop i)).octets
          = some p.byteLength) ∧
      ∀ p, (t.splitOn sep).getLast? = some p → find? sep p = none) ∧
    (∀ ps seps, LeftmostSplit sep t ps seps → ps = t.splitOn sep) ∧
    (∀ offsets, Bytewise.Leftmost sep.upper.octets t.upper.octets 0 offsets →
      Bytewise.piecesFrom? t sep.byteLength 0 offsets = some (t.splitOn sep)) ∧
    (t.normalize = t → t ≠ [] → ∀ p ∈ t.splitOn andSeparator,
      p ≠ [] ∧ p.trim = p ∧ p.normalize = p) := by
  obtain ⟨seps, hsplit⟩ := exists_leftmostSplit hsep t
  refine ⟨⟨seps, hsplit, fun i p => hsplit.find?_eq hsep, fun p hp => ?_⟩, ?_, ?_, ?_⟩
  · exact (find?_eq_none_iff_standsAt hsep).mpr (hsplit.last p hp)
  · exact fun ps seps' h => h.eq_splitOn hsep
  · exact fun offsets h => Bytewise.piecesFrom?_of_leftmost hsep h
  · intro hnormal hne p hp
    have hneat : Neat t := hnormal ▸ Neat.normalize t
    obtain ⟨hpiece, hpne⟩ := mem_splitOn_and hneat hne p hp
    exact ⟨hpne, hpiece.trim_eq, hpiece.normalize_eq⟩

/-- Occurrences that overlap, in two spellings, behind a character of two bytes. -/
def overlappingAnds : Text := "é and AND AND x".toList

theorem splitOn_leftmost_overlappingAnds :
    andSeparator ≠ [] ∧ overlappingAnds.normalize = overlappingAnds ∧ overlappingAnds ≠ [] ∧
    (∀ i ∈ [1, 5, 9], StandsAt andSeparator overlappingAnds i) ∧
    overlappingAnds.splitOn andSeparator = ["é".toList, "AND".toList, "x".toList] ∧
    (∃ seps,
      LeftmostSplit andSeparator overlappingAnds (overlappingAnds.splitOn andSeparator) seps ∧
      find? andSeparator.octets
        (weave ((overlappingAnds.splitOn andSeparator).drop 1) (seps.drop 1)).octets = some 3) ∧
    Bytewise.Leftmost andSeparator.upper.octets overlappingAnds.upper.octets 0 [2, 10] ∧
    Bytewise.piecesFrom? overlappingAnds andSeparator.byteLength 0 [2, 10] =
      some (overlappingAnds.splitOn andSeparator) ∧
    (∀ p ∈ overlappingAnds.splitOn andSeparator, p ≠ [] ∧ p.trim = p ∧ p.normalize = p) := by
  have hsep : andSeparator ≠ [] := by decide
  have hnormal : overlappingAnds.normalize = overlappingAnds := by decide +kernel
  have hne : overlappingAnds ≠ [] := by decide
  have hstands : ∀ i ∈ [1, 5, 9], StandsAt andSeparator overlappingAnds i := by
    simp only [standsAt_iff hsep]
    decide +kernel
  have hcut : overlappingAnds.splitOn andSeparator = ["é".toList, "AND".toList, "x".toList] := by
    decide +kernel
  have hscan : Bytewise.matchesFrom andSeparator.octets 0 0 overlappingAnds.octets = [2, 10] := by
    decide +kernel
  have hoffsets := Bytewise.leftmost_matches hsep overlappingAnds
  rw [hscan] at hoffsets
  obtain ⟨⟨seps, hsplit, hnext, -⟩, -, hbytes, hpieces⟩ := splitOn_leftmost hsep overlappingAnds
  have hcount : 3 = seps.length + 1 := by
    rw [← hsplit.count, hcut]
    rfl
  have hsecond := hnext 1 "AND".toList (by omega) (by rw [hcut]; rfl)
  exact ⟨hsep, hnormal, hne, hstands, hcut, ⟨seps, hsplit, hsecond.2⟩, hoffsets,
    hbytes _ hoffsets, hpieces hnormal hne⟩

end Text

end SqlLayout
