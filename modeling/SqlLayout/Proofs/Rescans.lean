import SqlLayout.Proofs.Lexemes

set_option autoImplicit false

/-! # Scans of a laid-out text

The scans for parentheses, for words, for columns and for faults, in terms of lexemes. Each of
them finds in a laid-out text what it found in the text, because the lexemes are the same up to
lost terminators.

A scan runs over characters, and blanks come and go between them. So the results here come in
pairs: from a run of the scan to a property of the lexemes it has passed over, and from that
property back to a run, on whatever text has such lexemes. For parentheses the property is
`Guarded`, which a lost terminator does not touch (`Thinned.guarded`).
-/

namespace SqlLayout

open Text

/-! ## Lost terminators -/

namespace Thinned

/-- Nothing is added where terminators are lost. -/
theorem subset {l l' : List Lexeme} (h : Thinned l l') : l' ⊆ l := by
  induction h with
  | nil => exact fun _ hx => hx
  | keep x _ ih => exact List.cons_subset_cons x ih
  | @drop x y _ _ _ _ _ _ _ ih =>
      exact List.Subset.trans (List.cons_subset_cons y ih) (List.subset_cons_self x _)

/-- No word is lost: neither a terminator nor the parenthesis behind it starts one. -/
theorem words_eq {l l' : List Lexeme} (h : Thinned l l') :
    l'.filterMap Lexeme.word = l.filterMap Lexeme.word := by
  induction h with
  | nil => rfl
  | keep x _ ih => rw [List.filterMap_cons, List.filterMap_cons, ih]
  | drop _ hx _ hy _ ih =>
      rw [List.filterMap_cons, List.filterMap_cons, List.filterMap_cons, hx, hy, ih]

/-- Both sides can be cut where a word starts. -/
theorem split {a b l' : List Lexeme} {x : Lexeme} (h : Thinned (a ++ x :: b) l')
    (hx : x.word ≠ none) :
    ∃ a' b', l' = a' ++ x :: b' ∧ Thinned a a' ∧ Thinned b b' := by
  generalize hl : a ++ x :: b = l at h
  induction h generalizing a with
  | nil => simp at hl
  | keep y hrest ih =>
      cases a with
      | nil =>
          obtain ⟨rfl, rfl⟩ : x = y ∧ b = _ := by simpa using hl
          exact ⟨[], _, rfl, .nil, hrest⟩
      | cons z zs =>
          obtain ⟨rfl, hzs⟩ : z = y ∧ zs ++ x :: b = _ := by simpa using hl
          obtain ⟨a', b', rfl, ha, hb⟩ := ih hzs
          exact ⟨z :: a', b', rfl, .keep z ha, hb⟩
  | drop hy hyw hw hww hrest ih =>
      -- neither the terminator nor the parenthesis behind it starts a word, so both stand in `a`
      cases a with
      | nil =>
          obtain ⟨rfl, -⟩ : x = _ ∧ b = _ := by simpa using hl
          exact absurd hyw hx
      | cons z zs =>
          obtain ⟨rfl, hzs⟩ : z = _ ∧ zs ++ x :: b = _ := by simpa using hl
          cases zs with
          | nil =>
              obtain ⟨rfl, -⟩ : x = _ ∧ b = _ := by simpa using hzs
              exact absurd hww hx
          | cons y ys =>
              obtain ⟨rfl, hys⟩ : y = _ ∧ ys ++ x :: b = _ := by simpa using hzs
              obtain ⟨a', b', rfl, ha, hb⟩ := ih hys
              exact ⟨y :: a', b', rfl, .drop hy hyw hw hww ha, hb⟩

end Thinned

/-- More than `depth` parentheses are open wherever one is closed. -/
def Guarded (depth : Nat) (l : List Lexeme) : Prop :=
  ∀ x ∈ l, x.char = ')' → x.quoted = false → depth < x.depth

theorem Guarded.cons_iff {depth : Nat} {x : Lexeme} {l : List Lexeme} :
    Guarded depth (x :: l) ↔
      (x.char = ')' → x.quoted = false → depth < x.depth) ∧ Guarded depth l := by
  simp [Guarded]

/-- Losing terminators closes no parenthesis. -/
theorem Thinned.guarded {l l' : List Lexeme} (h : Thinned l l') {depth : Nat}
    (hl : Guarded depth l) : Guarded depth l' :=
  fun x hx => hl x (h.subset hx)

/-! ## Cutting a text

A lexeme knows the word that starts with it, and a word may go on over a cut. Where it does not
(`Severed`), lexemes can be cut with the text; and because a layout keeps the words, a cut in
front of a word in the lexemes is a cut of the text (`exists_split_of_lexemes`). -/

/-- No word goes on from what ends with `e` into `r`. -/
def Severed (e : Option Char) (r : Text) : Prop :=
  e.any isWordChar = false ∨ r.head?.any isWordChar = false

/-- The first word ends where it ended when text follows that it does not go on into. -/
theorem firstWord_append {c : Char} {cs r : Text} {e : Option Char}
    (h : Severed (edge e (c :: cs)) r) : firstWord ((c :: cs) ++ r) = firstWord (c :: cs) := by
  unfold firstWord
  by_cases hall : ∀ d ∈ c :: cs, isWordChar d = true
  · have hr : r.takeWhile isWordChar = [] := by
      rcases h with h | h
      · obtain ⟨init, d, hd⟩ := List.eq_nil_or_concat (c :: cs) |>.resolve_left (by simp)
        rw [hd, List.concat_eq_append, edge_concat] at h
        have hdw : isWordChar d = true := hall d (by rw [hd]; simp)
        rw [not_isBlank_of (Or.inr (Or.inr (Or.inl hdw)))] at h
        simp [hdw] at h
      · cases r with
        | nil => rfl
        | cons d ds => simpa using h
    rw [List.takeWhile_append_of_pos hall, hr, List.append_nil,
      (List.takeWhile_eq_self_iff).mpr hall]
  · rw [List.takeWhile_append, if_neg]
    intro hlen
    exact hall (List.takeWhile_eq_self_iff.mp
      ((List.takeWhile_prefix _).eq_of_length hlen))

/-- The lexemes of a text are those of its two pieces, wherever the cut severs no word. The second
piece is read with the nesting that the first leaves, and with its edge. -/
theorem lexemes_append {n : Nesting} (h : n.quoting.Sound) {e : Option Char} (he : n.Rests e)
    (s r : Text) (hr : Severed (edge e s) r) :
    lexemes n (Text.marks e (s ++ r))
      = lexemes n (s.marks e) ++ lexemes (n.scan s) (r.marks (edge e s)) := by
  induction s generalizing n e with
  | nil => rfl
  | cons c cs ih =>
      have hscan : n.scan (c :: cs) = (n.next c).scan cs := rfl
      rw [hscan]
      rw [edge_cons] at hr ⊢
      by_cases hc : isBlank c = true
      · rw [if_pos hc] at hr ⊢
        rw [List.cons_append, lexemes_blank h hc, lexemes_blank h hc,
          ih (Nesting.sound_next h c) (Nesting.rests_next h hc) hr]
      · have hc' : isBlank c = false := by simpa using hc
        rw [if_neg hc] at hr ⊢
        have hword : firstWord ((c :: cs) ++ r) = firstWord (c :: cs) :=
          firstWord_append (e := e) (by rwa [edge_cons, if_neg hc])
        rw [List.cons_append] at hword ⊢
        rw [lexemes_cons hc' he, lexemes_cons hc' he, hword,
          ih (Nesting.sound_next h c) (Nesting.rests_some _ c) hr, List.cons_append]

/-- A text can be cut where a word starts. -/
theorem exists_split_of_lexemes {n : Nesting} (h : n.quoting.Sound) {e : Option Char}
    (he : n.Rests e) {t : Text} {a b : List Lexeme} {x : Lexeme} {w : Text}
    (ht : lexemes n (t.marks e) = a ++ x :: b) (hx : x.word = some w) :
    ∃ s r, t = s ++ r ∧ lexemes n (s.marks e) = a ∧ (edge e s).any isWordChar = false ∧
      (n.scan s).isQuoted = false ∧ (n.scan s).depth = x.depth ∧ (firstWord r).upper = w ∧
      r.head?.any isWordChar = true := by
  induction t generalizing n e a with
  | nil => simp [marks, lexemes] at ht
  | cons c cs ih =>
      by_cases hc : isBlank c = true
      · rw [lexemes_blank h hc] at ht
        obtain ⟨s, r, rfl, ha, hedge, hrest⟩ :=
          ih (Nesting.sound_next h c) (Nesting.rests_next h hc) ht
        refine ⟨c :: s, r, rfl, ?_, ?_, hrest⟩
        · rw [lexemes_blank h hc, ha]
        · rwa [edge_cons, if_pos hc]
      · have hc' : isBlank c = false := by simpa using hc
        rw [lexemes_cons hc' he] at ht
        cases a with
        | nil =>
            obtain ⟨rfl, -⟩ := List.cons.inj ht
            simp only [ite_eq_iff, reduceCtorEq, and_false, or_false, Bool.and_eq_true,
              Bool.not_eq_true', Option.some.injEq] at hx
            -- a lexeme with a word is one that starts it
            obtain ⟨⟨⟨hq, hcw⟩, he'⟩, hw⟩ := hx
            exact ⟨[], c :: cs, rfl, rfl, he', hq, rfl, hw, by simpa using hcw⟩
        | cons y ys =>
            obtain ⟨hy, hys⟩ := List.cons.inj ht
            obtain ⟨s, r, rfl, ha, hedge, hrest⟩ :=
              ih (Nesting.sound_next h c) (Nesting.rests_some _ c) hys
            refine ⟨c :: s, r, rfl, ?_, ?_, hrest⟩
            · have hword : firstWord ((c :: s) ++ r) = firstWord (c :: s) :=
                firstWord_append (e := e) (Or.inl (by rwa [edge_cons, if_neg hc]))
              rw [List.cons_append] at hword
              rw [lexemes_cons hc' he, ha, ← hy, hword]
            · rwa [edge_cons, if_neg hc]

/-! ## Parentheses

The text between two partners is one in which every closing parenthesis leaves another one open,
up to where just the outer one is left: `Encloses`. The search for the closing parenthesis stops
behind such a text and nowhere else (`closeFrom_eq_some`, `closeFrom_of_guarded`). Both are
inductions over the text with the depth above zero as the invariant. -/

/-- The text in parentheses that close where it ends. -/
structure Encloses (t : Text) : Prop where
  guarded : Guarded 1 (lexemes ⟨1, .outside⟩ (t.marks none))
  scan : Nesting.scan ⟨1, .outside⟩ t = ⟨1, .outside⟩

/-- Outside literals, only the depth is left of a nesting. -/
theorem Nesting.eq_of_unquoted {n : Nesting} (h : n.isQuoted = false) :
    n = ⟨n.depth, .outside⟩ := by
  obtain ⟨d, q⟩ := n
  cases q with
  | outside => rfl
  | inside m => cases h
  | escaped m => cases h

/-- A parenthesis that closes is read unless it has no partner. -/
theorem Nesting.next?_eq_some {n : Nesting} {c : Char}
    (h : c = ')' → n.isQuoted = false → 0 < n.depth) : n.next? c = some (n.next c) := by
  rw [Nesting.next]
  obtain ⟨d, q⟩ := n
  cases q with
  | escaped m => rfl
  | inside m =>
      simp only [Nesting.next?]
      split_ifs <;> rfl
  | outside =>
      simp only [Nesting.next?]
      split_ifs with h1 h2 h3
      · rfl
      · rfl
      · have hd : 0 < d := h (by simpa using h3) rfl
        obtain ⟨k, rfl⟩ := Nat.exists_eq_succ_of_ne_zero (Nat.pos_iff_ne_zero.mp hd)
        rfl
      · rfl

/-- A closing parenthesis leads to the top level if it is the last one open. -/
theorem Nesting.isOutermost_next_close {n : Nesting} (h : n.quoting.Sound) :
    (n.next ')').isOutermost = true ↔ n.isQuoted = false ∧ n.depth ≤ 1 := by
  have hquoted : (n.next ')').isQuoted = n.isQuoted := by
    rw [Nesting.isQuoted_eq, Nesting.isQuoted_eq, Nesting.quoting_next]
    rcases n.quoting.eq_outside_or_isQuoted with hout | hq
    · rw [hout]
      rfl
    · rw [hq]
      by_contra hnext
      have hout : n.quoting.next ')' = .outside := by
        rcases (n.quoting.next ')').eq_outside_or_isQuoted with h0 | h0
        · exact h0
        · exact absurd h0 hnext
      rw [h.eq_outside hout] at hq
      cases hq
  rw [Nesting.isOutermost, hquoted, Nesting.depth_next]
  cases hq : n.isQuoted with
  | true => simp
  | false =>
      simp only [Nesting.depthAfter, hq, Bool.false_eq_true, if_false, Bool.not_false,
        Bool.and_true, beq_iff_eq, show ')' ≠ '(' by decide, if_true, true_and]
      omega

/-- One step of the search for a closing parenthesis. It ends at the first one outside literals that
is the last one open. -/
theorem closeFrom_cons {n : Nesting} (hn : n.quoting.Sound) (i : Nat) {c : Char}
    (hc : c = ')' → n.isQuoted = false → 0 < n.depth) (cs : Text) :
    closeFrom i n (c :: cs) =
      if c = ')' ∧ n.isQuoted = false ∧ n.depth = 1 then some i
      else closeFrom (i + 1) (n.next c) cs := by
  rw [closeFrom, Nesting.next?_eq_some hc]
  by_cases hclose : c = ')'
  · subst hclose
    have hiff := Nesting.isOutermost_next_close hn
    by_cases hq : n.isQuoted = false
    · have hpos := hc rfl hq
      by_cases hd : n.depth = 1
      · simp [hiff.mpr ⟨hq, by omega⟩, hq, hd]
      · have hout : (n.next ')').isOutermost = false := by
          by_contra hout
          have := (hiff.mp (by simpa using hout)).2
          omega
        simp [hout, hd]
    · have hout : (n.next ')').isOutermost = false := by
        by_contra hout
        exact hq (hiff.mp (by simpa using hout)).1
      simp [hout, hq]
  · simp [hclose]

/-- A parenthesis stays open as long as those inside it are closed. -/
theorem Nesting.depth_next_pos {n : Nesting} (hd : 0 < n.depth) {c : Char}
    (hguard : c = ')' → n.isQuoted = false → 1 < n.depth) : 0 < (n.next c).depth := by
  rw [Nesting.depth_next]
  unfold Nesting.depthAfter
  split_ifs with h1 h2 h3
  · exact hd
  · omega
  · have := hguard h3 (by simpa using h1)
    omega
  · exact hd

/-- Where the search does not end, a closing parenthesis leaves another one open. -/
theorem Nesting.one_lt_depth {n : Nesting} (hd : 0 < n.depth) {x : Char}
    (hx : ¬(x = ')' ∧ n.isQuoted = false ∧ n.depth = 1)) :
    x = ')' → n.isQuoted = false → 1 < n.depth := by
  intro hxc hq
  by_contra hle
  exact hx ⟨hxc, hq, by omega⟩

/-- Where the search for the closing parenthesis ends. -/
theorem closeFrom_eq_some {n : Nesting} (hn : n.quoting.Sound) (hd : 0 < n.depth)
    {e : Option Char} (he : n.Rests e) {t : Text} {i c : Nat} (h : closeFrom i n t = some c) :
    ∃ u v, t = u ++ ')' :: v ∧ c = i + u.length ∧ Guarded 1 (lexemes n (u.marks e)) ∧
      n.scan u = ⟨1, .outside⟩ := by
  induction t generalizing n e i with
  | nil => cases h
  | cons x xs ih =>
      rw [closeFrom_cons hn i (fun _ _ => hd)] at h
      split at h
      · rename_i hx
        obtain ⟨rfl, hq, hone⟩ := hx
        obtain rfl : i = c := by simpa using h
        refine ⟨[], xs, rfl, rfl, fun y hy => (by cases hy), ?_⟩
        rw [Nesting.scan, List.foldl_nil, Nesting.eq_of_unquoted hq, hone]
      · rename_i hx
        -- not the partner, so a closing parenthesis here leaves another one open
        have hguard := Nesting.one_lt_depth hd hx
        have hd' : 0 < (n.next x).depth := Nesting.depth_next_pos hd hguard
        by_cases hb : isBlank x = true
        · obtain ⟨u, v, rfl, rfl, hg, hs⟩ :=
            ih (Nesting.sound_next hn x) hd' (Nesting.rests_next hn hb) h
          refine ⟨x :: u, v, rfl, by simp; omega, ?_, hs⟩
          rw [lexemes_blank hn hb]
          exact hg
        · obtain ⟨u, v, rfl, rfl, hg, hs⟩ :=
            ih (Nesting.sound_next hn x) hd' (Nesting.rests_some _ x) h
          refine ⟨x :: u, v, rfl, by simp; omega, ?_, hs⟩
          rw [lexemes_cons (by simpa using hb) he, Guarded.cons_iff]
          refine ⟨fun hup hq => hguard ?_ hq, hg⟩
          exact (toUpper_eq_iff_of_not_word (by decide) x).mp hup

/-- The search for the closing parenthesis passes over what is guarded. -/
theorem closeFrom_of_guarded {n : Nesting} (hn : n.quoting.Sound) {e : Option Char}
    (he : n.Rests e) {u : Text} (hg : Guarded 1 (lexemes n (u.marks e)))
    (hs : n.scan u = ⟨1, .outside⟩) (v : Text) (i : Nat) :
    closeFrom i n (u ++ ')' :: v) = some (i + u.length) := by
  induction u generalizing n e i with
  | nil =>
      obtain rfl : n = ⟨1, .outside⟩ := hs
      rfl
  | cons x xs ih =>
      have hs' : (n.next x).scan xs = ⟨1, .outside⟩ := hs
      by_cases hb : isBlank x = true
      · have hx : x ≠ ')' := by rintro rfl; exact absurd hb (by decide)
        rw [lexemes_blank hn hb] at hg
        rw [List.cons_append, closeFrom_cons hn i (fun h => absurd h hx),
          if_neg (fun h => hx h.1),
          ih (Nesting.sound_next hn x) (Nesting.rests_next hn hb) hg hs']
        simp
        omega
      · rw [lexemes_cons (by simpa using hb) he, Guarded.cons_iff] at hg
        have hguard : x = ')' → n.isQuoted = false → 1 < n.depth := by
          rintro rfl hq
          exact hg.1 rfl hq
        rw [List.cons_append,
          closeFrom_cons hn i (fun h hq => Nat.lt_of_succ_lt (hguard h hq)), if_neg,
          ih (Nesting.sound_next hn x) (Nesting.rests_some _ x) hg.2 hs']
        · simp
          omega
        · rintro ⟨hx, hq, hone⟩
          have := hguard hx hq
          omega

/-- Literals in parentheses end before the parenthesis is closed. -/
theorem Encloses.quoting {t : Text} (h : Encloses t) : Quoting.outside.scan t = .outside := by
  have hscan := congrArg Nesting.quoting h.scan
  rwa [Nesting.quoting_scan] at hscan

/-- From an opening parenthesis the search starts behind it, at depth one. -/
theorem closeOf?_append (a r : Text) :
    closeOf? (a ++ '(' :: r) a.length = closeFrom (a.length + 1) ⟨1, .outside⟩ r := by
  have hget : (a ++ '(' :: r)[a.length]? = some '(' := by simp
  rw [closeOf?, if_pos (by rw [hget]; rfl), List.drop_left]
  rfl

/-- What is enclosed is found from the opening parenthesis, with what follows the closing one. -/
theorem enclosed?_of_encloses (a : Text) {u : Text} (h : Encloses u) (v : Text) :
    enclosed? (a ++ '(' :: (u ++ ')' :: v)) a.length = some (trim u, trim v) := by
  have hclose : closeOf? (a ++ '(' :: (u ++ ')' :: v)) a.length
      = some (a.length + 1 + u.length) := by
    rw [closeOf?_append]
    exact closeFrom_of_guarded (n := ⟨1, .outside⟩) trivial
      (Nesting.rests_of_unquoted rfl none) h.guarded h.scan v _
  have hopen : a ++ '(' :: (u ++ ')' :: v) = (a ++ '(' :: u) ++ ')' :: v := by simp
  have hshut : a ++ '(' :: (u ++ ')' :: v) = (a ++ '(' :: (u ++ [')'])) ++ v := by simp
  have htake : (a ++ '(' :: (u ++ ')' :: v)).take (a.length + 1 + u.length) = a ++ '(' :: u := by
    rw [hopen]
    exact List.take_left' (by simp only [List.length_append, List.length_cons]; omega)
  have hdrop : (a ++ '(' :: (u ++ ')' :: v)).drop (a.length + 1 + u.length + 1) = v := by
    rw [hshut]
    exact List.drop_left' (by
      simp only [List.length_append, List.length_cons, List.length_nil]
      omega)
  rw [enclosed?, hclose, Option.map_some, htake, hdrop, List.drop_append,
    List.drop_of_length_le (by omega)]
  simp

/-- A parenthesis, what it encloses and what follows it. -/
theorem enclosed?_split {t : Text} {o : Nat} {inner trailing : Text}
    (h : t.enclosed? o = some (inner, trailing)) :
    ∃ pre u v, t = pre ++ '(' :: (u ++ ')' :: v) ∧ pre.length = o ∧ inner = trim u ∧
      trailing = trim v ∧ Encloses u := by
  obtain ⟨c, hc, -⟩ := Option.map_eq_some_iff.mp h
  have hopen : t[o]? = some '(' := by
    by_contra hne
    rw [closeOf?, if_neg (by simpa using hne)] at hc
    cases hc
  obtain ⟨holt, hget⟩ := List.getElem?_eq_some_iff.mp hopen
  have ht : t = t.take o ++ '(' :: t.drop (o + 1) := by
    rw [← hget, ← List.drop_eq_getElem_cons holt, List.take_append_drop]
  have hlen : (t.take o).length = o := by
    rw [List.length_take]
    omega
  have hfrom : closeFrom (o + 1) ⟨1, .outside⟩ (t.drop (o + 1)) = some c := by
    have happ := closeOf?_append (t.take o) (t.drop (o + 1))
    rwa [← ht, hlen, hc, eq_comm] at happ
  obtain ⟨u, v, huv, -, hg, hs⟩ := closeFrom_eq_some (n := ⟨1, .outside⟩) trivial (by decide)
    (Nesting.rests_of_unquoted rfl none) hfrom
  rw [huv] at ht
  have hpair := enclosed?_of_encloses (t.take o) ⟨hg, hs⟩ v
  rw [← ht, hlen, h] at hpair
  obtain ⟨rfl, rfl⟩ : inner = trim u ∧ trailing = trim v := by simpa using hpair
  exact ⟨t.take o, u, v, ht, hlen, rfl, rfl, hg, hs⟩

/-! ## Keywords

Where a keyword of one word stands is a matter of lexemes: it is the word that one of them
starts. The first occurrence is described by what stands before it and what it starts, from
which it is found again (`firstOccurrence?_split`, `firstOccurrence?_append`). -/

/-- A spelling of a word is a word. -/
theorem isWordChar_of_upper {s k : Text} (h : s.upper = k.upper) (hk : k.all isWordChar = true) :
    ∀ c ∈ s, isWordChar c = true := by
  intro c hc
  have hmem : c.toUpper ∈ k.upper := by
    rw [← h]
    exact List.mem_map_of_mem hc
  obtain ⟨d, hd, hdc⟩ := List.mem_map.mp hmem
  have hword : isWordChar d = true := by
    rw [List.all_eq_true] at hk
    exact hk d hd
  rw [← isWordChar_toUpper, ← hdc, isWordChar_toUpper]
  exact hword

/-- A keyword of one word is the first word of what it starts. -/
theorem startsKeyword_iff_firstWord {k t : Text} (hk : k.all isWordChar = true) :
    t.startsKeyword k = true ↔ t.firstWord.upper = k.upper := by
  rw [startsKeyword_iff]
  constructor
  · rintro ⟨hs, hafter⟩
    -- all of the keyword belongs to the word, and the word ends behind it
    have hword : t.firstWord = t.take k.length := by
      have hall := isWordChar_of_upper hs hk
      have hrest : (t.drop k.length).takeWhile isWordChar = [] := by
        cases hd : t.drop k.length with
        | nil => rfl
        | cons c cs =>
            rw [hd] at hafter
            rw [List.takeWhile_cons, hafter c rfl]
            rfl
      unfold firstWord
      conv_lhs => rw [← List.take_append_drop k.length t]
      rw [List.takeWhile_append_of_pos hall, hrest, List.append_nil]
    rw [hword]
    exact hs
  · intro h
    have hlen : t.firstWord.length = k.length := length_eq_of_upper_eq h
    have hsplit : t = t.firstWord ++ t.dropWhile isWordChar :=
      (List.takeWhile_append_dropWhile).symm
    have htake : t.take k.length = t.firstWord := by
      conv_lhs => rw [hsplit]
      exact List.take_left' hlen
    have hdrop : t.drop k.length = t.dropWhile isWordChar := by
      conv_lhs => rw [hsplit]
      exact List.drop_left' hlen
    refine ⟨by rw [htake]; exact h, fun c hc => ?_⟩
    rw [hdrop] at hc
    have hd := List.head?_dropWhile_not isWordChar t
    rw [hc] at hd
    simpa using hd

/-- Whether a word goes on from a character can be read off the edge behind it. -/
theorem isWordChar_eq_any (c : Char) :
    isWordChar c = (if isBlank c then none else some c : Option Char).any isWordChar := by
  by_cases hc : isBlank c = true
  · have hw : isWordChar c = false := by
      by_contra hw
      rw [not_isBlank_of (Or.inr (Or.inr (Or.inl (by simpa using hw))))] at hc
      cases hc
    simp [hc, hw]
  · simp [hc]

/-- One step of the search for a keyword: it stands outside literals, where a word starts. -/
theorem occurrencesFrom_cons (k : Text) (i : Nat) (n : Nesting) (w : Bool) (c : Char) (cs : Text) :
    occurrencesFrom k i n w (c :: cs) =
      (if !n.isQuoted && isWordChar c && !w && startsKeyword (c :: cs) k then [i] else []) ++
        occurrencesFrom k (i + 1) (n.next c) (isWordChar c) cs := by
  rw [occurrencesFrom]
  split <;> rfl

/-- The keywords of a text that is cut where no keyword is. -/
theorem occurrencesFrom_append {k s r : Text}
    (h : ∀ c cs, c :: cs <:+ s → startsKeyword (c :: cs ++ r) k = startsKeyword (c :: cs) k)
    (i : Nat) (n : Nesting) (e : Option Char) :
    occurrencesFrom k i n (e.any isWordChar) (s ++ r)
      = occurrencesFrom k i n (e.any isWordChar) s ++
        occurrencesFrom k (i + s.length) (n.scan s) ((edge e s).any isWordChar) r := by
  induction s generalizing i n e with
  | nil => rfl
  | cons c cs ih =>
      have hih := ih (fun d ds hd => h d ds (hd.trans (List.suffix_cons c cs))) (i + 1) (n.next c)
        (if isBlank c then none else some c)
      rw [← isWordChar_eq_any] at hih
      have hscan : n.scan (c :: cs) = (n.next c).scan cs := rfl
      have hhere := h c cs (List.suffix_refl _)
      rw [List.cons_append] at hhere ⊢
      rw [occurrencesFrom_cons, occurrencesFrom_cons, hhere, hih, edge_cons, hscan,
        List.append_assoc, List.length_cons, show i + (cs.length + 1) = i + 1 + cs.length by omega]

/-- No word goes on over the cut. -/
theorem occurrencesFrom_severed {k : Text} (hk : k.all isWordChar = true) {s r : Text}
    {e : Option Char} (hr : Severed (edge e s) r) (i : Nat) (n : Nesting) :
    occurrencesFrom k i n (e.any isWordChar) (s ++ r)
      = occurrencesFrom k i n (e.any isWordChar) s ++
        occurrencesFrom k (i + s.length) (n.scan s) ((edge e s).any isWordChar) r := by
  refine occurrencesFrom_append (fun c cs hsuffix => ?_) i n e
  obtain ⟨a, rfl⟩ := hsuffix
  rw [Bool.eq_iff_iff, startsKeyword_iff_firstWord hk, startsKeyword_iff_firstWord hk,
    firstWord_append (e := edge e a)]
  rwa [edge_append] at hr

/-- A keyword of one word does not occur exactly if no lexeme starts it. So whether it occurs is
left as it is by a layout, which keeps the words (`Thinned.words_eq`). -/
theorem occurrencesFrom_eq_nil_iff {k : Text} (hk : k.all isWordChar = true) (hup : k.upper = k)
    {n : Nesting} (hn : n.quoting.Sound) {e : Option Char} (he : n.Rests e) (t : Text) (i : Nat) :
    occurrencesFrom k i n (e.any isWordChar) t = [] ↔
      k ∉ (lexemes n (t.marks e)).filterMap Lexeme.word := by
  induction t generalizing n e i with
  | nil => simp [occurrencesFrom, marks, lexemes]
  | cons c cs ih =>
      rw [occurrencesFrom_cons, List.append_eq_nil_iff]
      by_cases hc : isBlank c = true
      · have hw : isWordChar c = false := by rw [isWordChar_eq_any, if_pos hc]; rfl
        have hih := ih (e := none) (Nesting.sound_next hn c) (Nesting.rests_next hn hc) (i + 1)
        rw [lexemes_blank hn hc, ← hih, hw]
        simp
      · have hih := ih (e := some c) (Nesting.sound_next hn c) (Nesting.rests_some _ c) (i + 1)
        rw [lexemes_cons (by simpa using hc) he, List.filterMap_cons]
        have hstart := startsKeyword_iff_firstWord (t := c :: cs) hk
        rw [hup] at hstart
        have hw : (some c).any isWordChar = isWordChar c := rfl
        rw [hw] at hih
        by_cases hhere : (!n.isQuoted && isWordChar c && !e.any isWordChar) = true
        · simp only [hhere, if_true, Bool.true_and, List.mem_cons, not_or, hih]
          refine and_congr_left (fun _ => ?_)
          rw [ite_eq_right_iff]
          simp only [List.cons_ne_nil, imp_false, hstart]
          exact not_congr eq_comm
        · simp only [hhere, Bool.false_eq_true, if_false, Bool.false_and, true_and, hih]

theorem sound_start : Nesting.start.quoting.Sound := trivial

theorem Quoting.Sound.scan {q : Quoting} (h : q.Sound) (t : Text) : (q.scan t).Sound := by
  induction t generalizing q with
  | nil => exact h
  | cons c cs ih => exact ih (h.next c)

/-- Reading opens literals at quote marks only. -/
theorem Nesting.sound_scan {n : Nesting} (h : n.quoting.Sound) (t : Text) :
    (n.scan t).quoting.Sound := by
  rw [Nesting.quoting_scan]
  exact h.scan t

/-- The same for a whole text. -/
theorem occurrences_eq_nil_iff {k : Text} (hk : k.all isWordChar = true) (hup : k.upper = k)
    (t : Text) :
    t.occurrences k = [] ↔ k ∉ (lexemes .start (t.marks none)).filterMap Lexeme.word :=
  occurrencesFrom_eq_nil_iff (e := none) hk hup sound_start
    (Nesting.rests_of_unquoted rfl none) t 0

theorem hasKeyword_eq_false_iff {k t : Text} : t.hasKeyword k = false ↔ t.occurrences k = [] := by
  rw [hasKeyword, firstOccurrence?]
  cases t.occurrences k <;> simp

/-- The first place where a keyword of one word stands. -/
theorem firstOccurrence?_split {k : Text} (hk : k.all isWordChar = true) {t : Text} {i : Nat}
    (h : t.firstOccurrence? k = some i) :
    ∃ s r, t = s ++ r ∧ s.length = i ∧ s.occurrences k = [] ∧
      (edge none s).any isWordChar = false ∧ (Nesting.after s).isQuoted = false ∧
      r.head?.any isWordChar = true ∧ r.startsKeyword k = true := by
  obtain ⟨s, c, r, ht, hi, hq, hc, hbefore, hstart⟩ :=
    mem_occurrencesFrom_iff.mp (List.mem_of_mem_head? h)
  obtain rfl : i = s.length := by omega
  have hedge : (edge none s).any isWordChar = false := by
    rcases List.eq_nil_or_concat s with rfl | ⟨init, d, rfl⟩
    · rfl
    · rw [List.concat_eq_append] at hbefore ⊢
      have hd : isWordChar d = false := by simpa using hbefore
      rw [edge_concat, ← isWordChar_eq_any]
      exact hd
  refine ⟨s, c :: r, ht, rfl, ?_, hedge, hq, by simpa using hc, hstart⟩
  have hcut : t.occurrences k = s.occurrences k ++ occurrencesFrom k (0 + s.length)
      (Nesting.start.scan s) ((edge none s).any isWordChar) (c :: r) := by
    rw [ht]
    exact occurrencesFrom_severed (e := none) hk (Or.inl hedge) 0 .start
  -- an occurrence inside `s` would have been the first
  cases hs : s.occurrences k with
  | nil => rfl
  | cons j js =>
      rw [firstOccurrence?, hcut, hs] at h
      obtain rfl : j = s.length := by simpa using h
      have hmem : s.length ∈ s.occurrences k := by rw [hs]; simp
      obtain ⟨a, d, b, hab, hlen, -⟩ := mem_occurrencesFrom_iff.mp hmem
      have hlen' := congrArg List.length hab
      simp only [List.length_append, List.length_cons] at hlen'
      omega

/-- The converse: behind a text without the keyword, the keyword is the first one there is. -/
theorem firstOccurrence?_append {k : Text} (hk : k.all isWordChar = true) {s r : Text}
    (hs : s.occurrences k = []) (hedge : (edge none s).any isWordChar = false)
    (hq : (Nesting.after s).isQuoted = false) (hr : r.head?.any isWordChar = true)
    (hstart : r.startsKeyword k = true) : firstOccurrence? (s ++ r) k = some s.length := by
  have hcut := occurrencesFrom_severed (e := none) (s := s) (r := r) hk (Or.inl hedge) 0 .start
  have hocc : occurrences (s ++ r) k = s.occurrences k ++
      occurrencesFrom k (0 + s.length) (Nesting.start.scan s) ((edge none s).any isWordChar) r :=
    hcut
  have hq' : (Nesting.start.scan s).isQuoted = false := hq
  rw [firstOccurrence?, hocc, hs, hedge]
  cases r with
  | nil => simp at hr
  | cons c cs =>
      have hc : isWordChar c = true := by simpa using hr
      rw [occurrencesFrom_cons, hq', hc, hstart]
      simp

/-! ## The parenthesis around a place

The search reads up to the place and keeps the parentheses that are open, the innermost first.
Behind the parenthesis in question the list has those that were opened since (`extra`) in front
of those before it (`opened`), and the depth grows with `extra`: this carries both inductions,
from the search to `Guarded` and back. -/

/-- The open parentheses of a text that is read in two pieces. -/
theorem openParens_append (i : Nat) (n : Nesting) (opened : List Nat) (s r : Text) :
    openParens i n opened (s ++ r)
      = openParens (i + s.length) (n.scan s) (openParens i n opened s) r := by
  induction s generalizing i n opened with
  | nil => rfl
  | cons c cs ih =>
      have hscan : n.scan (c :: cs) = (n.next c).scan cs := rfl
      rw [List.cons_append, openParens, ih, openParens, hscan, List.length_cons,
        show i + (cs.length + 1) = i + 1 + cs.length by omega]

/-- One character of a text in which no parenthesis of `opened` is closed: those opened behind
them are counted, and only a parenthesis at this place may come on top. -/
theorem openParens_cons {n : Nesting} {c : Char} {depth : Nat} {extra : List Nat}
    (hguard : c = ')' → n.isQuoted = false → depth < n.depth)
    (hd : n.depth = depth + extra.length) (opened : List Nat) (i : Nat) (cs : Text) :
    ∃ extra', openParens i n (extra ++ opened) (c :: cs)
        = openParens (i + 1) (n.next c) (extra' ++ opened) cs ∧
      (n.next c).depth = depth + extra'.length ∧ ∀ k ∈ extra', k ∈ extra ∨ k = i := by
  rw [openParens, Nesting.depth_next]
  unfold Nesting.depthAfter
  by_cases hq : n.isQuoted = true
  · exact ⟨extra, by simp [hq], by simp [hq, hd], fun k hk => Or.inl hk⟩
  · by_cases hopen : c = '('
    · refine ⟨i :: extra, by simp [hq, hopen], ?_, fun k hk => ?_⟩
      · simp [hq, hopen, hd]
        omega
      · exact (List.mem_cons.mp hk).symm
    · by_cases hshut : c = ')'
      · have hlt := hguard hshut (by simpa using hq)
        cases extra with
        | nil =>
            simp only [List.length_nil, Nat.add_zero] at hd
            omega
        | cons k ks =>
            exact ⟨ks, by simp [hq, hshut], by simp [hq, hshut, hd],
              fun x hx => Or.inl (List.mem_cons_of_mem k hx)⟩
      · exact ⟨extra, by simp [hq, hopen, hshut], by simp [hq, hopen, hshut, hd],
          fun k hk => Or.inl hk⟩

/-- A closing parenthesis does not close the one at `j` if that one is open at the end. -/
theorem depth_lt_of_openParens {n : Nesting} {c : Char} {cs : Text} {i j depth : Nat}
    {extra opened rest : List Nat}
    (h : openParens i n (extra ++ j :: opened) (c :: cs) = j :: rest) (hj : j < i)
    (hopened : j ∉ opened) (hd : n.depth = depth + extra.length) (hc : c = ')')
    (hq : n.isQuoted = false) : depth < n.depth := by
  cases extra with
  | nil =>
      exfalso
      have hmem : j ∈ openParens (i + 1) (n.next c) opened cs := by
        simp only [openParens, hq, hc, List.nil_append, List.tail_cons, Bool.false_eq_true,
          if_false, beq_iff_eq, show ')' ≠ '(' by decide, if_true] at h
        rw [hc, h]
        exact List.mem_cons_self
      rcases mem_openParens hmem with h0 | ⟨a, b, -, h0, -⟩
      · exact hopened h0
      · omega
  | cons k ks =>
      simp only [List.length_cons] at hd
      omega

/-- A parenthesis that is still the innermost one at the end was never closed. -/
theorem guarded_of_openParens {n : Nesting} (hn : n.quoting.Sound) {e : Option Char}
    (he : n.Rests e) {t : Text} {i j depth : Nat} {extra opened rest : List Nat}
    (h : openParens i n (extra ++ j :: opened) t = j :: rest) (hj : j < i) (hextra : j ∉ extra)
    (hopened : j ∉ opened) (hd : n.depth = depth + extra.length) :
    Guarded depth (lexemes n (t.marks e)) ∧ (n.scan t).depth = depth := by
  induction t generalizing n e i extra with
  | nil =>
      refine ⟨fun x hx => (by cases hx), ?_⟩
      cases extra with
      | nil => exact hd
      | cons k ks =>
          obtain ⟨rfl, -⟩ : k = j ∧ _ := by simpa [openParens] using h
          exact absurd (by simp) hextra
  | cons c cs ih =>
      have hclose : c = ')' → n.isQuoted = false → depth < n.depth :=
        depth_lt_of_openParens h hj hopened hd
      obtain ⟨extra', hstep, hd', hmem⟩ := openParens_cons hclose hd (j :: opened) i cs
      rw [hstep] at h
      have hextra' : j ∉ extra' := by
        intro hin
        rcases hmem j hin with hin | rfl
        · exact hextra hin
        · exact Nat.lt_irrefl j hj
      have hscan : n.scan (c :: cs) = (n.next c).scan cs := rfl
      rw [hscan]
      by_cases hb : isBlank c = true
      · rw [lexemes_blank hn hb]
        exact ih (Nesting.sound_next hn c) (Nesting.rests_next hn hb) h (by omega) hextra' hd'
      · rw [lexemes_cons (by simpa using hb) he, Guarded.cons_iff]
        obtain ⟨hg, hs⟩ := ih (Nesting.sound_next hn c) (Nesting.rests_some _ c) h (by omega)
          hextra' hd'
        refine ⟨⟨fun hup hq => hclose ?_ hq, hg⟩, hs⟩
        exact (toUpper_eq_iff_of_not_word (by decide) c).mp hup

/-- What is guarded leaves the parentheses open that were open before it. -/
theorem openParens_of_guarded {n : Nesting} (hn : n.quoting.Sound) {e : Option Char}
    (he : n.Rests e) {t : Text} {depth : Nat} (hg : Guarded depth (lexemes n (t.marks e)))
    {extra : List Nat} (hd : n.depth = depth + extra.length) (opened : List Nat) (i : Nat) :
    ∃ extra', openParens i n (extra ++ opened) t = extra' ++ opened ∧
      (n.scan t).depth = depth + extra'.length := by
  induction t generalizing n e i extra with
  | nil => exact ⟨extra, rfl, hd⟩
  | cons c cs ih =>
      have hguard : c = ')' → n.isQuoted = false → depth < n.depth := by
        rintro rfl hq
        rw [lexemes_cons (by decide) he, Guarded.cons_iff] at hg
        exact hg.1 rfl hq
      obtain ⟨extra', hstep, hd', -⟩ := openParens_cons hguard hd opened i cs
      have hscan : n.scan (c :: cs) = (n.next c).scan cs := rfl
      rw [hstep, hscan]
      by_cases hb : isBlank c = true
      · rw [lexemes_blank hn hb] at hg
        exact ih (Nesting.sound_next hn c) (Nesting.rests_next hn hb) hg hd' (i + 1)
      · rw [lexemes_cons (by simpa using hb) he, Guarded.cons_iff] at hg
        exact ih (Nesting.sound_next hn c) (Nesting.rests_some _ c) hg.2 hd' (i + 1)

/-- The parenthesis around a place, and what stands between them. -/
theorem openAround?_split {t : Text} {place o : Nat} (h : t.openAround? place = some o) :
    ∃ a s d, t.take place = a ++ '(' :: s ∧ a.length = o ∧ Nesting.after a = ⟨d, .outside⟩ ∧
      Guarded (d + 1) (lexemes ⟨d + 1, .outside⟩ (marks none s)) ∧
      (Nesting.scan ⟨d + 1, .outside⟩ s).depth = d + 1 := by
  obtain ⟨rest, hrest⟩ : ∃ rest, openParens 0 .start [] (t.take place) = o :: rest := by
    unfold openAround? at h
    cases hp : openParens 0 .start [] (t.take place) with
    | nil => rw [hp] at h; cases h
    | cons j js =>
        rw [hp] at h
        obtain rfl : j = o := by simpa using h
        exact ⟨js, rfl⟩
  have hmem : o ∈ openParens 0 .start [] (t.take place) := by rw [hrest]; simp
  rcases mem_openParens hmem with hnil | ⟨a, s, hsplit, ho, hq⟩
  · cases hnil
  · -- it was pushed behind `a`, and is the innermost one at the end of `s`
    obtain rfl : o = a.length := by omega
    have hafter : Nesting.after a = ⟨(Nesting.after a).depth, .outside⟩ :=
      Nesting.eq_of_unquoted hq
    refine ⟨a, s, (Nesting.after a).depth, hsplit, rfl, hafter, ?_⟩
    have hnext : (Nesting.start.scan a).next '(' = ⟨(Nesting.after a).depth + 1, .outside⟩ := by
      show (Nesting.after a).next '(' = _
      conv_lhs => rw [hafter]
      rfl
    rw [hsplit, openParens_append, openParens, hq, hnext] at hrest
    simp only [Bool.false_eq_true, if_false, beq_self_eq_true, if_true, Nat.zero_add] at hrest
    have hstack : openParens (a.length + 1) ⟨(Nesting.after a).depth + 1, .outside⟩
        ([] ++ a.length :: openParens 0 .start [] a) s = a.length :: rest := hrest
    refine guarded_of_openParens (n := ⟨_, .outside⟩) trivial (Nesting.rests_of_unquoted rfl none)
      hstack (by omega) (by simp) ?_ rfl
    intro hin
    rcases mem_openParens hin with h0 | ⟨b, c, hb, h0, -⟩
    · cases h0
    · have hlen := congrArg List.length hb
      simp only [List.length_append, List.length_cons] at hlen
      omega

/-- What is guarded, at the depth it began with, leaves the parenthesis before it as the innermost
one. -/
theorem openAround?_of_guarded {a s : Text} {d : Nat} (ha : Nesting.after a = ⟨d, .outside⟩)
    (hg : Guarded (d + 1) (lexemes ⟨d + 1, .outside⟩ (s.marks none)))
    (hd : (Nesting.scan ⟨d + 1, .outside⟩ s).depth = d + 1) (r : Text) :
    openAround? (a ++ '(' :: (s ++ r)) (a.length + 1 + s.length) = some a.length := by
  have htake : (a ++ '(' :: (s ++ r)).take (a.length + 1 + s.length) = a ++ '(' :: s := by
    have hsplit : a ++ '(' :: (s ++ r) = (a ++ '(' :: s) ++ r := by simp
    rw [hsplit]
    exact List.take_left' (by simp only [List.length_append, List.length_cons]; omega)
  have hscan : Nesting.start.scan a = ⟨d, .outside⟩ := ha
  rw [openAround?, htake, openParens_append, hscan, openParens]
  have hlevel : (Nesting.mk (d + 1) .outside).depth = d + 1 + ([] : List Nat).length := rfl
  obtain ⟨extra, hopen, hdepth⟩ := openParens_of_guarded (n := ⟨d + 1, .outside⟩) trivial
    (Nesting.rests_of_unquoted rfl none) hg hlevel (a.length :: openParens 0 .start [] a)
    (a.length + 1)
  -- the depth is the same, so none was opened and left open
  obtain rfl : extra = [] := by
    rw [← List.length_eq_zero_iff]
    omega
  have hnext : Nesting.next ⟨d, .outside⟩ '(' = ⟨d + 1, .outside⟩ := rfl
  have hquoted : Nesting.isQuoted ⟨d, .outside⟩ = false := rfl
  simp only [hquoted, hnext, Bool.false_eq_true, if_false, beq_self_eq_true, if_true,
    Nat.zero_add]
  rw [List.nil_append] at hopen
  rw [hopen]
  rfl

/-! ## Laid-out parentheses

What `Encloses` asks for is a matter of lexemes, but for the scan at the end. There a closing
parenthesis is put behind the text, so that its lexeme says where the scan stands; the layout of
the text keeps that lexeme, and so the scan of the layout stands in the same place. -/

/-- The last lexeme stays, and with it all but a terminator before it. -/
theorem Thinned.concat {l m : List Lexeme} {y : Lexeme} (h : Thinned (l ++ [y]) m) :
    ∃ l₀ l', m = l' ++ [y] ∧ l₀ ⊆ l ∧ Thinned l₀ l' := by
  -- along the thinning; a terminator that is dropped is followed by one that stays
  generalize hl : l ++ [y] = k at h
  induction h generalizing l with
  | nil => simp at hl
  | @keep x k k' hrest ih =>
      cases l with
      | nil =>
          obtain ⟨rfl, rfl⟩ : x = y ∧ k = [] := by simpa using hl.symm
          cases hrest
          exact ⟨[], [], rfl, by simp, .nil⟩
      | cons z zs =>
          obtain ⟨rfl, hzs⟩ := List.cons.inj hl
          obtain ⟨l₀, l', rfl, hsub, hthin⟩ := ih hzs
          exact ⟨z :: l₀, z :: l', rfl, List.cons_subset_cons z hsub, .keep z hthin⟩
  | @drop x z k k' hx hxw hz hzw hrest ih =>
      cases l with
      | nil => simp at hl
      | cons w ws =>
          obtain ⟨rfl, hws⟩ := List.cons.inj hl
          cases ws with
          | nil =>
              obtain ⟨rfl, rfl⟩ : z = y ∧ k = [] := by simpa using hws.symm
              cases hrest
              exact ⟨[], [], rfl, by simp, .nil⟩
          | cons v vs =>
              obtain ⟨rfl, hvs⟩ := List.cons.inj hws
              obtain ⟨l₀, l', rfl, hsub, hthin⟩ := ih hvs
              exact ⟨w :: v :: l₀, v :: l', rfl,
                List.cons_subset_cons w (List.cons_subset_cons v hsub), .drop hx hxw hz hzw hthin⟩

/-- Blanks have no lexemes. -/
theorem lexemes_allBlank {t : Text} (h : AllBlank t) (n : Nesting) (e : Option Char) :
    lexemes n (t.marks e) = [] := by
  rw [h.marks_eq]
  rfl

/-- Outside literals, blanks change nothing. -/
theorem Nesting.scan_allBlank {n : Nesting} (hq : n.isQuoted = false) {t : Text}
    (h : AllBlank t) : n.scan t = n := by
  rw [Nesting.eq_of_unquoted hq]
  induction t with
  | nil => rfl
  | cons c cs ih =>
      have hnext : Nesting.next ⟨n.depth, .outside⟩ c = ⟨n.depth, .outside⟩ := by
        rw [Nesting.next_blank (n := ⟨n.depth, .outside⟩) trivial (h c (by simp))]
        rfl
      show (Nesting.next ⟨n.depth, .outside⟩ c).scan cs = _
      rw [hnext]
      exact ih (fun d hd => h d (by simp [hd]))

/-- The lexemes of what a laid-out text thins out. -/
theorem Laid.thinned_text {q : Track} {e : Option Char} {s t : Text} {n : Nesting}
    (h : Laid (s.glyphs e q) (t.marks none)) (hn : n.isQuoted = false)
    (he : e.any isWordChar = false) :
    Thinned (lexemes n (s.marks none)) (lexemes n (t.marks none)) := by
  have hsound : n.quoting.Sound := by
    rw [Nesting.eq_of_unquoted hn]
    trivial
  have hescapes : n.quoting.Escapes e := by
    rw [Nesting.eq_of_unquoted hn]
    intro m hm
    cases hm
  have hthin := (h.thinned hsound hescapes (by rw [toMark_glyphs]; exact linked_marks e s)).1
  rwa [toMark_glyphs, lexemes_edge hsound hn he] at hthin

/-- A layout of a text that ends outside everything ends there as well. -/
theorem Laid.after_eq_start {q : Track} {s t : Text} (h : Laid (s.glyphs none q) (t.marks none))
    (hs : Nesting.after s = .start) : Nesting.after t = .start := by
  have hread := (h.thinned (n := .start) (e := none) trivial (fun _ h => by cases h)
    (by rw [toMark_glyphs]; exact linked_marks none s)).2
  rw [toMark_glyphs] at hread
  have hscan := scan_eq_readAll (n := .start) trivial (Nesting.rests_of_unquoted rfl none) s
  have ht := scan_eq_readAll (n := .start) trivial (Nesting.rests_of_unquoted rfl none) t
  rw [hread, ← hscan.1, ← hscan.2] at ht
  have hafter : Nesting.start.scan s = .start := hs
  rw [hafter] at ht
  show Nesting.start.scan t = .start
  rw [Nesting.eq_of_unquoted ht.2, ht.1]
  rfl

/-- A text in parentheses may be laid out. -/
theorem Encloses.of_laid {q : Track} {u f : Text} (h : Encloses u)
    (hlaid : Laid (Text.glyphs (some '(') q (u ++ [')'])) (f.marks none ++ [⟨none, ')'⟩])) :
    Encloses f := by
  have hout : Nesting.isQuoted ⟨1, .outside⟩ = false := rfl
  have hrests := Nesting.rests_of_unquoted hout none
  have hmarks : f.marks none ++ [⟨none, ')'⟩] = Text.marks none (f ++ [' ', ')']) := by
    rw [marks_append]
    rfl
  have hinner : lexemes ⟨1, .outside⟩ (Text.marks none (u ++ [')']))
      = lexemes ⟨1, .outside⟩ (u.marks none) ++ [⟨')', 1, false, none⟩] := by
    rw [lexemes_append (n := ⟨1, .outside⟩) trivial hrests _ _ (Or.inr (by decide)), h.scan]
    rfl
  have houter : lexemes ⟨1, .outside⟩ (Text.marks none (f ++ [' ', ')']))
      = lexemes ⟨1, .outside⟩ (f.marks none) ++
        [⟨')', (Nesting.scan ⟨1, .outside⟩ f).depth, (Nesting.scan ⟨1, .outside⟩ f).isQuoted,
          none⟩] := by
    have hsound : (Nesting.scan ⟨1, .outside⟩ f).quoting.Sound :=
      Nesting.sound_scan (n := ⟨1, .outside⟩) trivial f
    have hrest := Nesting.rests_next hsound (show isBlank ' ' = true by decide)
    have hdepth : ((Nesting.scan ⟨1, .outside⟩ f).next ' ').depth
        = (Nesting.scan ⟨1, .outside⟩ f).depth := by
      rw [Nesting.next_blank hsound (by decide)]
    have hquoted : ((Nesting.scan ⟨1, .outside⟩ f).next ' ').isQuoted
        = (Nesting.scan ⟨1, .outside⟩ f).isQuoted := by
      rw [Nesting.isQuoted_eq, Nesting.isQuoted_eq, Nesting.quoting_next,
        isQuoted_next_space hsound]
    rw [lexemes_append (n := ⟨1, .outside⟩) trivial hrests _ _ (Or.inr (by decide)),
      lexemes_blank hsound (by decide), lexemes_cons (by decide) hrest, hdepth, hquoted]
    simp [marks, lexemes, show isWordChar ')' = false by decide, show ')'.toUpper = ')' by decide]
  rw [hmarks] at hlaid
  -- the last lexemes agree, and they hold the depth and the quoting at the end of the two texts
  have hthin := hlaid.thinned_text hout (by decide)
  rw [hinner, houter] at hthin
  obtain ⟨l₀, l', hl, hsub, hrest⟩ := hthin.concat
  obtain ⟨rfl, hlast⟩ := List.append_inj' hl rfl
  simp only [List.cons.injEq, Lexeme.mk.injEq, and_true, true_and] at hlast
  refine ⟨hrest.guarded (fun x hx => h.guarded x (hsub hx)), ?_⟩
  rw [Nesting.eq_of_unquoted hlast.2, hlast.1]

/-- Blanks inside the parentheses do not matter. -/
theorem Encloses.blanks {a f b : Text} (h : Encloses f) (ha : AllBlank a) (hb : AllBlank b) :
    Encloses (a ++ (f ++ b)) := by
  have hout : Nesting.isQuoted ⟨1, .outside⟩ = false := rfl
  have hrests := Nesting.rests_of_unquoted hout none
  -- no word goes on behind the text
  have hfree : b.head?.any isWordChar = false := by
    cases b with
    | nil => rfl
    | cons c cs =>
        have hc := isWordChar_eq_any c
        rw [if_pos (hb c (by simp))] at hc
        simpa using hc
  have hscana : Nesting.scan ⟨1, .outside⟩ a = ⟨1, .outside⟩ := Nesting.scan_allBlank rfl ha
  have hedge : edge none a = none := by
    rw [ha.edge_eq]
    split <;> rfl
  constructor
  · rw [lexemes_append (n := ⟨1, .outside⟩) trivial hrests _ _ (Or.inl (by rw [hedge]; rfl)),
      hscana, lexemes_allBlank ha, hedge,
      lexemes_append (n := ⟨1, .outside⟩) trivial hrests _ _ (Or.inr hfree),
      lexemes_allBlank hb, List.nil_append, List.append_nil]
    exact h.guarded
  · rw [Nesting.scan, List.foldl_append, List.foldl_append]
    show ((Nesting.scan ⟨1, .outside⟩ a).scan f).scan b = _
    rw [hscana, h.scan]
    exact Nesting.scan_allBlank rfl hb

/-- What is closed in itself is so at any depth. -/
theorem Nesting.scan_deeper {n : Nesting} (hn : n.quoting.Sound) {e : Option Char}
    (he : n.Rests e) {t : Text} (hg : Guarded 0 (lexemes n (t.marks e))) (d : Nat) :
    Nesting.scan ⟨n.depth + d, n.quoting⟩ t = ⟨(n.scan t).depth + d, (n.scan t).quoting⟩ := by
  induction t generalizing n e with
  | nil => rfl
  | cons c cs ih =>
      have hguard : c = ')' → n.isQuoted = false → 0 < n.depth := by
        rintro rfl hq
        rw [lexemes_cons (by decide) he, Guarded.cons_iff] at hg
        exact hg.1 rfl hq
      have hnext : Nesting.next ⟨n.depth + d, n.quoting⟩ c
          = ⟨(n.next c).depth + d, (n.next c).quoting⟩ := by
        have hquoted : Nesting.isQuoted ⟨n.depth + d, n.quoting⟩ = n.isQuoted := rfl
        rw [Nesting.next_eq, Nesting.next_eq]
        unfold Nesting.depthAfter
        rw [hquoted]
        split_ifs with h1 h2 h3
        · rfl
        · simp only [Nesting.mk.injEq, and_true]
          omega
        · have hpos := hguard h3 (by simpa using h1)
          simp only [Nesting.mk.injEq, and_true]
          omega
        · rfl
      show (Nesting.next ⟨n.depth + d, n.quoting⟩ c).scan cs = _
      rw [hnext]
      by_cases hb : isBlank c = true
      · rw [lexemes_blank hn hb] at hg
        exact ih (Nesting.sound_next hn c) (Nesting.rests_next hn hb) hg
      · rw [lexemes_cons (by simpa using hb) he, Guarded.cons_iff] at hg
        exact ih (Nesting.sound_next hn c) (Nesting.rests_some _ c) hg.2

/-- So what is enclosed may stand in any number of parentheses. -/
theorem Encloses.scan_deeper {u : Text} (h : Encloses u) (d : Nat) :
    Nesting.scan ⟨d + 1, .outside⟩ u = ⟨d + 1, .outside⟩ := by
  have hdeep := Nesting.scan_deeper (n := ⟨1, .outside⟩) trivial
    (Nesting.rests_of_unquoted rfl none)
    (fun x hx hc hq => Nat.lt_of_succ_lt (h.guarded x hx hc hq)) d
  rw [h.scan] at hdeep
  rw [Nat.add_comm d 1]
  exact hdeep

end SqlLayout
