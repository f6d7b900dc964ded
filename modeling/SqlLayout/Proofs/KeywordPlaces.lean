import SqlLayout.Proofs.CharacterBounds

set_option autoImplicit false

/-! # Keywords among the bytes

The search for a keyword (`Text.occurrences`) reads every character. The loop over the bytes
(`Bytewise.keywords`) compares the keyword at the first byte of a word and then goes on behind the
last byte of that word, without following the nesting through it. Both find the offsets at which
the keyword occurs among the bytes (`keywords_exact`).

A jump is harmless because the characters of a word do not change the nesting outside literals, and
because the loop never comes to stand in the middle of a word outside literals: a word that starts
in a literal does not leave it (`Nesting.isQuoted_next_word`).
-/

namespace SqlLayout

open Text

/-! ## Words -/

theorem ne_of_isWordChar {c d : Char} (hc : isWordChar c = true) (hd : isWordChar d = false) :
    c ≠ d := by
  rintro rfl
  rw [hc] at hd
  cases hd

theorem isWordChar_eq_false_of_isQuoteMark {m : Char} (h : isQuoteMark m = true) :
    isWordChar m = false := by
  simp only [isQuoteMark, Bool.or_eq_true, beq_iff_eq] at h
  rcases h with (rfl | rfl) | rfl <;> decide

namespace Nesting

theorem next_word {n : Nesting} (hn : n.isQuoted = false) {c : Char} (hc : isWordChar c = true) :
    n.next c = n := by
  have hmark : isQuoteMark c = false := by
    by_contra h
    rw [Bool.not_eq_false] at h
    exact ne_of_isWordChar hc (isWordChar_eq_false_of_isQuoteMark h) rfl
  have hopen : c ≠ '(' := ne_of_isWordChar hc (by decide)
  have hclose : c ≠ ')' := ne_of_isWordChar hc (by decide)
  obtain ⟨depth, quoting⟩ := n
  cases quoting with
  | outside => simp [next, next?, hmark, hopen, hclose]
  | inside m => cases hn
  | escaped m => cases hn

theorem scan_word {n : Nesting} (hn : n.isQuoted = false) {w : Text}
    (hw : ∀ c ∈ w, isWordChar c = true) : n.scan w = n := by
  induction w with
  | nil => rfl
  | cons c cs ih =>
      show (n.next c).scan cs = n
      rw [next_word hn (hw c List.mem_cons_self)]
      exact ih fun d hd => hw d (List.mem_cons_of_mem c hd)

theorem after_concat (a : Text) (c : Char) : after (a ++ [c]) = (after a).next c := by
  rw [after, scan_append]
  rfl

theorem sound_after (a : Text) : (after a).quoting.Sound := sound_scan sound_start a

theorem isQuoted_next_word {n : Nesting} (hs : n.quoting.Sound) (hn : n.isQuoted = true) {c : Char}
    (hc : isWordChar c = true) : (n.next c).isQuoted = true := by
  have hslash : c ≠ '\x5c' := ne_of_isWordChar hc (by decide)
  obtain ⟨depth, quoting⟩ := n
  cases quoting with
  | outside => cases hn
  | inside m =>
      have hmark : c ≠ m := ne_of_isWordChar hc (isWordChar_eq_false_of_isQuoteMark hs)
      simp [next, next?, hslash, hmark, isQuoted]
  | escaped m => rfl

end Nesting

namespace Text

/-- What follows the first word of a text. -/
theorem head_dropWhile_word (t : Text) :
    ∀ c, (t.dropWhile isWordChar).head? = some c → isWordChar c = false := by
  intro c hc
  have hhead := List.head?_dropWhile_not isWordChar t
  rw [hc] at hhead
  simpa using hhead

theorem mem_firstWord {t : Text} : ∀ c ∈ t.firstWord, isWordChar c = true :=
  fun _ hc => List.mem_takeWhile_imp hc

/-- A word with another character behind it is the first word. -/
theorem takeWhile_word {w r : Text} (hw : ∀ c ∈ w, isWordChar c = true)
    (hr : ∀ c, r.head? = some c → isWordChar c = false) :
    (w ++ r).takeWhile isWordChar = w ∧ (w ++ r).dropWhile isWordChar = r := by
  have hstop : r.takeWhile isWordChar = [] ∧ r.dropWhile isWordChar = r := by
    cases r with
    | nil => exact ⟨rfl, rfl⟩
    | cons c cs =>
        have hc : ¬ isWordChar c = true := by simp [hr c rfl]
        exact ⟨List.takeWhile_cons_of_neg hc, List.dropWhile_cons_of_neg hc⟩
  rw [List.takeWhile_append_of_pos hw, List.dropWhile_append_of_pos hw, hstop.1, hstop.2]
  exact ⟨List.append_nil w, rfl⟩

/-- A loop at a word: its first character, the word itself, and what it goes on with. -/
theorem exists_cons_word {w r : Text} (hne : w ≠ []) (hw : ∀ c ∈ w, isWordChar c = true)
    (hr : ∀ c, r.head? = some c → isWordChar c = false) :
    ∃ c cs, w = c :: cs ∧ isWordChar c = true ∧ firstWord (c :: (cs ++ r)) = c :: cs ∧
      (cs ++ r).dropWhile isWordChar = r := by
  obtain ⟨hfirst, hrest⟩ := takeWhile_word hw hr
  obtain ⟨c, cs, rfl⟩ := List.exists_cons_of_ne_nil hne
  have hc := hw c List.mem_cons_self
  rw [List.cons_append, List.dropWhile_cons_of_pos hc] at hrest
  exact ⟨c, cs, rfl, hc, hfirst, hrest⟩

/-- Induction along a loop that passes over the words outside literals as a whole and reads all
else character by character. Where the loop stands, `a` has been read and the rest has not; a word
that it comes upon outside literals starts there. -/
theorem word_induction {x : Text} {motive : Text → Text → Prop} (nil : motive x [])
    (other : ∀ a c cs, x = a ++ c :: cs → (!(Nesting.after a).isQuoted && isWordChar c) = false →
      motive (a ++ [c]) cs → motive a (c :: cs))
    (word : ∀ a w r, x = a ++ (w ++ r) → (Nesting.after a).isQuoted = false →
      a.getLast?.any isWordChar = false → w ≠ [] → (∀ c ∈ w, isWordChar c = true) →
      (∀ c, r.head? = some c → isWordChar c = false) → motive (a ++ w) r → motive a (w ++ r)) :
    motive [] x := by
  -- the loop never stands in the middle of a word outside literals
  suffices hall : ∀ (m : Nat) (a rest : Text), rest.length = m → x = a ++ rest →
      ((Nesting.after a).isQuoted = false → a.getLast?.any isWordChar = true →
        ∀ c, rest.head? = some c → isWordChar c = false) → motive a rest from
    hall x.length [] x rfl rfl (by simp)
  intro m
  induction m using Nat.strong_induction_on with
  | _ m ih =>
      intro a rest hlength hx hstands
      cases rest with
      | nil =>
          rw [List.append_nil] at hx
          exact hx ▸ nil
      | cons c cs =>
          cases hcond : !(Nesting.after a).isQuoted && isWordChar c with
          | false =>
              refine other a c cs hx hcond (ih cs.length ?_ _ _ rfl (by simp [hx]) ?_)
              · rw [← hlength, List.length_cons]
                omega
              · -- a word character read on its own stands in a literal, and so does the next
                intro hunquoted hword
                rw [List.getLast?_concat, Option.any_some] at hword
                have hquoted : (Nesting.after a).isQuoted = true := by simpa [hword] using hcond
                rw [Nesting.after_concat,
                  Nesting.isQuoted_next_word (Nesting.sound_after a) hquoted hword] at hunquoted
                cases hunquoted
          | true =>
              obtain ⟨hunquoted, hc⟩ :
                  (Nesting.after a).isQuoted = false ∧ isWordChar c = true := by
                simpa using hcond
              have hbefore : a.getLast?.any isWordChar = false := by
                by_contra hgoes
                have hother := hstands hunquoted (by simpa using hgoes) c rfl
                rw [hc] at hother
                cases hother
              have hsplit : c :: cs = firstWord (c :: cs) ++ (c :: cs).dropWhile isWordChar :=
                List.takeWhile_append_dropWhile.symm
              have hne : firstWord (c :: cs) ≠ [] := by
                rw [firstWord, List.takeWhile_cons_of_pos hc]
                exact List.cons_ne_nil _ _
              have hshorter : ((c :: cs).dropWhile isWordChar).length < m := by
                have hlen := congrArg List.length hsplit
                rw [hlength, List.length_append] at hlen
                have hpos := List.length_pos_of_ne_nil hne
                omega
              rw [hsplit]
              rw [hsplit] at hx
              refine word a _ _ hx hunquoted hbefore hne mem_firstWord (head_dropWhile_word _) ?_
              exact ih _ hshorter _ _ rfl (by rw [hx, List.append_assoc])
                fun _ _ => head_dropWhile_word _

/-- Inside a word the search finds nothing. -/
theorem occurrencesFrom_word {n : Nesting} (hn : n.isQuoted = false) {w : Text}
    (hw : ∀ c ∈ w, isWordChar c = true) (k : Text) (i : Nat) (r : Text) :
    occurrencesFrom k i n true (w ++ r) = occurrencesFrom k (i + w.length) n true r := by
  induction w generalizing i with
  | nil => rfl
  | cons c cs ih =>
      have hc := hw c List.mem_cons_self
      rw [List.cons_append, occurrencesFrom_cons, Nesting.next_word hn hc, hc, hn]
      simp only [Bool.not_true, Bool.and_false, Bool.false_and, Bool.false_eq_true, if_false,
        List.nil_append, List.length_cons]
      rw [ih fun d hd => hw d (List.mem_cons_of_mem c hd), Nat.add_assoc, Nat.add_comm 1]

/-- A word is compared with the keyword at its first character. -/
theorem occurrencesFrom_first {n : Nesting} (hn : n.isQuoted = false) {w : Text} (hne : w ≠ [])
    (hw : ∀ c ∈ w, isWordChar c = true) (k : Text) (i : Nat) (r : Text) :
    occurrencesFrom k i n false (w ++ r) =
      (if startsKeyword (w ++ r) k then [i] else []) ++
        occurrencesFrom k (i + w.length) n true r := by
  obtain ⟨c, cs, rfl⟩ := List.exists_cons_of_ne_nil hne
  have hc := hw c List.mem_cons_self
  rw [List.cons_append, occurrencesFrom_cons, Nesting.next_word hn hc, hn, hc,
    occurrencesFrom_word hn fun d hd => hw d (List.mem_cons_of_mem c hd), List.length_cons,
    Nat.add_assoc, Nat.add_comm 1]
  rfl

theorem any_getLast?_word {w : Text} (hne : w ≠ []) (hw : ∀ c ∈ w, isWordChar c = true)
    (a : Text) : (a ++ w).getLast?.any isWordChar = true := by
  rw [List.getLast?_append_of_ne_nil a hne, List.getLast?_eq_getLast_of_ne_nil hne, Option.any_some]
  exact hw _ (List.getLast_mem hne)

theorem after_word {a w : Text} (ha : (Nesting.after a).isQuoted = false)
    (hw : ∀ c ∈ w, isWordChar c = true) : Nesting.after (a ++ w) = Nesting.after a := by
  rw [Nesting.after, Nesting.scan_append]
  exact Nesting.scan_word ha hw

end Text

/-! ## The loop over the bytes -/

namespace Bytewise

/-- Whether the part of a text from a byte offset on starts with the whole word `keyword`. -/
def keywordAt (t : Text) (i : Nat) (keyword : Text) : Bool :=
  (t.slice? i (i + keyword.byteLength)).any (·.same keyword) &&
    !(t.octets[i + keyword.byteLength]?.any isWordChar)

/-- The byte offsets of the keyword, where `rest` are the bytes from `i` on and `n` is the nesting
there. A word outside literals is passed over as a whole. -/
def keywordsFrom (t keyword : Text) (i : Nat) (n : Nesting) (rest : Text) : List Nat :=
  match rest with
  | [] => []
  | c :: cs =>
    if !n.isQuoted && isWordChar c then
      let wordEnd := i + (Text.firstWord (c :: cs)).length
      let later := keywordsFrom t keyword wordEnd n (cs.dropWhile isWordChar)
      if keywordAt t i keyword then i :: later else later
    else keywordsFrom t keyword (i + 1) (n.next c) cs
termination_by rest.length
decreasing_by
  · exact Nat.lt_succ_of_le (List.dropWhile_sublist isWordChar).length_le
  · exact Nat.lt_succ_self _

/-- The byte offsets of the whole-word occurrences of a keyword outside literals. -/
def keywords (t keyword : Text) : List Nat := keywordsFrom t keyword 0 .start t.octets

end Bytewise

/-! ## Comparing at a byte -/

namespace Text

/-- Where a character starts, the part of the text with as many bytes as the keyword is the
keyword exactly if the text goes on with it. -/
theorem any_slice? (t k : Text) (j : Nat) :
    (t.slice? (t.byteOffset j) (t.byteOffset j + k.byteLength)).any (·.same k)
      = startsWith (t.drop j) k := by
  rw [Bool.eq_iff_iff, Option.any_eq_true]
  constructor
  · rintro ⟨w, hslice, hw⟩
    obtain ⟨x, y, hxy, hx, -⟩ := slice?_eq_some hslice
    have hdrop : t.octets.drop (t.byteOffset j) = (w ++ y).octets := by
      rw [← hx, ← length_octets, hxy, octets_append, List.drop_left]
    rw [← startsWith_octets, ← drop_octets, hdrop, startsWith_octets]
    exact startsWith_append (same_iff.mp hw) y
  · intro h
    obtain ⟨s, r, hsr, hs⟩ := startsWith_split h
    have hsize : s.byteLength = k.byteLength := by rw [← byteLength_upper, hs, byteLength_upper]
    have hplace : t.byteOffset (j + s.length) = t.byteOffset j + k.byteLength := by
      rw [byteOffset_add, hsr, List.take_left, hsize]
    refine ⟨s, ?_, same_iff.mpr hs⟩
    rw [← hplace, slice?_byteOffset t (Nat.le_add_right _ _), List.drop_take,
      Nat.add_sub_cancel_left, hsr, List.take_left]

/-- A byte of a word is a character. -/
theorem exists_index_of_word {t a cs : Text} {c : Char} (hc : isWordChar c = true)
    (h : t.octets = a ++ c :: cs) : ∃ j < t.length, t.byteOffset j = a.length := by
  have hlow : ¬ IsHigh c := by
    intro hhigh
    rw [hhigh.isWordChar_eq] at hc
    cases hc
  obtain ⟨x, y, rfl, rfl, hy⟩ := octets_split_first (startsCharacter_of_ascii hlow) h
  refine ⟨x.length, ?_, byteOffset_append x y⟩
  cases y with
  | nil => cases hy
  | cons d ds => simp

end Text

namespace Bytewise

theorem keywordAt_eq (t k : Text) (j : Nat) :
    keywordAt t (t.byteOffset j) k = startsKeyword (t.octets.drop (t.byteOffset j)) k.octets := by
  rw [keywordAt, any_slice?, startsKeyword, drop_octets, startsWith_octets, length_octets,
    ← drop_octets, List.drop_drop, List.head?_drop]

theorem keywordsFrom_word {n : Nesting} (hn : n.isQuoted = false) {w r : Text} (hne : w ≠ [])
    (hw : ∀ c ∈ w, isWordChar c = true) (hr : ∀ c, r.head? = some c → isWordChar c = false)
    (t k : Text) (i : Nat) :
    keywordsFrom t k i n (w ++ r) =
      (if keywordAt t i k then [i] else []) ++ keywordsFrom t k (i + w.length) n r := by
  obtain ⟨c, cs, rfl, hc, hfirst, hrest⟩ := exists_cons_word hne hw hr
  rw [List.cons_append, keywordsFrom, hn, hc, hfirst, hrest]
  simp only [Bool.not_false, Bool.and_self, if_true]
  split <;> rfl

theorem keywordsFrom_other {n : Nesting} {c : Char} (h : (!n.isQuoted && isWordChar c) = false)
    (t k : Text) (i : Nat) (cs : Text) :
    keywordsFrom t k i n (c :: cs) = keywordsFrom t k (i + 1) (n.next c) cs := by
  rw [keywordsFrom, h]
  rfl

/-- The loop finds what the search through the bytes finds. -/
theorem keywords_eq_octets (t k : Text) : keywords t k = t.octets.occurrences k.octets := by
  apply word_induction (x := t.octets) (motive := fun a rest =>
    keywordsFrom t k a.length (Nesting.after a) rest
      = occurrencesFrom k.octets a.length (Nesting.after a) (a.getLast?.any isWordChar) rest)
  case nil => simp [keywordsFrom, occurrencesFrom]
  case other =>
    intro a c cs _ hcond ih
    rw [List.length_append, Nesting.after_concat, List.getLast?_concat] at ih
    rw [keywordsFrom_other hcond, occurrencesFrom_cons, hcond]
    exact ih
  case word =>
    intro a w r hx hunquoted hbefore hne hw hr ih
    obtain ⟨c, cs, hcons⟩ := List.exists_cons_of_ne_nil hne
    have hfirst : isWordChar c = true := hw c (by rw [hcons]; exact List.mem_cons_self)
    have hbytes : t.octets = a ++ c :: (cs ++ r) := by
      rw [hx, hcons]
      rfl
    obtain ⟨j, -, hj⟩ := exists_index_of_word hfirst hbytes
    have hat : keywordAt t a.length k = startsKeyword (w ++ r) k.octets := by
      rw [← hj, keywordAt_eq, hj, hx, List.drop_left]
    rw [List.length_append, after_word hunquoted hw, any_getLast?_word hne hw] at ih
    rw [keywordsFrom_word hunquoted hne hw hr, ih, hat, hbefore,
      occurrencesFrom_first hunquoted hne hw]

end Bytewise

/-! ## Bytes and characters -/

namespace Text

theorem isWordChar_of_mem_octets {c : Char} (hc : isWordChar c = false) :
    ∀ d ∈ octets [c], isWordChar d = false := by
  intro d hd
  by_cases hhigh : IsHigh c
  · exact (isHigh_of_mem_octets hhigh d hd).isWordChar_eq
  · rw [octets_of_ascii hhigh, List.mem_singleton] at hd
    rwa [hd]

theorem octets_word {c : Char} (hc : isWordChar c = true) : octets [c] = [c] := by
  apply octets_of_ascii
  intro hhigh
  rw [hhigh.isWordChar_eq] at hc
  cases hc

theorem head?_octets (t : Text) : t.octets.head?.any isWordChar = t.head?.any isWordChar := by
  cases t with
  | nil => rfl
  | cons c cs =>
      rw [octets_cons]
      cases hc : isWordChar c with
      | true => rw [octets_word hc]; rfl
      | false =>
          obtain ⟨d, ds, hd⟩ := List.exists_cons_of_ne_nil (octets_ne_nil c)
          have hother := isWordChar_of_mem_octets hc d (by rw [hd]; exact List.mem_cons_self)
          rw [hd]
          simp [hc, hother]

theorem startsKeyword_octets (t k : Text) :
    startsKeyword t.octets k.octets = startsKeyword t k := by
  rw [startsKeyword, startsKeyword, startsWith_octets]
  cases h : startsWith t k with
  | false => rfl
  | true =>
      obtain ⟨s, r, rfl, hs⟩ := startsWith_split h
      have hlength : k.octets.length = s.octets.length := by
        rw [length_octets, length_octets, ← byteLength_upper, ← hs, byteLength_upper]
      rw [octets_append, hlength, List.drop_left, ← length_eq_of_upper_eq hs, List.drop_left,
        head?_octets]

/-- The search finds nothing in characters of no word. -/
theorem occurrencesFrom_others {w : Text} (hne : w ≠ []) (hw : ∀ c ∈ w, isWordChar c = false)
    (k : Text) (i : Nat) (n : Nesting) (inWord : Bool) (r : Text) :
    occurrencesFrom k i n inWord (w ++ r)
      = occurrencesFrom k (i + w.length) (n.scan w) false r := by
  induction w generalizing i n inWord with
  | nil => exact absurd rfl hne
  | cons c cs ih =>
      have hfirst : occurrencesFrom k i n inWord (c :: (cs ++ r))
          = occurrencesFrom k (i + 1) (n.next c) false (cs ++ r) := by
        rw [occurrencesFrom_cons, hw c List.mem_cons_self]
        simp
      rw [List.cons_append, hfirst]
      cases cs with
      | nil => rfl
      | cons d ds =>
          rw [ih (List.cons_ne_nil d ds) fun e he => hw e (List.mem_cons_of_mem c he),
            List.length_cons (a := c), Nat.add_assoc, Nat.add_comm 1]
          rfl

theorem occurrencesFrom_octets {n : Nesting} (hn : n.quoting.Sound) (k a t : Text)
    (inWord : Bool) :
    occurrencesFrom k.octets a.octets.length n inWord t.octets
      = (occurrencesFrom k a.length n inWord t).map (byteOffset (a ++ t)) := by
  induction t generalizing a n inWord with
  | nil => rfl
  | cons c cs ih =>
      have hlater := ih (Nesting.sound_next hn c) (a ++ [c]) (isWordChar c)
      rw [List.append_assoc, List.singleton_append, octets_append, List.length_append,
        List.length_append, List.length_singleton] at hlater
      rw [occurrencesFrom_cons k, List.map_append, ← hlater, octets_cons]
      cases hc : isWordChar c with
      | true =>
          have hkeyword : startsKeyword (c :: octets cs) k.octets = startsKeyword (c :: cs) k := by
            rw [← startsKeyword_octets (c :: cs), octets_cons, octets_word hc]
            rfl
          rw [octets_word hc, List.singleton_append, occurrencesFrom_cons, hkeyword, hc]
          congr 1
          split
          · rw [List.map_singleton, byteOffset_append]
          · rfl
      | false =>
          -- no keyword starts inside the bytes of such a character
          have hnone : (if (!n.isQuoted && false && !inWord && startsKeyword (c :: cs) k) = true
              then [a.length] else []) = [] := by simp
          rw [hnone, occurrencesFrom_others (octets_ne_nil c) (isWordChar_of_mem_octets hc),
            Nesting.scan_octets hn]
          rfl

theorem occurrences_octets (t k : Text) :
    t.octets.occurrences k.octets = (t.occurrences k).map t.byteOffset :=
  occurrencesFrom_octets sound_start k [] t false

end Text

/-- An occurrence, by the characters around it. -/
theorem Text.occursAt_iff {k x : Text} {i : Nat} :
    OccursAt k x i ↔ (Nesting.after (x.take i)).isQuoted = false ∧ x[i]?.any isWordChar = true ∧
      (i = 0 ∨ x[i - 1]?.any isWordChar = false) ∧
      upper ((x.drop i).take k.length) = k.upper ∧ x[i + k.length]?.any isWordChar = false := by
  have hhead : (∃ c, (x.drop i).head? = some c ∧ isWordChar c = true) ↔
      x[i]?.any isWordChar = true := by
    rw [List.head?_drop, Option.any_eq_true]
  have hafter : (∀ c, (x.drop (i + k.length)).head? = some c → isWordChar c = false) ↔
      x[i + k.length]?.any isWordChar = false := by
    rw [List.head?_drop, Option.any_eq_false]
  -- an index in front of the place only makes sense inside the text
  have hbefore : i < x.length → ((∀ c, (x.take i).getLast? = some c → isWordChar c = false) ↔
      (i = 0 ∨ x[i - 1]?.any isWordChar = false)) := by
    intro hi
    cases i with
    | zero => simp
    | succ i =>
        have hlast : (x.take (i + 1)).getLast? = x[i]? := by
          rw [List.getLast?_eq_getElem?, List.length_take, Nat.min_eq_left (by omega),
            List.getElem?_take_of_lt (by omega)]
          rfl
        rw [hlast, Nat.add_sub_cancel, Option.any_eq_false]
        simp
  have hinside : x[i]?.any isWordChar = true → i < x.length := by
    intro hword
    by_contra hge
    rw [List.getElem?_eq_none (by omega)] at hword
    cases hword
  constructor
  · rintro ⟨hspelled, hword, hunquoted, hleft, hright⟩
    have hi := hinside (hhead.mp hword)
    exact ⟨hunquoted, hhead.mp hword, (hbefore hi).mp hleft, hspelled, hafter.mp hright⟩
  · rintro ⟨hunquoted, hword, hleft, hspelled, hright⟩
    have hi := hinside hword
    exact ⟨hspelled, hhead.mpr hword, hunquoted, (hbefore hi).mpr hleft, hafter.mpr hright⟩

/-- The loop over the bytes finds, from left to right, the offsets at which the bytes of the text
read the keyword as a word of its own outside literals. -/
theorem keywords_exact (t k : Text) :
    (Bytewise.keywords t k).Pairwise (· < ·) ∧
    (∀ i, i ∈ Bytewise.keywords t k ↔
      (Nesting.after (t.octets.take i)).isQuoted = false ∧
      t.octets[i]?.any isWordChar = true ∧
      (i = 0 ∨ t.octets[i - 1]?.any isWordChar = false) ∧
      upper ((t.octets.drop i).take k.byteLength) = k.octets.upper ∧
      t.octets[i + k.byteLength]?.any isWordChar = false) ∧
    Bytewise.keywords t k = (t.occurrences k).map t.byteOffset := by
  refine ⟨?_, ?_, ?_⟩
  · rw [Bytewise.keywords_eq_octets]
    exact pairwise_occurrences _ _
  · intro i
    rw [Bytewise.keywords_eq_octets, mem_occurrences_iff, occursAt_iff, length_octets]
  · rw [Bytewise.keywords_eq_octets, occurrences_octets]

end SqlLayout
