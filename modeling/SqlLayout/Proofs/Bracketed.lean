import SqlLayout.Proofs.CommaLists
import SqlLayout.Proofs.Conditions

set_option autoImplicit false

/-! # Parentheses on one line

A layout in parentheses, put on one line, has a space inside each parenthesis and around the
keyword before it. Searching that line finds the same parenthesis, with the same text before and
after it (`enclosed?_bracketed`), so the window function or value list on it is laid out as
before (`relaid_bracket`, `relaid_inList`).
-/

namespace SqlLayout

open Text

namespace Layout

/-! ## Suffixes -/

/-- What may follow the last line of an item. -/
def IsSuffix (suffix : Text) : Prop := suffix = [] ∨ suffix = [','] ∨ suffix = ' ' :: Keyword.AND

/-- Suffixes keep a text neat; `AND` needs a text before it. -/
theorem Neat.suffixed {t suffix : Text} (ht : Neat t) (hne : t ≠ []) (hs : IsSuffix suffix) :
    Neat (t ++ suffix) := by
  rcases hs with rfl | rfl | rfl
  · rwa [List.append_nil]
  · exact ht.append (Neat.of_unblank (by decide))
  · exact ht.space (Neat.of_unblank (by decide)) hne (by decide)

/-- The layout of an item is found again when its lines, put on one line, are laid out. -/
structure Relaid (lay : Text → Text → Layout) (item suffix : Text) (block : Block) : Prop where
  neat : ∀ l ∈ block.lines, Neat l.text
  flat : flat block.lines = onOneLine (lay item []) ++ suffix
  again : lay (onOneLine (lay item [])) suffix = .ok block

/-! ## The line with the parentheses -/

/-- A text with a space behind it, if there is one. -/
def spaced (t : Text) : Text := if t = [] then [] else t ++ [' ']

/-- What stands before the opening parenthesis. -/
def openText (before keyword : Text) : Text := spaced before ++ spaced keyword

/-- What stands between the parentheses. -/
def innerText (inner : Text) : Text := ' ' :: (if inner = [] then [] else inner ++ [' '])

/-- What stands after the closing parenthesis. -/
def afterText (after : Text) : Text := if after = [] then [] else ' ' :: after

/-- A layout in parentheses on one line. -/
def bracketed (before keyword inner after : Text) : Text :=
  openText before keyword ++ '(' :: (innerText inner ++ ')' :: afterText after)

theorem openLine_eq (before keyword : Text) :
    openLine before keyword = openText before keyword ++ ['('] := by
  unfold openLine openText spaced
  by_cases hb : before = [] <;> by_cases hk : keyword = [] <;> simp [hb, hk]

theorem closeLine_eq (after suffix : Text) :
    closeLine after suffix = ')' :: (afterText after ++ suffix) := by
  unfold closeLine afterText
  by_cases ha : after = [] <;> simp [ha]

/-- The line that opens a parenthesis is neat. -/
theorem neat_openLine {before keyword : Text} (hb : Neat before) (hk : Neat keyword) :
    Neat (openLine before keyword) := by
  have hparen : Neat ['('] := Neat.of_unblank (by decide)
  have hopener : Neat (if keyword.isEmpty then ['('] else keyword ++ [' ', '(']) := by
    split
    · exact hparen
    · rename_i hne
      exact hk.space hparen (by simpa using hne) (by simp)
  unfold openLine
  dsimp only
  split
  · exact hopener
  · rename_i hne
    refine hb.space hopener (by simpa using hne) ?_
    split <;> simp

/-- The line that closes it is neat, whatever suffix it gets. -/
theorem neat_closeLine {after suffix : Text} (ha : Neat after) (hs : IsSuffix suffix) :
    Neat (closeLine after suffix) := by
  have hparen : Neat [')'] := Neat.of_unblank (by decide)
  unfold closeLine
  split
  · exact Neat.suffixed hparen (by simp) hs
  · rename_i hne
    have hspace := hparen.space ha (by simp) (by simpa using hne)
    exact Neat.suffixed (t := [')', ' '] ++ after) hspace (by simp) hs

/-- A parenthesis laid out: the line that opens it, the lines inside, the line that closes it. -/
def bracketBlock (level : Nat) (before keyword : Text) (inner : List Line)
    (after suffix : Text) : Block :=
  ⟨⟨level, openLine before keyword⟩ :: (inner ++ [⟨level, closeLine after suffix⟩]), level⟩

/-- The lines of a layout in parentheses, on one line. -/
theorem flat_bracket {before keyword after suffix : Text} (hb : Neat before) (hk : Neat keyword)
    (ha : Neat after) (hs : IsSuffix suffix) (level : Nat) (inner : List Line) :
    flat (bracketBlock level before keyword inner after suffix).lines
      = bracketed before keyword (flat inner) after ++ suffix := by
  have hopen := neat_openLine hb hk
  have hclose := neat_closeLine ha hs
  have hopenNe : openLine before keyword ≠ [] := by simp [openLine_eq]
  have hcloseNe : closeLine after suffix ≠ [] := by simp [closeLine_eq]
  rw [bracketBlock, flat_cons_of_ne hopen hopenNe, flat_append, flat_singleton]
  dsimp only
  rw [hclose.normalize_eq]
  unfold bracketed innerText
  by_cases hf : flat inner = []
  · rw [if_pos hf, if_pos hf, headed, if_neg (by simpa using hcloseNe), openLine_eq, closeLine_eq]
    simp
  · have hne : headed (flat inner) (closeLine after suffix) ≠ [] := by
      simp [headed, hcloseNe]
    rw [if_neg hf, if_neg hf, headed, if_neg (by simpa using hne), headed,
      if_neg (by simpa using hcloseNe), openLine_eq, closeLine_eq]
    simp

/-- A layout in parentheses, put on one line without a suffix. -/
theorem onOneLine_bracket {before keyword after : Text} (hb : Neat before) (hk : Neat keyword)
    (ha : Neat after) (level : Nat) (inner : List Line) :
    onOneLine (.ok (bracketBlock level before keyword inner after []))
      = bracketed before keyword (flat inner) after := by
  have hflat := flat_bracket hb hk ha (Or.inl rfl) level inner
  rwa [List.append_nil] at hflat

theorem innerText_eq (inner : Text) :
    ∃ b, AllBlank b ∧ innerText inner = [' '] ++ (inner ++ b) := by
  unfold innerText
  by_cases hi : inner = []
  · exact ⟨[], fun c hc => (by cases hc), by simp [hi]⟩
  · exact ⟨[' '], allBlank_space, by simp [hi]⟩

theorem trim_innerText {inner : Text} (h : Neat inner) : trim (innerText inner) = inner := by
  obtain ⟨b, hb, hinner⟩ := innerText_eq inner
  rw [hinner]
  exact h.trim_blanks allBlank_space hb

/-- The space behind the closing parenthesis is trimmed. -/
theorem trim_afterText {after : Text} (h : Neat after) : trim (afterText after) = after := by
  unfold afterText
  split
  · rename_i hnil
    rw [hnil]
    rfl
  · have htrim := h.trim_blanks allBlank_space (b := []) (fun c hc => by cases hc)
    simpa using htrim

theorem encloses_innerText {inner : Text} (h : Encloses inner) : Encloses (innerText inner) := by
  obtain ⟨b, hb, hinner⟩ := innerText_eq inner
  rw [hinner]
  exact h.blanks allBlank_space hb

/-- The parentheses are found again. -/
theorem enclosed?_bracketed {inner after : Text} (hi : Neat inner) (he : Encloses inner)
    (ha : Neat after) (before keyword : Text) :
    enclosed? (bracketed before keyword inner after) (openText before keyword).length
      = some (inner, after) := by
  rw [bracketed, enclosed?_of_encloses _ (encloses_innerText he), trim_innerText hi,
    trim_afterText ha]

/-- What a layout puts in the parentheses still closes where it ends. -/
theorem encloses_flat {u : Text} (h : Encloses u) {lines : List Line}
    (hs : ∀ e, Fresh e → ∃ P, Spread P (Text.glyphs e none (trim u)) (lineMarks lines)) :
    Encloses (flat lines) := by
  obtain ⟨e, he, hglyphs⟩ := glyphs_trim Track.clear_none (some '(') u
  have hfresh : Fresh e := by
    rcases he with rfl | rfl
    · exact Fresh.of_divider (by decide)
    · exact Fresh.none
  obtain ⟨P, hspread⟩ := hs e hfresh
  rw [← hglyphs] at hspread
  refine h.of_laid (q := none) ?_
  rw [marks_flat]
  exact (spread_closing Track.clear_none h.quoting hspread).laid

/-- The marks of an item laid out, without its suffix. -/
theorem laid_of_lays {P : Prop} {v : List Glyph} {suffix t : Text} {lines : List Line}
    (h : Lays P v suffix lines) (hf : flat lines = t ++ suffix) : Laid v (t.marks none) := by
  obtain ⟨v', e, hm, hs⟩ := h
  have hlen : ∀ e e' : Option Char, (suffix.marks e).length = (suffix.marks e').length := by
    intro e e'
    cases suffix with
    | nil => rfl
    | cons c cs =>
        rw [marks, marks]
        split <;> rfl
  rw [← marks_flat, hf, marks_append] at hm
  obtain ⟨rfl, -⟩ := List.append_inj' hm (hlen _ _)
  exact hs.laid

theorem neat_bracketBlock {before keyword after suffix : Text} (hb : Neat before)
    (hk : Neat keyword) (ha : Neat after) (hs : IsSuffix suffix) {inner : List Line}
    (hinner : ∀ l ∈ inner, Neat l.text) (level : Nat) :
    ∀ l ∈ (bracketBlock level before keyword inner after suffix).lines, Neat l.text := by
  intro l hl
  simp only [bracketBlock, List.mem_cons, List.mem_append, List.not_mem_nil, or_false] at hl
  rcases hl with rfl | hl | rfl
  · exact neat_openLine hb hk
  · exact hinner l hl
  · exact neat_closeLine ha hs

/-- A construct in parentheses is laid out as before, if its layout is that of the parenthesis with
the lines inside, and if the line in parentheses gives the same lines again. -/
theorem relaid_bracket {lay : Text → Text → Layout} {item before keyword after suffix : Text}
    {inner : List Line} {level : Nat} (hb : Neat before) (hk : Neat keyword) (ha : Neat after)
    (hs : IsSuffix suffix) (hinner : ∀ l ∈ inner, Neat l.text)
    (hlay : lay item [] = .ok (bracketBlock level before keyword inner after []))
    (hagain : lay (bracketed before keyword (flat inner) after) suffix
      = .ok (bracketBlock level before keyword inner after suffix)) :
    Relaid lay item suffix (bracketBlock level before keyword inner after suffix) := by
  have htext : onOneLine (lay item []) = bracketed before keyword (flat inner) after := by
    rw [hlay]
    exact onOneLine_bracket hb hk ha level inner
  refine ⟨neat_bracketBlock hb hk ha hs hinner level, ?_, ?_⟩
  · rw [htext]
    exact flat_bracket hb hk ha hs level inner
  · rw [htext]
    exact hagain

/-! ## Value lists -/

theorem startsWith_congr {s t p : Text} (h : upper (s.take p.length) = upper (t.take p.length)) :
    s.startsWith p = t.startsWith p := by
  rw [Bool.eq_iff_iff, startsWith, startsWith, same_iff, same_iff, h]

/-- What is found first is found first whatever follows it. -/
theorem find?_append {needle a k r : Text} (hne : needle ≠ []) (hk : k.upper = needle.upper)
    (h : find? needle (a ++ (k ++ r)) = some a.length) (r' : Text) :
    find? needle (a ++ (needle ++ r')) = some a.length := by
  have hlen : k.length = needle.length := length_eq_of_upper_eq hk
  rw [find?_eq_some_iff hne] at h ⊢
  refine ⟨?_, fun j hj => ?_⟩
  · rw [List.drop_left]
    exact startsWith_append rfl r'
  · rw [← h.2 j hj]
    refine startsWith_congr ?_
    have hcut : ∀ x y : Text, x.length = needle.length →
        ((a ++ (x ++ y)).drop j).take needle.length = ((a ++ x).drop j).take needle.length := by
      intro x y hx
      rw [← List.append_assoc, List.drop_append_of_le_length (by simp; omega),
        List.take_append_of_le_length (by simp; omega)]
    rw [hcut needle r' rfl, hcut k r hlen]
    simp only [upper, List.map_take, List.map_drop, List.map_append] at hk ⊢
    rw [hk]

theorem neat_enclosed {t inner after : Text} {o : Nat} (ht : Tidy t)
    (h : t.enclosed? o = some (inner, after)) : Neat inner ∧ Neat after := by
  obtain ⟨pre, u, v, rfl, -, rfl, rfl, -⟩ := enclosed?_split h
  have hu : Tidy ((pre ++ ['(']) ++ (u ++ ')' :: v)) := by simpa using ht
  have hv : Tidy ((pre ++ '(' :: (u ++ [')'])) ++ (v ++ [])) := by simpa using ht
  exact ⟨Neat.trim hu.part, Neat.trim hv.part⟩

/-- The parts of a value list and its layout. -/
theorem inList_split {condition suffix : Text} {level i : Nat} {block : Block}
    (hn : Neat condition) (hfind : find? inOpening condition = some i)
    (h : inList condition suffix level = .ok block) :
    ∃ a k r list after, condition = a ++ (k ++ r) ∧ a.length = i ∧ k.upper = inOpening.upper ∧
      a ≠ [] ∧ Neat a ∧ condition.enclosed? (i + (inOpening.length - 1)) = some (list, after) ∧
      block = bracketBlock level a Keyword.IN (listLines (level + 1) list) after suffix := by
  unfold inList at h
  simp only [hfind] at h
  cases henc : condition.enclosed? (i + (inOpening.length - 1)) with
  | none => simp [henc] at h
  | some pair =>
      obtain ⟨list, after⟩ := pair
      simp only [henc, Except.ok.injEq] at h
      obtain ⟨hstart, -⟩ := (find?_eq_some_iff (by decide)).mp hfind
      obtain ⟨k, r, hdrop, hk⟩ := startsWith_split hstart
      have hcond : condition = condition.take i ++ (k ++ r) := by
        rw [← hdrop, List.take_append_drop]
      have hlen : (condition.take i).length = i := by
        rw [List.length_take]
        have hlt : 0 < (condition.drop i).length := by
          rw [hdrop, List.length_append, length_eq_of_upper_eq hk]
          exact Nat.lt_add_right _ (by decide)
        rw [List.length_drop] at hlt
        omega
      -- of what stands before the key, only its length is used from here on
      generalize condition.take i = a at h hcond hlen
      -- the search key starts with a space, so what stands before it has no blank at its end
      obtain ⟨k', rfl⟩ : ∃ k', k = ' ' :: k' := by
        cases k with
        | nil => cases hk
        | cons c cs =>
            have hc : c.toUpper = ' ' := (List.cons.inj hk).1
            rw [(toUpper_eq_iff_of_not_word (by decide) c).mp hc]
            exact ⟨cs, rfl⟩
      have ha : Neat a := by
        rw [hcond] at hn
        exact hn.before_space
      have hane : a ≠ [] := by
        rintro rfl
        rw [hcond] at hn
        exact absurd (hn.head ' ' rfl) (by decide)
      refine ⟨a, ' ' :: k', r, list, after, hcond, hlen, hk, hane, ha, rfl, ?_⟩
      rw [← h, ha.trim_eq]
      rfl

/-- What the layout of a value list is. -/
theorem inList_eq_ok {condition : Text} {i : Nat} (hfind : find? inOpening condition = some i)
    {a list after : Text} (ha : Neat a) (htake : condition.take i = a)
    (henc : condition.enclosed? (i + (inOpening.length - 1)) = some (list, after))
    (suffix : Text) (level : Nat) :
    inList condition suffix level
      = .ok (bracketBlock level a Keyword.IN (listLines (level + 1) list) after suffix) := by
  unfold inList
  simp only [hfind, henc, htake, ha.trim_eq]
  rfl

/-- A value list is laid out as before: on one line, ` IN (` is found in the same place, the
parenthesis is closed in the same place, and between them are the same items. -/
theorem relaid_inList {condition suffix : Text} {level i : Nat} {block : Block}
    (hn : Neat condition) (hs : IsSuffix suffix) (hfind : find? inOpening condition = some i)
    (h : inList condition suffix level = .ok block) :
    Relaid (fun t s => inList t s level) condition suffix block ∧
      (find? inOpening (onOneLine (inList condition [] level))).isSome = true := by
  obtain ⟨a, k, r, list, after, hcond, rfl, hk, hane, ha, henc, rfl⟩ := inList_split hn hfind h
  obtain ⟨hlist, hafter⟩ := neat_enclosed hn.tidy henc
  have hIN : Neat Keyword.IN := Neat.of_unblank (by decide)
  have hlay : inList condition [] level
      = .ok (bracketBlock level a Keyword.IN (listLines (level + 1) list) after []) := by
    refine inList_eq_ok hfind ha ?_ henc [] level
    rw [hcond, List.take_left]
  have hinner : Encloses (flat (listLines (level + 1) list)) := by
    obtain ⟨pre, u, v, -, -, rfl, -, hu⟩ := enclosed?_split henc
    exact encloses_flat hu (fun e he => ⟨True, spread_items (Ready.untracked _)
      (fun h => absurd rfl h) he (level + 1)⟩)
  -- the same line, with what is searched for first
  have htext : bracketed a Keyword.IN (flat (listLines (level + 1) list)) after
      = a ++ (inOpening ++ (innerText (flat (listLines (level + 1) list)) ++
        ')' :: afterText after)) := by
    simp [bracketed, openText, spaced, hane, Keyword.IN, inOpening]
  have hfind' : find? inOpening
      (bracketed a Keyword.IN (flat (listLines (level + 1) list)) after) = some a.length := by
    rw [htext]
    rw [hcond] at hfind
    exact find?_append (by decide) hk hfind _
  have henc' := enclosed?_bracketed (neat_flat _) hinner hafter a Keyword.IN
  have hopen : (openText a Keyword.IN).length = a.length + (inOpening.length - 1) := by
    simp [openText, spaced, hane, Keyword.IN, inOpening]
  rw [hopen] at henc'
  have hagain := inList_eq_ok hfind' ha (by rw [htext, List.take_left]) henc' suffix level
  rw [listLines_flat hlist] at hagain
  refine ⟨relaid_bracket ha hIN hafter hs (neat_listLines hlist _) hlay hagain, ?_⟩
  rw [hlay, onOneLine_bracket ha hIN hafter, hfind']
  rfl

end Layout

end SqlLayout
