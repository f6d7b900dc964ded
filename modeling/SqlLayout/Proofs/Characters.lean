import SqlLayout.Proofs.Statements

set_option autoImplicit false

/-! # Characters and gaps

The *characters* of a text are those that are neither blank nor a terminator, and a *gap* is a
place between two of them with a blank in it. Formatting keeps the characters in their order,
up to capitals, and every gap but those in front of a comma (`format_characters`).

The proof reads characters and gaps off the marks of a text, one by one (`gapsFrom`).
-/

namespace SqlLayout

namespace Text

/-- Neither a blank nor a terminator. -/
def isKept (c : Char) : Bool := !isBlank c && c != terminator

/-- The characters of a text that are neither blank nor a terminator. -/
def characters (t : Text) : Text := t.filter isKept

/-- A blank stands between the characters number `i` and `i + 1`. -/
def GapAt (t : Text) (i : Nat) : Prop :=
  ∃ before c between d after, t = before ++ c :: (between ++ d :: after) ∧
    isKept c = true ∧ isKept d = true ∧ (∀ x ∈ between, isKept x = false) ∧
    (∃ x ∈ between, isBlank x = true) ∧ (characters before).length = i

/-! ## Reading the gaps of a text -/

/-- The characters of a text, each with whether there is a gap before it, where `g` says
whether there is a blank right before the text. -/
def gapsFrom : Bool → Text → List (Bool × Char)
  | _, [] => []
  | g, c :: cs =>
    if isBlank c then gapsFrom true cs
    else if c == terminator then gapsFrom g cs
    else (g, c) :: gapsFrom false cs

theorem map_snd_gapsFrom (g : Bool) (t : Text) : (gapsFrom g t).map Prod.snd = t.characters := by
  induction t generalizing g with
  | nil => rfl
  | cons c cs ih =>
      rw [gapsFrom, characters, List.filter_cons, isKept]
      split
      · rename_i hb
        simpa [hb, characters] using ih true
      · rename_i hb
        split
        · rename_i ht
          simpa [ht, bne, characters] using ih g
        · rename_i ht
          simpa [hb, ht, bne, characters] using ih false

theorem gapsFrom_kept {c : Char} (hc : isKept c = true) (g : Bool) (cs : Text) :
    gapsFrom g (c :: cs) = (g, c) :: gapsFrom false cs := by
  simp only [isKept, Bool.and_eq_true, Bool.not_eq_true', bne, beq_eq_false_iff_ne] at hc
  rw [gapsFrom, hc.1]
  simp [hc.2]

/-- What is not kept only leaves a gap behind. -/
theorem gapsFrom_skip {a : Text} (ha : ∀ x ∈ a, isKept x = false) (g : Bool) (b : Text) :
    gapsFrom g (a ++ b) = gapsFrom (g || a.any isBlank) b := by
  induction a generalizing g with
  | nil => simp
  | cons c cs ih =>
      have hc : isKept c = false := ha c (by simp)
      have hcs := fun x hx => ha x (List.mem_cons_of_mem c hx)
      rw [List.cons_append, gapsFrom]
      split
      · rename_i hb
        rw [ih hcs]
        simp [hb]
      · rename_i hb
        have ht : c = terminator := by simpa [isKept, hb] using hc
        rw [if_pos (by simpa using ht), ih hcs]
        simp [hb]

theorem gapsFrom_append (g : Bool) (a b : Text) :
    ∃ g', gapsFrom g (a ++ b) = gapsFrom g a ++ gapsFrom g' b := by
  induction a generalizing g with
  | nil => exact ⟨g, rfl⟩
  | cons c cs ih =>
      rw [List.cons_append, gapsFrom, gapsFrom]
      split
      · exact ih true
      · split
        · exact ih g
        · obtain ⟨g', hg'⟩ := ih false
          exact ⟨g', by rw [hg']; rfl⟩

/-- The character number `i` splits the text. -/
theorem exists_split_of_gapsFrom {g : Bool} {t : Text} {i : Nat} {x : Bool × Char}
    (h : (gapsFrom g t)[i]? = some x) :
    ∃ a b, t = a ++ x.2 :: b ∧ isKept x.2 = true ∧ a.characters.length = i ∧
      (i = 0 → x.1 = (g || a.any isBlank) ∧ ∀ y ∈ a, isKept y = false) ∧
      ∀ j, (gapsFrom g t)[i + 1 + j]? = (gapsFrom false b)[j]? := by
  induction t generalizing g i with
  | nil => simp [gapsFrom] at h
  | cons c cs ih =>
      by_cases hc : isKept c = true
      · rw [gapsFrom_kept hc] at h ⊢
        cases i with
        | zero =>
            obtain rfl : (g, c) = x := by simpa using h
            refine ⟨[], cs, rfl, hc, rfl, by simp, fun j => ?_⟩
            rw [show 0 + 1 + j = j + 1 by omega, List.getElem?_cons_succ]
        | succ i =>
            obtain ⟨a, b, rfl, hx, hi, -, hlater⟩ := ih (g := false) (by simpa using h)
            refine ⟨c :: a, b, rfl, hx, ?_, by simp, fun j => ?_⟩
            · simpa [characters, List.filter_cons, hc] using hi
            · rw [show i + 1 + 1 + j = i + 1 + j + 1 by omega, List.getElem?_cons_succ, hlater]
      · have hc' : isKept c = false := by simpa using hc
        -- a character that is not kept is skipped, and only counts for the gap
        have hstep : gapsFrom g (c :: cs) = gapsFrom (g || isBlank c) cs := by
          have hskip := gapsFrom_skip (a := [c]) (by simpa using hc') g cs
          simpa using hskip
        rw [hstep] at h ⊢
        obtain ⟨a, b, rfl, hx, hi, hzero, hlater⟩ := ih h
        refine ⟨c :: a, b, rfl, hx, ?_, fun h0 => ?_, hlater⟩
        · simpa [characters, List.filter_cons, hc] using hi
        · obtain ⟨h1, h2⟩ := hzero h0
          refine ⟨by simpa [Bool.or_assoc] using h1, fun y hy => ?_⟩
          rcases List.mem_cons.mp hy with rfl | hy
          · exact hc'
          · exact h2 y hy

/-- The gaps of a text are where the reading says. -/
theorem gapAt_iff {t : Text} {i : Nat} (g : Bool) :
    GapAt t i ↔ ∃ d, (gapsFrom g t)[i + 1]? = some (true, d) := by
  constructor
  · rintro ⟨before, c, between, d, after, rfl, hc, hd, hbetween, ⟨x, hx, hblank⟩, hi⟩
    refine ⟨d, ?_⟩
    obtain ⟨g', hg'⟩ := gapsFrom_append g before (c :: (between ++ d :: after))
    have hlen : (gapsFrom g before).length = i := by
      rw [← hi, ← map_snd_gapsFrom g before, List.length_map]
    have hany : between.any isBlank = true := List.any_eq_true.mpr ⟨x, hx, hblank⟩
    rw [hg', gapsFrom_kept hc, gapsFrom_skip hbetween, gapsFrom_kept hd,
      List.getElem?_append_right (by omega), hlen, show i + 1 - i = 1 by omega, hany]
    rfl
  · rintro ⟨d, hd⟩
    obtain ⟨x, hx⟩ : ∃ x, (gapsFrom g t)[i]? = some x := by
      have hlt := (List.getElem?_eq_some_iff.mp hd).1
      exact ⟨_, List.getElem?_eq_getElem (show i < (gapsFrom g t).length by omega)⟩
    obtain ⟨before, rest, rfl, hc, hi, -, hlater⟩ := exists_split_of_gapsFrom hx
    have hnext : (gapsFrom false rest)[0]? = some (true, d) := by
      rw [← hlater 0]
      exact hd
    obtain ⟨between, after, rfl, hd', -, hzero, -⟩ := exists_split_of_gapsFrom hnext
    obtain ⟨hgap, hbetween⟩ := hzero rfl
    have hany : between.any isBlank = true := by simpa using hgap.symm
    exact ⟨before, _, between, d, after, rfl, hc, hd', hbetween, List.any_eq_true.mp hany, hi⟩

/-! ## Gaps of marks -/

/-- The same reading of marks, where `g` says whether there is a gap already. -/
def markGaps : Bool → List Mark → List (Bool × Char)
  | _, [] => []
  | g, m :: ms =>
    if m.char == terminator then markGaps (g || m.left.isNone) ms
    else (g || m.left.isNone, m.char) :: markGaps false ms

theorem markGaps_marks (g : Bool) (e : Option Char) (t : Text) :
    markGaps g (t.marks e) = gapsFrom (g || e.isNone) t := by
  induction t generalizing g e with
  | nil => rfl
  | cons c cs ih =>
      rw [marks, gapsFrom]
      split
      · rw [ih]
        simp
      · rw [markGaps]
        split
        · rw [ih]
          simp
        · rw [ih]
          rfl

theorem markGaps_terminator (g : Bool) (v : List Mark) (e : Option Char) :
    markGaps g (v ++ [⟨e, terminator⟩]) = markGaps g v := by
  induction v generalizing g with
  | nil => rfl
  | cons m ms ih =>
      rw [List.cons_append, markGaps, markGaps]
      split
      · exact ih _
      · rw [ih]

end Text

/-- A character with its gap, before and after formatting. -/
def GapKept (x y : Bool × Char) : Prop :=
  Recase x.2 y.2 ∧ (x.1 = true → y.1 = true ∨ x.2 = ',')

theorem Recase.eq_terminator_iff {c d : Char} (h : Recase c d) :
    (d == terminator) = (c == terminator) := by
  rcases h with rfl | rfl
  · rfl
  · rw [Bool.eq_iff_iff, beq_iff_eq, beq_iff_eq]
    exact toUpper_eq_iff_of_not_word (by decide) c

/-- Marks that are laid out keep their characters and gaps. A gap may be known to the layout
before it is known to the text, but not the other way round. -/
theorem Laid.markGaps {v : List Glyph} {v' : List Mark} (h : Laid v v') {g g' : Bool}
    (hg : g = true → g' = true) :
    List.Forall₂ GapKept (Text.markGaps g (v.map Glyph.toMark)) (Text.markGaps g' v') := by
  induction h generalizing g g' with
  | nil => exact .nil
  | @keep x m v v' hk _ _ ih =>
      have hchar := hk.char
      rw [List.map_cons, Text.markGaps, Text.markGaps, hchar.eq_terminator_iff]
      have hleft : (g || x.left.isNone) = true →
          (g' || m.left.isNone) = true ∨ x.char = ',' := by
        intro hgap
        rcases hk.left with ⟨hnone, -⟩ | hcomma | ⟨p, p', hp, -, -⟩
        · exact Or.inl (by simp [hnone])
        · exact Or.inr hcomma
        · have hg1 : g = true := by simpa [hp] using hgap
          exact Or.inl (by simp [hg hg1])
      split
      · rename_i ht
        refine ih (fun hgap => (hleft hgap).resolve_right (fun hcomma => ?_))
        rw [hcomma] at ht
        exact absurd ht (by decide)
      · exact .cons ⟨hchar, hleft⟩ (ih (fun hf => by cases hf))
  | @drop a b m v v' ha hb _ hm hk _ _ ih =>
      -- the parenthesis behind the lost terminator starts a line
      have hm' : (m.char == terminator) = false := by
        rw [hk.char.eq_terminator_iff, hb]
        decide
      rw [List.map_cons, List.map_cons, Text.markGaps, ha, if_pos (by decide), Text.markGaps, hb,
        if_neg (by decide), Text.markGaps, hm', hm]
      have hchar := hk.char
      rw [hb] at hchar
      exact .cons ⟨hchar, fun _ => Or.inl (by simp)⟩ (ih (fun hf => by cases hf))

/-! ## Formatted text -/

/-- The marks of a text are those of its statement, and perhaps a terminator. -/
theorem marks_statement (t : Text) :
    (t.normalize.getLast? ≠ some terminator ∧
        t.marks none = t.normalize.withoutTerminator.marks none) ∨
      ∃ e, t.marks none = t.normalize.withoutTerminator.marks none ++ [⟨e, terminator⟩] := by
  rw [← Text.marks_normalize]
  rcases Text.withoutTerminator_split t.normalize with ⟨hlast, h⟩ | ⟨-, b, hb, h⟩
  · rw [h]
    exact Or.inl ⟨hlast, rfl⟩
  · refine Or.inr ⟨Text.edge (Text.edge none t.normalize.withoutTerminator) b, ?_⟩
    conv_lhs => rw [h]
    rw [Text.marks_append, Text.marks_append, hb.marks_eq, List.nil_append]
    rfl

theorem gapsFrom_format {width : Nat} {t o : Text} (h : format width t = .ok o) :
    List.Forall₂ GapKept (Text.gapsFrom true t) (Text.gapsFrom true o) := by
  obtain ⟨v, e, hv, hspread, -⟩ := spread_format h (Ready.untracked _) (fun hne => absurd rfl hne)
  have hgaps := hspread.laid.markGaps (show false = true → false = true from id)
  have hsource : Text.markGaps false (t.marks none)
      = Text.markGaps false (t.normalize.withoutTerminator.marks none) := by
    rcases marks_statement t with ⟨-, ht⟩ | ⟨e', ht⟩
    · rw [ht]
    · rw [ht, Text.markGaps_terminator]
  rw [Text.toMark_glyphs, ← hsource, ← Text.markGaps_terminator false v e, ← hv,
    Text.markGaps_marks, Text.markGaps_marks] at hgaps
  exact hgaps

/-- Formatting keeps the characters of a text in their order, each as it is or as a capital,
and keeps two of them apart if there was a blank between them and the second is no comma. -/
theorem format_characters {width : Nat} {t o : Text} (h : format width t = .ok o) :
    List.Forall₂ Recase t.characters o.characters ∧
      ∀ i, t.GapAt i → o.GapAt i ∨ t.characters[i + 1]? = some ',' := by
  have hgaps := gapsFrom_format h
  constructor
  · rw [← Text.map_snd_gapsFrom true t, ← Text.map_snd_gapsFrom true o]
    exact List.forall₂_map_left_iff.mpr
      (List.forall₂_map_right_iff.mpr (hgaps.imp fun _ _ hx => hx.1))
  · intro i hi
    obtain ⟨d, hd⟩ := (Text.gapAt_iff true).mp hi
    obtain ⟨hlt, hget⟩ := List.getElem?_eq_some_iff.mp hd
    have hlt' : i + 1 < (Text.gapsFrom true o).length := by
      rw [← hgaps.length_eq]
      exact hlt
    have hkept := List.Forall₂.get hgaps hlt hlt'
    simp only [List.get_eq_getElem, hget] at hkept
    rcases hkept.2 rfl with hgap | hcomma
    · refine Or.inl ((Text.gapAt_iff true).mpr ⟨(Text.gapsFrom true o)[i + 1].2, ?_⟩)
      rw [List.getElem?_eq_getElem hlt']
      exact congrArg some (Prod.ext hgap rfl)
    · refine Or.inr ?_
      rw [← Text.map_snd_gapsFrom true t, List.getElem?_map, hd]
      simpa using hcomma

theorem format_characters_columns :
    format 4 "select a , b ;".toList = .ok "SELECT\n    a,\n    b;".toList ∧
      List.Forall₂ Recase (Text.characters "select a , b ;".toList)
        (Text.characters "SELECT\n    a,\n    b;".toList) ∧
      ∀ i, Text.GapAt "select a , b ;".toList i →
        Text.GapAt "SELECT\n    a,\n    b;".toList i ∨
          (Text.characters "select a , b ;".toList)[i + 1]? = some ',' :=
  ⟨by rfl, format_characters (show format 4 _ = _ by rfl)⟩

end SqlLayout
