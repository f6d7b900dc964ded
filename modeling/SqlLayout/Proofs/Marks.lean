import SqlLayout.Statement.Words
import Mathlib.Data.List.Forall2

set_option autoImplicit false

/-! # Texts up to blanks

A layout moves blanks about and leaves the other characters in their order. The *marks* of a
text are its characters that are not blank, each with the character it touches on its left, so
two texts with the same marks differ only in how many blanks stand between two characters, and
in which. The *glyphs* of a text also know whether a character stands inside a quoted literal.

`marks_append` and `glyphs_append` cut a text anywhere: what follows a cut is read from the
`edge` at the cut, the last character before it if that is not blank.
-/

namespace SqlLayout

/-! ## Letter case

What does not tell a capital from its small letter is kept by `Char.toUpper`; that it does not is
checked letter by letter. -/

/-- Counts from `a`, the code of the first letter. -/
theorem exists_letter {c : Char} {a : Nat} (h : a ≤ c.toNat ∧ c.toNat ≤ a + 25) :
    ∃ n : Fin 26, c = Char.ofNat (a + n) := by
  refine ⟨⟨c.toNat - a, by omega⟩, ?_⟩
  rw [show a + (c.toNat - a) = c.toNat by omega, Char.ofNat_toNat]

/-- A character is its own capital, or one of the 26 small letters. -/
theorem toUpper_cases (c : Char) :
    c.toUpper = c ∨
      ∃ n : Fin 26, c = Char.ofNat (97 + n) ∧ c.toUpper = Char.ofNat (65 + n) := by
  by_cases h : 97 ≤ c.toNat ∧ c.toNat ≤ 122
  · have hup : ∀ n : Fin 26, (Char.ofNat (97 + n)).toUpper = Char.ofNat (65 + n) := by decide
    obtain ⟨n, rfl⟩ := exists_letter h
    exact Or.inr ⟨n, rfl, hup n⟩
  · refine Or.inl ?_
    unfold Char.toUpper
    exact dif_neg h

/-- A function that agrees on the two spellings of each letter does not see the case. -/
theorem apply_toUpper {α : Type} {f : Char → α}
    (h : ∀ n : Fin 26, f (Char.ofNat (65 + n)) = f (Char.ofNat (97 + n))) (c : Char) :
    f c.toUpper = f c := by
  rcases toUpper_cases c with hc | ⟨n, hc, hu⟩
  · rw [hc]
  · rw [hu, h n, ← hc]

@[simp] theorem isBlank_toUpper (c : Char) : isBlank c.toUpper = isBlank c :=
  apply_toUpper (by decide) c

@[simp] theorem isWordChar_toUpper (c : Char) : isWordChar c.toUpper = isWordChar c :=
  apply_toUpper (by decide) c

@[simp] theorem isDivider_toUpper (c : Char) : isDivider c.toUpper = isDivider c :=
  apply_toUpper (by decide) c

@[simp] theorem isQuoteMark_toUpper (c : Char) : isQuoteMark c.toUpper = isQuoteMark c :=
  apply_toUpper (by decide) c

/-- A character that is no letter has no other spelling. -/
theorem toUpper_eq_iff_of_not_word {d : Char} (hd : isWordChar d = false) (c : Char) :
    c.toUpper = d ↔ c = d := by
  have hself : ∀ {a : Char}, isWordChar a = false → a.toUpper = a := by
    intro a ha
    have hlow : ∀ n : Fin 26, isWordChar (Char.ofNat (97 + n)) = true := by decide
    rcases toUpper_cases a with h | ⟨n, h, _⟩
    · exact h
    · rw [h, hlow n] at ha
      exact absurd ha (by decide)
  constructor
  · rintro rfl
    rw [isWordChar_toUpper] at hd
    exact (hself hd).symm
  · rintro rfl
    exact hself hd

/-- A character that is no letter is recognized whatever the case. -/
theorem beq_toUpper {d : Char} (hd : isWordChar d = false) (c : Char) :
    (c.toUpper == d) = (c == d) := by
  rw [Bool.eq_iff_iff, beq_iff_eq, beq_iff_eq]
  exact toUpper_eq_iff_of_not_word hd c

/-! ## Quoting on its own

Where a scan stands with respect to literals does not depend on the parentheses it has read. -/

/-- A text without quote marks. -/
def Unquoted (t : Text) : Prop := ∀ c ∈ t, isQuoteMark c = false

instance (t : Text) : Decidable (Unquoted t) :=
  decidable_of_iff (t.all (fun c => !isQuoteMark c) = true) (by simp [Unquoted])

/-- Reads one character. -/
def Quoting.next (q : Quoting) (c : Char) : Quoting :=
  match q with
  | .escaped m => .inside m
  | .inside m => if c == '\x5c' then .escaped m else if c == m then .outside else .inside m
  | .outside => if isQuoteMark c then .inside c else .outside

/-- Reads a text. -/
def Quoting.scan (q : Quoting) (t : Text) : Quoting := t.foldl Quoting.next q

/-- Whether the scan stands inside a literal. -/
def Quoting.isQuoted (q : Quoting) : Bool := q != .outside

theorem Nesting.isQuoted_eq (n : Nesting) : n.isQuoted = n.quoting.isQuoted := by
  obtain ⟨d, q⟩ := n
  cases q <;> rfl

theorem Nesting.quoting_next (n : Nesting) (c : Char) :
    (n.next c).quoting = n.quoting.next c := by
  obtain ⟨d, q⟩ := n
  cases q with
  | escaped m => rfl
  | inside m =>
      simp only [Nesting.next, Nesting.next?, Quoting.next]
      split_ifs <;> rfl
  | outside =>
      simp only [Nesting.next, Nesting.next?, Quoting.next]
      split_ifs
      · rfl
      · rfl
      · cases d <;> rfl
      · rfl

theorem Nesting.quoting_scan (n : Nesting) (t : Text) :
    (n.scan t).quoting = n.quoting.scan t := by
  induction t generalizing n with
  | nil => rfl
  | cons c cs ih =>
      show ((n.next c).scan cs).quoting = (n.quoting.next c).scan cs
      rw [ih, Nesting.quoting_next]

theorem Quoting.scan_append (q : Quoting) (s t : Text) :
    q.scan (s ++ t) = (q.scan s).scan t := by
  simp [Quoting.scan]

/-- The state of a scan that may or may not follow the literals. -/
abbrev Track := Option Quoting

namespace Track

/-- Reads a text. -/
def scan (q : Track) (t : Text) : Track := q.map (·.scan t)

/-- Whether the scan is known to stand inside a literal. -/
def isQuoted (q : Track) : Bool := q.any Quoting.isQuoted

/-- Not known to stand inside a literal. -/
def Clear (q : Track) : Prop := ∀ x ∈ q, x = .outside

theorem scan_append (q : Track) (s t : Text) : q.scan (s ++ t) = (q.scan s).scan t := by
  cases q with
  | none => rfl
  | some x => simp [scan, Quoting.scan_append]

@[simp] theorem scan_nil (q : Track) : q.scan [] = q := by
  cases q <;> rfl

theorem clear_none : Clear none := by
  intro x hx
  cases hx

theorem clear_outside : Clear (some .outside) := by
  intro x hx
  cases hx
  rfl

theorem Clear.isQuoted_eq {q : Track} (h : q.Clear) : q.isQuoted = false := by
  cases q with
  | none => rfl
  | some x =>
      rw [h x rfl]
      rfl

/-- Outside literals only the quote marks are of interest. -/
theorem Clear.scan_eq {q : Track} (h : q.Clear) {t : Text}
    (ht : Unquoted t) : q.scan t = q := by
  cases q with
  | none => rfl
  | some x =>
      obtain rfl : x = .outside := h x rfl
      induction t with
      | nil => rfl
      | cons c cs ih =>
          have hc : isQuoteMark c = false := ht c (by simp)
          have hnext : Quoting.next .outside c = .outside := by simp [Quoting.next, hc]
          calc scan (some .outside) (c :: cs) = some ((Quoting.next .outside c).scan cs) := rfl
            _ = scan (some .outside) cs := by rw [hnext]; rfl
            _ = some .outside := ih (fun d hd => ht d (by simp [hd]))

/-- A text that closes its literals leads from one clear place to another. -/
theorem Clear.scan_of_outside {q : Track} (h : q.Clear) {t : Text}
    (ht : Quoting.outside.scan t = .outside) : (q.scan t).Clear := by
  cases q with
  | none => exact clear_none
  | some x =>
      obtain rfl : x = .outside := h x rfl
      rw [Track.scan, Option.map_some, ht]
      exact clear_outside

end Track

/-- The word characters by their code points. -/
theorem isWordChar_iff {c : Char} :
    isWordChar c = true ↔ (65 ≤ c.toNat ∧ c.toNat ≤ 90) ∨ (97 ≤ c.toNat ∧ c.toNat ≤ 122) ∨
      (48 ≤ c.toNat ∧ c.toNat ≤ 57) ∨ c = '_' := by
  have hword : isWordChar c = (((decide ('A'.val ≤ c.val ∧ c.val ≤ 'Z'.val) ||
      (decide ('a'.val ≤ c.val) && decide (c.val ≤ 'z'.val))) ||
      (decide ('0'.val ≤ c.val) && decide (c.val ≤ '9'.val))) || c == '_') := rfl
  rw [hword]
  simp only [Bool.or_eq_true, Bool.and_eq_true, decide_eq_true_eq, beq_iff_eq,
    UInt32.le_iff_toNat_le, or_assoc]
  rfl

/-- A blank is no quote mark, no divider, no word character and no backslash. -/
theorem not_isBlank_of {c : Char}
    (h : isQuoteMark c = true ∨ isDivider c = true ∨ isWordChar c = true ∨ c = '\x5c') :
    isBlank c = false := by
  rcases h with h | h | h | rfl
  · simp only [isQuoteMark, Bool.or_eq_true, beq_iff_eq] at h
    rcases h with (rfl | rfl) | rfl <;> decide
  · simp only [isDivider, Bool.or_eq_true, beq_iff_eq] at h
    rcases h with (rfl | rfl) | rfl <;> decide
  · by_contra hb
    have hn : isBlank c = true := by simpa using hb
    simp only [isBlank, Bool.or_eq_true, Bool.and_eq_true, decide_eq_true_eq, beq_iff_eq] at hn
    rcases isWordChar_iff.mp h with h | h | h | rfl
    · omega
    · omega
    · omega
    · revert hn
      decide
  · decide

/-! ## Marks and glyphs -/

/-- A character that is not blank, and the character it touches on its left. -/
structure Mark where
  left : Option Char
  char : Char
deriving DecidableEq, Repr

/-- A mark that may be known to stand inside a literal. -/
structure Glyph extends Mark where
  quoted : Bool
deriving DecidableEq, Repr

namespace Text

/-- The marks of a text that touches `left`. -/
def marks : Option Char → Text → List Mark
  | _, [] => []
  | left, c :: cs => if isBlank c then marks none cs else ⟨left, c⟩ :: marks (some c) cs

/-- The glyphs of a text that touches `left`, where `q` is the state of the scan. -/
def glyphs : Option Char → Track → Text → List Glyph
  | _, _, [] => []
  | left, q, c :: cs =>
    if isBlank c then glyphs none (q.scan [c]) cs
    else ⟨⟨left, c⟩, q.isQuoted⟩ :: glyphs (some c) (q.scan [c]) cs

/-- The character that a text touches if it follows `t`, where `t` touches `left`. -/
def edge (left : Option Char) (t : Text) : Option Char :=
  t.foldl (fun _ c => if isBlank c then none else some c) left

@[simp] theorem edge_nil (left : Option Char) : edge left [] = left := rfl

theorem edge_append (left : Option Char) (s t : Text) :
    edge left (s ++ t) = edge (edge left s) t := by
  simp [edge]

theorem edge_cons (left : Option Char) (c : Char) (cs : Text) :
    edge left (c :: cs) = edge (if isBlank c then none else some c) cs := by
  rw [edge, List.foldl_cons, edge]

theorem edge_concat (left : Option Char) (t : Text) (c : Char) :
    edge left (t ++ [c]) = if isBlank c then none else some c := by
  rw [edge_append]
  rfl

theorem marks_append (left : Option Char) (s t : Text) :
    marks left (s ++ t) = marks left s ++ marks (edge left s) t := by
  induction s generalizing left with
  | nil => rfl
  | cons c cs ih =>
      rw [List.cons_append, marks, marks, edge_cons]
      split <;> simp [ih]

theorem glyphs_append (left : Option Char) (q : Track) (s t : Text) :
    glyphs left q (s ++ t) = glyphs left q s ++ glyphs (edge left s) (q.scan s) t := by
  induction s generalizing left q with
  | nil => simp [glyphs]
  | cons c cs ih =>
      have hq : q.scan (c :: cs) = (q.scan [c]).scan cs := q.scan_append [c] cs
      rw [List.cons_append, glyphs, glyphs, edge_cons, hq]
      split <;> simp [ih]

@[simp] theorem toMark_glyphs (left : Option Char) (q : Track) (t : Text) :
    (glyphs left q t).map Glyph.toMark = marks left t := by
  induction t generalizing left q with
  | nil => rfl
  | cons c cs ih =>
      rw [glyphs, marks]
      split <;> simp [ih]

/-! ### Blanks leave no marks -/

/-- A text of blanks. -/
def AllBlank (t : Text) : Prop := ∀ c ∈ t, isBlank c = true

theorem AllBlank.isQuoteMark {t : Text} (h : AllBlank t) :
    Unquoted t := by
  intro c hc
  by_contra hq
  have := not_isBlank_of (Or.inl (by simpa using hq))
  rw [h c hc] at this
  cases this

theorem AllBlank.marks_eq {t : Text} (h : AllBlank t) (left : Option Char) :
    marks left t = [] := by
  induction t generalizing left with
  | nil => rfl
  | cons c cs ih =>
      rw [marks, if_pos (h c (by simp))]
      exact ih (fun d hd => h d (by simp [hd])) none

theorem AllBlank.glyphs_eq {t : Text} (h : AllBlank t) (left : Option Char) (q : Track) :
    glyphs left q t = [] := by
  have hm := h.marks_eq left
  rw [← toMark_glyphs left q t] at hm
  exact List.map_eq_nil_iff.mp hm

theorem AllBlank.edge_eq {t : Text} (h : AllBlank t) (left : Option Char) :
    edge left t = if t = [] then left else none := by
  rcases List.eq_nil_or_concat t with rfl | ⟨init, c, rfl⟩
  · rfl
  · rw [List.concat_eq_append, edge_concat, if_pos (h c (by simp)), if_neg (by simp)]

end Text

end SqlLayout
