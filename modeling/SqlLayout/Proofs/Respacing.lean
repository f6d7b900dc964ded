import SqlLayout.Proofs.Marks

set_option autoImplicit false

/-! # Respacing

What a layout may do to a text, mark by mark. A letter may become a capital; a blank may be put
between two characters where one is a divider or where a word begins or ends; the blank before
a comma may go; and a terminator in front of a closing parenthesis may go. Nothing of this
happens inside a literal that the scan follows. `Laid v v'` says that marks `v'` come from
glyphs `v` in this way.

Not all of it leaves the preserved words alone: a word edge that touches no divider may be
pulled apart, and a terminator may be lost. `Spread P v v'` says that `v'` comes from `v` and
that `P` holds exactly if the preserved words have stayed. It is closed under concatenation, so
a layout is looked at piece by piece.
-/

namespace SqlLayout

/-! ## One mark -/

/-- Whether a blank may be put between `left` and `c`. -/
def loose : Option Char → Char → Bool
  | none, _ => true
  | some p, c => isDivider p || isDivider c || (isWordChar p != isWordChar c)

/-- Two spellings of a character of which the second may stand for the first. -/
def Recase (c d : Char) : Prop := d = c ∨ d = c.toUpper

namespace Mark

/-- How a mark may be laid out: the case of its character may change; a blank may be put before
it if it is loose there; a comma touches whatever it likes; any other character touches what it
touched before. -/
structure Kept (m m' : Mark) : Prop where
  char : Recase m.char m'.char
  left : (m'.left = none ∧ loose m.left m.char = true) ∨ m.char = ',' ∨
    ∃ p p', m.left = some p ∧ m'.left = some p' ∧ Recase p p'

/-- Whether a preserved word starts at the mark. -/
def opens (m : Mark) : Bool := m.left.all fun p => isDivider p || isDivider m.char

/-- All that matters of a mark for the preserved words. -/
def key (m : Mark) : Bool × Char := (m.opens, m.char.toUpper)

end Mark

theorem Recase.refl (c : Char) : Recase c c := Or.inl rfl

theorem Recase.toUpper_eq {c d : Char} (h : Recase c d) : d.toUpper = c.toUpper := by
  rcases h with rfl | rfl
  · rfl
  · exact apply_toUpper (by decide) c

theorem Recase.isDivider_eq {c d : Char} (h : Recase c d) : isDivider d = isDivider c := by
  rcases h with rfl | rfl
  · rfl
  · exact isDivider_toUpper c

theorem Recase.isWordChar_eq {c d : Char} (h : Recase c d) : isWordChar d = isWordChar c := by
  rcases h with rfl | rfl
  · rfl
  · exact isWordChar_toUpper c

theorem Recase.isBlank_eq {c d : Char} (h : Recase c d) : isBlank d = isBlank c := by
  rcases h with rfl | rfl
  · rfl
  · exact isBlank_toUpper c

/-- The preserved words see a mark that is laid out exactly if a blank tears a word apart. -/
theorem Mark.Kept.key_eq_iff {m m' : Mark} (h : m.Kept m') :
    m.key = m'.key ↔ (m'.left = none → m.opens = true) := by
  have hc : m.char.toUpper = m'.char.toUpper := h.char.toUpper_eq.symm
  have hd : isDivider m'.char = isDivider m.char := h.char.isDivider_eq
  have hkey : m.key = m'.key ↔ m.opens = m'.opens := by simp [Mark.key, hc]
  rw [hkey]
  rcases h.left with ⟨hn, -⟩ | hcomma | ⟨p, p', hp, hp', hpp⟩
  · have ho : m'.opens = true := by simp [Mark.opens, hn]
    simp [ho, hn]
  · have hdiv : isDivider m.char = true := by rw [hcomma]; decide
    have h1 : m.opens = true := by cases hl : m.left <;> simp [Mark.opens, hl, hdiv]
    have h2 : m'.opens = true := by cases hl : m'.left <;> simp [Mark.opens, hl, hd, hdiv]
    simp [h1, h2]
  · have ho : m.opens = m'.opens := by simp [Mark.opens, hp, hp', hd, hpp.isDivider_eq]
    simp [ho, hp']

/-! ## A text, mark by mark -/

/-- The glyphs `v` can be laid out as the marks `v'`. -/
inductive Laid : List Glyph → List Mark → Prop
  | nil : Laid [] []
  | keep {g : Glyph} {m : Mark} {v : List Glyph} {v' : List Mark} :
      g.Kept m →
      (g.quoted = true → m.char = g.char ∧ (m.left = none ↔ g.left = none)) →
      Laid v v' → Laid (g :: v) (m :: v')
  | drop {a b : Glyph} {m : Mark} {v : List Glyph} {v' : List Mark} :
      a.char = terminator → b.char = ')' → a.quoted = false → m.left = none → b.Kept m →
      (b.quoted = true → m.char = b.char ∧ (m.left = none ↔ b.left = none)) →
      Laid v v' → Laid (a :: b :: v) (m :: v')

namespace Laid

theorem length_le {v : List Glyph} {v' : List Mark} (h : Laid v v') : v'.length ≤ v.length := by
  induction h with
  | nil => exact Nat.le_refl _
  | keep _ _ _ ih =>
      simp only [List.length_cons]
      omega
  | drop _ _ _ _ _ _ _ ih =>
      simp only [List.length_cons]
      omega

/-- A layout does not lose all marks. -/
theorem eq_nil {v : List Glyph} (h : Laid v []) : v = [] := by
  cases h
  rfl

theorem ne_nil {q : Track} {t f : Text} (h : Laid (t.glyphs none q) (f.marks none))
    (ht : t.marks none ≠ []) : f ≠ [] := by
  rintro rfl
  refine ht ?_
  rw [← Text.toMark_glyphs none q, h.eq_nil]
  rfl

theorem append {v w : List Glyph} {v' w' : List Mark} (h : Laid v v') (k : Laid w w') :
    Laid (v ++ w) (v' ++ w') := by
  induction h with
  | nil => exact k
  | keep hk hq _ ih => exact .keep hk hq ih
  | drop ha hb hq hm hk hf _ ih => exact .drop ha hb hq hm hk hf ih

end Laid

/-- The marks `v'` come from the glyphs `v`, and `P` says whether the preserved words have
stayed the same. -/
structure Spread (P : Prop) (v : List Glyph) (v' : List Mark) : Prop where
  laid : Laid v v'
  exact : v.map (·.key) = v'.map Mark.key ↔ P

namespace Spread

theorem nil : Spread True [] [] := ⟨.nil, by simp⟩

theorem congr {P Q : Prop} {v : List Glyph} {v' : List Mark} (h : Spread P v v')
    (hPQ : P ↔ Q) : Spread Q v v' :=
  ⟨h.laid, h.exact.trans hPQ⟩

/-- Pieces one after another. Their keys agree together exactly if they agree piece by piece,
as no piece becomes longer. -/
theorem append {P Q : Prop} {v w : List Glyph} {v' w' : List Mark}
    (h : Spread P v v') (k : Spread Q w w') : Spread (P ∧ Q) (v ++ w) (v' ++ w') := by
  refine ⟨h.laid.append k.laid, ?_⟩
  rw [List.map_append, List.map_append, ← h.exact, ← k.exact]
  constructor
  · intro heq
    have hlen := congrArg List.length heq
    simp only [List.length_append, List.length_map] at hlen
    have h1 := h.laid.length_le
    have h2 := k.laid.length_le
    exact List.append_inj heq (by simp only [List.length_map]; omega)
  · rintro ⟨h1, h2⟩
    rw [h1, h2]

/-- A piece that keeps its words, in front of another. -/
theorem true_append {Q : Prop} {v w : List Glyph} {v' w' : List Mark}
    (h : Spread True v v') (k : Spread Q w w') : Spread Q (v ++ w) (v' ++ w') :=
  (h.append k).congr (by simp)

/-- A piece that keeps its words, after another. -/
theorem append_true {P : Prop} {v w : List Glyph} {v' w' : List Mark}
    (h : Spread P v v') (k : Spread True w w') : Spread P (v ++ w) (v' ++ w') :=
  (h.append k).congr (by simp)

/-- A single mark. -/
theorem single {g : Glyph} {m : Mark} (hk : g.Kept m)
    (hq : g.quoted = true → m.char = g.char ∧ (m.left = none ↔ g.left = none)) :
    Spread (m.left = none → g.opens = true) [g] [m] := by
  refine ⟨.keep hk hq .nil, ?_⟩
  simpa using hk.key_eq_iff

/-- A terminator in front of a closing parenthesis may be lost, and is missed. -/
theorem lose {P : Prop} {a b : Glyph} {m : Mark} {v : List Glyph} {v' : List Mark}
    (ha : a.char = terminator) (hb : b.char = ')') (hq : a.quoted = false) (hm : m.left = none)
    (h : Spread P (b :: v) (m :: v')) : Spread False (a :: b :: v) (m :: v') := by
  have hle := h.laid.length_le
  have hlaid : Laid (a :: b :: v) (m :: v') := by
    cases h.laid with
    | keep hk hf hrest => exact .drop ha hb hq hm hk hf hrest
    | drop hb' _ _ _ _ _ _ =>
        rw [hb] at hb'
        exact absurd hb' (by decide)
  refine ⟨hlaid, ?_⟩
  simp only [iff_false]
  intro heq
  have hlen := congrArg List.length heq
  simp only [List.length_map, List.length_cons] at hlen hle
  omega

end Spread

/-! ## A text that stays in one piece

Within a piece only the case of letters changes; what changes at its two ends is a matter of
its `edge`. -/

/-- `t'` is `t` with some letters outside literals in upper case. -/
def Recased : Track → Text → Text → Prop
  | _, [], [] => True
  | q, c :: cs, d :: ds =>
    (d = c ∨ (d = c.toUpper ∧ q.isQuoted = false)) ∧ Recased (q.scan [c]) cs ds
  | _, _, _ => False

namespace Recased

theorem refl (q : Track) (t : Text) : Recased q t t := by
  induction t generalizing q with
  | nil => trivial
  | cons c cs ih => exact ⟨Or.inl rfl, ih _⟩

theorem append {q : Track} {s s' t t' : Text} (h : Recased q s s')
    (k : Recased (q.scan s) t t') : Recased q (s ++ t) (s' ++ t') := by
  induction s generalizing q s' with
  | nil =>
      cases s' with
      | nil => simpa using k
      | cons d ds => exact h.elim
  | cons c cs ih =>
      cases s' with
      | nil => exact h.elim
      | cons d ds =>
          have hq : q.scan (c :: cs) = (q.scan [c]).scan cs := q.scan_append [c] cs
          rw [hq] at k
          exact ⟨h.1, ih h.2 k⟩

/-- A text outside literals in upper case. -/
theorem upper {q : Track} (hq : q.Clear) {t : Text} (ht : Unquoted t) :
    Recased q t t.upper := by
  induction t with
  | nil => trivial
  | cons c cs ih =>
      have hc : q.scan [c] = q := hq.scan_eq (by simpa [Unquoted] using ht c (by simp))
      refine ⟨Or.inr ⟨rfl, hq.isQuoted_eq⟩, ?_⟩
      rw [hc]
      exact ih (fun d hd => ht d (by simp [hd]))

theorem length_eq {q : Track} {t t' : Text} (h : Recased q t t') : t'.length = t.length := by
  induction t generalizing q t' with
  | nil =>
      cases t' with
      | nil => rfl
      | cons d ds => exact h.elim
  | cons c cs ih =>
      cases t' with
      | nil => exact h.elim
      | cons d ds => simp [ih h.2]

end Recased

/-- Whether a text that touches `left` keeps its words if a blank is put before it. -/
def divided : Option Char → Text → Bool
  | some p, c :: _ => isDivider p || isBlank c || isDivider c
  | _, _ => true

/-- Whether a text that touches `left` may start a line. -/
def breakable : Option Char → Text → Bool
  | left, c :: _ => isBlank c || loose left c
  | _, [] => true

/-- Two edges of which the second may stand for the first. -/
def EdgeKept : Option Char → Option Char → Prop
  | none, none => True
  | some p, some p' => Recase p p'
  | _, _ => False

namespace Spread

/-- A piece in its place. -/
theorem recased {q : Track} {t t' : Text} (h : Recased q t t') {e e' : Option Char}
    (he : EdgeKept e e') : Spread True (t.glyphs e q) (t'.marks e') := by
  induction t generalizing q t' e e' with
  | nil =>
      cases t' with
      | nil => exact .nil
      | cons d ds => exact h.elim
  | cons c cs ih =>
      cases t' with
      | nil => exact h.elim
      | cons d ds =>
          have hr : Recase c d := h.1.imp id And.left
          rw [Text.glyphs, Text.marks, hr.isBlank_eq]
          split
          · exact ih h.2 trivial
          · -- one mark, with the same edge as before, and the rest behind it
            refine true_append ((single ?_ ?_).congr ?_)
              (ih h.2 (show EdgeKept (some c) (some d) from hr))
            · refine ⟨hr, ?_⟩
              cases e with
              | none =>
                  cases e' with
                  | none => exact Or.inl ⟨rfl, rfl⟩
                  | some p' => exact he.elim
              | some p =>
                  cases e' with
                  | none => exact he.elim
                  | some p' => exact Or.inr (Or.inr ⟨p, p', rfl, rfl, he⟩)
            · intro hquoted
              have hdc : d = c := h.1.resolve_right (fun hu => by simp_all)
              refine ⟨hdc, ?_⟩
              cases e <;> cases e' <;> simp_all [EdgeKept]
            · refine iff_true_intro (fun hn => ?_)
              cases e <;> cases e' <;> simp_all [EdgeKept, Mark.opens]

/-- A piece at the start of a line. -/
theorem recased_line {q : Track} {t t' : Text} (h : Recased q t t') (hq : q.Clear)
    {e : Option Char} (he : breakable e t = true) :
    Spread (divided e t = true) (t.glyphs e q) (t'.marks none) := by
  cases t with
  | nil =>
      cases t' with
      | nil => exact nil.congr (by simp [divided])
      | cons d ds => exact h.elim
  | cons c cs =>
      cases t' with
      | nil => exact h.elim
      | cons d ds =>
          have hr : Recase c d := h.1.imp id And.left
          rw [Text.glyphs, Text.marks, hr.isBlank_eq]
          by_cases hb : isBlank c = true
          · -- a blank goes away, and what follows it touches nothing
            rw [if_pos hb, if_pos hb]
            refine (recased h.2 (show EdgeKept none none from trivial)).congr ?_
            cases e <;> simp [divided, hb]
          · rw [if_neg hb, if_neg hb]
            have hb' : isBlank c = false := by simpa using hb
            have hl : loose e c = true := by simpa [breakable, hb'] using he
            refine append_true ((single ⟨hr, Or.inl ⟨rfl, hl⟩⟩ ?_).congr ?_)
              (recased h.2 (show EdgeKept (some c) (some d) from hr))
            · intro hquoted
              rw [hq.isQuoted_eq] at hquoted
              cases hquoted
            · cases e <;> simp [divided, Mark.opens, hb']

/-- A text that does not change, in its place. -/
theorem verbatim (e : Option Char) (q : Track) (t : Text) :
    Spread True (t.glyphs e q) (t.marks e) := by
  refine recased (Recased.refl q t) ?_
  cases e with
  | none => trivial
  | some p => exact Recase.refl p

/-- A text that does not change, at the start of a line. -/
theorem verbatim_line {q : Track} (hq : q.Clear) {e : Option Char} {t : Text}
    (he : breakable e t = true) : Spread (divided e t = true) (t.glyphs e q) (t.marks none) :=
  recased_line (Recased.refl q t) hq he

end Spread

/-! ## Edges where any text may start a line -/

/-- The edge is a blank, the beginning, or a divider. -/
def Fresh (e : Option Char) : Prop := e.all isDivider = true

theorem Fresh.none : Fresh none := rfl

theorem Fresh.of_divider {c : Char} (h : isDivider c = true) : Fresh (some c) := by
  simpa [Fresh] using h

theorem Fresh.breakable {e : Option Char} (h : Fresh e) (t : Text) : breakable e t = true := by
  cases t with
  | nil => rfl
  | cons c cs =>
      cases e with
      | none => simp [SqlLayout.breakable, loose]
      | some p =>
          have hp : isDivider p = true := by simpa [Fresh] using h
          simp [SqlLayout.breakable, loose, hp]

theorem Fresh.divided {e : Option Char} (h : Fresh e) (t : Text) : divided e t = true := by
  cases t with
  | nil => cases e <;> rfl
  | cons c cs =>
      cases e with
      | none => rfl
      | some p =>
          have hp : isDivider p = true := by simpa [Fresh] using h
          simp [SqlLayout.divided, hp]

namespace Spread

theorem fresh {q : Track} (hq : q.Clear) {e : Option Char} (he : Fresh e) (t : Text) :
    Spread True (t.glyphs e q) (t.marks none) :=
  (verbatim_line hq (he.breakable t)).congr (by simp [he.divided t])

/-- A divider on its own. -/
theorem divider {q : Track} (hq : q.Clear) (e e' : Option Char) {c : Char}
    (hc : isDivider c = true) (hleft : e' = none ∨ c = ',') :
    Spread True (Text.glyphs e q [c]) [⟨e', c⟩] := by
  have hb : isBlank c = false := not_isBlank_of (Or.inr (Or.inl hc))
  rw [Text.glyphs, hb]
  refine (single ⟨Recase.refl c, ?_⟩ ?_).congr ?_
  · rcases hleft with rfl | rfl
    · refine Or.inl ⟨rfl, ?_⟩
      cases e <;> simp [loose, hc]
    · exact Or.inr (Or.inl rfl)
  · intro hquoted
    rw [hq.isQuoted_eq] at hquoted
    cases hquoted
  · refine iff_true_intro (fun _ => ?_)
    cases e <;> simp [Mark.opens, hc]

end Spread

end SqlLayout
