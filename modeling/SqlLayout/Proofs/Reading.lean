import SqlLayout.Proofs.Normal
import SqlLayout.Proofs.Respacing

set_option autoImplicit false

/-! # Reading marks

A normal text is given by its marks (`expandMarks_normalize`), so it can be read mark by mark:
a mark that touches nothing is read with a space before it. What the layout does to a mark
leaves the quoting as it was (`Quoting.read_kept`, `Quoting.read_drop`).
-/

namespace SqlLayout

/-! ## Marks as text -/

/-- A mark as it stands in a normal text: with a space before it unless it touches
something. -/
def Mark.expand (m : Mark) : Text := if m.left.isNone then [' ', m.char] else [m.char]

/-- Marks as they stand in a normal text. -/
def expandMarks (v : List Mark) : Text := v.flatMap Mark.expand

theorem expandMarks_cons (m : Mark) (v : List Mark) :
    expandMarks (m :: v) = m.expand ++ expandMarks v := rfl

theorem expandMarks_append (v w : List Mark) :
    expandMarks (v ++ w) = expandMarks v ++ expandMarks w := by
  simp [expandMarks]

/-- A normal text is given by its marks. -/
theorem expandMarks_normalize {t : Text} (hne : t.normalize ≠ []) :
    expandMarks (t.normalize.marks none) = ' ' :: t.normalize := by
  have htidy := Text.tidy_normalize t
  have hhead : ∀ c, t.normalize.head? = some c → isBlank c = false :=
    fun c hc => Text.head_normalize hc
  have hlast : ∀ c, t.normalize.getLast? = some c → isBlank c = false :=
    fun c hc => Text.last_normalize hc
  generalize t.normalize = s at hne htidy hhead hlast
  -- where the mark before it is known, the text starts with no space of its own
  suffices h : (s ≠ [] → (∀ c, s.head? = some c → isBlank c = false) →
        expandMarks (s.marks none) = ' ' :: s) ∧
      ∀ p, expandMarks (s.marks (some p)) = s from h.1 hne hhead
  clear hne hhead
  induction s with
  | nil => exact ⟨fun h => absurd rfl h, fun _ => rfl⟩
  | cons c cs ih =>
      have hlast' : ∀ d, cs.getLast? = some d → isBlank d = false :=
        fun d hd => hlast d (by rw [List.getLast?_cons, hd]; rfl)
      obtain ⟨ihStart, ihGo⟩ := ih (Tidy.tail htidy) hlast'
      by_cases hc : isBlank c = true
      · obtain ⟨rfl, hnext⟩ := htidy [] c cs rfl hc
        refine ⟨fun _ hhead => absurd (hhead ' ' rfl) (by decide), fun p => ?_⟩
        have hcs : cs ≠ [] := by
          rintro rfl
          exact absurd (hlast ' ' rfl) (by decide)
        rw [Text.marks, if_pos hc]
        exact ihStart hcs hnext
      · constructor
        · intro _ _
          rw [Text.marks, if_neg hc, expandMarks_cons, ihGo]
          rfl
        · intro p
          rw [Text.marks, if_neg hc, expandMarks_cons, ihGo]
          rfl

namespace Quoting

/-- Reads a mark, and the space before it. -/
def read (q : Quoting) (m : Mark) : Quoting := q.scan m.expand

theorem read_eq (q : Quoting) (m : Mark) :
    q.read m = (if m.left.isNone then q.next ' ' else q).next m.char := by
  unfold read Mark.expand
  split <;> rfl

theorem Sound.read {q : Quoting} (h : q.Sound) (m : Mark) : (q.read m).Sound := by
  rw [read_eq]
  split
  · exact (h.next ' ').next m.char
  · exact h.next m.char

/-- A character that closes or escapes nothing inside a literal. -/
theorem Sound.next_inside {m : Char} (h : (Quoting.inside m).Sound) {c : Char}
    (hc : isQuoteMark c = false) (hslash : c ≠ '\x5c') :
    Quoting.next (.inside m) c = .inside m := by
  have hm : c ≠ m := by
    rintro rfl
    have hq : isQuoteMark c = true := h
    rw [hc] at hq
    cases hq
  simp [Quoting.next, hslash, hm]

/-- Inside a literal a space is like any other character. -/
theorem next_space {q : Quoting} (h : q.Sound) :
    q.next ' ' = match q with
      | .escaped m => .inside m
      | q => q := by
  cases q with
  | outside => rfl
  | inside m => exact h.next_inside (by decide) (by decide)
  | escaped m => rfl

theorem Sound.next_recase {q : Quoting} (h : q.Sound) {c d : Char} (hcd : Recase c d) :
    q.next d = q.next c := by
  rcases hcd with rfl | rfl
  · rfl
  · exact h.next_toUpper c

/-- Right after a backslash the last character is a backslash. -/
def Escapes (q : Quoting) (e : Option Char) : Prop := ∀ m, q = .escaped m → e = some '\x5c'

theorem escapes_read {q : Quoting} (m : Mark) : (q.read m).Escapes (some m.char) := by
  intro k hk
  rw [read_eq] at hk
  generalize (if m.left.isNone then q.next ' ' else q) = q' at hk
  cases q' with
  | outside =>
      simp only [Quoting.next] at hk
      split at hk <;> cases hk
  | inside x =>
      simp only [Quoting.next] at hk
      split at hk
      · rename_i hslash
        rw [beq_iff_eq.mp hslash]
      · split at hk <;> cases hk
  | escaped x => cases hk

/-- What a blank may be put before is not a quote mark or a backslash, if it is escaped. -/
theorem plain_of_loose {c : Char} (h : loose (some '\x5c') c = true) :
    isQuoteMark c = false ∧ c ≠ '\x5c' := by
  have hc : isDivider c = true ∨ isWordChar c = true := by
    simpa [loose, show isDivider '\x5c' = false by decide,
      show isWordChar '\x5c' = false by decide] using h
  constructor
  · by_contra hq
    have hq' : isQuoteMark c = true := by simpa using hq
    simp only [isQuoteMark, Bool.or_eq_true, beq_iff_eq] at hq'
    rcases hq' with (rfl | rfl) | rfl <;> revert hc <;> decide
  · rintro rfl
    revert hc
    decide

/-- The layout of a mark leaves the quoting as it was. -/
theorem read_kept {q : Quoting} (hq : q.Sound) {e : Option Char} (he : q.Escapes e)
    {g m : Mark} (hg : g.left = none ∨ g.left = e) (hk : g.Kept m) : q.read m = q.read g := by
  rw [read_eq, read_eq]
  cases q with
  | outside =>
      simp only [next_space hq, ite_self]
      exact hq.next_recase hk.char
  | inside x =>
      simp only [next_space hq, ite_self]
      exact hq.next_recase hk.char
  | escaped x =>
      -- behind a backslash the next character is escaped, be it the space or the character
      obtain rfl := he x rfl
      have hin : (Quoting.inside x).Sound := hq
      have hafter : ∀ c, Quoting.next (.escaped x) c = .inside x := fun _ => rfl
      rcases hk.left with ⟨hnone, hloose⟩ | hcomma | ⟨p, p', hp, hp', -⟩
      · rcases hg with hg | hg
        · simp only [hnone, hg, Option.isNone_none, if_true, hafter]
          exact hin.next_recase hk.char
        · rw [hg] at hloose
          obtain ⟨h1, h2⟩ := plain_of_loose hloose
          simp only [hnone, hg, Option.isNone_none, Option.isNone_some, Bool.false_eq_true,
            if_true, if_false, hafter]
          rw [hin.next_recase hk.char]
          exact hin.next_inside h1 h2
      · have hm : m.char = ',' := by
          rcases hk.char with h | h
          · rw [h, hcomma]
          · rw [h, hcomma]
            rfl
        have hstep : Quoting.next (.inside x) ',' = .inside x :=
          hin.next_inside (by decide) (by decide)
        rw [hcomma, hm]
        split <;> split <;> simp [hafter, hstep]
      · simp only [hp, hp', Option.isNone_some, Bool.false_eq_true, if_false, hafter]

/-- A terminator that is lost in front of a parenthesis does not change it either. -/
theorem read_drop {q : Quoting} (hq : q.Sound) {a b m : Mark} (ha : a.char = terminator)
    (hb : b.char = ')') (hm : m.left = none) (hchar : Recase b.char m.char) :
    q.read m = (q.read a).read b := by
  have hmc : m.char = ')' := by
    rw [hb] at hchar
    rcases hchar with h | h
    · exact h
    · rw [h]
      rfl
  -- none of the three characters does anything inside a literal
  have hstep : ∀ {x : Char}, (Quoting.inside x).Sound → ∀ c, c = ';' ∨ c = ')' ∨ c = ' ' →
      Quoting.next (.inside x) c = .inside x := by
    intro x hx c hc
    rcases hc with rfl | rfl | rfl <;> exact hx.next_inside (by decide) (by decide)
  rw [read_eq, read_eq, read_eq, ha, hb, hm, hmc]
  cases q with
  | outside =>
      simp only [next_space hq, ite_self, Option.isNone_none]
      split <;> rfl
  | inside x =>
      have hx : (Quoting.inside x).Sound := hq
      simp [hstep hx, terminator]
  | escaped x =>
      have hx : (Quoting.inside x).Sound := hq
      have hafter : ∀ c, Quoting.next (.escaped x) c = .inside x := fun _ => rfl
      simp only [Option.isNone_none, if_true, hafter, hstep hx ')' (by simp)]
      split <;> split <;> simp [hafter, hstep hx, terminator]

end Quoting

theorem isQuoted_next_space {q : Quoting} (h : q.Sound) :
    (q.next ' ').isQuoted = q.isQuoted := by
  rw [Quoting.next_space h]
  cases q <;> rfl

theorem Quoting.read_outside (m : Mark) :
    Quoting.outside.read m = if isQuoteMark m.char then .inside m.char else .outside := by
  rw [Quoting.read_eq, show Quoting.outside.next ' ' = .outside from rfl, ite_self]
  rfl

theorem Quoting.eq_outside_or_isQuoted (q : Quoting) : q = .outside ∨ q.isQuoted = true := by
  cases q with
  | outside => exact Or.inl rfl
  | inside m => exact Or.inr rfl
  | escaped m => exact Or.inr rfl

/-- Only a quote mark closes a literal. -/
theorem Quoting.Sound.isQuoted_read {q : Quoting} (h : q.Sound) (hq : q.isQuoted = true)
    {m : Mark} (hm : isQuoteMark m.char = false) : (q.read m).isQuoted = true := by
  have hstep : ∀ {q : Quoting}, q.Sound → q.isQuoted = true → (q.next m.char).isQuoted = true := by
    intro q h hq
    cases q with
    | outside => cases hq
    | escaped x => rfl
    | inside x =>
        by_cases hslash : m.char = '\x5c'
        · rw [hslash]
          rfl
        · rw [h.next_inside hm hslash]
          rfl
  rw [Quoting.read_eq]
  split
  · exact hstep (h.next ' ') (by rw [isQuoted_next_space h, hq])
  · exact hstep h hq

/-- Each mark touches a blank or the mark before it. -/
def Linked : Option Char → List Mark → Prop
  | _, [] => True
  | e, m :: ms => (m.left = none ∨ m.left = e) ∧ Linked (some m.char) ms

theorem linked_marks (e : Option Char) (t : Text) : Linked e (t.marks e) := by
  suffices h : ∀ e e', (e' = none ∨ e' = e) → Linked e (t.marks e') from h e e (Or.inr rfl)
  induction t with
  | nil => exact fun _ _ _ => trivial
  | cons c cs ih =>
      intro e e' he
      rw [Text.marks]
      split
      · exact ih e none (Or.inl rfl)
      · exact ⟨he, ih (some c) (some c) (Or.inr rfl)⟩

end SqlLayout
