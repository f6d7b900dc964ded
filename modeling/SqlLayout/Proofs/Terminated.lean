import SqlLayout.Proofs.Literals
import SqlLayout.Proofs.Verdicts

set_option autoImplicit false

/-! # The formatted text is one statement

A formatted text ends with one terminator, and what stands before it is a statement that the
check accepts (`format_terminated`). The check looks at lexemes only, and the layout keeps
them, wherever it puts its blanks (`validate_of_laid`). That no second terminator stands at the
end follows from the check: a terminator at the end of an accepted statement would stand
outside parentheses and literals.
-/

namespace SqlLayout

open Text

/-! ## The end of an accepted statement -/

/-- A terminator changes nothing, so it stood outside everything if nothing is open after it. -/
theorem Nesting.eq_start_of_next_terminator {n : Nesting} (hn : n.quoting.Sound)
    (h : n.next terminator = .start) : n = .start := by
  obtain ⟨d, q⟩ := n
  have hquoting : q.next terminator = .outside := by
    have := congrArg Nesting.quoting h
    rwa [Nesting.quoting_next] at this
  have hq : q = .outside := by
    cases q with
    | outside => rfl
    | inside m =>
        rw [hn.next_inside (by decide) (by decide)] at hquoting
        cases hquoting
    | escaped m => cases hquoting
  subst hq
  exact h

theorem getLast?_ne_terminator_of_validate {s : Text} (h : validate s = .ok ()) :
    s.getLast? ≠ some terminator := by
  intro hlast
  obtain ⟨a, rfl⟩ : ∃ a, s = a ++ [terminator] := List.getLast?_eq_some_iff.mp hlast
  rw [validate_eq_ok_iff] at h
  obtain ⟨hguard, hend, -⟩ := h
  have hafter : Nesting.after a = .start := by
    refine Nesting.eq_start_of_next_terminator (Nesting.sound_scan sound_start a) ?_
    simpa [Nesting.after, Nesting.scan] using hend
  -- the terminator is a lexeme outside parentheses and literals
  have hlexemes : lexemes .start (Text.marks none (a ++ [terminator]))
      = lexemes .start (a.marks none) ++ [⟨terminator, 0, false, none⟩] := by
    rw [lexemes_append sound_start (Nesting.rests_of_unquoted rfl none) a _ (Or.inr (by decide))]
    have hscan : Nesting.start.scan a = .start := hafter
    rw [hscan]
    rfl
  have hdepth := hguard ⟨terminator, 0, false, none⟩ (by rw [hlexemes]; simp) rfl (Or.inr rfl)
  exact absurd hdepth (by decide)

/-! ## The end of a formatted text -/

/-- A text that ends with a terminator has the marks of its statement before it. -/
theorem marks_withoutTerminator {o : Text} {v : List Mark} {e : Option Char}
    (h : o.marks none = v ++ [⟨e, terminator⟩]) :
    o.normalize.withoutTerminator.marks none = v := by
  rcases marks_statement o with ⟨hlast, -⟩ | ⟨e', ho⟩
  · refine absurd ?_ hlast
    rw [← last_marks (fun c hc => last_normalize hc) none, marks_normalize, h]
    simp
  · rw [h] at ho
    exact (List.append_inj' ho rfl).1.symm

/-- The statement of a formatted text is accepted. -/
theorem validate_format {width : Nat} {t o : Text} (h : format width t = .ok o) :
    validate o.normalize.withoutTerminator = .ok () := by
  obtain ⟨v, e, hv, hspread, -⟩ := spread_format h (Ready.untracked _) (fun hne => absurd rfl hne)
  refine validate_of_laid (validate_of_format h) (q := none) ?_
  rw [marks_withoutTerminator hv]
  exact hspread.laid

theorem statement_ne_nil_of_format {width : Nat} {t o : Text} (h : format width t = .ok o) :
    t.normalize.withoutTerminator ≠ [] := by
  intro hnil
  simp [format, layout, layoutWithin, hnil, Except.map] at h

/-- A formatted text is a non-empty text and one terminator behind it; the text ends neither
with a blank nor with another terminator, and its statement is accepted again. -/
theorem format_terminated {width : Nat} {t o : Text} (h : format width t = .ok o) :
    ∃ x, o = x ++ [terminator] ∧ x ≠ [] ∧
      (∀ c, x.getLast? = some c → c ≠ terminator ∧ isBlank c = false) ∧
      validate o.normalize.withoutTerminator = .ok () := by
  have hvalid := validate_format h
  obtain ⟨query, -, rfl⟩ := exists_layout_of_format h
  obtain ⟨v, e, hv, hspread, -⟩ := spread_format h (Ready.untracked _) (fun hne => absurd rfl hne)
  have hx : Text.marks none (query.render width).trimEnd = v := by
    have hsplit := hv
    rw [Query.statement, marks_append] at hsplit
    exact (List.append_inj' hsplit rfl).1
  refine ⟨(query.render width).trimEnd, rfl, ?_, fun c hc => ⟨?_, last_trimEnd hc⟩, hvalid⟩
  · have hlaid := hspread.laid
    rw [← hx] at hlaid
    refine hlaid.ne_nil (marks_ne_nil (statement_ne_nil_of_format h) (fun c hc => ?_))
    rw [← normalize_withoutTerminator] at hc
    exact last_normalize hc
  · rintro rfl
    refine getLast?_ne_terminator_of_validate hvalid ?_
    rw [← normalize_withoutTerminator, ← last_marks (fun c hc => last_normalize hc) none,
      normalize_withoutTerminator, marks_withoutTerminator hv, ← hx,
      last_marks (fun c hc => last_trimEnd hc), hc]

/-- A statement that is cut inside a literal, right behind a backslash, and that loses the
terminator of its inner query. -/
def cutBehindBackslash : Text :=
  "select a from t where x = 'p\\ and q' and y in (select b from u;)".toList

theorem format_terminated_cutBehindBackslash :
    ∃ o x, format 4 cutBehindBackslash = .ok o ∧ o = x ++ [terminator] ∧ x ≠ [] ∧
      (∀ c, x.getLast? = some c → c ≠ terminator ∧ isBlank c = false) ∧
      validate o.normalize.withoutTerminator = .ok () := by
  have haccepted : (format 4 cutBehindBackslash).isOk = true := by decide +kernel
  cases hformat : format 4 cutBehindBackslash with
  | error e =>
      rw [hformat] at haccepted
      cases haccepted
  | ok o =>
      obtain ⟨x, hx⟩ := format_terminated hformat
      exact ⟨o, x, rfl, hx⟩

end SqlLayout
