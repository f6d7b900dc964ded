import SqlLayout.Proofs.Bracketed

set_option autoImplicit false

/-! # Lists of layouts on one line

Items that are laid out one after another stand, on one line, one after another with the
separator behind each but the last (`flat_stack`). If each of them is found again in what its
layout says on one line, so is the list (`stack_again`).
-/

namespace SqlLayout.Layout

open Text

/-- Items on one line, with a separator behind each but the last. -/
def listText (sep : Text) : List Text → Text
  | [] => []
  | [p] => p
  | p :: q :: rest => headed (p ++ sep) (listText sep (q :: rest))

/-- What a layout says on one line, without a suffix. -/
def lineOf (lay : Text → Text → Layout) (item : Text) : Text := onOneLine (lay item [])

section

variable {lay : Text → Text → Layout} {sep : Text}

/-- Each item of a list has been laid out. -/
theorem exists_block_of_stack {items : List Text} {lines : List Line}
    (h : stack lay (separated sep items) = .ok lines) :
    ∀ item ∈ items, ∃ s block, (s = [] ∨ s = sep) ∧ lay item s = .ok block := by
  induction items generalizing lines with
  | nil => exact fun item hitem => (by cases hitem)
  | cons x xs ih =>
      intro item hitem
      cases xs with
      | nil =>
          obtain ⟨block, later, hlay, -, -⟩ := stack_cons_ok h
          rw [List.mem_singleton.mp hitem]
          exact ⟨[], block, Or.inl rfl, hlay⟩
      | cons y ys =>
          obtain ⟨block, later, hlay, hlater, -⟩ := stack_cons_ok h
          rcases List.mem_cons.mp hitem with rfl | hitem
          · exact ⟨sep, block, Or.inr rfl, hlay⟩
          · exact ih hlater item hitem

/-- The lines of a list on one line. -/
theorem flat_stack (hsep : sep ≠ []) {items : List Text} {lines : List Line}
    (h : stack lay (separated sep items) = .ok lines)
    (hflat : ∀ item ∈ items, ∀ s block, s = [] ∨ s = sep → lay item s = .ok block →
      (∀ l ∈ block.lines, Neat l.text) ∧ flat block.lines = lineOf lay item ++ s) :
    (∀ l ∈ lines, Neat l.text) ∧ flat lines = listText sep (items.map (lineOf lay)) := by
  induction items generalizing lines with
  | nil =>
      obtain rfl : [] = lines := Except.ok.inj h
      exact ⟨fun l hl => (by cases hl), rfl⟩
  | cons x xs ih =>
      have hx := hflat x List.mem_cons_self
      cases xs with
      | nil =>
          obtain ⟨block, later, hlay, hlater, rfl⟩ := stack_cons_ok h
          obtain rfl : [] = later := Except.ok.inj hlater
          obtain ⟨hneat, hline⟩ := hx [] block (Or.inl rfl) hlay
          rw [List.append_nil] at hline ⊢
          exact ⟨hneat, hline⟩
      | cons y ys =>
          obtain ⟨block, later, hlay, hlater, rfl⟩ := stack_cons_ok h
          obtain ⟨hneat, hline⟩ := hx sep block (Or.inr rfl) hlay
          obtain ⟨hneat', hlines⟩ :=
            ih hlater (fun item hitem => hflat item (List.mem_cons_of_mem _ hitem))
          refine ⟨fun l hl => (List.mem_append.mp hl).elim (hneat l) (hneat' l), ?_⟩
          rw [flat_append, hline, if_neg (by simp [hsep]), hlines]
          rfl

/-- A list whose items are found again is found again. -/
theorem stack_again {items : List Text} {lines : List Line}
    (h : stack lay (separated sep items) = .ok lines)
    (hagain : ∀ item ∈ items, ∀ s block, s = [] ∨ s = sep → lay item s = .ok block →
      lay (lineOf lay item) s = .ok block) :
    stack lay (separated sep (items.map (lineOf lay))) = .ok lines := by
  induction items generalizing lines with
  | nil => exact h
  | cons x xs ih =>
      have hx := hagain x List.mem_cons_self
      cases xs with
      | nil =>
          obtain ⟨block, later, hlay, hlater, rfl⟩ := stack_cons_ok h
          obtain rfl : [] = later := Except.ok.inj hlater
          simp only [List.map_cons, List.map_nil, separated, stack, hx [] block (Or.inl rfl) hlay]
      | cons y ys =>
          obtain ⟨block, later, hlay, hlater, rfl⟩ := stack_cons_ok h
          have hrest := ih hlater (fun item hitem => hagain item (List.mem_cons_of_mem _ hitem))
          simp only [List.map_cons] at hrest
          simp only [List.map_cons, separated, stack, hx sep block (Or.inr rfl) hlay, hrest]

end

end SqlLayout.Layout
