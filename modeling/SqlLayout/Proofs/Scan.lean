import SqlLayout.Proofs.Pieces

set_option autoImplicit false

/-! # Where scans cut a text

What the scans for parentheses and for tokens find, as equations between a text and its parts:
`openAround?_spec` for the parenthesis around a place, `Token.scan_split` for the next token.
-/

namespace SqlLayout

/-! ## The marks of open literals -/

/-- Only a quote mark opens a literal. -/
def Quoting.Sound : Quoting → Prop
  | .outside => True
  | .inside m => isQuoteMark m = true
  | .escaped m => isQuoteMark m = true

theorem Quoting.Sound.next {q : Quoting} (h : q.Sound) (c : Char) : (q.next c).Sound := by
  cases q with
  | escaped m => exact h
  | inside m =>
      simp only [Quoting.next]
      split_ifs
      · exact h
      · trivial
      · exact h
  | outside =>
      simp only [Quoting.next]
      split_ifs with hc
      · exact hc
      · trivial

/-- The case of a letter does not matter to literals. -/
theorem Quoting.Sound.next_toUpper {q : Quoting} (h : q.Sound) (c : Char) :
    q.next c.toUpper = q.next c := by
  have hmark : ∀ {m : Char}, isQuoteMark m = true → isWordChar m = false := by
    intro m hm
    simp only [isQuoteMark, Bool.or_eq_true, beq_iff_eq] at hm
    rcases hm with (rfl | rfl) | rfl <;> decide
  cases q with
  | escaped m => rfl
  | inside m =>
      have hslash : isWordChar '\x5c' = false := by decide
      simp only [Quoting.next, beq_toUpper hslash, beq_toUpper (hmark h)]
  | outside =>
      simp only [Quoting.next, isQuoteMark_toUpper]
      split
      · rename_i hc
        rw [(toUpper_eq_iff_of_not_word (hmark hc) c).mpr rfl]
      · rfl

/-- A parenthesis never closes a literal. -/
theorem Quoting.Sound.eq_outside {q : Quoting} (h : q.Sound) (hnext : q.next ')' = .outside) :
    q = .outside := by
  cases q with
  | escaped m => cases hnext
  | inside m =>
      have hm : (')' == m) = false := by
        by_contra hm
        have : ')' = m := by simpa using hm
        rw [← this] at h
        exact absurd h (show ¬ isQuoteMark ')' = true by decide)
      simp [Quoting.next, hm] at hnext
  | outside => rfl

/-! ## Parentheses -/

namespace Text

theorem mem_openParens {t : Text} {i j : Nat} {n : Nesting} {opened : List Nat}
    (h : j ∈ openParens i n opened t) :
    j ∈ opened ∨ ∃ a b, t = a ++ '(' :: b ∧ j = i + a.length ∧ (n.scan a).isQuoted = false := by
  induction t generalizing i n opened with
  | nil => exact Or.inl h
  | cons d ds ih =>
      rw [openParens] at h
      rcases ih h with hmem | ⟨a, b, rfl, hj, hq⟩
      · by_cases hquoted : n.isQuoted = true
        · rw [if_pos hquoted] at hmem
          exact Or.inl hmem
        · rw [if_neg hquoted] at hmem
          split at hmem
          · rename_i hd
            rcases List.mem_cons.mp hmem with rfl | hmem
            · obtain rfl : d = '(' := by simpa using hd
              exact Or.inr ⟨[], ds, rfl, rfl, by simpa [Nesting.scan] using hquoted⟩
            · exact Or.inl hmem
          · split at hmem
            · exact Or.inl (List.mem_of_mem_tail hmem)
            · exact Or.inl hmem
      · exact Or.inr ⟨d :: a, b, rfl, by simp only [List.length_cons]; omega, hq⟩

/-- The parenthesis around a place stands before it, outside literals. -/
theorem openAround?_spec {t : Text} {place o : Nat} (h : t.openAround? place = some o) :
    o < place ∧ (Nesting.after (t.take o)).isQuoted = false := by
  have hmem : o ∈ openParens 0 .start [] (t.take place) := List.mem_of_mem_head? h
  rcases mem_openParens hmem with hnil | ⟨a, b, hab, ho, hq⟩
  · cases hnil
  · obtain rfl : o = a.length := by omega
    have hlen := congrArg List.length hab
    simp only [List.length_take, List.length_append, List.length_cons] at hlen
    refine ⟨by omega, ?_⟩
    have htake : t.take a.length = a := by
      have h1 : (t.take place).take a.length = a := by rw [hab, List.take_left]
      rwa [List.take_take, Nat.min_eq_left (by omega)] at h1
    rw [htake]
    exact hq

end Text

/-! ## Tokens -/

namespace Token

/-- Inside a token the scan waits for its end. -/
theorem scan_inside (i : Nat) (n : Nesting) (t : Text) :
    scan i n true t =
      scan (i + (t.takeWhile (· != ' ')).length) (n.scan (t.takeWhile (· != ' '))) false
        (t.dropWhile (· != ' ')) := by
  induction t generalizing i n with
  | nil => rfl
  | cons c cs ih =>
      by_cases hc : c = ' '
      · subst hc
        simp [scan, Nesting.scan]
      · have hc' : (c == ' ') = false := by simpa using hc
        have hne : (c != ' ') = true := by simpa using hc
        simp only [scan, hc', List.takeWhile_cons, List.dropWhile_cons, hne, Bool.false_eq_true,
          if_false, if_true, List.length_cons]
        rw [ih, show i + 1 + (cs.takeWhile (· != ' ')).length
          = i + ((cs.takeWhile (· != ' ')).length + 1) by omega]
        rfl

/-- The next token, the spaces before it and the text after it. -/
theorem scan_split {i : Nat} {n : Nesting} {t : Text} {k : Token} {ks : List Token}
    (h : scan i n false t = k :: ks) :
    ∃ lead rest, t = lead ++ (k.text ++ rest) ∧ (∀ c ∈ lead, c = ' ') ∧ k.text ≠ [] ∧
      (∀ c ∈ k.text, c ≠ ' ') ∧ (rest = [] ∨ ∃ r, rest = ' ' :: r) ∧
      k.index = i + lead.length ∧ k.nesting = n.scan lead ∧
      ks = scan (i + lead.length + k.text.length) (k.nesting.scan k.text) false rest := by
  induction t generalizing i n with
  | nil => cases h
  | cons c cs ih =>
      by_cases hc : c = ' '
      · subst hc
        -- a space belongs to the lead
        have hrec : scan (i + 1) (n.next ' ') false cs = k :: ks := h
        obtain ⟨lead, rest, rfl, hl, hne, htext, hrest, hidx, hnest, hks⟩ := ih hrec
        refine ⟨' ' :: lead, rest, rfl, ?_, hne, htext, hrest, ?_, hnest, ?_⟩
        · intro d hd
          rcases List.mem_cons.mp hd with rfl | hd
          · rfl
          · exact hl d hd
        · simp only [List.length_cons]
          omega
        · rw [hks, List.length_cons, show i + 1 + lead.length = i + (lead.length + 1) by omega]
      · -- the token starts here and ends at the next space
        have hc' : (c == ' ') = false := by simpa using hc
        have hne : (c != ' ') = true := by simpa using hc
        rw [scan, hc'] at h
        simp only [Bool.false_eq_true, if_false, List.cons.injEq] at h
        obtain ⟨rfl, hks⟩ := h
        refine ⟨[], (c :: cs).dropWhile (· != ' '), ?_, by simp, ?_, ?_, ?_, by simp, rfl, ?_⟩
        · simp
        · simp [hc]
        · intro d hd
          simpa using List.mem_takeWhile_imp hd
        · simp only [List.dropWhile_cons, hne, if_true]
          cases hd : cs.dropWhile (· != ' ') with
          | nil => exact Or.inl rfl
          | cons x xs =>
              refine Or.inr ⟨xs, ?_⟩
              have hx := List.head?_dropWhile_not (· != ' ') cs
              rw [hd] at hx
              have : x = ' ' := by simpa using hx
              rw [this]
        · simp only [← hks, scan_inside, List.takeWhile_cons, List.dropWhile_cons, hne, if_true,
            List.length_cons, List.length_nil]
          rw [show i + 1 + (cs.takeWhile (· != ' ')).length
            = i + 0 + ((cs.takeWhile (· != ' ')).length + 1) by omega]
          rfl

/-- A text without tokens has only spaces. -/
theorem eq_space_of_scan_eq_nil {i : Nat} {n : Nesting} {t : Text}
    (h : scan i n false t = []) : ∀ c ∈ t, c = ' ' := by
  induction t generalizing i n with
  | nil => simp
  | cons c cs ih =>
      by_cases hc : c = ' '
      · subst hc
        have hrec : scan (i + 1) (n.next ' ') false cs = [] := h
        intro d hd
        rcases List.mem_cons.mp hd with rfl | hd
        · rfl
        · exact ih hrec d hd
      · have hc' : (c == ' ') = false := by simpa using hc
        have hne : (c != ' ') = true := by simpa using hc
        rw [scan, hc'] at h
        cases h

end Token

end SqlLayout
