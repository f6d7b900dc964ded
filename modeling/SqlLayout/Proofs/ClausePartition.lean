import SqlLayout.Proofs.ClauseLines

set_option autoImplicit false

/-! # A statement as its clauses

The clauses of a statement in one line, balanced or not, are its slices (`exists_slices`): put
side by side they are the statement, and each of them alone is cut into itself. A clause starts at
the first token and at the tokens that spell a boundary keyword (`mem_starts_iff`); whether a token
does so depends on the text before it and on the next token, and on nothing that the cut has done.
-/

namespace SqlLayout

open Text

/-! ## Tokens that start clauses -/

/-- Outside parentheses and literals, the token spells a boundary keyword, alone or with the
next one. -/
def SpellsBoundary (s : Text) (t : Token) (later : List Token) : Prop :=
  (Nesting.after (s.take t.index)).isOutermost = true ∧
    ∃ b ∈ Boundary.all, t.text.upper = b.keyword ∨
      ∃ u us, later = u :: us ∧ upper (t.text ++ ' ' :: u.text) = b.keyword

theorem Token.exists_of_mem_scan {i : Nat} {n : Nesting} {inside : Bool} {t : Text} {k : Token}
    (h : k ∈ scan i n inside t) :
    ∃ a b, t = a ++ b ∧ k.index = i + a.length ∧ k.nesting = n.scan a := by
  induction t generalizing i n inside with
  | nil => cases h
  | cons c cs ih =>
      have hlater : ∀ {inside' : Bool}, k ∈ scan (i + 1) (n.next c) inside' cs →
          ∃ a b, c :: cs = a ++ b ∧ k.index = i + a.length ∧ k.nesting = n.scan a := by
        intro inside' hk
        obtain ⟨a, b, rfl, hindex, hnesting⟩ := ih hk
        refine ⟨c :: a, b, rfl, ?_, hnesting⟩
        rw [hindex, List.length_cons]
        omega
      rw [scan] at h
      split_ifs at h with hspace hinside
      · exact hlater h
      · exact hlater h
      · rcases List.mem_cons.mp h with rfl | h
        · exact ⟨[], c :: cs, rfl, rfl, rfl⟩
        · exact hlater h

/-- A token keeps the nesting before its first character. -/
theorem nesting_of_mem_tokens {s : Text} {k : Token} (h : k ∈ s.tokens) :
    k.nesting = Nesting.after (s.take k.index) := by
  obtain ⟨a, b, rfl, hindex, hnesting⟩ := Token.exists_of_mem_scan h
  rw [Nat.zero_add] at hindex
  rw [hindex, List.take_left, hnesting]
  rfl

theorem Boundary.isSome_ofTokens?_iff {t : Token} {later : List Token} :
    (ofTokens? (t :: later)).isSome = true ↔
      t.nesting.isOutermost = true ∧ ∃ b ∈ all, t.text.upper = b.keyword ∨
        ∃ u us, later = u :: us ∧ upper (t.text ++ ' ' :: u.text) = b.keyword := by
  constructor
  · intro h
    obtain ⟨b, hb⟩ := Option.isSome_iff_exists.mp h
    obtain ⟨houter, hmem, hspelled⟩ := ofTokens?_spec hb
    exact ⟨houter, b, hmem, hspelled⟩
  · rintro ⟨houter, b, hb, hone | ⟨u, us, rfl, htwo⟩⟩
    · have hword := ofWords?_eq_some hb hone
      cases later with
      | nil => simp [ofTokens?, houter, hword]
      | cons u us => simp [ofTokens?, houter, hword]
    · have hwords := ofWords?_eq_some hb htwo
      simp [ofTokens?, houter, hwords]

theorem Clause.mem_laterStarts_iff {ts : List Token} {i : Nat} :
    i ∈ (laterStarts ts).map Prod.fst ↔ ∃ before t later, ts = before ++ t :: later ∧
      i = t.index ∧ (Boundary.ofTokens? (t :: later)).isSome = true := by
  induction ts with
  | nil => simp [laterStarts]
  | cons t ts ih =>
      have hrest : (∃ before t' later, t :: ts = before ++ t' :: later ∧ i = t'.index ∧
            (Boundary.ofTokens? (t' :: later)).isSome = true) ↔
          (i = t.index ∧ (Boundary.ofTokens? (t :: ts)).isSome = true) ∨
            ∃ before t' later, ts = before ++ t' :: later ∧ i = t'.index ∧
              (Boundary.ofTokens? (t' :: later)).isSome = true := by
        constructor
        · rintro ⟨before, t', later, hsplit, hi, hsome⟩
          cases before with
          | nil =>
              obtain ⟨rfl, rfl⟩ := List.cons.inj hsplit
              exact Or.inl ⟨hi, hsome⟩
          | cons b before =>
              exact Or.inr ⟨before, t', later, (List.cons.inj hsplit).2, hi, hsome⟩
        · rintro (⟨hi, hsome⟩ | ⟨before, t', later, rfl, hi, hsome⟩)
          · exact ⟨[], t, ts, rfl, hi, hsome⟩
          · exact ⟨t :: before, t', later, rfl, hi, hsome⟩
      rw [hrest, ← ih, laterStarts]
      cases hof : Boundary.ofTokens? (t :: ts) <;> simp

/-- Where the clauses of a statement start. -/
theorem mem_starts_iff {s : Text} (hs : Neat s) (hne : s ≠ []) {i : Nat} :
    i ∈ (Clause.starts s.tokens).map Prod.fst ↔ ∃ before t later,
      s.tokens = before ++ t :: later ∧ i = t.index ∧ (before = [] ∨ SpellsBoundary s t later) := by
  obtain ⟨k, ks, -, htokens, -, -, -, -, hstarts⟩ := starts_of_neat hs hne
  obtain ⟨-, -, -, -, hfirst, -⟩ := tokens_split hs htokens
  -- a token carries the nesting at its place, so the test on tokens is one on the text
  have hspells : ∀ {before later : List Token} {t : Token}, s.tokens = before ++ t :: later →
      ((Boundary.ofTokens? (t :: later)).isSome = true ↔ SpellsBoundary s t later) := by
    intro before later t hsplit
    have hmem : t ∈ s.tokens := by
      rw [hsplit]
      exact List.mem_append_right _ List.mem_cons_self
    rw [Boundary.isSome_ofTokens?_iff, nesting_of_mem_tokens hmem]
    rfl
  rw [hstarts, List.map_cons, List.mem_cons, Clause.mem_laterStarts_iff]
  constructor
  · rintro (rfl | ⟨before, t, later, hks, rfl, hsome⟩)
    · exact ⟨[], k, ks, htokens, hfirst.symm, Or.inl rfl⟩
    · have hsplit : s.tokens = (k :: before) ++ t :: later := by rw [htokens, hks]; rfl
      exact ⟨k :: before, t, later, hsplit, rfl, Or.inr ((hspells hsplit).mp hsome)⟩
  · rintro ⟨before, t, later, hsplit, rfl, hstart⟩
    have hcons := hsplit
    rw [htokens] at hcons
    cases before with
    | nil =>
        obtain ⟨rfl, -⟩ := List.cons.inj hcons
        exact Or.inl hfirst
    | cons k' before =>
        obtain ⟨rfl, hks⟩ := List.cons.inj hcons
        have hsome := (hspells hsplit).mpr (hstart.resolve_left (by simp))
        exact Or.inr ⟨before, t, later, hks, rfl, hsome⟩

/-! ## The text of a clause -/

/-- A clause with a keyword is the keyword alone, or the keyword, a space and its body. -/
theorem asClause_text {u : Text} (hu : Neat u) (hne : u ≠ []) (h : u.asClause.kind ≠ .leading) :
    ⟨u.asClause.keyword, u.asClause.kind⟩ ∈ Boundary.all ∧
      ∃ k, k.upper = u.asClause.keyword ∧
        (u = k ∧ u.asClause.body = [] ∨ u = k ++ ' ' :: u.asClause.body) := by
  cases hfirst : Boundary.ofTokens? u.tokens with
  | none =>
      rw [kind_asClause, hfirst] at h
      exact absurd rfl h
  | some b =>
      obtain ⟨hb, k, r, hkr, hk, hr, hclause, -⟩ := Layout.asClause_eq hu hne hfirst
      rw [hclause]
      refine ⟨hb, k, hk, ?_⟩
      rcases hr with rfl | ⟨body, rfl⟩
      · exact Or.inl ⟨by rw [hkr, List.append_nil], rfl⟩
      · have hbody : Neat body := by
          rw [hkr] at hu
          exact hu.after_space
        have htrim : trim (' ' :: body) = body := by
          calc trim (' ' :: body) = trim body := rfl
            _ = body := hbody.trim_eq
        exact Or.inr (by rw [htrim]; exact hkr)

/-- The clauses of a statement in one line partition it: side by side they are the statement, only
the first may be without a keyword, a clause starts at the first token and at each token that
spells a boundary keyword, and each clause is cut into itself. -/
theorem clauses_partition {s : Text} (hs : s.normalize = s) (hne : s ≠ []) :
    join [' '] (s.clauses.map Clause.text) = s ∧
    (∀ c ∈ s.clauses.tail, c.kind ≠ .leading) ∧
    (∀ c ∈ s.clauses, c.kind ≠ .leading → ⟨c.keyword, c.kind⟩ ∈ Boundary.all ∧
      ∃ k, k.upper = c.keyword ∧ (c.text = k ∧ c.body = [] ∨ c.text = k ++ ' ' :: c.body)) ∧
    (∀ i, i ∈ placesOf 0 (s.clauses.map Clause.text) ↔
      ∃ before t later, s.tokens = before ++ t :: later ∧ i = t.index ∧
        (before = [] ∨ SpellsBoundary s t later)) ∧
    ∀ c ∈ s.clauses, c.text.clauses = [c] := by
  have hneat : Neat s := hs ▸ Neat.normalize s
  obtain ⟨t, ts, hsliced, -⟩ := exists_slices hneat hne
  have hclauses := hsliced.clauses
  refine ⟨?_, ?_, ?_, ?_, ?_⟩
  · rw [hclauses, map_text_asClause, hsliced.joined]
  · intro c hc
    rw [hclauses, List.map_cons, List.tail_cons] at hc
    obtain ⟨u, hu, rfl⟩ := List.mem_map.mp hc
    obtain ⟨b, hb⟩ := hsliced.later u hu
    obtain ⟨huneat, hune, -⟩ := hsliced.single u (List.mem_cons_of_mem t hu)
    obtain ⟨hmem, -⟩ := Layout.asClause_eq huneat hune hb
    rw [kind_asClause, hb]
    exact (Boundary.keyword_of_kind hmem).2.2.2.2
  · intro c hc hkind
    rw [hclauses] at hc
    obtain ⟨u, hu, rfl⟩ := List.mem_map.mp hc
    obtain ⟨huneat, hune, -⟩ := hsliced.single u hu
    rw [text_asClause]
    exact asClause_text huneat hune hkind
  · intro i
    rw [hclauses, map_text_asClause, ← hsliced.places, mem_starts_iff hneat hne]
  · intro c hc
    rw [hclauses] at hc
    obtain ⟨u, hu, rfl⟩ := List.mem_map.mp hc
    rw [text_asClause]
    exact (hsliced.single u hu).2.2

/-- A `)` too many, a keyword in parentheses and one in a literal that does not end. -/
def brokenReport : Text :=
  "WITH q AS (SELECT 1) select a), b LEFT join t ON u WHERE 'x GROUP BY y".toList

theorem clauses_partition_brokenReport :
    brokenReport.normalize = brokenReport ∧ brokenReport ≠ [] ∧
    brokenReport.clauses.map Clause.text = ["WITH q AS (SELECT 1)".toList, "select a), b".toList,
      "LEFT join t ON u".toList, "WHERE 'x GROUP BY y".toList] ∧
    (∀ c ∈ brokenReport.clauses.tail, c.kind ≠ .leading) ∧
    ∀ c ∈ brokenReport.clauses, c.text.clauses = [c] := by
  have hs : brokenReport.normalize = brokenReport := by decide +kernel
  have hne : brokenReport ≠ [] := by decide +kernel
  obtain ⟨-, hlater, -, -, hself⟩ := clauses_partition hs hne
  exact ⟨hs, hne, by decide +kernel, hlater, hself⟩

end SqlLayout
