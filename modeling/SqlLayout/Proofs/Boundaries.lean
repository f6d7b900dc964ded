import SqlLayout.Proofs.Columns

set_option autoImplicit false

/-! # Where clauses start

The places at which a statement is cut into clauses, read off its tokens: each of them stands
outside parentheses and literals, at the beginning or behind a space, and reads the keyword of
its boundary (`StartsAt`). They come one after another, and no clause starts inside the keyword
of another (`starts_clauses`): the second word of a boundary keyword is not the first of any.
-/

namespace SqlLayout

open Text Layout

/-! ## Boundary keywords -/

namespace Boundary

theorem isKeyword_of_mem {b : Boundary} (h : b ∈ all) : IsKeyword b.keyword := by
  simp only [all, List.mem_cons, List.not_mem_nil, or_false] at h
  rcases h with rfl | rfl | rfl | rfl | rfl | rfl | rfl | rfl | rfl <;>
    exact ⟨by decide, by decide, by decide, by decide⟩

/-- Most kinds of clause have but one keyword. -/
theorem keyword_of_kind {b : Boundary} (hb : b ∈ all) :
    (b.kind = .select → b.keyword = Keyword.SELECT) ∧
      (b.kind = .source → b.keyword = Keyword.FROM) ∧
      (b.kind = .condition → b.keyword = Keyword.WHERE) ∧
      (b.kind = .having → b.keyword = Keyword.HAVING) ∧ b.kind ≠ .leading := by
  revert b
  decide

theorem ne_space_of_mem_upper {x : Text} (hx : ∀ c ∈ x, c ≠ ' ') :
    ∀ c ∈ x.upper, (c != ' ') = true := by
  intro c hc
  obtain ⟨d, hd, rfl⟩ := List.mem_map.mp hc
  have hne : d.toUpper ≠ ' ' := by
    intro heq
    exact hx d hd ((toUpper_eq_iff_of_not_word (by decide) d).mp heq)
  simpa using hne

/-- The words of a keyword of two words, from its spelling. -/
theorem words_of_spelling {x y : Text} (hx : ∀ c ∈ x, c ≠ ' ') {k : Text}
    (h : upper (x ++ ' ' :: y) = k) :
    x.upper = k.takeWhile (· != ' ') ∧ y.upper = (k.dropWhile (· != ' ')).drop 1 := by
  have hup := ne_space_of_mem_upper hx
  have hk : k = x.upper ++ ' ' :: y.upper := by
    rw [← h, upper_append]
    rfl
  subst hk
  constructor
  · rw [List.takeWhile_append_of_pos hup]
    simp
  · rw [List.dropWhile_append_of_pos hup]
    simp

theorem takeWhile_of_spelling {x : Text} (hx : ∀ c ∈ x, c ≠ ' ') :
    x.upper.takeWhile (· != ' ') = x.upper :=
  List.takeWhile_eq_self_iff.mpr (ne_space_of_mem_upper hx)

theorem ofWords?_spec {w : Text} {b : Boundary} (h : ofWords? w = some b) :
    b ∈ all ∧ w.upper = b.keyword := by
  have hmem := List.mem_of_find?_eq_some h
  have hsame := List.find?_some h
  refine ⟨hmem, ?_⟩
  rw [same_iff] at hsame
  rw [hsame, (isKeyword_of_mem hmem).upper]

/-- The boundary that a token starts is spelled by it, or by it and the next one. -/
theorem ofTokens?_spec {k : Token} {ks : List Token} {b : Boundary}
    (h : ofTokens? (k :: ks) = some b) :
    k.nesting.isOutermost = true ∧ b ∈ all ∧
      (k.text.upper = b.keyword ∨
        ∃ k' ks', ks = k' :: ks' ∧ upper (k.text ++ ' ' :: k'.text) = b.keyword) := by
  rw [ofTokens?.eq_def] at h
  dsimp only at h
  split at h
  · rename_i hout
    refine ⟨hout, ?_⟩
    cases ks with
    | nil =>
        obtain ⟨hmem, hup⟩ := ofWords?_spec h
        exact ⟨hmem, Or.inl hup⟩
    | cons k' ks' =>
        rcases Option.or_eq_some_iff.mp h with htwo | ⟨-, hone⟩
        · obtain ⟨hmem, hup⟩ := ofWords?_spec htwo
          exact ⟨hmem, Or.inr ⟨k', ks', rfl, hup⟩⟩
        · obtain ⟨hmem, hup⟩ := ofWords?_spec hone
          exact ⟨hmem, Or.inl hup⟩
  · cases h

/-- The second word of a boundary keyword starts no boundary. -/
theorem ofTokens?_second {b : Boundary} (hb : b ∈ all) {x : Text} (hx : ∀ c ∈ x, c ≠ ' ')
    {k : Token} (hk : ∀ c ∈ k.text, c ≠ ' ') (h : upper (x ++ ' ' :: k.text) = b.keyword)
    (ks : List Token) : ofTokens? (k :: ks) = none := by
  have hsecond := (words_of_spelling hx h).2
  have hdistinct : ∀ b ∈ all, ∀ b' ∈ all,
      (b.keyword.dropWhile (· != ' ')).drop 1 ≠ b'.keyword.takeWhile (· != ' ') := by decide
  cases hof : ofTokens? (k :: ks) with
  | none => rfl
  | some b' =>
      obtain ⟨-, hb', hone | ⟨k', ks', -, htwo⟩⟩ := ofTokens?_spec hof
      · have hfirst := takeWhile_of_spelling hk
        rw [hone] at hfirst
        rw [hone] at hsecond
        exact absurd (hsecond.symm.trans hfirst.symm) (hdistinct b hb b' hb')
      · have hfirst := (words_of_spelling hk htwo).1
        exact absurd (hsecond.symm.trans hfirst) (hdistinct b hb b' hb')

end Boundary

/-! ## Places -/

/-- The number of characters that the keyword at a start takes. -/
def startWidth (b : Option Boundary) : Nat := (b.map fun x => x.keyword.length).getD 0

/-- A clause may start at index `i`: outside parentheses and literals, with a blank or nothing
before it, and with the keyword of the boundary. -/
structure StartsAt (s : Text) (i : Nat) (b : Option Boundary) : Prop where
  outermost : (Nesting.after (s.take i)).isOutermost = true
  edge : edge none (s.take i) = none
  fits : i + startWidth b ≤ s.length
  spelled : ∀ x, b = some x → x ∈ Boundary.all ∧
    ∃ k r, s.drop i = k ++ r ∧ upper k = x.keyword ∧ Resumes r

theorem startWidth_of_upper_eq {b : Option Boundary} {x : Boundary} (hb : b = some x) {k : Text}
    (hk : upper k = x.keyword) : startWidth b = k.length := by
  rw [hb, ← length_upper k, hk]
  rfl

/-- A slice from a start to a later place, where the keyword is not cut. -/
theorem StartsAt.slice {s : Text} {i j : Nat} {b : Option Boundary} (h : StartsAt s i b)
    (hij : i + startWidth b ≤ j) {x : Boundary} (hx : b = some x) :
    x ∈ Boundary.all ∧ ∃ k r, (s.take j).drop i = k ++ r.take (j - i - k.length) ∧
      upper k = x.keyword ∧ Resumes r := by
  obtain ⟨hmem, k, r, hkr, hk, hr⟩ := h.spelled x hx
  have hwidth : startWidth b = k.length := startWidth_of_upper_eq hx hk
  refine ⟨hmem, k, r, ?_, hk, hr⟩
  rw [List.drop_take, hkr, List.take_append, List.take_of_length_le (by omega)]

theorem StartsAt.unquoted {s : Text} {i : Nat} {b : Option Boundary} (h : StartsAt s i b) :
    (Nesting.after (s.take i)).isQuoted = false :=
  isQuoted_eq_false_of_isOutermost h.outermost

/-- Places at which clauses start, one after another from index `i` on. -/
def Starts (s : Text) : Nat → List (Nat × Option Boundary) → Prop
  | _, [] => True
  | i, (j, b) :: rest => i ≤ j ∧ StartsAt s j b ∧ Starts s (j + startWidth b) rest

theorem Starts.mono {s : Text} {i j : Nat} (hij : i ≤ j) {l : List (Nat × Option Boundary)}
    (h : Starts s j l) : Starts s i l := by
  cases l with
  | nil => trivial
  | cons p rest => exact ⟨hij.trans h.1, h.2⟩

/-- In a tidy text one space stands between a token and the next. -/
theorem lead_eq_space {a lead b : Text} (ht : Tidy (a ++ (lead ++ b)))
    (hlead : ∀ c ∈ lead, c = ' ') (hne : lead ≠ []) : lead = [' '] := by
  obtain ⟨c, cs, rfl⟩ := List.exists_cons_of_ne_nil hne
  obtain rfl : c = ' ' := hlead c (by simp)
  cases cs with
  | nil => rfl
  | cons d ds =>
      obtain rfl : d = ' ' := hlead d (by simp)
      have hnext := (ht a ' ' (' ' :: (ds ++ b)) (by simp) (by decide)).2 ' ' rfl
      exact absurd hnext (by decide)

/-- The next token of a scan that has read `a`: what stands before it, what comes behind it, and
the scan that goes on there. -/
theorem Token.scan_next {a t : Text} {k : Token} {ks : List Token}
    (h : k :: ks = Token.scan a.length (Nesting.after a) false t) :
    ∃ lead rest, t = lead ++ (k.text ++ rest) ∧ (∀ c ∈ lead, c = ' ') ∧ k.text ≠ [] ∧
      (∀ c ∈ k.text, c ≠ ' ') ∧ Resumes rest ∧ k.index = (a ++ lead).length ∧
      k.nesting = Nesting.after (a ++ lead) ∧
      ks = Token.scan (a ++ (lead ++ k.text)).length (Nesting.after (a ++ (lead ++ k.text)))
        false rest := by
  obtain ⟨lead, rest, rfl, hlead, hne, htext, hrest, hidx, hnest, hks⟩ := Token.scan_split h.symm
  refine ⟨lead, rest, rfl, hlead, hne, htext, hrest, ?_, ?_, ?_⟩
  · rw [hidx, List.length_append]
  · rw [hnest]
    simp [Nesting.after, Nesting.scan]
  · rw [hks, hnest]
    simp [Nesting.after, Nesting.scan, Nat.add_assoc]

/-- A token that starts a boundary is a place at which a clause starts. -/
theorem startsAt_token {a lead rest : Text} {k : Token} {ks : List Token} {i' : Nat}
    {n' : Nesting} {b : Boundary}
    (ht : Tidy (a ++ (lead ++ (k.text ++ rest)))) (hedge : edge none (a ++ lead) = none)
    (hnest : k.nesting = Nesting.after (a ++ lead)) (hrest : Resumes rest)
    (hks : ks = Token.scan i' n' false rest)
    (h : Boundary.ofTokens? (k :: ks) = some b) :
    StartsAt (a ++ (lead ++ (k.text ++ rest))) (a ++ lead).length (some b) := by
  obtain ⟨hout, hb, hspell⟩ := Boundary.ofTokens?_spec h
  have hsplit : a ++ (lead ++ (k.text ++ rest)) = (a ++ lead) ++ (k.text ++ rest) := by simp
  -- the keyword is this token, or this one and the next
  have hspelled : ∃ w r, k.text ++ rest = w ++ r ∧ w.upper = b.keyword ∧ Resumes r := by
    rcases hspell with hone | ⟨k', ks', rfl, htwo⟩
    · exact ⟨k.text, rest, rfl, hone, hrest⟩
    · obtain ⟨lead', rest', rfl, hlead', hne', htext', hres', -, -, -⟩ := Token.scan_split hks.symm
      have hspace : lead' = [' '] := by
        refine lead_eq_space (a := a ++ (lead ++ k.text)) (b := k'.text ++ rest') ?_ hlead'
          (hrest.lead_ne_nil hne' htext')
        simpa using ht
      subst hspace
      exact ⟨k.text ++ ' ' :: k'.text, rest', by simp, htwo, hres'⟩
  obtain ⟨w, r, hw, hup, hr⟩ := hspelled
  rw [hsplit]
  refine ⟨?_, ?_, ?_, ?_⟩
  · rw [List.take_left, ← hnest]
    exact hout
  · rw [List.take_left]
    exact hedge
  · have hlen : b.keyword.length = w.length := by rw [← hup, length_upper]
    rw [hw]
    simp only [startWidth, Option.map_some, Option.getD_some, List.length_append]
    omega
  · intro x hx
    obtain rfl : b = x := by simpa using hx
    refine ⟨hb, w, r, ?_, hup, hr⟩
    rw [List.drop_left, hw]

/-- The places found by the scan, where `a` has been read: nothing, or a text that ends with a
token. -/
theorem starts_laterStarts {ks : List Token} {a t : Text}
    (hks : ks = Token.scan a.length (Nesting.after a) false t) (hres : a = [] ∨ Resumes t)
    (ht : Tidy (a ++ t)) : Starts (a ++ t) a.length (Clause.laterStarts ks) := by
  induction hn : ks.length using Nat.strong_induction_on generalizing ks a t with
  | _ n ih =>
    cases ks with
    | nil => trivial
    | cons k ks =>
        obtain ⟨lead, rest, rfl, hlead, hne, htext, hrest, hindex, hnest, hscan⟩ :=
          Token.scan_next hks
        have hedge : edge none (a ++ lead) = none := by
          have hblank : AllBlank lead := by
            intro c hc
            rw [hlead c hc]
            decide
          rw [edge_append, hblank.edge_eq]
          rcases hres with rfl | hres
          · simp
          · rw [if_neg (hres.lead_ne_nil hne htext)]
        have hsplit : a ++ (lead ++ (k.text ++ rest)) = (a ++ (lead ++ k.text)) ++ rest := by simp
        have hlater : Starts (a ++ (lead ++ (k.text ++ rest))) (a ++ (lead ++ k.text)).length
            (Clause.laterStarts ks) := by
          rw [hsplit]
          exact ih ks.length (by rw [← hn]; simp) hscan (Or.inr hrest)
            (by rw [← hsplit]; exact ht) rfl
        rw [Clause.laterStarts]
        cases hof : Boundary.ofTokens? (k :: ks) with
        | none => exact hlater.mono (by simp)
        | some b =>
            have hat := startsAt_token ht hedge hnest hrest hscan hof
            refine ⟨by rw [hindex]; simp, by rw [hindex]; exact hat, ?_⟩
            obtain ⟨-, hb, hone | ⟨k', ks', rfl, htwo⟩⟩ := Boundary.ofTokens?_spec hof
            · refine hlater.mono ?_
              have hlen : b.keyword.length = k.text.length := by rw [← hone, length_upper]
              simp only [hindex, startWidth, Option.map_some, Option.getD_some,
                List.length_append]
              omega
            · -- the second word is passed over, so the next place lies behind it
              obtain ⟨lead', rest', rfl, hlead', hne', htext', hres', -, -, hscan'⟩ :=
                Token.scan_next hscan
              have hspace : lead' = [' '] := by
                refine lead_eq_space (a := a ++ (lead ++ k.text)) (b := k'.text ++ rest') ?_ hlead'
                  (Resumes.lead_ne_nil hrest hne' htext')
                simpa using ht
              subst hspace
              have hskip : Clause.laterStarts (k' :: ks') = Clause.laterStarts ks' := by
                rw [Clause.laterStarts, Boundary.ofTokens?_second hb htext htext' htwo]
              rw [hskip]
              have hread : (a ++ (lead ++ k.text)) ++ ([' '] ++ k'.text)
                  = a ++ (lead ++ (k.text ++ ' ' :: k'.text)) := by simp
              rw [hread] at hscan'
              have hsplit' : a ++ (lead ++ (k.text ++ ([' '] ++ (k'.text ++ rest'))))
                  = (a ++ (lead ++ (k.text ++ ' ' :: k'.text))) ++ rest' := by simp
              have hlast := ih ks'.length (by rw [← hn]; simp only [List.length_cons]; omega) hscan'
                (Or.inr hres')
                (by rw [← hsplit']; exact ht) rfl
              rw [← hsplit'] at hlast
              refine hlast.mono ?_
              have hlen : b.keyword.length = (k.text ++ ' ' :: k'.text).length := by
                rw [← htwo, length_upper]
              simp only [hindex, startWidth, Option.map_some, Option.getD_some,
                List.length_append, List.length_cons] at hlen ⊢
              omega

/-- The places at which a statement is cut. -/
theorem starts_clauses {s : Text} (hs : Tidy s) : Starts s 0 (Clause.starts s.tokens) := by
  have hlater : Starts s 0 (Clause.laterStarts s.tokens) :=
    starts_laterStarts (a := []) rfl (Or.inl rfl) hs
  cases htok : s.tokens with
  | nil => trivial
  | cons k ks =>
      rw [htok] at hlater
      rw [Clause.starts]
      rw [Clause.laterStarts] at hlater
      cases hof : Boundary.ofTokens? (k :: ks) with
      | some b =>
          rw [hof] at hlater
          exact hlater
      | none =>
          rw [hof] at hlater
          refine ⟨Nat.le_refl 0, ⟨rfl, rfl, Nat.zero_le _, ?_⟩, hlater⟩
          intro x hx
          cases hx

/-- Only spaces stand before the first clause. -/
theorem blank_of_starts {s : Text} {i : Nat} {b : Option Boundary}
    {rest : List (Nat × Option Boundary)} (h : Clause.starts s.tokens = (i, b) :: rest) :
    AllBlank (s.take i) := by
  cases htok : s.tokens with
  | nil =>
      rw [htok] at h
      cases h
  | cons k ks =>
      obtain ⟨lead, rest', hs, hlead, -, -, -, hidx, -, -⟩ := Token.scan_split htok
      rw [htok, Clause.starts] at h
      -- a clause without a keyword starts at the very beginning
      have hi : i = lead.length ∨ i = 0 := by
        cases hof : Boundary.ofTokens? (k :: ks) with
        | some b' =>
            rw [hof] at h
            simp only [List.cons.injEq, Prod.mk.injEq] at h
            rw [← h.1.1, hidx]
            exact Or.inl (Nat.zero_add _)
        | none =>
            rw [hof] at h
            simp only [List.cons.injEq, Prod.mk.injEq] at h
            exact Or.inr h.1.1.symm
      intro c hc
      rcases hi with rfl | rfl
      · rw [hs, List.take_left] at hc
        rw [hlead c hc]
        decide
      · simp at hc

/-- A statement without clauses has only spaces. -/
theorem blank_of_starts_eq_nil {s : Text} (h : Clause.starts s.tokens = []) : AllBlank s := by
  cases htok : s.tokens with
  | nil =>
      intro c hc
      rw [Token.eq_space_of_scan_eq_nil htok c hc]
      decide
  | cons k ks =>
      rw [htok, Clause.starts] at h
      cases hof : Boundary.ofTokens? (k :: ks) <;> simp [hof] at h

end SqlLayout
