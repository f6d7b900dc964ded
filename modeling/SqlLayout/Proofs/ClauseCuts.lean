import SqlLayout.Proofs.CaseLines
import SqlLayout.Proofs.Closed
import SqlLayout.Proofs.LetterCase

set_option autoImplicit false

/-! # Clauses side by side

The clauses of a statement stand side by side: the statement is their texts with a space between
them, and each of the texts alone is cut into one clause (`exists_slices`). A literal or a
parenthesis that does not end stays in the last of them. The other way round,
texts that stand side by side are cut one by one, if each but the first starts a clause
(`part_join`): no clause starts with the end of one text and the beginning of the next, since
the second word of a boundary keyword is not the first of any.
-/

namespace SqlLayout

open Text

/-! ## Tokens side by side -/

namespace Token

theorem scan_append_space (i : Nat) (n : Nesting) (inside : Bool) (s r : Text) :
    scan i n inside (s ++ ' ' :: r)
      = scan i n inside s ++ scan (i + s.length + 1) ((n.scan s).next ' ') false r := by
  have htake : ∀ u : Text, (u ++ ' ' :: r).takeWhile (· != ' ') = u.takeWhile (· != ' ') := by
    intro u
    rw [List.takeWhile_append]
    split
    · rename_i hall
      rw [(List.takeWhile_prefix (· != ' ')).eq_of_length hall]
      simp
    · rfl
  induction s generalizing i n inside with
  | nil => simp [scan, Nesting.scan]
  | cons c cs ih =>
      have hscan : n.scan (c :: cs) = (n.next c).scan cs := rfl
      have htext := htake (c :: cs)
      rw [List.cons_append] at htext ⊢
      rw [scan, scan, htext, hscan, List.length_cons,
        show i + (cs.length + 1) + 1 = i + 1 + cs.length + 1 by omega]
      simp only [ih]
      split_ifs <;> rfl

/-- The token, further on by `k`. -/
def moved (k : Nat) (t : Token) : Token := ⟨t.text, t.index + k, t.nesting⟩

theorem scan_moved (k i : Nat) (n : Nesting) (inside : Bool) (t : Text) :
    scan (i + k) n inside t = (scan i n inside t).map (moved k) := by
  induction t generalizing i n inside with
  | nil => rfl
  | cons c cs ih =>
      have hrest : ∀ m b, scan (i + k + 1) m b cs = (scan (i + 1) m b cs).map (moved k) := by
        intro m b
        rw [← ih, show i + k + 1 = i + 1 + k by omega]
      rw [scan, scan, hrest, hrest]
      split_ifs <;> rfl

theorem ne_space_of_mem_scan {i : Nat} {n : Nesting} {inside : Bool} {t : Text} {k : Token}
    (h : k ∈ scan i n inside t) : ∀ c ∈ k.text, c ≠ ' ' := by
  induction t generalizing i n inside with
  | nil => cases h
  | cons c cs ih =>
      rw [scan] at h
      split_ifs at h with hspace hinside
      · exact ih h
      · exact ih h
      · rcases List.mem_cons.mp h with rfl | h
        · intro d hd
          simpa using List.mem_takeWhile_imp hd
        · exact ih h

end Token

/-! ## Boundaries -/

namespace Boundary

theorem ofTokens?_moved (k : Nat) (ts : List Token) :
    ofTokens? (ts.map (Token.moved k)) = ofTokens? ts := by
  cases ts with
  | nil => rfl
  | cons t ts =>
      cases ts with
      | nil => rfl
      | cons u us => rfl

/-- A token in front of a boundary does not start a clause with it. -/
theorem ofTokens?_append {t : Token} {ts us : List Token} {b : Boundary}
    (ht : ∀ c ∈ t.text, c ≠ ' ') (hus : ∀ u ∈ us, ∀ c ∈ u.text, c ≠ ' ')
    (h : ofTokens? us = some b) : ofTokens? (t :: (ts ++ us)) = ofTokens? (t :: ts) := by
  cases ts with
  | cons t' ts' => rfl
  | nil =>
      cases us with
      | nil => rfl
      | cons u us =>
          have hnone : ofWords? (t.text ++ ' ' :: u.text) = none := by
            cases hw : ofWords? (t.text ++ ' ' :: u.text) with
            | none => rfl
            | some b' =>
                obtain ⟨hb', hup⟩ := ofWords?_spec hw
                rw [ofTokens?_second hb' ht (hus u List.mem_cons_self) hup] at h
                cases h
          simp [ofTokens?, hnone]

theorem ofWords?_eq_some {b : Boundary} (hb : b ∈ all) {w : Text} (h : w.upper = b.keyword) :
    ofWords? w = some b := by
  have hall : ∀ b ∈ all, ofWords? b.keyword = some b := by decide
  rw [← ofWords?_upper, h]
  exact hall b hb

/-- A keyword of one word, or of two. -/
theorem keyword_words {b : Boundary} (hb : b ∈ all) {k : Text} (hk : k.upper = b.keyword) :
    Solid k ∨ ∃ x y, k = x ++ ' ' :: y ∧ Solid x ∧ Solid y := by
  have hall : ∀ b ∈ all, b.keyword.all isWordChar = true ∨ ∃ x ∈ b.keyword.inits,
      ∃ y ∈ b.keyword.tails, b.keyword = x ++ ' ' :: y ∧ x.isEmpty = false ∧
        y.isEmpty = false ∧ x.all isWordChar = true ∧ y.all isWordChar = true := by decide
  have hsolid : ∀ {x w : Text}, x.upper = w → w.isEmpty = false → w.all isWordChar = true →
      Solid x := by
    rintro x w rfl hne hw
    refine solid_of_isWordChar (by simpa [upper] using hne) ?_
    simpa [upper, Function.comp_def] using hw
  rcases hall b hb with hone | ⟨x, -, y, -, htwo, hx, hy, hxw, hyw⟩
  · refine Or.inl (hsolid hk ?_ hone)
    have hne := (isKeyword_of_mem hb).ne_nil
    simpa using hne
  · rw [htwo] at hk
    obtain ⟨x', z, rfl, hx', hz⟩ := List.map_eq_append_iff.mp hk
    obtain ⟨c, y', rfl, hc, hy'⟩ := List.map_eq_cons_iff.mp hz
    rw [(toUpper_eq_iff_of_not_word (by decide) c).mp hc]
    exact Or.inr ⟨x', y', rfl, hsolid hx' hx hxw, hsolid hy' hy hyw⟩

/-- A text that starts with a boundary keyword starts a clause. -/
theorem ofTokens?_keyword {b : Boundary} (hb : b ∈ all) {k r : Text} (hk : k.upper = b.keyword)
    (hr : Layout.Resumes r) : ofTokens? (tokens (k ++ r)) = some b := by
  have hword := ofWords?_eq_some hb hk
  rcases keyword_words hb hk with hsolid | ⟨x, y, rfl, hx, hy⟩
  · have hscan := Token.scan_solid hsolid hr 0 .start
    rw [Text.tokens, hscan]
    have hne : ∀ c ∈ k, c ≠ ' ' := by
      rintro c hc rfl
      exact absurd (hsolid.unblank ' ' hc) (by decide)
    -- no other keyword starts with this word
    have hdistinct : ∀ b ∈ all, ∀ b' ∈ all, b.keyword ≠ b'.keyword.takeWhile (· != ' ') ∨
        b' = b := by decide
    cases hrest : Token.scan (0 + k.length) (Nesting.start.scan k) false r with
    | nil => exact hword
    | cons u us =>
        show (ofWords? (k ++ ' ' :: u.text)).or (ofWords? k) = some b
        rw [hword]
        cases htwo : ofWords? (k ++ ' ' :: u.text) with
        | none => rfl
        | some b' =>
            obtain ⟨hb', hup⟩ := ofWords?_spec htwo
            have hfirst := (words_of_spelling hne hup).1
            rw [hk] at hfirst
            rcases hdistinct b hb b' hb' with h | rfl
            · exact absurd hfirst h
            · rfl
  · -- a keyword of two words takes both tokens
    have hresumes : Layout.Resumes (' ' :: (y ++ r)) := Or.inr ⟨_, rfl⟩
    have hscan := Token.scan_solid hx hresumes 0 .start
    have hscan' : ∀ i n, Token.scan i n false (' ' :: (y ++ r))
        = ⟨y, i + 1, n.next ' '⟩ ::
            Token.scan (i + 1 + y.length) ((n.next ' ').scan y) false r := by
      intro i n
      rw [Token.scan]
      exact Token.scan_solid hy hr (i + 1) (n.next ' ')
    rw [hscan'] at hscan
    rw [Text.tokens, List.append_assoc, List.cons_append, hscan]
    show (ofWords? (x ++ ' ' :: y)).or (ofWords? x) = some b
    rw [hword]
    rfl

end Boundary

/-! ## Places side by side -/

namespace Clause

/-- A place, further on by `k`. -/
def movedPlace (k : Nat) (p : Nat × Option Boundary) : Nat × Option Boundary := (p.1 + k, p.2)

theorem laterStarts_moved (k : Nat) (ts : List Token) :
    laterStarts (ts.map (Token.moved k)) = (laterStarts ts).map (movedPlace k) := by
  induction ts with
  | nil => rfl
  | cons t ts ih =>
      have hfirst := Boundary.ofTokens?_moved k (t :: ts)
      rw [List.map_cons] at hfirst ⊢
      rw [laterStarts, laterStarts, hfirst, ih]
      cases Boundary.ofTokens? (t :: ts) <;> rfl

theorem laterStarts_append {ts us : List Token} {b : Boundary}
    (hts : ∀ t ∈ ts, ∀ c ∈ t.text, c ≠ ' ') (hus : ∀ u ∈ us, ∀ c ∈ u.text, c ≠ ' ')
    (h : Boundary.ofTokens? us = some b) :
    laterStarts (ts ++ us) = laterStarts ts ++ laterStarts us := by
  induction ts with
  | nil => rfl
  | cons t ts ih =>
      have hrest := ih (fun x hx => hts x (List.mem_cons_of_mem _ hx))
      rw [List.cons_append, laterStarts, laterStarts,
        Boundary.ofTokens?_append (hts t List.mem_cons_self) hus h, hrest]
      cases Boundary.ofTokens? (t :: ts) <;> rfl

theorem starts_append {ts us : List Token} {b : Boundary} (hne : ts ≠ [])
    (hts : ∀ t ∈ ts, ∀ c ∈ t.text, c ≠ ' ') (hus : ∀ u ∈ us, ∀ c ∈ u.text, c ≠ ' ')
    (h : Boundary.ofTokens? us = some b) : starts (ts ++ us) = starts ts ++ laterStarts us := by
  obtain ⟨t, ts, rfl⟩ := List.exists_cons_of_ne_nil hne
  have hrest := laterStarts_append (fun x hx => hts x (List.mem_cons_of_mem _ hx)) hus h
  rw [List.cons_append, starts, starts,
    Boundary.ofTokens?_append (hts t List.mem_cons_self) hus h, hrest]
  cases Boundary.ofTokens? (t :: ts) <;> rfl

/-- The places of a text that starts a clause. -/
theorem starts_eq_laterStarts {ts : List Token} {b : Boundary}
    (h : Boundary.ofTokens? ts = some b) : starts ts = laterStarts ts := by
  cases ts with
  | nil => rfl
  | cons t ts => rw [starts, laterStarts, h]

theorem cut_moved (a s : Text) (places : List (Nat × Option Boundary)) :
    cut (a ++ s) (places.map (movedPlace a.length)) = cut s places := by
  have hdrop : ∀ i, (a ++ s).drop (i + a.length) = s.drop i := by
    intro i
    rw [Nat.add_comm, ← List.drop_drop, List.drop_left]
  induction places with
  | nil => rfl
  | cons p rest ih =>
      obtain ⟨i, b⟩ := p
      cases rest with
      | nil => simp only [List.map_cons, List.map_nil, movedPlace, cut, hdrop]
      | cons p' rest =>
          obtain ⟨j, b'⟩ := p'
          have hslice : ((a ++ s).take (j + a.length)).drop (i + a.length)
              = (s.take j).drop i := by
            rw [List.drop_take, List.drop_take, hdrop, Nat.add_sub_add_right]
          simp only [List.map_cons, movedPlace] at ih ⊢
          rw [cut, cut, hslice, ih]

/-- Places in a text, and the places behind it. -/
theorem cut_append {t r : Text} {places later : List (Nat × Option Boundary)} {b : Option Boundary}
    (hplaces : ∀ p ∈ places, p.1 ≤ t.length) :
    cut (t ++ ' ' :: r) (places ++ (t.length + 1, b) :: later)
      = cut t places ++ cut (t ++ ' ' :: r) ((t.length + 1, b) :: later) := by
  have htake : (t ++ ' ' :: r).take (t.length + 1) = t ++ [' '] := by
    have hsplit : t ++ ' ' :: r = (t ++ [' ']) ++ r := by simp
    rw [hsplit]
    exact List.take_left' (by simp)
  induction places with
  | nil => rfl
  | cons p rest ih =>
      obtain ⟨i, c⟩ := p
      have hi : i ≤ t.length := hplaces _ List.mem_cons_self
      have hrest := ih (fun x hx => hplaces x (List.mem_cons_of_mem _ hx))
      -- the last place of `t` ends in front of the space, which is trimmed
      cases rest with
      | nil =>
          have hslice : trim (((t ++ ' ' :: r).take (t.length + 1)).drop i) = trim (t.drop i) := by
            rw [htake, List.drop_append_of_le_length hi, trim_space]
          simp only [List.cons_append, List.nil_append, cut, hslice]
      | cons p' rest =>
          obtain ⟨j, c'⟩ := p'
          have hj : j ≤ t.length := hplaces (j, c') (by simp)
          simp only [List.cons_append] at hrest ⊢
          rw [cut, cut, List.take_append_of_le_length hj, hrest]
          rfl

end Clause

theorem Starts.le_length {s : Text} {i : Nat} {places : List (Nat × Option Boundary)}
    (h : Starts s i places) : ∀ p ∈ places, p.1 ≤ s.length := by
  induction places generalizing i with
  | nil => exact fun p hp => (by cases hp)
  | cons q rest ih =>
      intro p hp
      rcases List.mem_cons.mp hp with rfl | hp
      · exact (Nat.le_add_right _ _).trans h.2.1.fits
      · exact ih h.2.2 p hp

/-! ## Texts side by side -/

theorem tokens_space {t : Text} (h : Nesting.after t = .start) (r : Text) :
    tokens (t ++ ' ' :: r) = t.tokens ++ r.tokens.map (Token.moved (t.length + 1)) := by
  have hscan : (Nesting.start.scan t).next ' ' = .start := by
    rw [show Nesting.start.scan t = .start from h]
    rfl
  rw [Text.tokens, Text.tokens, Text.tokens, Token.scan_append_space, hscan, ← Token.scan_moved,
    Nat.zero_add, Nat.zero_add]

/-- A neat text starts with its first token. -/
theorem tokens_split {t : Text} (ht : Neat t) {k : Token} {ks : List Token}
    (h : t.tokens = k :: ks) :
    ∃ rest, t = k.text ++ rest ∧ k.text ≠ [] ∧ Layout.Resumes rest ∧ k.index = 0 ∧
      ks = Token.scan k.text.length (Nesting.after k.text) false rest := by
  obtain ⟨lead, rest, htext, hlead, hkne, -, hrest, hindex, hnest, hks⟩ := Token.scan_split h
  obtain rfl : lead = [] := by
    cases lead with
    | nil => rfl
    | cons c cs =>
        have hblank := ht.head c (by rw [htext]; rfl)
        rw [hlead c List.mem_cons_self] at hblank
        exact absurd hblank (by decide)
  refine ⟨rest, htext, hkne, hrest, hindex, ?_⟩
  rw [hks, hnest]
  simp [Nesting.after, Nesting.scan]

/-- The first token of a neat text, and the places of the text. -/
theorem starts_of_neat {t : Text} (ht : Neat t) (hne : t ≠ []) :
    ∃ k ks rest, t.tokens = k :: ks ∧ t = k.text ++ rest ∧ k.text ≠ [] ∧ Layout.Resumes rest ∧
      ks = Token.scan k.text.length (Nesting.after k.text) false rest ∧
      Clause.starts t.tokens = (0, Boundary.ofTokens? t.tokens) :: Clause.laterStarts ks := by
  cases htokens : t.tokens with
  | nil =>
      obtain ⟨c, cs, rfl⟩ := List.exists_cons_of_ne_nil hne
      have hspace := Token.eq_space_of_scan_eq_nil htokens c List.mem_cons_self
      have hblank := ht.head c rfl
      rw [hspace] at hblank
      exact absurd hblank (by decide)
  | cons k ks =>
      obtain ⟨rest, htext, hkne, hrest, hindex, hks⟩ := tokens_split ht htokens
      refine ⟨k, ks, rest, rfl, htext, hkne, hrest, hks, ?_⟩
      rw [Clause.starts]
      cases Boundary.ofTokens? (k :: ks) with
      | none => rfl
      | some b => simp only [hindex]

/-- The places of two texts side by side, the second of which starts a clause. -/
theorem starts_space {t r : Text} (ht : t.tokens ≠ []) (hafter : Nesting.after t = .start)
    {b : Boundary} (hr : Boundary.ofTokens? r.tokens = some b) :
    Clause.starts (tokens (t ++ ' ' :: r)) = Clause.starts t.tokens ++
      (Clause.starts r.tokens).map (Clause.movedPlace (t.length + 1)) := by
  have hmoved : Boundary.ofTokens? (r.tokens.map (Token.moved (t.length + 1))) = some b := by
    rw [Boundary.ofTokens?_moved, hr]
  have hspaces : ∀ u ∈ r.tokens.map (Token.moved (t.length + 1)), ∀ c ∈ u.text, c ≠ ' ' := by
    intro u hu
    obtain ⟨v, hv, rfl⟩ := List.mem_map.mp hu
    exact Token.ne_space_of_mem_scan (k := v) hv
  rw [tokens_space hafter, Clause.starts_append ht (fun u hu => Token.ne_space_of_mem_scan hu)
    hspaces hmoved, Clause.laterStarts_moved, Clause.starts_eq_laterStarts hr]

/-- What two texts side by side start with, if the second of them starts a clause. -/
theorem ofTokens?_space {t r : Text} (ht : t.tokens ≠ []) (hafter : Nesting.after t = .start)
    {b : Boundary} (hr : Boundary.ofTokens? r.tokens = some b) :
    Boundary.ofTokens? (tokens (t ++ ' ' :: r)) = Boundary.ofTokens? t.tokens := by
  obtain ⟨k, ks, htokens⟩ := List.exists_cons_of_ne_nil ht
  have hmoved : Boundary.ofTokens? (r.tokens.map (Token.moved (t.length + 1))) = some b := by
    rw [Boundary.ofTokens?_moved, hr]
  rw [tokens_space hafter, htokens, List.cons_append]
  refine Boundary.ofTokens?_append ?_ ?_ hmoved
  · exact Token.ne_space_of_mem_scan (show k ∈ t.tokens by rw [htokens]; simp)
  · intro x hx
    obtain ⟨v, hv, rfl⟩ := List.mem_map.mp hx
    exact Token.ne_space_of_mem_scan (k := v) hv

/-- Two texts side by side, the second of which starts a clause, are cut one by one. -/
theorem clauses_space {t r : Text} (ht : Neat t) (htne : t ≠ [])
    (hafter : Nesting.after t = .start) (hr : Neat r) (hrne : r ≠ []) {b : Boundary}
    (hb : Boundary.ofTokens? r.tokens = some b) :
    clauses (t ++ ' ' :: r) = t.clauses ++ r.clauses := by
  have hplaces := (starts_clauses ht.tidy).le_length
  have hsplit : t ++ ' ' :: r = (t ++ [' ']) ++ r := by simp
  have hmoved := Clause.cut_moved (t ++ [' ']) r (Clause.starts r.tokens)
  obtain ⟨k, ks, -, htokens, -⟩ := starts_of_neat ht htne
  obtain ⟨-, ks', -, -, -, -, -, -, hstarts⟩ := starts_of_neat hr hrne
  rw [← hsplit, List.length_append, List.length_singleton, hstarts, List.map_cons,
    Clause.movedPlace, Nat.zero_add] at hmoved
  rw [Text.clauses, starts_space (by simp [htokens]) hafter hb, hstarts, List.map_cons,
    Clause.movedPlace, Nat.zero_add, Clause.cut_append hplaces, hmoved, ← hstarts]
  rfl

/-! ## Slices -/

/-- A text as one clause. -/
def Text.asClause (t : Text) : Clause := Clause.ofBoundary (Boundary.ofTokens? t.tokens) t

theorem text_asClause (t : Text) : t.asClause.text = t := by
  unfold asClause Clause.ofBoundary
  cases Boundary.ofTokens? t.tokens <;> rfl

theorem map_text_asClause (ts : List Text) : (ts.map Text.asClause).map Clause.text = ts := by
  rw [List.map_map]
  exact (List.map_congr_left fun u _ => text_asClause u).trans (List.map_id ts)

theorem kind_asClause (t : Text) :
    t.asClause.kind = ((Boundary.ofTokens? t.tokens).map Boundary.kind).getD .leading := by
  unfold asClause Clause.ofBoundary
  cases Boundary.ofTokens? t.tokens <;> rfl

/-- A text that can stand side by side with others. -/
structure Part (t : Text) : Prop where
  neat : Neat t
  ne_nil : t ≠ []
  after : Nesting.after t = .start

/-- A text that starts a clause. -/
def StartsClause (t : Text) : Prop := ∃ b, Boundary.ofTokens? t.tokens = some b

theorem Part.tokens_ne_nil {t : Text} (h : Part t) : t.tokens ≠ [] := by
  obtain ⟨k, ks, -, htokens, -⟩ := starts_of_neat h.neat h.ne_nil
  simp [htokens]

theorem Part.clauses_ne_nil {t : Text} (h : Part t) : t.clauses ≠ [] := by
  obtain ⟨-, ks, -, -, -, -, -, -, hstarts⟩ := starts_of_neat h.neat h.ne_nil
  rw [Text.clauses, hstarts]
  cases Clause.laterStarts ks <;> simp [Clause.cut]

/-- Texts side by side are a text that can stand side by side with others; it starts a clause if
the first of them does. -/
theorem part_join {t : Text} {ts : List Text} (hall : ∀ u ∈ t :: ts, Part u)
    (hts : ∀ u ∈ ts, StartsClause u) :
    Part (join [' '] (t :: ts)) ∧
      Boundary.ofTokens? (join [' '] (t :: ts)).tokens = Boundary.ofTokens? t.tokens ∧
      (join [' '] (t :: ts)).clauses = (t :: ts).flatMap Text.clauses := by
  induction ts generalizing t with
  | nil => exact ⟨hall t List.mem_cons_self, rfl, by simp [join]⟩
  | cons u us ih =>
      have ht := hall t List.mem_cons_self
      obtain ⟨hpart, hfirst, hclauses⟩ := ih (t := u)
        (fun x hx => hall x (List.mem_cons_of_mem _ hx))
        (fun x hx => hts x (List.mem_cons_of_mem _ hx))
      obtain ⟨b, hb⟩ := hts u List.mem_cons_self
      rw [hb] at hfirst
      have hjoin : join [' '] (t :: u :: us) = t ++ ' ' :: join [' '] (u :: us) := by
        simp [join]
      rw [hjoin]
      refine ⟨⟨ht.neat.space hpart.neat ht.ne_nil hpart.ne_nil, by simp, ?_⟩, ?_, ?_⟩
      · have hscan : Nesting.start.scan t = .start := ht.after
        rw [Nesting.after, Nesting.scan_append, hscan]
        exact hpart.after
      · exact ofTokens?_space ht.tokens_ne_nil ht.after hfirst
      · rw [clauses_space ht.neat ht.ne_nil ht.after hpart.neat hpart.ne_nil hfirst, hclauses]
        rfl

theorem clauses_eq_singleton {t : Text} (ht : Neat t) (hne : t ≠ []) {p : Nat × Option Boundary}
    (hp : Clause.starts t.tokens = [p]) : t.clauses = [t.asClause] := by
  obtain ⟨-, ks, -, -, -, -, -, -, hstarts⟩ := starts_of_neat ht hne
  rw [hp, List.cons.injEq] at hstarts
  rw [Text.clauses, hp, hstarts.1]
  show [Clause.ofBoundary _ (Text.trim (t.drop 0))] = [t.asClause]
  rw [List.drop_zero, ht.trim_eq]
  rfl

theorem Clause.exists_boundary_of_mem {ts : List Token} {p : Nat × Option Boundary}
    (h : p ∈ laterStarts ts) : ∃ b, p.2 = some b := by
  induction ts with
  | nil => cases h
  | cons t ts ih =>
      rw [laterStarts] at h
      split at h
      · rcases List.mem_cons.mp h with rfl | h
        · exact ⟨_, rfl⟩
        · exact ih h
      · exact ih h

/-- A text whose beginning ends with a known character. -/
theorem eq_append_cons_drop {s t : Text} {c : Char} {j : Nat} (h : s.take j = t ++ [c]) :
    s = t ++ c :: s.drop j := by
  have hall := List.take_append_drop j s
  rw [h] at hall
  simpa using hall.symm

/-- A space stands before a place that is not the beginning. -/
theorem StartsAt.space_before {s : Text} (hs : Neat s) {j : Nat} {b : Option Boundary}
    (hj : 0 < j) (h : StartsAt s j b) : ∃ t, s.take j = t ++ [' '] ∧ t.length + 1 = j := by
  have hle : j ≤ s.length := Nat.le_of_add_right_le h.fits
  obtain ⟨t, c, htake⟩ : ∃ t c, s.take j = t ++ [c] := by
    rcases List.eq_nil_or_concat (s.take j) with hnil | ⟨t, c, htc⟩
    · have hlen := congrArg List.length hnil
      rw [List.length_take, List.length_nil] at hlen
      omega
    · exact ⟨t, c, by rw [htc, List.concat_eq_append]⟩
  have hsplit := eq_append_cons_drop htake
  -- a clause starts behind a blank, and in a neat text that is a space
  obtain rfl : c = ' ' := by
    have hedge := h.edge
    rw [htake, edge_concat] at hedge
    have hblank : isBlank c = true := by
      by_contra hc
      simp [hc] at hedge
    exact (hs.tidy t c (s.drop j) hsplit hblank).1
  refine ⟨t, htake, ?_⟩
  have hlength := congrArg List.length htake
  rw [List.length_take, List.length_append, List.length_singleton] at hlength
  omega

/-- A clause that does not start at the beginning starts behind a space. -/
theorem StartsAt.split {s : Text} (hs : Neat s) {j : Nat} {x : Boundary} (hj : 0 < j)
    (h : StartsAt s j (some x)) :
    ∃ t r : Text, s = t ++ ' ' :: r ∧ t.length + 1 = j ∧ Part t ∧ Neat r ∧ r ≠ [] ∧
      Nesting.after r = Nesting.after s ∧ Boundary.ofTokens? r.tokens = some x := by
  obtain ⟨hx, w, r', hw, hup, hr'⟩ := h.spelled x rfl
  have hwne : w ≠ [] := by
    rintro rfl
    exact (Boundary.isKeyword_of_mem hx).ne_nil hup.symm
  obtain ⟨t, htake, hlen⟩ := h.space_before hs hj
  have hsplit := eq_append_cons_drop htake
  have hneat := hs
  rw [hsplit] at hneat
  -- the clause starts outside everything, so both parts can be read alone
  have hafter : Nesting.after (t ++ [' ']) = .start := by
    rw [← htake]
    exact Nesting.eq_start_of_isOutermost h.outermost
  refine ⟨t, s.drop j, hsplit, hlen, ⟨hneat.before_space, ?_, ?_⟩, hneat.after_space, ?_, ?_, ?_⟩
  · rintro rfl
    exact absurd (hneat.head ' ' rfl) (by decide)
  · have hmarks : Text.marks none (t ++ [' ']) = Text.marks none t := by
      rw [marks_append, allBlank_space.marks_eq, List.append_nil]
    exact after_eq_of_marks hmarks hafter
  · rw [hw]
    simp [hwne]
  · have hscan : Nesting.start.scan (t ++ [' ']) = .start := hafter
    have hall : Nesting.after (t ++ ' ' :: s.drop j) = Nesting.after (s.drop j) := by
      rw [← List.singleton_append, ← List.append_assoc, Nesting.after, Nesting.scan_append, hscan]
      rfl
    rw [← hall, ← hsplit]
  · rw [hw]
    exact Boundary.ofTokens?_keyword hx hup hr'

/-- The places at which texts start that stand side by side from index `i` on, with a space between
them. -/
def placesOf : Nat → List Text → List Nat
  | _, [] => []
  | i, t :: ts => i :: placesOf (i + t.length + 1) ts

theorem placesOf_add (k i : Nat) (ts : List Text) :
    placesOf (i + k) ts = (placesOf i ts).map (· + k) := by
  induction ts generalizing i with
  | nil => rfl
  | cons t ts ih =>
      rw [placesOf, placesOf, List.map_cons, ← ih, show i + k + t.length + 1
        = i + t.length + 1 + k by omega]

/-- A statement and its slices, one for each clause: they stand side by side, and each of them
alone is one clause. -/
structure Sliced (s : Text) (ts : List Text) : Prop where
  joined : join [' '] ts = s
  clauses : s.clauses = ts.map Text.asClause
  places : (Clause.starts s.tokens).map Prod.fst = placesOf 0 ts
  single : ∀ u ∈ ts, Neat u ∧ u ≠ [] ∧ u.clauses = [u.asClause]
  later : ∀ u ∈ ts.tail, StartsClause u
  closed : Nesting.after s = .start → ∀ u ∈ ts, Nesting.after u = .start

theorem sliced_singleton {s : Text} (hs : Neat s) (hne : s ≠ [])
    (h : ∃ b, Clause.starts s.tokens = [(0, b)]) : Sliced s [s] := by
  obtain ⟨b, hb⟩ := h
  have hone := clauses_eq_singleton hs hne hb
  refine ⟨rfl, hone, by rw [hb]; rfl, ?_, fun u hu => (by cases hu), ?_⟩
  · intro u hu
    rw [List.mem_singleton.mp hu]
    exact ⟨hs, hne, hone⟩
  · intro hafter u hu
    rwa [List.mem_singleton.mp hu]

/-- A slice more in front. -/
theorem Sliced.cons {t r u : Text} {us : List Text} (h : Sliced r (u :: us)) (ht : Part t)
    (htone : ∃ b, Clause.starts t.tokens = [(0, b)]) (hr : Neat r) (hrne : r ≠ [])
    {x : Boundary} (hx : Boundary.ofTokens? r.tokens = some x) (hu : StartsClause u)
    (hclosed : Nesting.after r = Nesting.after (t ++ ' ' :: r)) :
    Sliced (t ++ ' ' :: r) (t :: u :: us) := by
  obtain ⟨b, hb⟩ := htone
  have hone := clauses_eq_singleton ht.neat ht.ne_nil hb
  -- the fields of `Sliced`, in their order
  refine ⟨?_, ?_, ?_, ?_, ?_, ?_⟩
  · rw [← h.joined]
    simp [join]
  · rw [clauses_space ht.neat ht.ne_nil ht.after hr hrne hx, hone, h.clauses]
    rfl
  · have hplaces : (Clause.starts r.tokens).map (fun p => p.1 + (t.length + 1))
        = placesOf (0 + t.length + 1) (u :: us) := by
      rw [Nat.add_assoc, placesOf_add, ← h.places, List.map_map]
      rfl
    rw [starts_space ht.tokens_ne_nil ht.after hx, hb, List.map_append, List.map_map, placesOf,
      ← hplaces]
    rfl
  · intro v hv
    rcases List.mem_cons.mp hv with rfl | hv
    · exact ⟨ht.neat, ht.ne_nil, hone⟩
    · exact h.single v hv
  · intro v hv
    rcases List.mem_cons.mp hv with rfl | hv
    · exact hu
    · exact h.later v hv
  · intro hafter v hv
    rcases List.mem_cons.mp hv with rfl | hv
    · exact ht.after
    · exact h.closed (hclosed.trans hafter) v hv

/-- The first of two texts side by side is one clause if the first clause after it starts with
the second. -/
theorem starts_first {t r : Text} (ht : Part t) {x : Boundary}
    (hx : Boundary.ofTokens? r.tokens = some x) {p q : Nat × Option Boundary}
    {later : List (Nat × Option Boundary)}
    (hstarts : Clause.starts (tokens (t ++ ' ' :: r)) = p :: q :: later)
    (hq : q.1 = t.length + 1) : ∃ b, Clause.starts t.tokens = [(0, b)] := by
  obtain ⟨-, ks, -, -, -, -, -, -, htstarts⟩ := starts_of_neat ht.neat ht.ne_nil
  have hspace := starts_space ht.tokens_ne_nil ht.after hx
  rw [hstarts, htstarts, List.cons_append, List.cons.injEq] at hspace
  cases hlater : Clause.laterStarts ks with
  | nil => exact ⟨_, by rw [htstarts, hlater]⟩
  | cons p' later' =>
      -- a later clause of the first text would start before its end
      have hle := (starts_clauses ht.neat.tidy).le_length p' (by
        rw [htstarts, hlater]
        simp)
      rw [hlater, List.cons_append, List.cons.injEq] at hspace
      rw [← hspace.2.1] at hle
      omega

/-- A statement has slices. -/
theorem exists_slices {s : Text} (hs : Neat s) (hne : s ≠ []) :
    ∃ t ts, Sliced s (t :: ts) ∧ Boundary.ofTokens? t.tokens = Boundary.ofTokens? s.tokens := by
  -- by induction on the length: the first clause is cut off where the second one starts
  induction hn : s.length using Nat.strong_induction_on generalizing s with
  | _ n ih =>
    obtain ⟨k, ks, rest, htokens, htext, hkne, hrest, hks, hstarts⟩ := starts_of_neat hs hne
    cases hlater : Clause.laterStarts ks with
    | nil =>
        rw [hlater] at hstarts
        exact ⟨s, [], sliced_singleton hs hne ⟨_, hstarts⟩, rfl⟩
    | cons p later =>
        obtain ⟨j, b⟩ := p
        have hplaces := starts_laterStarts hks (Or.inr hrest) (by rw [← htext]; exact hs.tidy)
        rw [hlater, ← htext] at hplaces
        obtain ⟨hkj, hat, -⟩ := hplaces
        obtain ⟨x, rfl⟩ : ∃ x, b = some x :=
          Clause.exists_boundary_of_mem (p := (j, b)) (by rw [hlater]; exact List.mem_cons_self)
        have hj : 0 < j := Nat.lt_of_lt_of_le (List.length_pos_of_ne_nil hkne) hkj
        obtain ⟨t, r, rfl, hlen, ht, hr, hrne, hafter, hx⟩ := hat.split hs hj
        rw [hlater] at hstarts
        have htone := starts_first ht hx hstarts hlen.symm
        obtain ⟨u, us, hsliced, hfirst⟩ := ih r.length (by rw [← hn]; simp; omega) hr hrne rfl
        refine ⟨t, u :: us, ?_, (ofTokens?_space ht.tokens_ne_nil ht.after hx).symm⟩
        exact hsliced.cons ht htone hr hrne hx ⟨x, hfirst.trans hx⟩ hafter

end SqlLayout
