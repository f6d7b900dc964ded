import SqlLayout.Proofs.Clauses

set_option autoImplicit false

/-! # Statements

A statement respaces its text because its clauses do (`nested_layoutWithin`, by induction on
how deep queries are nested). Rendering the lines adds blanks only, so this holds of the
formatted text, but for the terminator at its end (`spread_format`).
-/

namespace SqlLayout

open Text

/-! ## Slices of a statement -/

/-- Trimming does not touch a keyword at the beginning. -/
theorem Text.trim_append {k r : Text} (hk : k ≠ [])
    (hhead : ∀ c, k.head? = some c → isBlank c = false)
    (hlast : ∀ c, k.getLast? = some c → isBlank c = false) :
    trim (k ++ r) = k ++ trimEnd r := by
  have hstart : trimStart (k ++ r) = k ++ r := by
    obtain ⟨c, cs, rfl⟩ := List.exists_cons_of_ne_nil hk
    have hc : isBlank c = false := hhead c rfl
    simp [trimStart, hc]
  -- from the right, the blanks end at the keyword at the latest
  have hrev : (k.reverse).dropWhile isBlank = k.reverse := by
    cases hr : k.reverse with
    | nil => rfl
    | cons c cs =>
        have hc : isBlank c = false := by
          refine hlast c ?_
          rw [← List.head?_reverse, hr]
          rfl
        simp [hc]
  rw [trim, hstart, trimEnd, trimEnd, List.reverse_append, List.dropWhile_append, hrev]
  split
  · rename_i hempty
    have hnil : r.reverse.dropWhile isBlank = [] := by simpa using hempty
    rw [hnil]
    simp
  · simp

/-- Trimming does not touch the keyword of a boundary. -/
theorem Boundary.trim_spelled {b : Boundary} (hb : b ∈ all) {k r : Text}
    (hk : k.upper = b.keyword) : Text.trim (k ++ r) = k ++ r.trimEnd := by
  have hkey := isKeyword_of_mem hb
  have hne : k ≠ [] := by
    rintro rfl
    exact hkey.ne_nil hk.symm
  have hword : ∀ c, isWordChar c.toUpper = true → isBlank c = false := by
    intro c hc
    rw [isWordChar_toUpper] at hc
    exact not_isBlank_of (Or.inr (Or.inr (Or.inl hc)))
  refine trim_append hne (fun c hc => hword c (hkey.isWordChar_head ?_))
    (fun c hc => hword c (hkey.isWordChar_last ?_))
  · rw [← hk, upper, List.head?_map, hc]
    rfl
  · rw [← hk, upper, List.getLast?_map, hc]
    rfl

namespace Layout

/-- Trimming the end leaves the blank at the beginning, or nothing. -/
theorem Apart.trimEnd {r : Text} (h : Apart r) : Apart r.trimEnd := by
  intro c hc
  obtain ⟨b, -, hr⟩ := trimEnd_split r
  refine h c ?_
  rw [hr, List.head?_append, hc]
  rfl

theorem Apart.take {r : Text} (h : Apart r) (n : Nat) : Apart (r.take n) := by
  intro c hc
  cases n with
  | zero => simp at hc
  | succ n =>
      refine h c ?_
      cases r with
      | nil => simp at hc
      | cons d ds => simpa using hc

/-- A slice of a statement that starts with the keyword of its boundary. -/
theorem spread_slice {nested : Text → Except Fault Query} {D S : Text → Bool}
    (hn : Nested nested D S) {x : Text} {b : Option Boundary}
    (hx : ∀ y, b = some y → y ∈ Boundary.all ∧
      ∃ k r, x = k ++ r ∧ k.upper = y.keyword ∧ Apart r)
    {q : Track} (hready : Ready q x)
    (hout : q.Followed (clauseOutside S (Clause.ofBoundary b x.trim)))
    {e : Option Char} (he : Fresh e) {level : Nat} {block : Block}
    (h : clause nested (Clause.ofBoundary b x.trim) level = .ok block) :
    Spread (clauseDivided D (Clause.ofBoundary b x.trim) = true) (x.glyphs e q)
      (lineMarks block.lines) := by
  cases b with
  | none =>
      simp only [Clause.ofBoundary, Clause.ofText, clause, Except.ok.injEq] at h
      rw [← h]
      simp only [lineMarks_cons, lineMarks_nil, List.append_nil, marks_trim]
      exact (Spread.fresh hready.clear he x).congr (by simp [Clause.ofBoundary, Clause.ofText,
        clauseDivided])
  | some y =>
      obtain ⟨hy, k, r, rfl, hk, hr⟩ := hx y rfl
      have htrim : Text.trim (k ++ r) = k ++ r.trimEnd := Boundary.trim_spelled hy hk
      rw [htrim] at h hout ⊢
      have hready' : Ready q (k ++ r.trimEnd) := by
        rw [← htrim]
        exact hready.trim
      have hspread := spread_clause hn hy hk hr.trimEnd hready' hout he h
      have hglyphs : Text.glyphs e q (k ++ r) = Text.glyphs e q (k ++ r.trimEnd) := by
        rw [glyphs_append, glyphs_append, glyphs_trimEnd]
      rw [hglyphs]
      exact hspread

/-- The clauses of a statement from the place `i` on. -/
theorem spread_cut {nested : Text → Except Fault Query} {D S : Text → Bool}
    (hn : Nested nested D S) {s : Text} {q : Track} (hready : Ready q s)
    {rest : List (Nat × Option Boundary)} {lo i : Nat} {b : Option Boundary}
    (hstarts : Starts s lo ((i, b) :: rest))
    (hout : q.Followed ((Clause.cut s ((i, b) :: rest)).all (clauseOutside S)))
    {e : Option Char} (he : Fresh e) {level : Nat} {lines : List Line}
    (h : clauses nested (Clause.cut s ((i, b) :: rest)) level = .ok lines) :
    Spread ((Clause.cut s ((i, b) :: rest)).all (clauseDivided D) = true)
      (Text.glyphs e (q.scan (s.take i)) (s.drop i)) (lineMarks lines) := by
  induction rest generalizing lo i b e level lines with
  | nil =>
      obtain ⟨-, hat, -⟩ := hstarts
      have hclear : (q.scan (s.take i)).Clear :=
        (hready.clear.agrees_start.scan _).clear hat.unquoted
      have hslice : Ready (q.scan (s.take i)) (s.drop i) := by
        rw [← List.take_append_drop i s] at hready
        exact hready.right hclear
      obtain ⟨block, later, hblock, hnil, rfl⟩ := clauses_cons_ok h
      obtain rfl : [] = later := Except.ok.inj hnil
      have hout' := hout.scan (s.take i)
      simp only [Clause.cut, List.all_cons, List.all_nil, Bool.and_true] at hout'
      rw [List.append_nil]
      refine (spread_slice hn (fun y hy => ?_) hslice hout' he hblock).congr (by simp [Clause.cut])
      obtain ⟨hmem, k, r, hkr, hk, hr⟩ := hat.spelled y hy
      exact ⟨hmem, k, r, hkr, hk, hr.apart⟩
  | cons p rest ih =>
      obtain ⟨j, b'⟩ := p
      obtain ⟨-, hat, hnext⟩ := hstarts
      have hij : i + startWidth b ≤ j := hnext.1
      have hatj : StartsAt s j b' := hnext.2.1
      have hclear : (q.scan (s.take i)).Clear :=
        (hready.clear.agrees_start.scan _).clear hat.unquoted
      have htake := take_append_slice s (show i ≤ j by omega)
      have hdrop := drop_eq_slice_append s (show i ≤ j by omega)
      have hslice : Ready (q.scan (s.take i)) ((s.take j).drop i) := by
        have hsplit : s = s.take i ++ ((s.take j).drop i ++ s.drop j) := by
          rw [← hdrop, List.take_append_drop]
        rw [hsplit] at hready
        exact hready.part hclear
      -- a blank, or nothing, stands before the next start
      have hfresh : Fresh (edge e ((s.take j).drop i)) := by
        by_cases hnil : (s.take j).drop i = []
        · rw [hnil]
          exact he
        · have hedge := hatj.edge
          rw [← htake, edge_append, hat.edge] at hedge
          have hsame : edge e ((s.take j).drop i) = none := (edge_eq_edge hnil).trans hedge
          rw [hsame]
          exact Fresh.none
      rw [Clause.cut] at h hout
      obtain ⟨block, later, hblock, hlater, rfl⟩ := clauses_cons_ok h
      obtain ⟨hout', hlaterout⟩ := Track.Followed.and (List.all_cons ▸ hout)
      have hfirst := spread_slice hn (b := b) (fun y hy => ?_) hslice (hout'.scan _) he hblock
      · have hrest := ih hnext hlaterout hfresh hlater
        rw [lineMarks_append, hdrop, glyphs_append, ← Track.scan_append, htake]
        refine (hfirst.append hrest).congr ?_
        simp [Clause.cut]
      · obtain ⟨hmem, k, r, hkr, hk, hr⟩ := hat.slice hij hy
        exact ⟨hmem, k, _, hkr, hk, hr.apart.take _⟩

/-- The clauses of a tidy statement. Before the first of them stand blanks. -/
theorem spread_clauses {nested : Text → Except Fault Query} {D S : Text → Bool}
    (hn : Nested nested D S) {s : Text} (htidy : Tidy s) {q : Track} (hready : Ready q s)
    (hout : q.Followed (s.clauses.all (clauseOutside S))) {e : Option Char} (he : Fresh e)
    {level : Nat} {lines : List Line} (h : clauses nested s.clauses level = .ok lines) :
    Spread (s.clauses.all (clauseDivided D) = true) (s.glyphs e q) (lineMarks lines) := by
  rw [Text.clauses] at h hout ⊢
  cases hstarts : Clause.starts s.tokens with
  | nil =>
      rw [hstarts] at h
      obtain rfl : [] = lines := Except.ok.inj h
      rw [(blank_of_starts_eq_nil hstarts).glyphs_eq]
      exact Spread.nil.congr (by simp [Clause.cut])
  | cons p rest =>
      obtain ⟨i, b⟩ := p
      rw [hstarts] at h hout
      have hblank := blank_of_starts hstarts
      have hall := starts_clauses htidy
      rw [hstarts] at hall
      have hfresh : Fresh (edge e (s.take i)) := by
        rw [hblank.edge_eq]
        split
        · exact he
        · exact Fresh.none
      have hglyphs : s.glyphs e q
          = Text.glyphs (edge e (s.take i)) (q.scan (s.take i)) (s.drop i) := by
        conv_lhs => rw [← List.take_append_drop i s]
        rw [glyphs_append, hblank.glyphs_eq, List.nil_append]
      rw [hglyphs]
      exact spread_cut hn hready hall hout hfresh h

end Layout

/-! ## Queries -/

theorem Text.withoutTerminator_append (t : Text) : ∃ b, t = t.withoutTerminator ++ b := by
  rcases withoutTerminator_split t with ⟨-, h⟩ | ⟨-, b, -, h⟩
  · exact ⟨[], by simp [h]⟩
  · exact ⟨_, h⟩

/-- The layout of a query respaces its text. -/
theorem nested_layoutWithin (bound : Nat) :
    Layout.Nested (layoutWithin bound) (dividedWithin bound) (outsideWithin bound) := by
  induction bound with
  | zero =>
      intro t query q e h
      cases h
  | succ bound ih =>
      intro t query q e h hready hout he
      simp only [layoutWithin] at h
      rw [outsideWithin] at hout
      rw [dividedWithin]
      -- the terminator is cut off, and the rest is as tidy and as ready as the whole
      generalize hs : t.normalize.withoutTerminator = s at h hout ⊢
      obtain ⟨b, hb⟩ := withoutTerminator_append t.normalize
      rw [hs] at hb
      rw [hb] at hready
      have htidy : Tidy s := by
        have hnorm := tidy_normalize t
        rw [hb] at hnorm
        exact hnorm.part (a := [])
      split at h
      · cases h
      · split at h
        · cases h
        · rename_i hvalid
          refine ⟨?_, clear_of_validate hvalid hready.clear⟩
          split at h
          · cases h
          · rename_i lines hlines
            simp only [Except.ok.injEq] at h
            rw [← h]
            exact Layout.spread_clauses ih htidy hready.left hout he hlines

/-! ## Rendered text

The width of an indent is not mentioned by any result about marks, so each of them holds at every
width. -/

/-- An indent is blank. -/
theorem marks_render_line (width : Nat) (l : Line) :
    (l.render width).marks none = l.text.marks none := by
  have hblank : AllBlank (List.replicate (width * l.level) ' ') := by
    intro c hc
    rw [List.eq_of_mem_replicate hc]
    decide
  have hedge : edge none (List.replicate (width * l.level) ' ') = none := by
    rw [hblank.edge_eq]
    split <;> rfl
  rw [Line.render, marks_append, hblank.marks_eq, hedge, List.nil_append]

/-- Rendering keeps the marks: lines are joined by newlines, and a newline is blank. -/
theorem marks_render (width : Nat) (query : Query) :
    (query.render width).marks none = lineMarks query.lines := by
  obtain ⟨lines⟩ := query
  rw [Query.render]
  induction lines with
  | nil => rfl
  | cons l ls ih =>
      cases ls with
      | nil => simpa [join] using marks_render_line width l
      | cons l' ls' =>
          simp only [List.map_cons, join] at ih ⊢
          rw [List.append_assoc, marks_append, marks_render_line, List.singleton_append, marks,
            if_pos (by decide), ih, lineMarks_cons]
          rfl

/-- A formatted text is a rendered layout. -/
theorem exists_layout_of_format {width : Nat} {t o : Text} (h : format width t = .ok o) :
    ∃ query, layout t = .ok query ∧ query.statement width = o := by
  rw [format] at h
  cases hlayout : layout t with
  | error f =>
      rw [hlayout] at h
      cases h
  | ok query =>
      rw [hlayout] at h
      exact ⟨query, rfl, by simpa [Except.map] using h⟩

/-- The formatted text respaces the statement and ends with a terminator. Literals can be
followed if the cuts fall outside them. -/
theorem spread_format {width : Nat} {t o : Text} (h : format width t = .ok o) {q : Track}
    (hready : Ready q t.normalize) (hout : q.Followed (cutsOutside t)) :
    ∃ v e, o.marks none = v ++ [⟨e, terminator⟩] ∧
      Spread (keepsWords t = true) (t.normalize.withoutTerminator.glyphs none q) v ∧
      (q.scan t.normalize.withoutTerminator).Clear := by
  obtain ⟨query, hlayout, rfl⟩ := exists_layout_of_format h
  obtain ⟨hspread, hclear⟩ := nested_layoutWithin _ hlayout hready hout Fresh.none
  refine ⟨_, edge none (query.render width).trimEnd, ?_, hspread, hclear⟩
  rw [Query.statement, marks_append, marks_trimEnd, marks_render]
  rfl

end SqlLayout
