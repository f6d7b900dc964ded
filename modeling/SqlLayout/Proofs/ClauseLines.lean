import SqlLayout.Proofs.ClauseCuts
import SqlLayout.Proofs.ColumnLists
import SqlLayout.Proofs.ConditionLists
import SqlLayout.Proofs.Joins
import SqlLayout.Proofs.Rendering

set_option autoImplicit false

/-! # Clauses on one line

A clause, laid out and put on one line, starts with the same keyword, and what follows it is
laid out as before; a `WHERE` clause only if its conditions are cut and its queries are laid out
as before (`clause_again`).

The lines of a statement tell where its clauses start: a clause opens with its keyword, at level
zero, and its other lines stand further in or start with `ON` (`Recut.opens`).
-/

namespace SqlLayout

open Text

namespace Layout

/-! ## Levels

How far in a line of an item stands is read off the shape of its lines, which is the same for
every construct: a first line with others below it, or a parenthesis. -/

/-- The lines of a column or a condition: a line with others one level in below it, or a
parenthesis around lines one level in or around a query. -/
inductive ItemLines (nested : Text → Except Fault Query) (text : Text) (level : Nat) :
    List Line → Prop
  | hanging {inner : List Line} (head : Text) : (∀ l ∈ inner, l.level = level + 1) →
      ItemLines nested text level (⟨level, head⟩ :: inner)
  | bracket {inner : List Line} (before keyword after suffix : Text) :
      (∀ l ∈ inner, l.level = level + 1) →
      ItemLines nested text level (bracketBlock level before keyword inner after suffix).lines
  | query {u : Text} {query : Query} (before after suffix : Text) :
      queryIn? text = some u → nested u = .ok query →
      ItemLines nested text level
        (bracketBlock level before [] (query.shift (level + 1)).lines after suffix).lines

/-- A text on one line has no lines inside. -/
theorem itemLines_plain (nested : Text → Except Fault Query) (text suffix : Text) (level : Nat) :
    ItemLines nested text level (plain text suffix level).lines :=
  .hanging _ fun l hl => (by cases hl)

/-- The lines of a column hang below its first one or stand in a parenthesis. -/
theorem column_lines (nested : Text → Except Fault Query) {text suffix : Text} {level : Nat}
    {block : Block} (h : column level text suffix = .ok block) :
    ItemLines nested text level block.lines := by
  unfold column at h
  split at h
  · rename_i hcase
    obtain ⟨first, rest, s, r, b, htokens, -⟩ := tokens_case hcase
    simp only [caseExpression, htokens] at h
    split at h
    · cases h
    · rename_i lines after hlines
      obtain rfl := Except.ok.inj h
      obtain ⟨x, xs, rfl⟩ := List.exists_cons_of_ne_nil (branchLines_ne_nil hlines)
      -- all lines but the first stand one level in
      refine .hanging x fun l hl => ?_
      rcases List.mem_append.mp hl with hl | hl
      · obtain ⟨y, -, rfl⟩ := List.mem_map.mp hl
        rfl
      · rw [List.mem_singleton.mp hl]
  · split at h
    · rcases windowFunction_split_ok h with hplain | ⟨i, rest, spec, after, hfirst, hrest, henc⟩
      · rw [hplain] at h
        obtain rfl := Except.ok.inj h
        exact itemLines_plain nested text suffix level
      · rw [windowFunction_eq_ok hfirst hrest henc] at h
        obtain rfl := Except.ok.inj h
        refine .bracket _ _ _ _ fun l hl => ?_
        obtain ⟨p, -, rfl⟩ := List.mem_map.mp hl
        rfl
    · obtain rfl := Except.ok.inj h
      exact itemLines_plain nested text suffix level

/-- The lines of a condition stand in a parenthesis, and those of a query in it are its layout. -/
theorem condition_lines {nested : Text → Except Fault Query} {text suffix : Text} {level : Nat}
    {block : Block} (h : condition nested level text suffix = .ok block) :
    ItemLines nested text level block.lines := by
  unfold condition at h
  split at h
  · rcases subquery_cases h with ⟨-, hplain⟩ | ⟨o, inner, after, query, hopen, henc, hin, hq⟩
    · rw [hplain] at h
      obtain rfl := Except.ok.inj h
      exact itemLines_plain nested text suffix level
    · rw [subquery_eq hopen henc, hq] at h
      obtain rfl := Except.ok.inj h
      exact .query _ _ _ hin hq
  · split at h
    · unfold inList at h
      split at h
      · obtain rfl := Except.ok.inj h
        exact itemLines_plain nested text suffix level
      · split at h
        · cases h
        · rename_i list after _
          obtain rfl := Except.ok.inj h
          have hinner : ∀ l ∈ listLines (level + 1) list, l.level = level + 1 := level_listLines
          exact .bracket _ _ _ _ hinner
    · obtain rfl := Except.ok.inj h
      exact itemLines_plain nested text suffix level

/-- No line of a column or a condition stands further out than the first. -/
theorem ItemLines.level_le {nested : Text → Except Fault Query} {text : Text} {level : Nat}
    {lines : List Line} (h : ItemLines nested text level lines) : ∀ l ∈ lines, level ≤ l.level := by
  have hbracket : ∀ {inner : List Line}, (∀ l ∈ inner, level ≤ l.level) →
      ∀ before keyword after suffix : Text,
        ∀ l ∈ (bracketBlock level before keyword inner after suffix).lines, level ≤ l.level := by
    intro inner hinner before keyword after suffix l hl
    simp only [bracketBlock, List.mem_cons, List.mem_append, List.not_mem_nil, or_false] at hl
    rcases hl with rfl | hl | rfl
    · exact Nat.le_refl level
    · exact hinner l hl
    · exact Nat.le_refl level
  cases h with
  | hanging head hinner =>
      intro l hl
      rcases List.mem_cons.mp hl with rfl | hl
      · exact Nat.le_refl level
      · have := hinner l hl
        omega
  | bracket before keyword after suffix hinner =>
      refine hbracket (fun l hl => ?_) before keyword after suffix
      have := hinner l hl
      omega
  | query before after suffix =>
      refine hbracket (fun l hl => ?_) before [] after suffix
      obtain ⟨l', -, rfl⟩ := List.mem_map.mp hl
      simp only [Line.shift]
      omega

/-- So do the items of a list, if each of them does. -/
theorem level_le_stack {lay : Text → Text → Layout} {level : Nat}
    (hlay : ∀ {item s : Text} {block : Block}, lay item s = .ok block →
      ∀ l ∈ block.lines, level ≤ l.level) {items : List (Text × Text)} {lines : List Line}
    (h : stack lay items = .ok lines) : ∀ l ∈ lines, level ≤ l.level := by
  induction items generalizing lines with
  | nil =>
      obtain rfl : [] = lines := Except.ok.inj h
      exact fun l hl => (by cases hl)
  | cons x xs ih =>
      obtain ⟨block, later, hblock, hlater, rfl⟩ := stack_cons_ok h
      intro l hl
      rcases List.mem_append.mp hl with hl | hl
      · exact hlay hblock l hl
      · exact ih hlater l hl

/-! ## The lines of a clause

`FoundAgain` takes together what is shown of each kind of clause: where its lines stand, that
they are neat, and that on one line they are its keyword and a body with the same layout. Only
for `WHERE` there is a condition. -/

/-- A line of a clause other than the first. -/
def IsInner (l : Line) : Prop := 0 < l.level ∨ l.text.take 2 = Keyword.ON

/-- The lines of a clause: the first at level zero, and others. -/
def ClauseBlock (block : Block) : Prop :=
  block.level = 0 ∧ ∃ first rest, block.lines = first :: rest ∧ first.level = 0 ∧
    first.text ≠ [] ∧ ∀ l ∈ rest, IsInner l

/-- The lines of a join: its head at level zero, the pieces behind each break further in, and a line
that starts with `ON`. -/
theorem clauseBlock_join {keyword body : Text} (hk : IsJoin keyword) (hb : Neat body)
    {block : Block} (h : joinClause keyword body 0 = .ok block) : ClauseBlock block := by
  -- the head is the body up to ` ON `, or all of it
  have htarget : Neat (joinParts body).1 := by
    cases hfind : find? onSeparator body with
    | none =>
        have hparts : joinParts body = (body, none) := by simp [joinParts, hfind]
        rw [hparts]
        exact hb
    | some i =>
        obtain ⟨a, s, c, hbody, -, hs, hparts⟩ := joinParts_split hfind
        rw [hbody] at hb
        obtain ⟨⟨hna, -⟩, -⟩ := hb.around_separator (w := Keyword.ON) hs
        rw [hparts, hna.trim_eq]
        exact hna
  have hneat := hk.neat.headed hk.ne_nil htarget
  have hne : headed keyword (joinParts body).1 ≠ [] := headed_ne_nil hk.ne_nil _
  obtain ⟨first, rest, hlines, hlevel, hfirst, hrest⟩ : ∃ first rest,
      headLines (headed keyword (joinParts body).1) 0 0
        (occurrences (headed keyword (joinParts body).1) Keyword.SELECT) = first :: rest ∧
        first.level = 0 ∧ first.text ≠ [] ∧ ∀ l ∈ rest, IsInner l := by
    obtain ⟨c, cs, hcs⟩ := List.exists_cons_of_ne_nil hne
    rw [hcs] at hneat ⊢
    have hc := hneat.head c rfl
    refine ⟨_, _, headLines_eq hc cs 0, rfl, trim_ne_nil hc _, fun l hl => ?_⟩
    obtain ⟨p, -, rfl⟩ := List.mem_map.mp hl
    exact Or.inl Nat.one_pos
  unfold joinClause at h
  dsimp only at h
  rw [hlines] at h
  split at h
  · -- no condition, so the lines are those of the head
    obtain rfl := Except.ok.inj h
    exact ⟨rfl, first, rest, rfl, hlevel, hfirst, hrest⟩
  · obtain rfl := Except.ok.inj h
    refine ⟨rfl, first, _, rfl, hlevel, hfirst, fun l hl => ?_⟩
    rcases List.mem_append.mp hl with hl | hl
    · exact hrest l hl
    · rw [List.mem_singleton.mp hl]
      refine Or.inr ?_
      unfold headed
      split <;> rfl

theorem neat_keyword {b : Boundary} (hb : b ∈ Boundary.all) : Neat b.keyword := by
  have hall : ∀ b ∈ Boundary.all, b.keyword.normalize = b.keyword := by decide
  rw [← hall b hb]
  exact Neat.normalize _

/-- The keywords of joins qualify; this is decided one by one. -/
theorem isJoin_of_mem {b : Boundary} (hb : b ∈ Boundary.all) (hkind : b.kind = .join) :
    IsJoin b.keyword := by
  have hall : ∀ b ∈ Boundary.all, b.kind = .join → Nesting.after b.keyword = .start ∧
      b.keyword.occurrences Keyword.SELECT = [] := by decide
  obtain ⟨hafter, hocc⟩ := hall b hb hkind
  exact ⟨neat_keyword hb, (Boundary.isKeyword_of_mem hb).ne_nil, hafter, hocc⟩

/-- A text that starts a clause: its keyword and its body. -/
theorem asClause_eq {t : Text} (ht : Neat t) (hne : t ≠ []) {b : Boundary}
    (h : Boundary.ofTokens? t.tokens = some b) :
    b ∈ Boundary.all ∧ ∃ k r, t = k ++ r ∧ upper k = b.keyword ∧ Resumes r ∧
      t.asClause = ⟨b.kind, b.keyword, t, trim r⟩ ∧ Neat (trim r) := by
  obtain ⟨-, ks, -, -, -, -, -, -, hstarts⟩ := starts_of_neat ht hne
  have hall := starts_clauses ht.tidy
  rw [hstarts, h] at hall
  obtain ⟨hb, k, r, hkr, hk, hr⟩ := hall.2.1.spelled b rfl
  rw [List.drop_zero] at hkr
  have hkey := Boundary.isKeyword_of_mem hb
  refine ⟨hb, k, r, hkr, hk, hr, ?_, ?_⟩
  · have hup : upper k = b.keyword.upper := by rw [hk, hkey.upper]
    have hdrop : dropBytes b.keyword.byteLength t = r := by
      rw [hkr]
      exact dropBytes_keyword hkey hup r
    rw [Text.asClause, h]
    simp only [Clause.ofBoundary, Clause.ofText, hdrop]
  · have htidy : Tidy (k ++ (r ++ [])) := by
      rw [List.append_nil, ← hkr]
      exact ht.tidy
    exact Neat.trim htidy.part

/-- A keyword and a body are a clause with that body. -/
theorem asClause_headed {b : Boundary} (hb : b ∈ Boundary.all) {body : Text} (hbody : Neat body) :
    Boundary.ofTokens? (headed b.keyword body).tokens = some b ∧
      Text.asClause (headed b.keyword body)
        = ⟨b.kind, b.keyword, headed b.keyword body, body⟩ := by
  have hkey := Boundary.isKeyword_of_mem hb
  have htext : headed b.keyword body = b.keyword ++ afterText body := by
    unfold headed afterText
    by_cases hnil : body = [] <;> simp [hnil]
  have hresumes : Resumes (afterText body) := by
    unfold afterText
    split
    · exact Or.inl rfl
    · exact Or.inr ⟨body, rfl⟩
  have hfirst : Boundary.ofTokens? (headed b.keyword body).tokens = some b := by
    rw [htext]
    exact Boundary.ofTokens?_keyword hb hkey.upper hresumes
  refine ⟨hfirst, ?_⟩
  have hdrop : dropBytes b.keyword.byteLength (headed b.keyword body) = afterText body := by
    rw [htext]
    exact dropBytes_keyword hkey rfl _
  rw [Text.asClause, hfirst]
  simp only [Clause.ofBoundary, Clause.ofText, hdrop, trim_afterText hbody]

theorem listClause_eq (keyword body : Text) (level : Nat) :
    listClause keyword body level
      = .ok ⟨⟨level, keyword⟩ :: listLines (level + 1) body, level⟩ := rfl

/-- The conditions of a clause are cut and their queries are laid out as before. -/
def ConditionsAgain (nested : Text → Except Fault Query) (body : Text) : Prop :=
  conditionsOf (join andSeparator ((conditionsOf body).map (lineOf (condition nested 1))))
      = (conditionsOf body).map (lineOf (condition nested 1)) ∧
    ∀ c ∈ conditionsOf body, QueriesAgain nested c

/-- A layout of a clause respaces its text. -/
theorem laid_clause {nested : Text → Except Fault Query} {D S : Text → Bool}
    (hn : Nested nested D S) {t : Text} (ht : Part t) {block : Block}
    (h : clause nested t.asClause 0 = .ok block) :
    Laid (t.glyphs none none) (lineMarks block.lines) := by
  have hclause : clause nested (Clause.ofBoundary (Boundary.ofTokens? t.tokens) t.trim) 0
      = .ok block := by
    rw [ht.neat.trim_eq]
    exact h
  refine (spread_slice hn ?_ (Ready.untracked t) (fun hne => absurd rfl hne) Fresh.none
    hclause).laid
  intro b hb
  obtain ⟨hmem, k, r, hkr, hk, hr, -⟩ := asClause_eq ht.neat ht.ne_nil hb
  exact ⟨hmem, k, r, hkr, hk, hr.apart⟩

/-- The lines of a clause with a keyword. On one line, they are the keyword and a body, which is
laid out as before exactly if `P`. -/
def FoundAgain (lay : Text → Layout) (keyword : Text) (block : Block) (P : Prop) : Prop :=
  ClauseBlock block ∧ (∀ l ∈ block.lines, Neat l.text) ∧
    ∃ body, Neat body ∧ flat block.lines = headed keyword body ∧ (lay body = .ok block ↔ P)

/-- A clause on one line. -/
theorem foundAgain_line {keyword body : Text} (hk : Neat keyword) (hne : keyword ≠ [])
    (hb : Neat body) :
    FoundAgain (fun body => .ok ⟨[⟨0, headed keyword body⟩], 0⟩) keyword
      ⟨[⟨0, headed keyword body⟩], 0⟩ True := by
  have hneat := hk.headed hne hb
  refine ⟨⟨rfl, _, [], rfl, rfl, headed_ne_nil hne body, fun l hl => (by cases hl)⟩,
    fun l hl => ?_, body, hb, ?_, iff_of_true rfl trivial⟩
  · rw [List.mem_singleton.mp hl]
    exact hneat
  · rw [flat_singleton, hneat.normalize_eq]

/-- A `SELECT` clause. -/
theorem foundAgain_select {body : Text} (hb : Neat body) {block : Block}
    (h : selectClause body 0 = .ok block) :
    FoundAgain (fun body => selectClause body 0) Keyword.SELECT block True := by
  obtain ⟨body', hneat', hflat, hneat, hagain⟩ := selectClause_again hb h
  refine ⟨?_, hneat, body', hneat', hflat, iff_of_true hagain trivial⟩
  obtain ⟨lines, hstack, rfl⟩ := selectClause_ok h
  exact ⟨rfl, _, lines, rfl, rfl, by decide,
    fun l hl => Or.inl
      (level_le_stack (fun h => (column_lines (fun _ => .ok ⟨[]⟩) h).level_le) hstack l hl)⟩

/-- A join. -/
theorem foundAgain_join {keyword body : Text} (hk : IsJoin keyword) (hb : Neat body)
    {block : Block} (h : joinClause keyword body 0 = .ok block) :
    FoundAgain (fun body => joinClause keyword body 0) keyword block True := by
  obtain ⟨body', hneat', hflat, hneat, hagain⟩ := joinClause_again hk hb h
  exact ⟨clauseBlock_join hk hb h, hneat, body', hneat', hflat, iff_of_true hagain trivial⟩

/-- A list of items, as behind `GROUP BY` and `ORDER BY`. -/
theorem foundAgain_list {keyword body : Text} (hk : Neat keyword) (hne : keyword ≠ [])
    (hb : Neat body) {block : Block} (h : listClause keyword body 0 = .ok block) :
    FoundAgain (fun body => listClause keyword body 0) keyword block True := by
  have hagain : listClause keyword (flat (listLines 1 body)) 0 = .ok block := by
    rw [listClause_eq, listLines_flat hb, ← listClause_eq, h]
  rw [listClause_eq] at h
  obtain rfl := Except.ok.inj h
  refine ⟨⟨rfl, _, _, rfl, rfl, hne, fun l hl => Or.inl ?_⟩, fun l hl => ?_, _, neat_flat _,
    flat_cons_of_ne hk hne _, iff_of_true hagain trivial⟩
  · rw [level_listLines l hl]
    exact Nat.one_pos
  · rcases List.mem_cons.mp hl with rfl | hl
    · exact hk
    · exact neat_listLines hb 1 l hl

section

variable {nested : Text → Except Fault Query} {D S : Text → Bool} (hn : Nested nested D S)
  (hlines : ∀ {t : Text} {query : Query}, nested t = .ok query → ∀ l ∈ query.lines, Neat l.text)

include hn hlines

theorem foundAgain_where {body : Text} (hb : Neat body) {block : Block}
    (h : whereClause nested body 0 = .ok block) :
    FoundAgain (fun body => whereClause nested body 0) Keyword.WHERE block
      (ConditionsAgain nested body) := by
  obtain ⟨body', hneat', hflat, hneat, hagain⟩ := whereClause_again hn hlines hb h
  refine ⟨?_, hneat, body', hneat', hflat, hagain⟩
  rcases whereClause_ok h with ⟨rfl, rfl⟩ | ⟨-, lines, hstack, rfl⟩
  · exact ⟨rfl, _, [], rfl, rfl, by decide, fun l hl => (by cases hl)⟩
  · exact ⟨rfl, _, lines, rfl, rfl, by decide,
      fun l hl => Or.inl (level_le_stack (fun h => (condition_lines h).level_le) hstack l hl)⟩

/-- A clause with a keyword: only conditions may be cut in other places. -/
theorem foundAgain_clause {b : Boundary} (hb : b ∈ Boundary.all) {text body : Text}
    (hbody : Neat body) {block : Block}
    (h : clause nested ⟨b.kind, b.keyword, text, body⟩ 0 = .ok block) :
    FoundAgain
      (fun body => clause nested ⟨b.kind, b.keyword, headed b.keyword body, body⟩ 0) b.keyword
      block (b.kind = .condition → ConditionsAgain nested body) := by
  have hkey := neat_keyword hb
  have hkne := (Boundary.isKeyword_of_mem hb).ne_nil
  obtain ⟨hselect, hsource, hwhere, hhaving, hleading⟩ := Boundary.keyword_of_kind hb
  -- one case for each kind, with the keyword it stands for
  simp only [clause] at h ⊢
  cases hkind : b.kind with
  | select =>
      simp only [hkind] at h
      simpa [hselect hkind] using foundAgain_select hbody h
  | source =>
      simp only [hkind, fromClause] at h
      obtain rfl := Except.ok.inj h
      rw [hsource hkind] at hkey hkne
      simpa [hsource hkind, fromClause] using foundAgain_line hkey hkne hbody
  | join =>
      simp only [hkind] at h
      simpa using foundAgain_join (isJoin_of_mem hb hkind) hbody h
  | condition =>
      simp only [hkind] at h
      simpa [hwhere hkind] using foundAgain_where hn hlines hbody h
  | groupBy =>
      simp only [hkind] at h
      simpa using foundAgain_list hkey hkne hbody h
  | having =>
      simp only [hkind, havingClause] at h
      obtain rfl := Except.ok.inj h
      rw [hhaving hkind] at hkey hkne
      simpa [hhaving hkind, havingClause] using foundAgain_line hkey hkne hbody
  | orderBy =>
      simp only [hkind] at h
      simpa using foundAgain_list hkey hkne hbody h
  | leading => exact absurd hkind hleading

end

/-- A `WHERE` clause does not end with an empty line. -/
theorem trimLines_whereClause {nested : Text → Except Fault Query} {body : Text}
    (hb : Neat body) {block : Block} (h : whereClause nested body 0 = .ok block) :
    trimLines block.lines = block.lines := by
  obtain ⟨init, l, hsplit, hl⟩ : ∃ init l, block.lines = init ++ [l] ∧ l.text ≠ [] := by
    rcases whereClause_ok h with ⟨rfl, rfl⟩ | ⟨hne, lines, hstack, rfl⟩
    · exact ⟨[], ⟨0, Keyword.WHERE⟩, rfl, by decide⟩
    · have hitems := mem_conditionsOf hb hne
      obtain ⟨c, cs, hcs⟩ := List.exists_cons_of_ne_nil (conditionsOf_ne_nil body)
      rw [hcs] at hstack hitems
      obtain ⟨init, l, rfl, hl⟩ := exists_last_line hitems hstack
      exact ⟨⟨0, Keyword.WHERE⟩ :: init, l, rfl, hl⟩
  rw [hsplit, trimLines_concat, if_neg hl]

/-- What the layout of a clause is like, read again on one line. -/
structure Recut (nested : Text → Except Fault Query) (t : Text) (block : Block) : Prop where
  shape : ClauseBlock block
  neat : ∀ l ∈ block.lines, Neat l.text
  part : Part (flat block.lines)
  boundary : Boundary.ofTokens? (flat block.lines).tokens = Boundary.ofTokens? t.tokens
  full : t.asClause.kind = .condition → trimLines block.lines = block.lines
  again : clause nested (flat block.lines).asClause 0 = .ok block ↔
    (t.asClause.kind = .condition → ConditionsAgain nested t.asClause.body)

/-- What stands before the first keyword stays as it is. -/
theorem recut_leading {nested : Text → Except Fault Query} {t : Text} (ht : Part t)
    (hfirst : Boundary.ofTokens? t.tokens = none) {block : Block}
    (h : clause nested t.asClause 0 = .ok block) : Recut nested t block := by
  have hclause : t.asClause = ⟨.leading, [], t, t.asClause.body⟩ := by
    rw [Text.asClause, hfirst]
    rfl
  have hleading : ¬ t.asClause.kind = .condition := by
    rw [hclause]
    exact fun hcond => (by cases hcond)
  have hlines := h
  rw [hclause] at hlines
  obtain rfl := Except.ok.inj hlines
  have hflat : flat [⟨0, t⟩] = t := by rw [flat_singleton, ht.neat.normalize_eq]
  refine ⟨⟨rfl, _, [], rfl, rfl, ht.ne_nil, fun l hl => (by cases hl)⟩, ?_, ?_, ?_,
    fun hcond => absurd hcond hleading, ?_⟩
  · intro l hl
    rw [List.mem_singleton.mp hl]
    exact ht.neat
  · rw [hflat]
    exact ht
  · rw [hflat]
  · rw [hflat]
    exact iff_of_true h fun hcond => absurd hcond hleading

/-- A clause, laid out and put on one line. -/
theorem clause_again {nested : Text → Except Fault Query} {D S : Text → Bool}
    (hn : Nested nested D S)
    (hlines : ∀ {t : Text} {query : Query}, nested t = .ok query → ∀ l ∈ query.lines, Neat l.text)
    {t : Text} (ht : Part t) {block : Block} (h : clause nested t.asClause 0 = .ok block) :
    Recut nested t block := by
  have hlaid := laid_clause hn ht h
  -- a layout ends outside everything if its text does, so clauses can be put side by side
  have hafter : Nesting.after (flat block.lines) = .start := by
    refine Laid.after_eq_start (s := t) (q := none) ?_ ht.after
    rw [marks_flat]
    exact hlaid
  cases hfirst : Boundary.ofTokens? t.tokens with
  | none => exact recut_leading ht hfirst h
  | some b =>
      obtain ⟨hb, k, r, -, -, -, hclause, hbody⟩ := asClause_eq ht.neat ht.ne_nil hfirst
      rw [hclause] at h
      obtain ⟨hblock, hneat, body', hbody', hflat, hagain⟩ :=
        foundAgain_clause hn hlines hb hbody h
      obtain ⟨hfirst', hclause'⟩ := asClause_headed hb hbody'
      refine ⟨hblock, hneat, ⟨neat_flat _, ?_, hafter⟩, ?_, ?_, ?_⟩
      · rw [hflat]
        exact headed_ne_nil (Boundary.isKeyword_of_mem hb).ne_nil body'
      · rw [hflat, hfirst', hfirst]
      · rw [hclause]
        intro hkind
        simp only at hkind
        simp only [clause, hkind] at h
        exact trimLines_whereClause hbody h
      · rw [hflat, hclause', hclause]
        exact hagain

/-! ## Where clauses open -/

/-- A line that opens a clause with a keyword. -/
def OpensClause (l : Line) : Prop :=
  l.level = 0 ∧ ∃ b ∈ Boundary.all, upper (l.text.take 2) = b.keyword.take 2

theorem OpensClause.not_isInner {l : Line} (h : OpensClause l) : ¬IsInner l := by
  obtain ⟨hlevel, b, hb, hup⟩ := h
  rintro (hpos | hon)
  · omega
  · have hall : ∀ b ∈ Boundary.all, upper Keyword.ON ≠ b.keyword.take 2 := by decide
    rw [hon] at hup
    exact hall b hb hup

/-- A block whose first line opens a clause with a keyword. -/
def Opens (block : Block) : Prop := ∀ l, block.lines.head? = some l → OpensClause l

/-- A clause with a keyword opens with it. -/
theorem Recut.opens {nested : Text → Except Fault Query} {t : Text} {block : Block}
    (h : Recut nested t block) (ht : StartsClause t) : Opens block := by
  obtain ⟨-, first, rest, hlines, hlevel, hne, -⟩ := h.shape
  obtain ⟨b, hb⟩ := ht
  have hfirst := h.boundary
  rw [hb] at hfirst
  obtain ⟨hmem, k, r, hkr, hk, -⟩ := asClause_eq h.part.neat h.part.ne_nil hfirst
  have hneat : Neat first.text := h.neat first (by rw [hlines]; simp)
  rw [hlines, flat_cons_of_ne hneat hne] at hkr
  intro l hl
  obtain rfl : first = l := by
    rw [hlines] at hl
    exact Option.some.inj hl
  refine ⟨hlevel, b, hmem, ?_⟩
  -- the keyword has at least two letters before a space
  have hall : ∀ b ∈ Boundary.all, (b.keyword.take 2).length = 2 ∧
      (b.keyword.take 2).all isWordChar = true := by decide
  obtain ⟨htwo, hword⟩ := hall b hmem
  rw [← hk] at htwo hword ⊢
  obtain ⟨c, d, k', rfl⟩ : ∃ c d k', k = c :: d :: k' := by
    rcases k with _ | ⟨c, _ | ⟨d, k'⟩⟩
    · cases htwo
    · cases htwo
    · exact ⟨c, d, k', rfl⟩
  obtain ⟨u, us, htext⟩ := List.exists_cons_of_ne_nil hne
  rw [htext] at hkr ⊢
  cases us with
  | cons v vs =>
      obtain ⟨rfl, rfl⟩ : u = c ∧ v = d := by
        unfold headed at hkr
        split at hkr <;> exact ⟨(List.cons.inj hkr).1, (List.cons.inj (List.cons.inj hkr).2).1⟩
      rfl
  | nil =>
      have hspace : d = ' ' := by
        unfold headed at hkr
        split at hkr
        · cases (List.cons.inj hkr).2
        · exact (List.cons.inj (List.cons.inj hkr).2).1.symm
      rw [hspace] at hword
      have hfalse : isWordChar ' '.toUpper = true := by
        simp only [upper, List.map_cons, List.take_succ_cons, List.take_zero, List.all_cons,
          List.all_nil, Bool.and_true, Bool.and_eq_true] at hword
        exact hword.2
      exact absurd hfalse (by decide)

end Layout

end SqlLayout
