import SqlLayout.Proofs.SteadyLayouts

set_option autoImplicit false

/-! # The outline of a statement

The lines of a layout at level zero are its outline: for each clause, in order, one line that
starts with its keyword, and for a join with a condition one more that starts with `ON`
(`layout_outline`). All other lines stand further in, also those of queries inside a condition.

What a clause of a statement looks like is said once, in `clause_lines`: a head at level zero,
lines further in, of which there is one kind for each kind of clause (`InnerLines`), and the line
of a join condition.
-/

namespace SqlLayout

open Text

/-! ## Heads of lines -/

/-- A keyword alone, or with more behind a space. -/
def Heads (keyword text : Text) : Prop := text = keyword ∨ ∃ rest, text = keyword ++ ' ' :: rest

theorem heads_headed (keyword body : Text) : Heads keyword (Layout.headed keyword body) := by
  unfold Layout.headed
  split
  · exact Or.inl rfl
  · exact Or.inr ⟨body, rfl⟩

/-- Trimming keeps a keyword in front. -/
theorem heads_trim {keyword : Text} (hk : Neat keyword) (hne : keyword ≠ []) (p : Text) :
    Heads keyword (trim (keyword ++ ' ' :: p)) := by
  obtain ⟨c, cs, rfl⟩ := List.exists_cons_of_ne_nil hne
  have hstart : trimStart (c :: cs ++ ' ' :: p) = c :: cs ++ ' ' :: p :=
    trimStart_of_head fun d hd => hk.head d (by simpa using hd)
  obtain ⟨b, hb, hp⟩ := trimEnd_split p
  rw [trim, hstart, hp]
  by_cases hnil : p.trimEnd = []
  · -- nothing but blanks behind the keyword
    have hblank : AllBlank (' ' :: b) := by
      intro d hd
      rcases List.mem_cons.mp hd with rfl | hd
      · decide
      · exact hb d hd
    left
    rw [hnil, List.nil_append, trimEnd_append hblank, trimEnd_of_last hk.last]
  · right
    refine ⟨p.trimEnd, ?_⟩
    have hassoc : c :: cs ++ ' ' :: (p.trimEnd ++ b) = (c :: cs ++ ' ' :: p.trimEnd) ++ b := by
      simp
    rw [hassoc, trimEnd_append hb]
    apply trimEnd_of_last
    intro d hd
    obtain ⟨x, xs, hx⟩ := List.exists_cons_of_ne_nil hnil
    rw [hx, List.getLast?_append_of_ne_nil _ (by simp), List.getLast?_cons_cons, ← hx] at hd
    exact last_trimEnd hd

/-! ## Clauses -/

namespace Clause

/-- What the first line of a clause says. -/
def IsHead (c : Clause) (text : Text) : Prop :=
  match c.kind with
  | .select | .condition | .groupBy | .orderBy => text = c.keyword
  | .source | .join | .having => Heads c.keyword text
  | .leading => text = c.text

/-- A join whose body holds `ON` between spaces, in any case. -/
def HasOn (c : Clause) : Prop :=
  c.kind = .join ∧ ∃ a s b, c.body = a ++ (s ++ b) ∧ s.upper = Layout.onSeparator

/-- What a clause says at level zero after its first line. -/
def IsFoot (c : Clause) (texts : List Text) : Prop :=
  (c.HasOn ∧ ∃ on, Heads Keyword.ON on ∧ texts = [on]) ∨ (¬c.HasOn ∧ texts = [])

/-- What a clause says at level zero. -/
def Outline (c : Clause) (texts : List Text) : Prop :=
  ∃ head feet, c.IsHead head ∧ c.IsFoot feet ∧ texts = head :: feet

/-- A clause has one of the canonical keywords, unless it is a leading one. -/
def Canonical (c : Clause) : Prop := c.kind = .leading ∨ ⟨c.keyword, c.kind⟩ ∈ Boundary.all

theorem isFoot_nil {c : Clause} (h : c.kind ≠ .join) : c.IsFoot [] :=
  Or.inr ⟨fun hon => h hon.1, rfl⟩

/-- The clauses of a statement are canonical. -/
theorem canonical_asClause {t : Text} (ht : Part t) : t.asClause.Canonical := by
  cases hfirst : Boundary.ofTokens? t.tokens with
  | none =>
      left
      rw [kind_asClause, hfirst]
      rfl
  | some b =>
      obtain ⟨hb, k, r, -, -, -, hclause, -⟩ := Layout.asClause_eq ht.neat ht.ne_nil hfirst
      rw [hclause]
      exact Or.inr hb

end Clause

namespace Layout

/-! ## The lines of a clause -/

/-- The lines of a clause that stand further in than its head. -/
inductive InnerLines (nested : Text → Except Fault Query) (c : Clause) : List Line → Prop
  | flat {lines : List Line} : (∀ l ∈ lines, l.level = 1) → InnerLines nested c lines
  | columns {lines : List Line} :
      stack (column 1) (separated [','] c.body.columns) = .ok lines → InnerLines nested c lines
  | conditions {lines : List Line} : c.kind = .condition →
      stack (condition nested 1) (separated (' ' :: Keyword.AND) (conditionsOf c.body))
        = .ok lines → InnerLines nested c lines

theorem InnerLines.none (nested : Text → Except Fault Query) (c : Clause) :
    InnerLines nested c [] :=
  .flat fun l hl => (by cases hl)

theorem InnerLines.level_pos {nested : Text → Except Fault Query} {c : Clause} {lines : List Line}
    (h : InnerLines nested c lines) : ∀ l ∈ lines, 0 < l.level := by
  cases h with
  | flat hall =>
      intro l hl
      have := hall l hl
      omega
  | columns hstack => exact level_le_stack (fun h => (column_lines nested h).level_le) hstack
  | conditions _ hstack => exact level_le_stack (fun h => (condition_lines h).level_le) hstack

/-- The head of a join is not broken inside its keyword. -/
theorem headLines_headed {keyword : Text} (hk : IsJoin keyword) (target : Text) :
    ∃ (head : Text) (texts : List Text), Heads keyword head ∧
      headLines (headed keyword target) 0 0 (occurrences (headed keyword target) Keyword.SELECT)
        = ⟨0, head⟩ :: texts.map (⟨1, ·⟩) := by
  have htext : headed keyword target = [] ++ (keyword ++ afterText target) := by
    unfold headed afterText
    by_cases hnil : target = [] <;> simp [hnil]
  have hsevered : Severed (edge none keyword) (afterText target) := by
    right
    unfold afterText
    split <;> rfl
  -- all breaks lie behind the keyword
  have hocc : occurrences ([] ++ (keyword ++ afterText target)) Keyword.SELECT
      = occurrencesFrom Keyword.SELECT (([] : Text).length + keyword.length) .start
        ((edge none keyword).any isWordChar) (afterText target) := by
    have hcut := occurrencesFrom_severed (k := Keyword.SELECT) (by decide) hsevered 0 .start
    have hkeyword : occurrencesFrom Keyword.SELECT 0 .start ((none : Option Char).any isWordChar)
        keyword = [] := hk.occurrences
    have hscan : Nesting.start.scan keyword = .start := hk.after
    rw [hkeyword, hscan, List.nil_append] at hcut
    exact hcut
  have hlines := headLines_pieces hk.ne_nil hk.neat.head [] (afterText target)
    (edge none keyword) .start 0
  rw [← hocc, ← htext] at hlines
  refine ⟨trim (keyword ++ (headPieces (edge none keyword) .start (afterText target)).1),
    (headPieces (edge none keyword) .start (afterText target)).2.map trim, ?_, ?_⟩
  · unfold afterText
    split
    · left
      rw [headPieces, List.append_nil, hk.neat.trim_eq]
    · rw [headPieces_space rfl]
      exact heads_trim hk.neat hk.ne_nil _
  · rw [List.map_map]
    exact hlines

/-- A join breaks off at `ON`. -/
theorem joinClause_lines {c : Clause} (hkind : c.kind = .join) (hk : IsJoin c.keyword)
    {block : Block} (h : joinClause c.keyword c.body 0 = .ok block) :
    block.level = 0 ∧ ∃ (head : Text) (texts feet : List Text),
      block.lines = ⟨0, head⟩ :: (texts.map (⟨1, ·⟩) ++ feet.map (⟨0, ·⟩)) ∧
        Heads c.keyword head ∧ c.IsFoot feet := by
  cases hfind : find? onSeparator c.body with
  | none =>
      have hparts : joinParts c.body = (c.body, none) := by simp [joinParts, hfind]
      obtain ⟨head, texts, hhead, hlines⟩ := headLines_headed hk c.body
      simp only [joinClause, hparts, hlines] at h
      obtain rfl := Except.ok.inj h
      refine ⟨rfl, head, texts, [], by simp, hhead, Or.inr ⟨?_, rfl⟩⟩
      -- an `ON` between spaces would have been found
      rintro ⟨-, a, s, b, hbody, hs⟩
      have hnone := (find?_eq_none_iff (by decide)).mp hfind a.length
      rw [hbody, List.drop_left, startsWith_append (hs.trans (by decide))] at hnone
      cases hnone
  | some i =>
      obtain ⟨a, s, b, hbody, -, hs, hparts⟩ := joinParts_split hfind
      obtain ⟨head, texts, hhead, hlines⟩ := headLines_headed hk a.trim
      simp only [joinClause, hparts, hlines] at h
      obtain rfl := Except.ok.inj h
      exact ⟨rfl, head, texts, [headed Keyword.ON b.trim], by simp, hhead,
        Or.inl ⟨⟨hkind, a, s, b, hbody, hs⟩, _, heads_headed _ _, rfl⟩⟩

/-- The lines of a clause: its head, lines further in, and the condition of a join. -/
theorem clause_lines {nested : Text → Except Fault Query} {c : Clause} (hc : c.Canonical)
    {block : Block} (h : clause nested c 0 = .ok block) :
    block.level = 0 ∧ ∃ (head : Text) (inner : List Line) (feet : List Text),
      block.lines = ⟨0, head⟩ :: (inner ++ feet.map (⟨0, ·⟩)) ∧
        c.IsHead head ∧ InnerLines nested c inner ∧ c.IsFoot feet := by
  have hkeyword : c.kind ≠ .leading → ⟨c.keyword, c.kind⟩ ∈ Boundary.all :=
    fun hne => hc.resolve_left hne
  -- one case for each kind of clause: only a join has feet, and only columns and conditions have
  -- lines of their own layouts
  unfold clause at h
  cases hkind : c.kind with
  | select =>
      simp only [hkind] at h
      obtain ⟨lines, hstack, rfl⟩ := selectClause_ok h
      have hselect := (Boundary.keyword_of_kind (hkeyword (by simp [hkind]))).1 hkind
      exact ⟨rfl, Keyword.SELECT, lines, [], by simp, by simpa [Clause.IsHead, hkind] using
        hselect.symm, .columns hstack, Clause.isFoot_nil (by simp [hkind])⟩
  | source =>
      simp only [hkind, fromClause] at h
      obtain rfl := Except.ok.inj h
      have hfrom := (Boundary.keyword_of_kind (hkeyword (by simp [hkind]))).2.1 hkind
      refine ⟨rfl, _, [], [], rfl, ?_, InnerLines.none nested c,
        Clause.isFoot_nil (by simp [hkind])⟩
      simp only [Clause.IsHead, hkind]
      exact hfrom ▸ heads_headed _ _
  | join =>
      simp only [hkind] at h
      have hjoin : IsJoin c.keyword := isJoin_of_mem (hkeyword (by simp [hkind])) hkind
      obtain ⟨hlevel, head, texts, feet, hlines, hhead, hfeet⟩ := joinClause_lines hkind hjoin h
      refine ⟨hlevel, head, _, feet, hlines, by simpa [Clause.IsHead, hkind] using hhead,
        .flat fun l hl => ?_, hfeet⟩
      obtain ⟨p, -, rfl⟩ := List.mem_map.mp hl
      rfl
  | condition =>
      simp only [hkind] at h
      have hwhere := (Boundary.keyword_of_kind (hkeyword (by simp [hkind]))).2.2.1 hkind
      have hhead : c.IsHead Keyword.WHERE := by simpa [Clause.IsHead, hkind] using hwhere.symm
      rcases whereClause_ok h with ⟨-, rfl⟩ | ⟨-, lines, hstack, rfl⟩
      · exact ⟨rfl, Keyword.WHERE, [], [], rfl, hhead, InnerLines.none nested c,
          Clause.isFoot_nil (by simp [hkind])⟩
      · exact ⟨rfl, Keyword.WHERE, lines, [], by simp, hhead, .conditions hkind hstack,
          Clause.isFoot_nil (by simp [hkind])⟩
  | having =>
      simp only [hkind, havingClause] at h
      obtain rfl := Except.ok.inj h
      have hhaving := (Boundary.keyword_of_kind (hkeyword (by simp [hkind]))).2.2.2.1 hkind
      refine ⟨rfl, _, [], [], rfl, ?_, InnerLines.none nested c,
        Clause.isFoot_nil (by simp [hkind])⟩
      simp only [Clause.IsHead, hkind]
      exact hhaving ▸ heads_headed _ _
  | groupBy =>
      simp only [hkind, listClause_eq] at h
      obtain rfl := Except.ok.inj h
      exact ⟨rfl, c.keyword, listLines 1 c.body, [], by simp, by simp [Clause.IsHead, hkind],
        .flat level_listLines, Clause.isFoot_nil (by simp [hkind])⟩
  | orderBy =>
      simp only [hkind, listClause_eq] at h
      obtain rfl := Except.ok.inj h
      exact ⟨rfl, c.keyword, listLines 1 c.body, [], by simp, by simp [Clause.IsHead, hkind],
        .flat level_listLines, Clause.isFoot_nil (by simp [hkind])⟩
  | leading =>
      simp only [hkind] at h
      obtain rfl := Except.ok.inj h
      exact ⟨rfl, c.text, [], [], rfl, by simp [Clause.IsHead, hkind], InnerLines.none nested c,
        Clause.isFoot_nil (by simp [hkind])⟩

/-- The lines of a statement are those of its clauses, each laid out alone. -/
theorem exists_blocks {nested : Text → Except Fault Query} {s : Text} (hs : Part s)
    {lines : List Line} (h : clauses nested s.clauses 0 = .ok lines) :
    ∃ blocks : List (List Line), lines = blocks.flatten ∧
      List.Forall₂ (fun c block => c.Canonical ∧ clause nested c 0 = .ok ⟨block, 0⟩)
        s.clauses blocks := by
  obtain ⟨t, ts, -, hall, -, hclauses⟩ := clauses_slices hs
  rw [hclauses] at h ⊢
  have hcanonical : ∀ u ∈ t :: ts, u.asClause.Canonical :=
    fun u hu => Clause.canonical_asClause (hall u hu)
  have hlevel : ∀ u ∈ t :: ts, ∀ block, clause nested u.asClause 0 = .ok block →
      block.level = 0 :=
    fun u hu block hblock => (clause_lines (hcanonical u hu) hblock).1
  obtain ⟨ps, hps, hblocks, rfl⟩ := (clauses_eq_ok_iff hlevel).mp h
  refine ⟨ps.map fun p => p.2.lines, ?_, ?_⟩
  · rw [List.flatMap_def, List.map_map]
    rfl
  · rw [hps, List.map_map, List.forall₂_map_left_iff, List.forall₂_map_right_iff,
      List.forall₂_same]
    intro p hp
    have hmem : p.1 ∈ t :: ts := by
      rw [hps]
      exact List.mem_map_of_mem hp
    have hblock := hblocks p hp
    refine ⟨hcanonical p.1 hmem, ?_⟩
    rw [Function.comp_apply, hblock, ← hlevel p.1 hmem p.2 hblock]

end Layout

/-! ## Statements -/

/-- What the lines at level zero say. -/
def topTexts (lines : List Line) : List Text :=
  (lines.filter fun l => l.level == 0).map Line.text

theorem topTexts_flatten (blocks : List (List Line)) :
    topTexts blocks.flatten = (blocks.map topTexts).flatten := by
  induction blocks with
  | nil => rfl
  | cons b bs ih =>
      rw [List.flatten_cons, List.map_cons, List.flatten_cons, ← ih]
      simp [topTexts]

theorem Layout.outline_of_clause {nested : Text → Except Fault Query} {c : Clause}
    (hc : c.Canonical) {block : Block} (h : clause nested c 0 = .ok block) :
    c.Outline (topTexts block.lines) := by
  obtain ⟨-, head, inner, feet, hlines, hhead, hinner, hfeet⟩ := clause_lines hc h
  refine ⟨head, feet, hhead, hfeet, ?_⟩
  have hnone : inner.filter (fun l => l.level == 0) = [] := by
    rw [List.filter_eq_nil_iff]
    intro l hl
    have hpos := hinner.level_pos l hl
    simp only [beq_iff_eq]
    omega
  have hall : (feet.map fun x => (⟨0, x⟩ : Line)).filter (fun l => l.level == 0)
      = feet.map fun x => ⟨0, x⟩ := by
    rw [List.filter_eq_self]
    intro l hl
    obtain ⟨x, -, rfl⟩ := List.mem_map.mp hl
    rfl
  have hback : (feet.map fun x => (⟨0, x⟩ : Line)).map Line.text = feet := by
    rw [List.map_map]
    exact List.map_id feet
  rw [hlines, topTexts, List.filter_cons_of_pos rfl, List.filter_append, hnone, hall,
    List.nil_append, List.map_cons, hback]

/-- The outline of a statement: its clauses in order, each with the lines that it has alone, say
at level zero what their keywords are, and the joins where their conditions start. -/
theorem layout_outline {t : Text} {query : Query} (h : layout t = .ok query) :
    ∃ blocks : List (List Line), query.lines = blocks.flatten ∧
      topTexts query.lines = (blocks.map topTexts).flatten ∧
      List.Forall₂ (fun c block => c.Canonical ∧ Layout.clause layout c 0 = .ok ⟨block, 0⟩ ∧
        c.Outline (topTexts block)) t.normalize.withoutTerminator.clauses blocks := by
  rw [layout_eq, pass_eq_ok_iff] at h
  obtain ⟨hne, hvalid, hclauses⟩ := h
  obtain ⟨blocks, hlines, hblocks⟩ := Layout.exists_blocks (part_statement hne hvalid) hclauses
  refine ⟨blocks, hlines, by rw [hlines, topTexts_flatten], ?_⟩
  refine hblocks.imp fun c block hblock => ?_
  exact ⟨hblock.1, hblock.2, Layout.outline_of_clause hblock.1 hblock.2⟩

/-- A statement with a leading clause, a join with a query of its own, and a query inside a
condition. -/
def joinedReport : Text :=
  ("with q as (select 1) select a, b from t left join (select c from u) v on t.x = v.x " ++
    "where a in (select d from w) having b order by a").toList

theorem layout_outline_joinedReport : ∃ query, layout joinedReport = .ok query ∧
    ∃ blocks : List (List Line), query.lines = blocks.flatten ∧
      topTexts query.lines = (blocks.map topTexts).flatten ∧
      List.Forall₂ (fun c block => c.Canonical ∧ Layout.clause layout c 0 = .ok ⟨block, 0⟩ ∧
        c.Outline (topTexts block)) joinedReport.normalize.withoutTerminator.clauses blocks := by
  obtain ⟨query, hlayout⟩ : ∃ query, layout joinedReport = .ok query := by
    have hok : (layout joinedReport).isOk = true := by decide +kernel
    cases hlayout : layout joinedReport with
    | error e =>
        rw [hlayout] at hok
        cases hok
    | ok query => exact ⟨query, rfl⟩
  exact ⟨query, hlayout, layout_outline hlayout⟩

end SqlLayout
