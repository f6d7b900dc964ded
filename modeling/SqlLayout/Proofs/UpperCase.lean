import SqlLayout.Proofs.Boundaries
import SqlLayout.Proofs.LetterCase
import SqlLayout.Layout.Query

set_option autoImplicit false

/-! # Letter case and layouts

The layout of a statement in upper case is its layout in upper case (`layout_upper`): the same
lines at the same levels, or the same fault at the same place. Each construct gives back the
text it was given, or a keyword, which is in upper case already; so each of them has the rule,
and a whole statement has it by induction on how deep its queries are nested.

The rule of a construct `f` reads `f t.upper = inUpper up (f t)`, with its other arguments left
out. Its proof unfolds the construct, moves `upper` out of every search and every cut in it by the
rules about letter case and scans, and looks at the answers of the searches, which are the same on
both sides.
-/

namespace SqlLayout

open Text

/-! ## Lines and outcomes -/

/-- The line in upper case. -/
def Line.upper (l : Line) : Line := ⟨l.level, l.text.upper⟩

/-- The block in upper case. -/
def Block.upper (b : Block) : Block := ⟨b.lines.map Line.upper, b.level⟩

/-- The query in upper case. -/
def Query.upper (q : Query) : Query := ⟨q.lines.map Line.upper⟩

/-- An outcome in upper case, where `up` is about what has been laid out. -/
def inUpper {α : Type} (up : α → α) (r : Except Fault α) : Except Fault α :=
  (r.map up).mapError Fault.upper

section

variable {α : Type} (up : α → α)

@[simp] theorem inUpper_ok (a : α) : inUpper up (.ok a) = .ok (up a) := rfl

@[simp] theorem inUpper_error (f : Fault) : inUpper up (.error f) = .error f.upper := rfl

end

theorem Query.shift_upper (k : Nat) (q : Query) : q.upper.shift k = (q.shift k).upper := by
  simp only [Query.shift, Query.upper, List.map_map]
  rfl

namespace Layout

/-! ## Lines that layouts share -/

/-- A keyword and a body: the keyword is in upper case already. -/
theorem headed_upper {k : Text} (hk : k.upper = k) (body : Text) :
    headed k body.upper = (headed k body).upper := by
  unfold headed
  rw [isEmpty_upper]
  split_ifs
  · exact hk.symm
  · rw [upper_append, hk]
    rfl

theorem openLine_upper {k : Text} (hk : k.upper = k) (before : Text) :
    openLine before.upper k = (openLine before k).upper := by
  unfold openLine
  simp only [isEmpty_upper]
  split_ifs <;> simp only [upper_append, upper_cons, hk] <;> rfl

theorem closeLine_upper (after suffix : Text) :
    closeLine after.upper suffix.upper = (closeLine after suffix).upper := by
  unfold closeLine
  rw [isEmpty_upper]
  split_ifs
  · rfl
  · rw [upper_append, upper_append]
    rfl

theorem separated_upper {sep : Text} (hsep : sep.upper = sep) (items : List Text) :
    separated sep (items.map Text.upper)
      = (separated sep items).map (Prod.map Text.upper Text.upper) := by
  induction items with
  | nil => rfl
  | cons item items ih =>
      cases items with
      | nil => rfl
      | cons next rest =>
          rw [List.map_cons] at ih
          rw [List.map_cons, List.map_cons, separated, ih, separated, List.map_cons,
            Prod.map_apply, hsep]

/-- Items are laid out line by line, each in upper case. -/
theorem itemLines_upper {s : Text} (hs : s.upper = s) (level : Nat) (items : List Text) :
    itemLines s level (items.map Text.upper) = (itemLines s level items).map Line.upper := by
  rw [itemLines, separated_upper hs, itemLines, List.map_map, List.map_map]
  refine List.map_congr_left (fun x _ => ?_)
  obtain ⟨item, s⟩ := x
  simp [Line.upper, upper_append]

theorem plain_upper (text suffix : Text) (level : Nat) :
    plain text.upper suffix.upper level = (plain text suffix level).upper := by
  simp [plain, Block.upper, Line.upper, upper_append]

/-- Items laid out one below the other, for a layout that has the rule. The first fault is the same
one. -/
theorem stack_upper {lay : Text → Text → Layout}
    (h : ∀ item s, lay item.upper s.upper = inUpper Block.upper (lay item s))
    (items : List (Text × Text)) :
    stack lay (items.map (Prod.map Text.upper Text.upper))
      = inUpper (List.map Line.upper) (stack lay items) := by
  induction items with
  | nil => rfl
  | cons x xs ih =>
      obtain ⟨item, s⟩ := x
      rw [List.map_cons, Prod.map_apply, stack, stack, h, ih]
      cases hlay : lay item s with
      | error f => rfl
      | ok block =>
          cases hrest : stack lay xs with
          | error f => rfl
          | ok lines => simp [Block.upper]

/-! ## `CASE` -/

/-- The branches of a `CASE` expression start at the same words. The keyword stands for the word
that spells it, and the two agree once they are in upper case. -/
theorem branchLines_upper (nested : Nat) (line : Text) (ts : List Token) :
    branchLines nested line.upper (ts.map Token.upper)
      = (branchLines nested line ts).map
          (Prod.map (List.map Text.upper) (List.map Token.upper)) := by
  induction ts generalizing nested line with
  | nil => rfl
  | cons t ts ih =>
      have htext : ∀ w : Text, line.upper ++ ' ' :: w.upper = Text.upper (line ++ ' ' :: w) := by
        intro w
        rw [upper_append]
        rfl
      -- the keywords are capitals already
      have hkeyword : ∀ k : Text, k.upper = k →
          branchLines 0 k (ts.map Token.upper) = (branchLines 0 k ts).map
            (Prod.map (List.map Text.upper) (List.map Token.upper)) := by
        intro k hk
        have hrec := ih 0 k
        rwa [hk] at hrec
      have hthen : line.upper ++ ' ' :: Keyword.THEN = Text.upper (line ++ ' ' :: Keyword.THEN) :=
        htext Keyword.THEN
      have hself : t.upper.text = t.text.upper := rfl
      rw [List.map_cons, branchLines, branchLines]
      simp only [Token.spells_upper, hself, htext, hthen, ih, hkeyword Keyword.WHEN rfl,
        hkeyword Keyword.ELSE rfl]
      split_ifs
      · rfl
      · cases branchLines 0 Keyword.WHEN ts <;> rfl
      · cases branchLines 0 Keyword.ELSE ts <;> rfl
      · rfl
      · rfl
      · rfl
      · rfl
      · rfl

theorem hanging_upper (level : Nat) (lines : List Text) :
    hanging level (lines.map Text.upper) = (hanging level lines).map Line.upper := by
  cases lines with
  | nil => rfl
  | cons head rest =>
      simp only [List.map_cons, hanging, List.map_map]
      rfl

theorem endLine_upper (rest : List Token) (suffix : Text) :
    endLine (rest.map Token.upper) suffix.upper = (endLine rest suffix).upper := by
  have hrest : (rest.map Token.upper).flatMap (fun t => ' ' :: t.text)
      = Text.upper (rest.flatMap fun t => ' ' :: t.text) := by
    induction rest with
    | nil => rfl
    | cons t ts ih =>
        rw [List.map_cons, List.flatMap_cons, List.flatMap_cons, upper_append, ih]
        rfl
  rw [endLine, hrest, endLine, upper_append, upper_append]
  rfl

/-- The rule for a `CASE` expression. -/
theorem caseExpression_upper (expr suffix : Text) (level : Nat) :
    caseExpression expr.upper suffix.upper level
      = inUpper Block.upper (caseExpression expr suffix level) := by
  unfold caseExpression
  rw [tokens_upper]
  cases expr.tokens with
  | nil => rfl
  | cons first rest =>
      have hhead : Keyword.CASE ++ first.upper.text.dropBytes Keyword.CASE.byteLength
          = Text.upper (Keyword.CASE ++ first.text.dropBytes Keyword.CASE.byteLength) := by
        rw [upper_append, ← dropBytes_upper]
        rfl
      simp only [List.map_cons, hhead, branchLines_upper]
      cases branchLines 0 (Keyword.CASE ++ first.text.dropBytes Keyword.CASE.byteLength) rest with
      | none => simp [Fault.upper]
      | some pair =>
          obtain ⟨lines, after⟩ := pair
          simp [hanging_upper, endLine_upper, Block.upper, Line.upper]

/-! ## Window functions -/

/-- A text is cut at a keyword in the same place. -/
theorem aroundKeyword_upper (text keyword : Text) :
    aroundKeyword text.upper keyword
      = Prod.map Text.upper (Option.map Text.upper) (aroundKeyword text keyword) := by
  unfold aroundKeyword
  rw [firstOccurrence?_upper]
  cases text.firstOccurrence? keyword with
  | none => simp
  | some i => simp

theorem orderLines_upper (text : Text) :
    orderLines text.upper = (orderLines text).map Text.upper := by
  unfold orderLines
  rw [aroundKeyword_upper]
  rcases aroundKeyword text Keyword.ROWS with ⟨order, _ | rows⟩ <;>
    simp [headed_upper (k := Keyword.ORDER_BY) rfl, headed_upper (k := Keyword.ROWS) rfl]

theorem partitionLines_upper (text : Text) :
    partitionLines text.upper = (partitionLines text).map Text.upper := by
  unfold partitionLines
  rw [aroundKeyword_upper]
  rcases aroundKeyword text Keyword.ORDER_BY with ⟨partition, _ | order⟩ <;>
    simp [headed_upper (k := Keyword.PARTITION_BY) rfl, orderLines_upper]

/-- A window specification has the same parts. -/
theorem windowLines_upper (spec : Text) :
    windowLines spec.upper = (windowLines spec).map Text.upper := by
  unfold windowLines
  rw [aroundKeyword_upper]
  rcases aroundKeyword spec Keyword.PARTITION_BY with ⟨base, _ | partition⟩
  · simp only [Prod.map_apply, Option.map_none, isEmpty_upper]
    split_ifs <;> rfl
  · simp only [Prod.map_apply, Option.map_some, isEmpty_upper, partitionLines_upper]
    split_ifs <;> rfl

/-- The rule for a window function. -/
theorem windowFunction_upper (column suffix : Text) (level : Nat) :
    windowFunction column.upper suffix.upper level
      = inUpper Block.upper (windowFunction column suffix level) := by
  unfold windowFunction
  rw [firstOccurrence?_upper]
  cases column.firstOccurrence? Keyword.OVER with
  | none => exact congrArg Except.ok (plain_upper column suffix level)
  | some i =>
      simp only [drop_upper, trimStart_upper, head?_upper, length_upper,
        map_toUpper_beq (show isWordChar '(' = false by decide), enclosed?_upper, take_upper,
        trimEnd_upper]
      split_ifs
      · cases column.enclosed?
            (column.length - (Text.trimStart (column.drop (i + Keyword.OVER.length))).length) with
        | none => simp [Fault.upper]
        | some pair =>
            obtain ⟨spec, trailing⟩ := pair
            simp [windowLines_upper, closeLine_upper, openLine_upper (k := Keyword.OVER) rfl,
              Block.upper, Line.upper]
      · exact congrArg Except.ok (plain_upper column suffix level)

/-- The rule for a column, by the construct that it is. -/
theorem column_upper (level : Nat) (text suffix : Text) :
    column level text.upper suffix.upper = inUpper Block.upper (column level text suffix) := by
  unfold column
  rw [startsKeyword_upper, hasKeyword_upper, caseExpression_upper, windowFunction_upper,
    plain_upper]
  split_ifs <;> rfl

/-! ## Conditions

The layout of inner queries is a parameter here, and that it has the rule is the hypothesis `h`;
the induction over the nesting at the end provides it. -/

/-- The rule for a value list. -/
theorem inList_upper (condition suffix : Text) (level : Nat) :
    inList condition.upper suffix.upper level
      = inUpper Block.upper (inList condition suffix level) := by
  unfold inList
  rw [find?_upper]
  cases Text.find? inOpening condition with
  | none => exact congrArg Except.ok (plain_upper condition suffix level)
  | some i =>
      simp only [enclosed?_upper]
      cases condition.enclosed? (i + (inOpening.length - 1)) with
      | none => simp [Fault.upper]
      | some pair =>
          obtain ⟨list, trailing⟩ := pair
          simp only [Option.map_some, Prod.map_apply, isEmpty_upper, splitCommas_upper,
            itemLines_upper (s := [',']) rfl, take_upper, trim_upper,
            openLine_upper (k := Keyword.IN) rfl, closeLine_upper, inUpper_ok, Block.upper,
            Line.upper, List.map_cons, List.map_append, List.map_nil]
          split_ifs <;> rfl

variable {nested : Text → Except Fault Query}

/-- The rule for a condition with an inner query, if the layout of inner queries has it. -/
theorem subquery_upper (h : ∀ u, nested u.upper = inUpper Query.upper (nested u))
    (condition suffix : Text) (level : Nat) :
    subquery nested condition.upper suffix.upper level
      = inUpper Block.upper (subquery nested condition suffix level) := by
  have haround : condition.upper.openAround? = condition.openAround? :=
    funext (openAround?_upper condition)
  unfold subquery
  rw [firstOccurrence?_upper, haround]
  cases (condition.firstOccurrence? Keyword.SELECT).bind condition.openAround? with
  | none => exact congrArg Except.ok (plain_upper condition suffix level)
  | some o =>
      simp only [enclosed?_upper]
      cases condition.enclosed? o with
      | none => simp [Fault.upper]
      | some pair =>
          obtain ⟨interior, trailing⟩ := pair
          simp only [Option.map_some, Prod.map_apply, h]
          cases nested interior with
          | error f => rfl
          | ok query =>
              have hinner : (query.upper.shift (level + 1)).lines
                  = (query.shift (level + 1)).lines.map Line.upper := by
                rw [Query.shift_upper]
                rfl
              simp only [inUpper_ok, hinner, take_upper, trim_upper,
                openLine_upper (k := []) rfl, closeLine_upper, Block.upper, Line.upper,
                List.map_cons, List.map_append, List.map_nil]

/-- The rule for a condition, by the construct that it holds. -/
theorem condition_upper (h : ∀ u, nested u.upper = inUpper Query.upper (nested u))
    (level : Nat) (text suffix : Text) :
    condition nested level text.upper suffix.upper
      = inUpper Block.upper (condition nested level text suffix) := by
  unfold condition
  rw [hasKeyword_upper, find?_upper, subquery_upper h, inList_upper, plain_upper]
  split_ifs <;> rfl

/-! ## Clauses -/

/-- The rule for the columns of a `SELECT` clause. -/
theorem selectClause_upper (body : Text) (level : Nat) :
    selectClause body.upper level = inUpper Block.upper (selectClause body level) := by
  unfold selectClause
  rw [columns_upper, separated_upper rfl, stack_upper (column_upper (level + 1))]
  cases stack (column (level + 1)) (separated [','] body.columns) <;> rfl

theorem joinParts_upper (body : Text) :
    joinParts body.upper = Prod.map Text.upper (Option.map Text.upper) (joinParts body) := by
  unfold joinParts
  rw [find?_upper]
  cases Text.find? onSeparator body with
  | none => rfl
  | some i => simp

theorem headLine_upper (level start : Nat) (piece : Text) :
    headLine level start piece.upper = (headLine level start piece).upper := rfl

/-- The head of a join is broken at the same places. -/
theorem headLines_upper (head : Text) (level start : Nat) (places : List Nat) :
    headLines head.upper level start places
      = (headLines head level start places).map Line.upper := by
  induction places generalizing start with
  | nil => simp [headLines, headLine_upper]
  | cons i rest ih =>
      simp only [headLines, take_upper, drop_upper, trim_upper, isEmpty_upper, ih,
        headLine_upper]
      split_ifs <;> rfl

/-- The rule for a join. -/
theorem joinClause_upper {keyword : Text} (hk : keyword.upper = keyword) (body : Text)
    (level : Nat) :
    joinClause keyword body.upper level = inUpper Block.upper (joinClause keyword body level) := by
  unfold joinClause
  rw [joinParts_upper]
  rcases joinParts body with ⟨target, _ | condition⟩
  · simp [headed_upper hk, headLines_upper, Block.upper]
  · simp [headed_upper hk, headed_upper (k := Keyword.ON) rfl, headLines_upper, Block.upper,
      Line.upper]

/-- The rule for the conditions of a `WHERE` clause. -/
theorem whereClause_upper (h : ∀ u, nested u.upper = inUpper Query.upper (nested u))
    (body : Text) (level : Nat) :
    whereClause nested body.upper level
      = inUpper Block.upper (whereClause nested body level) := by
  have hconditions : (body.upper.splitOn andSeparator).map Text.trim
      = ((body.splitOn andSeparator).map Text.trim).map Text.upper := by
    rw [splitOn_upper, List.map_map, List.map_map]
    exact List.map_congr_left (fun p _ => trim_upper p)
  unfold whereClause
  rw [isEmpty_upper, hconditions]
  dsimp only
  rw [separated_upper rfl, stack_upper (condition_upper h (level + 1))]
  split_ifs
  · rfl
  · cases stack (condition nested (level + 1))
      (separated (' ' :: Keyword.AND) ((body.splitOn andSeparator).map Text.trim)) <;> rfl

theorem listClause_upper {keyword : Text} (hk : keyword.upper = keyword) (body : Text)
    (level : Nat) :
    listClause keyword body.upper level = inUpper Block.upper (listClause keyword body level) := by
  unfold listClause
  rw [isEmpty_upper, splitCommas_upper, itemLines_upper rfl]
  simp only [inUpper_ok, Block.upper, List.map_cons, Line.upper, hk]
  split_ifs <;> rfl

/-- The rule for a clause, by its kind. -/
theorem clause_upper (h : ∀ u, nested u.upper = inUpper Query.upper (nested u)) {c : Clause}
    (hk : c.keyword.upper = c.keyword) (level : Nat) :
    clause nested c.upper level = inUpper Block.upper (clause nested c level) := by
  unfold clause
  have hkind : c.upper.kind = c.kind := rfl
  rw [hkind]
  cases c.kind with
  | select => exact selectClause_upper c.body level
  | source =>
      exact congrArg (fun t => Except.ok (Block.mk [⟨0, t⟩] 0))
        (headed_upper (k := Keyword.FROM) rfl c.body)
  | join => exact joinClause_upper hk c.body level
  | condition => exact whereClause_upper h c.body level
  | having =>
      exact congrArg (fun t => Except.ok (Block.mk [⟨level, t⟩] level))
        (headed_upper (k := Keyword.HAVING) rfl c.body)
  | groupBy => exact listClause_upper hk c.body level
  | orderBy => exact listClause_upper hk c.body level
  | leading => rfl

/-- The rule for clauses one after another. Each clause says at which level the next one starts,
and that level is the same. -/
theorem clauses_upper (h : ∀ u, nested u.upper = inUpper Query.upper (nested u))
    {cs : List Clause} (hk : ∀ c ∈ cs, c.keyword.upper = c.keyword) (level : Nat) :
    clauses nested (cs.map Clause.upper) level
      = inUpper (List.map Line.upper) (clauses nested cs level) := by
  induction cs generalizing level with
  | nil => rfl
  | cons c cs ih =>
      rw [List.map_cons, clauses, clauses, clause_upper h (hk c List.mem_cons_self)]
      cases clause nested c level with
      | error f => rfl
      | ok block =>
          have hrest := ih (fun c' hc' => hk c' (List.mem_cons_of_mem _ hc')) block.level
          have hlevel : block.upper.level = block.level := rfl
          simp only [inUpper_ok, hlevel, hrest]
          cases clauses nested cs block.level with
          | error f => rfl
          | ok lines => simp [Block.upper]

end Layout

/-! ## Statements

The clauses of a statement are cut at boundaries, and every boundary has its keyword in upper
case; this is all that `clauses_upper` asks of them. -/

namespace Clause

theorem boundary_of_mem_laterStarts {ts : List Token} {i : Nat} {b : Boundary}
    (h : (i, some b) ∈ laterStarts ts) : b ∈ Boundary.all := by
  induction ts with
  | nil => cases h
  | cons t ts ih =>
      rw [laterStarts] at h
      split at h
      · rename_i b' hb'
        rcases List.mem_cons.mp h with heq | h
        · obtain rfl : b = b' := by simpa using (Prod.mk.inj heq).2
          exact (Boundary.ofTokens?_spec hb').2.1
        · exact ih h
      · exact ih h

theorem boundary_of_mem_starts {ts : List Token} {i : Nat} {b : Boundary}
    (h : (i, some b) ∈ starts ts) : b ∈ Boundary.all := by
  cases ts with
  | nil => cases h
  | cons t ts =>
      rw [starts] at h
      split at h
      · rename_i b' hb'
        rcases List.mem_cons.mp h with heq | h
        · obtain rfl : b = b' := by simpa using (Prod.mk.inj heq).2
          exact (Boundary.ofTokens?_spec hb').2.1
        · exact boundary_of_mem_laterStarts h
      · rcases List.mem_cons.mp h with heq | h
        · cases heq
        · exact boundary_of_mem_laterStarts h

/-- A clause that starts at a boundary has the keyword of that boundary. -/
theorem keyword_ofBoundary {b : Option Boundary} (hb : ∀ x, b = some x → x ∈ Boundary.all)
    (t : Text) : (ofBoundary b t).keyword.upper = (ofBoundary b t).keyword := by
  cases b with
  | none => rfl
  | some x => exact (Boundary.isKeyword_of_mem (hb x rfl)).upper

/-- A clause has its keyword in upper case. -/
theorem keyword_of_mem_cut {s : Text} {places : List (Nat × Option Boundary)}
    (hplaces : ∀ i b, (i, some b) ∈ places → b ∈ Boundary.all) {c : Clause}
    (hc : c ∈ cut s places) : c.keyword.upper = c.keyword := by
  induction places with
  | nil => cases hc
  | cons p rest ih =>
      obtain ⟨i, b⟩ := p
      have hb : ∀ x, b = some x → x ∈ Boundary.all := by
        rintro x rfl
        exact hplaces i x List.mem_cons_self
      cases rest with
      | nil =>
          obtain rfl := List.mem_singleton.mp hc
          exact keyword_ofBoundary hb _
      | cons p' rest =>
          obtain ⟨j, b'⟩ := p'
          rcases List.mem_cons.mp hc with rfl | hc
          · exact keyword_ofBoundary hb _
          · exact ih (fun i x hx => hplaces i x (List.mem_cons_of_mem _ hx)) hc

end Clause

/-- A statement in upper case is laid out as the statement is, in upper case. -/
theorem layoutWithin_upper (bound : Nat) (t : Text) :
    layoutWithin bound t.upper = inUpper Query.upper (layoutWithin bound t) := by
  induction bound generalizing t with
  | zero => rfl
  | succ bound ih =>
      have hkeywords : ∀ c ∈ t.normalize.withoutTerminator.clauses, c.keyword.upper = c.keyword :=
        fun c hc => Clause.keyword_of_mem_cut (fun _ _ => Clause.boundary_of_mem_starts) hc
      have hclauses := Layout.clauses_upper ih hkeywords 0
      rw [layoutWithin, layoutWithin]
      simp only [normalize_upper, withoutTerminator_upper, isEmpty_upper, validate_upper,
        Text.clauses_upper, hclauses]
      split_ifs
      · rfl
      · cases validate t.normalize.withoutTerminator with
        | error f => rfl
        | ok _ =>
            cases Layout.clauses (layoutWithin bound) t.normalize.withoutTerminator.clauses 0 with
            | error f => rfl
            | ok lines => rfl

/-- A text has as many parentheses in whatever case, so the same bound on the nesting applies. -/
theorem count_upper {c : Char} (hc : isWordChar c = false) (t : Text) :
    t.upper.count c = t.count c := by
  induction t with
  | nil => rfl
  | cons d ds ih =>
      rw [upper_cons, List.count_cons, List.count_cons, ih, beq_toUpper hc]

/-- The layout of a statement in upper case: the same lines at the same levels, each in upper
case; or the same fault with the same construct and position, its excerpt in upper case. -/
theorem layout_upper (t : Text) :
    layout t.upper = ((layout t).map Query.upper).mapError Fault.upper := by
  rw [layout, count_upper (by decide)]
  exact layoutWithin_upper _ t

end SqlLayout
