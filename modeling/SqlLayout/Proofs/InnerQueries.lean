import SqlLayout.Proofs.Parentheses
import SqlLayout.Proofs.Normal
import SqlLayout.Proofs.SteadyCuts

set_option autoImplicit false

/-! # Queries inside a statement

The queries that a statement holds in its conditions (`Text.innerQueries`). They are what the
layout of a statement calls itself on, and nothing else of the nested layout matters
(`clauses_congr`). Each of them stands inside a parenthesis of the statement and has fewer
opening parentheses than the statement (`count_lt_of_mem_innerQueries`), so the bound of the
recursion is never reached: `layout_eq` is the recursion without it.
-/

namespace SqlLayout

open Text

namespace Layout

/-- The queries in the conditions of a clause. -/
def clauseQueries (c : Clause) : List Text :=
  match c.kind with
  | .condition => ((c.body.splitOn andSeparator).map Text.trim).filterMap queryIn?
  | _ => []

end Layout

/-- The queries in the conditions of a statement. -/
def Text.innerQueries (t : Text) : List Text :=
  t.normalize.withoutTerminator.clauses.flatMap Layout.clauseQueries

/-- The queries inside a statement, at any depth. -/
inductive InnerQuery : Text → Text → Prop
  | direct {t u : Text} : u ∈ t.innerQueries → InnerQuery t u
  | deeper {t u v : Text} : u ∈ t.innerQueries → InnerQuery u v → InnerQuery t v

/-! ## What a layout asks of its inner queries -/

namespace Layout

theorem mem_separated {sep item s : Text} {items : List Text}
    (h : (item, s) ∈ separated sep items) : item ∈ items := by
  induction items with
  | nil => cases h
  | cons x xs ih =>
      cases xs with
      | nil =>
          obtain ⟨rfl, -⟩ : item = x ∧ s = [] := by simpa [separated] using h
          exact List.mem_cons_self
      | cons y ys =>
          rcases List.mem_cons.mp h with hxs | hrest
          · obtain ⟨rfl, -⟩ := Prod.mk.inj hxs
            exact List.mem_cons_self
          · exact List.mem_cons_of_mem _ (ih hrest)

theorem stack_congr {lay lay' : Text → Text → Layout} {items : List (Text × Text)}
    (h : ∀ item s, (item, s) ∈ items → lay item s = lay' item s) :
    stack lay items = stack lay' items := by
  induction items with
  | nil => rfl
  | cons x xs ih =>
      obtain ⟨item, s⟩ := x
      have hrest := ih (fun item' s' hmem => h item' s' (List.mem_cons_of_mem _ hmem))
      simp only [stack, h item s List.mem_cons_self, hrest]

section Congruence

variable {nested nested' : Text → Except Fault Query}

theorem subquery_congr {condition : Text}
    (h : ∀ u, queryIn? condition = some u → nested u = nested' u) (suffix : Text) (level : Nat) :
    subquery nested condition suffix level = subquery nested' condition suffix level := by
  unfold subquery
  cases hopen : (condition.firstOccurrence? Keyword.SELECT).bind condition.openAround? with
  | none => rfl
  | some o =>
      cases henc : condition.enclosed? o with
      | none => simp only [henc]
      | some pair =>
          obtain ⟨inner, trailing⟩ := pair
          have hin : queryIn? condition = some inner := by
            rw [queryIn?, hopen, Option.bind_some, henc]
            rfl
          simp only [henc, h inner hin]

theorem condition_congr {text : Text}
    (h : ∀ u, queryIn? text = some u → nested u = nested' u) (suffix : Text) (level : Nat) :
    condition nested level text suffix = condition nested' level text suffix := by
  unfold condition
  rw [subquery_congr h]

theorem clause_congr {c : Clause} (h : ∀ u ∈ clauseQueries c, nested u = nested' u)
    (level : Nat) : clause nested c level = clause nested' c level := by
  unfold clause
  cases hkind : c.kind with
  | condition =>
      have hstack : stack (condition nested (level + 1))
            (separated (' ' :: Keyword.AND) ((c.body.splitOn andSeparator).map Text.trim))
          = stack (condition nested' (level + 1))
            (separated (' ' :: Keyword.AND) ((c.body.splitOn andSeparator).map Text.trim)) := by
        refine stack_congr (fun item s hmem => condition_congr (fun u hu => h u ?_) s _)
        rw [clauseQueries, hkind]
        exact List.mem_filterMap.mpr ⟨item, mem_separated hmem, hu⟩
      simp only [whereClause, hstack]
  | _ => rfl

/-- Layouts of a statement agree if they agree on its inner queries. -/
theorem clauses_congr {cs : List Clause}
    (h : ∀ u ∈ cs.flatMap clauseQueries, nested u = nested' u) (level : Nat) :
    clauses nested cs level = clauses nested' cs level := by
  induction cs generalizing level with
  | nil => rfl
  | cons c cs ih =>
      have hc : ∀ l, clause nested c l = clause nested' c l := fun l =>
        clause_congr (fun u hu => h u (List.mem_flatMap.mpr ⟨c, List.mem_cons_self, hu⟩)) l
      have hcs : ∀ l, clauses nested cs l = clauses nested' cs l := fun l =>
        ih (fun u hu => h u (by
          obtain ⟨c', hc', hu'⟩ := List.mem_flatMap.mp hu
          exact List.mem_flatMap.mpr ⟨c', List.mem_cons_of_mem _ hc', hu'⟩)) l
      simp only [clauses, hc, hcs]

end Congruence

end Layout

/-! ## Parts of a statement -/

namespace Text

theorem trim_isPart (t : Text) : t.trim <:+: t := by
  obtain ⟨a, b, -, -, ht⟩ := trim_split t
  exact ⟨a, b, by rw [List.append_assoc]; exact ht.symm⟩

theorem dropBytes_suffix (n : Nat) (t : Text) : t.dropBytes n <:+ t := by
  unfold dropBytes
  cases indexAt? n t with
  | none => exact List.nil_suffix
  | some i => exact List.drop_suffix i t

end Text

theorem Parted.isPart {sep : Text → Prop} {q : Track} {ps : List Text} {t : Text}
    (h : Parted sep q ps t) : ∀ p ∈ ps, p <:+: t := by
  induction h with
  | last _ =>
      intro p hp
      obtain rfl := List.mem_singleton.mp hp
      exact List.infix_rfl
  | @cons q p s t ps _ _ _ _ ih =>
      intro x hx
      rcases List.mem_cons.mp hx with rfl | hx
      · exact (List.prefix_append _ _).isInfix
      · exact (ih x hx).trans ⟨p ++ s, [], by simp⟩

theorem Text.isPart_of_mem_splitOn {sep t p : Text} (hsep : sep ∈ flatSeparators)
    (h : p ∈ t.splitOn sep) : p <:+: t :=
  (parted_splitOn hsep (Ready.untracked t) (fun hne => absurd rfl hne)).isPart p h

theorem Clause.body_isPart (b : Option Boundary) (x : Text) : (ofBoundary b x).body <:+: x := by
  cases b with
  | none => exact (trim_isPart _).trans (dropBytes_suffix _ x).isInfix
  | some b => exact (trim_isPart _).trans (dropBytes_suffix _ x).isInfix

theorem Clause.isPart_of_mem_cut {s : Text} {starts : List (Nat × Option Boundary)} {c : Clause}
    (h : c ∈ cut s starts) : c.body <:+: s := by
  induction starts with
  | nil => cases h
  | cons p rest ih =>
      obtain ⟨i, b⟩ := p
      cases rest with
      | nil =>
          obtain rfl := List.mem_singleton.mp h
          exact ((Clause.body_isPart b _).trans (trim_isPart _)).trans
            (List.drop_suffix i s).isInfix
      | cons p' rest =>
          obtain ⟨j, b'⟩ := p'
          rcases List.mem_cons.mp h with rfl | hrest
          · exact (((Clause.body_isPart b _).trans (trim_isPart _)).trans
              (List.drop_suffix i _).isInfix).trans (List.take_prefix j s).isInfix
          · exact ih hrest

/-! ## Opening parentheses -/

/-- The number of times a character that is not blank occurs is the number of its marks. -/
theorem count_marks {c : Char} (hc : isBlank c = false) (e : Option Char) (t : Text) :
    ((t.marks e).map Mark.char).count c = t.count c := by
  induction t generalizing e with
  | nil => rfl
  | cons d ds ih =>
      rw [marks]
      split
      · rename_i hd
        have hne : d ≠ c := by
          rintro rfl
          rw [hc] at hd
          cases hd
        rw [ih, List.count_cons_of_ne hne]
      · rw [List.map_cons, List.count_cons, List.count_cons, ih]

theorem count_normalize {c : Char} (hc : isBlank c = false) (t : Text) :
    t.normalize.count c = t.count c := by
  rw [← count_marks hc none, marks_normalize, count_marks hc]

theorem count_statement_le (c : Char) (hc : isBlank c = false) (t : Text) :
    t.normalize.withoutTerminator.count c ≤ t.count c := by
  rw [← count_normalize hc t]
  rcases withoutTerminator_split t.normalize with ⟨-, h⟩ | ⟨-, b, -, h⟩
  · rw [h]
  · conv_rhs => rw [h]
    rw [List.count_append]
    omega

/-- The query of a condition, in its parentheses. It holds a `SELECT`. -/
theorem Layout.queryIn?_split {condition u : Text} (h : queryIn? condition = some u) :
    ∃ before w after, condition = before ++ '(' :: (w ++ ')' :: after) ∧ u = trim w ∧
      Encloses w ∧ ∃ s x d, w = s ++ x ∧ LeadsTo Keyword.SELECT before s x d := by
  obtain ⟨o, hopen, hmap⟩ := Option.bind_eq_some_iff.mp h
  obtain ⟨⟨inner, trailing⟩, henc, rfl⟩ := Option.map_eq_some_iff.mp hmap
  obtain ⟨place, hfirst, haround⟩ := Option.bind_eq_some_iff.mp hopen
  obtain ⟨before, w, after, rfl, rfl, rfl, -, hw⟩ := enclosed?_split henc
  exact ⟨before, w, after, rfl, rfl, hw,
    leadsTo_of_openAround? (by decide) (by decide) hw hfirst haround⟩

theorem Layout.count_lt_of_queryIn? {condition u : Text} (h : queryIn? condition = some u) :
    u.count '(' < condition.count '(' := by
  obtain ⟨before, w, after, rfl, rfl, -, -⟩ := queryIn?_split h
  have hle := (trim_isPart w).sublist.count_le '('
  simp only [List.count_append, List.count_cons_self]
  omega

/-- An inner query is the query of a condition, which is a part of the statement. -/
theorem exists_condition_of_mem_innerQueries {t u : Text} (h : u ∈ t.innerQueries) :
    ∃ condition, condition <:+: t.normalize.withoutTerminator ∧
      Layout.queryIn? condition = some u := by
  obtain ⟨c, hc, hu⟩ := List.mem_flatMap.mp h
  unfold Layout.clauseQueries at hu
  split at hu
  · obtain ⟨condition, hcondition, hin⟩ := List.mem_filterMap.mp hu
    obtain ⟨piece, hpiece, rfl⟩ := List.mem_map.mp hcondition
    have hpart : piece.trim <:+: t.normalize.withoutTerminator :=
      ((trim_isPart piece).trans (isPart_of_mem_splitOn (by decide) hpiece)).trans
        (Clause.isPart_of_mem_cut hc)
    exact ⟨piece.trim, hpart, hin⟩
  · cases hu

/-- An inner query has fewer opening parentheses than the statement. -/
theorem count_lt_statement {t u : Text} (h : u ∈ t.innerQueries) :
    u.count '(' < t.normalize.withoutTerminator.count '(' := by
  obtain ⟨condition, hpart, hin⟩ := exists_condition_of_mem_innerQueries h
  calc u.count '(' < condition.count '(' := Layout.count_lt_of_queryIn? hin
    _ ≤ t.normalize.withoutTerminator.count '(' := hpart.sublist.count_le '('

theorem count_lt_of_mem_innerQueries {t u : Text} (h : u ∈ t.innerQueries) :
    u.count '(' < t.count '(' :=
  (count_lt_statement h).trans_le (count_statement_le '(' (by decide) t)

/-! ## The recursion without a bound -/

/-- One pass over a statement, whose inner queries are laid out by `nested`. -/
def pass (nested : Text → Except Fault Query) (text : Text) : Except Fault Query :=
  let statement := text.normalize.withoutTerminator
  if statement.isEmpty then .error .emptyInput
  else
    match validate statement with
    | .error e => .error e
    | .ok () =>
      match Layout.clauses nested statement.clauses 0 with
      | .error e => .error e
      | .ok lines => .ok ⟨lines⟩

theorem layoutWithin_succ (bound : Nat) (t : Text) :
    layoutWithin (bound + 1) t = pass (layoutWithin bound) t := rfl

theorem pass_congr {nested nested' : Text → Except Fault Query} {t : Text}
    (h : ∀ u ∈ t.innerQueries, nested u = nested' u) : pass nested t = pass nested' t := by
  have hclauses := Layout.clauses_congr h 0
  simp only [pass, hclauses]

/-- Any bound above the number of opening parentheses gives the same layout. -/
theorem layoutWithin_eq {bound bound' : Nat} {t : Text} (h : t.count '(' < bound)
    (h' : t.count '(' < bound') : layoutWithin bound t = layoutWithin bound' t := by
  induction bound generalizing bound' t with
  | zero => omega
  | succ bound ih =>
      cases bound' with
      | zero => omega
      | succ bound' =>
          have hinner : ∀ u ∈ t.innerQueries, layoutWithin bound u = layoutWithin bound' u := by
            intro u hu
            have hlt := count_lt_of_mem_innerQueries hu
            exact ih (by omega) (by omega)
          rw [layoutWithin_succ, layoutWithin_succ, pass_congr hinner]

theorem layoutWithin_eq_layout {bound : Nat} {t : Text} (h : t.count '(' < bound) :
    layoutWithin bound t = layout t :=
  layoutWithin_eq h (Nat.lt_succ_self _)

/-- The layout of a statement calls itself on the inner queries. -/
theorem layout_eq (t : Text) : layout t = pass layout t := by
  rw [layout, layoutWithin_succ]
  exact pass_congr (fun u hu => layoutWithin_eq_layout (count_lt_of_mem_innerQueries hu))

end SqlLayout
