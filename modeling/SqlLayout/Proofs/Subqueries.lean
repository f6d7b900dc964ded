import SqlLayout.Proofs.Parentheses
import SqlLayout.Proofs.Windows

set_option autoImplicit false

/-! # Conditions on one line

A condition with a subquery, put on one line, has the same first `SELECT`, inside the same
parenthesis: the lexemes before it are the same. So it is laid out around the same query
(`condition_bracketed`), and the whole condition is laid out as before exactly if that query is
(`condition_again`).
-/

namespace SqlLayout

open Text

/-! ## Subqueries -/

namespace Layout

/-- What the layout is, when a query is found and its parenthesis is closed. -/
theorem subquery_eq {nested : Text → Except Fault Query} {condition inner after : Text} {o : Nat}
    (hopen : (condition.firstOccurrence? Keyword.SELECT).bind condition.openAround? = some o)
    (henc : condition.enclosed? o = some (inner, after)) (suffix : Text) (level : Nat) :
    subquery nested condition suffix level = (nested inner).map fun query =>
      bracketBlock level (trim (condition.take o)) [] (query.shift (level + 1)).lines after
        suffix := by
  unfold subquery
  simp only [hopen, henc]
  cases nested inner <;> rfl

/-- Either there is no query in a condition, or it is laid out in its parenthesis. -/
theorem subquery_cases {nested : Text → Except Fault Query} {condition suffix : Text}
    {level : Nat} {block : Block} (h : subquery nested condition suffix level = .ok block) :
    (queryIn? condition = none ∧
      ∀ s l, subquery nested condition s l = .ok (plain condition s l)) ∨
    ∃ o inner after query,
      (condition.firstOccurrence? Keyword.SELECT).bind condition.openAround? = some o ∧
      condition.enclosed? o = some (inner, after) ∧ queryIn? condition = some inner ∧
      nested inner = .ok query := by
  cases hopen : (condition.firstOccurrence? Keyword.SELECT).bind condition.openAround? with
  | none =>
      left
      refine ⟨by rw [queryIn?, hopen]; rfl, fun s l => ?_⟩
      simp only [subquery, hopen]
  | some o =>
      right
      cases henc : condition.enclosed? o with
      | none => simp [subquery, hopen, henc] at h
      | some pair =>
          obtain ⟨inner, after⟩ := pair
          rw [subquery_eq hopen henc] at h
          cases hquery : nested inner with
          | error e =>
              rw [hquery] at h
              cases h
          | ok query =>
              refine ⟨o, inner, after, query, rfl, henc, ?_, hquery⟩
              rw [queryIn?, hopen, Option.bind_some, henc]
              rfl

theorem marks_spaced (t : Text) : (spaced t).marks none = t.marks none := by
  unfold spaced
  split
  · rename_i hnil
    rw [hnil]
  · rw [marks_append, allBlank_space.marks_eq, List.append_nil]

/-- The query of a condition, laid out and put on one line, is found again. -/
theorem condition_bracketed {nested : Text → Except Fault Query} {D S : Text → Bool}
    (hn : Nested nested D S) {condition inner after : Text} {o : Nat} {query : Query}
    (hc : Neat condition)
    (hopen : (condition.firstOccurrence? Keyword.SELECT).bind condition.openAround? = some o)
    (henc : condition.enclosed? o = some (inner, after)) (hquery : nested inner = .ok query)
    (suffix : Text) (level : Nat) :
    Layout.condition nested level
        (bracketed (trim (condition.take o)) [] (flat query.lines) after) suffix
      = (nested (flat query.lines)).map fun query' =>
        bracketBlock level (trim (condition.take o)) [] (query'.shift (level + 1)).lines after
          suffix := by
  obtain ⟨-, hafter⟩ := neat_enclosed hc.tidy henc
  obtain ⟨p, hfirst, hopen'⟩ := Option.bind_eq_some_iff.mp hopen
  obtain ⟨before, u, v, rfl, rfl, rfl, rfl, hu⟩ := enclosed?_split henc
  rw [List.take_left]
  have hb : Neat (trim before) := by
    have htidy : Tidy ([] ++ (before ++ '(' :: (u ++ ')' :: v))) := by simpa using hc.tidy
    exact Neat.trim htidy.part
  have hlaid := (spread_query hn (Ready.untracked u) (fun h => absurd rfl h) Track.clear_none
    hquery (Fresh.of_divider (c := '(') (by decide))).laid
  rw [← marks_flat] at hlaid
  -- the keyword leads to its parenthesis in the condition, and so it does in the layout
  obtain ⟨s, x, d, rfl, hleads⟩ := leadsTo_of_openAround? (by decide) (by decide) hu hfirst hopen'
  have hmarks : (spaced (trim before)).marks none = before.marks none := by
    rw [marks_spaced, marks_trim]
  obtain ⟨s', x', hf, hleads'⟩ := hleads.of_laid hmarks hlaid
  have hinner : Encloses (flat query.lines) := hu.of_laid hlaid
  obtain ⟨c, cs, rfl⟩ : ∃ c cs, x' = c :: cs := by
    refine List.exists_cons_of_ne_nil ?_
    rintro rfl
    exact absurd hleads'.head (by decide)
  have hfne : flat query.lines ≠ [] := by
    intro hnil
    have hc : isWordChar c = true := hleads'.head
    have hmem : c ∈ flat query.lines ++ [' ', ')'] := by simp [hf]
    rw [hnil] at hmem
    simp only [List.nil_append, List.mem_cons, List.not_mem_nil, or_false] at hmem
    rcases hmem with rfl | rfl <;> exact absurd hc (by decide)
  have hword : firstWord (c :: cs ++ afterText (trim v)) = firstWord (c :: cs) := by
    refine firstWord_append (e := edge none s') (Or.inl ?_)
    rw [← edge_append, ← hf, edge_append]
    rfl
  have htext : bracketed (trim before) [] (flat query.lines) (trim v)
      = spaced (trim before) ++ '(' :: ((' ' :: s') ++ (c :: cs ++ afterText (trim v))) := by
    have hassoc : flat query.lines ++ ' ' :: ')' :: afterText (trim v)
        = (flat query.lines ++ [' ', ')']) ++ afterText (trim v) := by simp
    simp only [bracketed, openText, spaced, innerText, hfne, if_false]
    simp [hassoc, hf]
  have hopen'' := hleads'.openAround? (by decide) (by decide) hword
  rw [← htext] at hopen''
  have henc' := enclosed?_bracketed (neat_flat query.lines) hinner hafter (trim before) []
  have hlen : (openText (trim before) []).length = (spaced (trim before)).length := by
    simp [openText, spaced]
  rw [hlen] at henc'
  have hselect : hasKeyword (bracketed (trim before) [] (flat query.lines) (trim v))
      Keyword.SELECT = true := by
    obtain ⟨p', hp, -⟩ := Option.bind_eq_some_iff.mp hopen''
    rw [hasKeyword, hp]
    rfl
  rw [Layout.condition, if_pos hselect, subquery_eq hopen'' henc', htext, List.take_left,
    trim_spaced hb]

/-! ## Conditions -/

/-- How far a query stands in can be taken back. -/
theorem shift_injective (k : Nat) {query query' : Query}
    (h : (query.shift k).lines = (query'.shift k).lines) : query = query' := by
  have hline : Function.Injective (Line.shift k) := by
    intro a b hab
    cases a
    cases b
    simpa [Line.shift] using hab
  cases query
  cases query'
  exact congrArg Query.mk (List.map_injective_iff.mpr hline h)

/-- The lines inside a parenthesis are seen in its layout. -/
theorem bracketBlock_injective {level : Nat} {before keyword after suffix : Text}
    {inner inner' : List Line} (h : bracketBlock level before keyword inner after suffix
      = bracketBlock level before keyword inner' after suffix) : inner = inner' := by
  simp only [bracketBlock, Block.mk.injEq, List.cons.injEq, true_and, and_true] at h
  exact List.append_cancel_right h

theorem queryIn?_eq_none {condition : Text}
    (h : condition.hasKeyword Keyword.SELECT = false) : queryIn? condition = none := by
  unfold hasKeyword at h
  cases hfirst : condition.firstOccurrence? Keyword.SELECT with
  | none => rw [queryIn?, hfirst]; rfl
  | some i => rw [hfirst] at h; cases h

/-- What the queries of a condition decide: whether they are laid out as before. -/
def QueriesAgain (nested : Text → Except Fault Query) (condition : Text) : Prop :=
  ∀ u query, queryIn? condition = some u → nested u = .ok query →
    nested (flat query.lines) = .ok query

/-- The lines of an item, put on one line, say what the item says, and they are laid out as before
exactly if `P`. -/
structure RelaidIf (lay : Text → Text → Layout) (item suffix : Text) (block : Block) (P : Prop) :
    Prop where
  neat : ∀ l ∈ block.lines, Neat l.text
  flat : flat block.lines = onOneLine (lay item []) ++ suffix
  again : lay (onOneLine (lay item [])) suffix = .ok block ↔ P

theorem Relaid.relaidIf {lay : Text → Text → Layout} {item suffix : Text} {block : Block}
    (h : Relaid lay item suffix block) {P : Prop} (hP : P) : RelaidIf lay item suffix block P :=
  ⟨h.neat, h.flat, iff_of_true h.again hP⟩

/-- A condition with a value list. No `SELECT` can come up when its lines are put on one line. -/
theorem relaid_condition_inList {nested : Text → Except Fault Query} {c suffix : Text}
    {level : Nat} {block : Block} (hc : Neat c) (hs : IsSuffix suffix)
    (hselect : c.hasKeyword Keyword.SELECT = false) (hin : (find? inOpening c).isSome = true)
    (h : inList c suffix level = .ok block) : Relaid (condition nested level) c suffix block := by
  obtain ⟨i, hfind⟩ := Option.isSome_iff_exists.mp hin
  obtain ⟨hr, hfound⟩ := relaid_inList hc hs hfind h
  have hlist : ∀ s, condition nested level c s = inList c s level := by
    intro s
    rw [condition, if_neg (by rw [hselect]; decide), if_pos hin]
  refine ⟨hr.neat, by rw [hlist]; exact hr.flat, ?_⟩
  rw [hlist]
  have hlay := lays_inList h (Ready.untracked c) (fun h => absurd rfl h) Fresh.none
  have hthin := (laid_of_lays hlay hr.flat).thinned_text (n := .start) rfl rfl
  have hselect' := hasKeyword_eq_of_thinned (by decide) (by decide) hthin (k := Keyword.SELECT)
  rw [hselect] at hselect'
  rw [condition, if_neg (by rw [hselect']; decide), if_pos hfound]
  exact hr.again

/-- A condition around a query is laid out as before exactly if the query is. -/
theorem relaidIf_condition_query {nested : Text → Except Fault Query} {D S : Text → Bool}
    (hn : Nested nested D S) {c inner after suffix : Text} {o level : Nat} {query : Query}
    (hlines : ∀ l ∈ query.lines, Neat l.text) (hc : Neat c) (hs : IsSuffix suffix)
    (hselect : c.hasKeyword Keyword.SELECT = true)
    (hopen : (c.firstOccurrence? Keyword.SELECT).bind c.openAround? = some o)
    (henc : c.enclosed? o = some (inner, after)) (hq : nested inner = .ok query) :
    RelaidIf (condition nested level) c suffix
      (bracketBlock level (trim (c.take o)) [] (query.shift (level + 1)).lines after suffix)
      (nested (flat query.lines) = .ok query) := by
  obtain ⟨-, hafter⟩ := neat_enclosed hc.tidy henc
  have hb : Neat (trim (c.take o)) := by
    have htidy : Tidy ([] ++ (c.take o ++ c.drop o)) := by simpa using hc.tidy
    exact Neat.trim htidy.part
  have htext : onOneLine (condition nested level c [])
      = bracketed (trim (c.take o)) [] (flat query.lines) after := by
    rw [condition, if_pos hselect, subquery_eq hopen henc, hq]
    show onOneLine (.ok (bracketBlock _ _ _ _ _ _)) = _
    rw [onOneLine_bracket hb Neat.nil hafter, flat_shift]
  refine ⟨?_, ?_, ?_⟩
  · refine neat_bracketBlock hb Neat.nil hafter hs ?_ level
    intro l hl
    obtain ⟨l', hl', rfl⟩ := List.mem_map.mp hl
    exact hlines l' hl'
  · rw [htext, flat_bracket hb Neat.nil hafter hs, flat_shift]
  · -- the text in the parenthesis is all that can make a difference
    rw [htext, condition_bracketed hn hc hopen henc hq]
    cases hquery : nested (flat query.lines) with
    | error e => exact iff_of_false (fun h => by cases h) (fun h => by cases h)
    | ok query' =>
        constructor
        · intro hagain
          have hblock := bracketBlock_injective (Except.ok.inj hagain)
          rw [shift_injective _ hblock]
        · intro hsame
          rw [Except.ok.inj hsame]
          rfl

/-- A condition is laid out as before exactly if its query is. -/
theorem condition_again {nested : Text → Except Fault Query} {D S : Text → Bool}
    (hn : Nested nested D S)
    (hlines : ∀ {t : Text} {query : Query}, nested t = .ok query → ∀ l ∈ query.lines, Neat l.text)
    {c suffix : Text} {level : Nat} {block : Block} (hc : Neat c) (hne : c ≠ [])
    (hs : IsSuffix suffix) (h : condition nested level c suffix = .ok block) :
    RelaidIf (condition nested level) c suffix block (QueriesAgain nested c) := by
  have hvoid : queryIn? c = none → QueriesAgain nested c := by
    intro hnone u query hu
    rw [hnone] at hu
    cases hu
  unfold condition at h
  split at h
  case isTrue hselect =>
    rcases subquery_cases h with ⟨hnone, hplain⟩ | ⟨o, inner, after, query, hopen, henc, hin, hq⟩
    · obtain rfl : plain c suffix level = block := by
        rw [hplain] at h
        exact Except.ok.inj h
      refine (relaid_plain hc (Or.inl hne) hs fun s => ?_).relaidIf (hvoid hnone)
      rw [condition, if_pos hselect, hplain]
    · rw [subquery_eq hopen henc, hq] at h
      obtain rfl := Except.ok.inj h
      obtain ⟨hneat, hflat, hagain⟩ :=
        relaidIf_condition_query hn (hlines hq) hc hs hselect hopen henc hq
      refine ⟨hneat, hflat, hagain.trans ⟨fun hsame u query' hu hq' => ?_, fun hall => ?_⟩⟩
      · -- the query of the condition is the one that is laid out
        obtain rfl : inner = u := Option.some.inj (hin.symm.trans hu)
        obtain rfl : query = query' := Except.ok.inj (hq.symm.trans hq')
        exact hsame
      · exact hall inner query hin hq
  case isFalse hselect =>
    have hselect' : c.hasKeyword Keyword.SELECT = false := by simpa using hselect
    have hnone := hvoid (queryIn?_eq_none hselect')
    split at h
    case isTrue hin => exact (relaid_condition_inList hc hs hselect' hin h).relaidIf hnone
    case isFalse hin =>
      obtain rfl := Except.ok.inj h
      refine (relaid_plain hc (Or.inl hne) hs fun s => ?_).relaidIf hnone
      rw [condition, if_neg hselect, if_neg hin]

end Layout

end SqlLayout
