import Mathlib.Data.List.Chain
import SqlLayout.Proofs.Outline

set_option autoImplicit false

/-! # Indent levels

The lines of a layout start at level zero and go at most one level further in from one line to
the next. How far in they can go is bounded by the opening parentheses of the statement
(`layout_levels`): columns, conditions and list items stand at level one, the parts of a `CASE`, a
window or a value list at level two, and a query inside a condition starts at level two and has
one parenthesis less.

`Stepped low high` is the invariant. It is closed under putting lines one after another and under
putting a line in front of lines that stand one level further in, and every layout is made of
these two steps.
-/

namespace SqlLayout

open Text

/-! ## Lines that go in step by step -/

/-- Lines from level `low` on, none of which stands further in than `high`, or more than one
level further in than the line before it. -/
structure Stepped (low high : Nat) (lines : List Line) : Prop where
  head : ∀ l ∈ lines.head?, l.level = low
  climb : lines.IsChain fun l l' => l'.level ≤ l.level + 1
  within : ∀ l ∈ lines, low ≤ l.level ∧ l.level ≤ high

namespace Stepped

variable {low high : Nat}

/-- Lines of one level. -/
theorem level {lines : List Line} (hle : low ≤ high) (h : ∀ l ∈ lines, l.level = low) :
    Stepped low high lines := by
  refine ⟨fun l hl => h l (List.mem_of_mem_head? hl), ?_, fun l hl => ?_⟩
  · apply List.Pairwise.isChain
    refine List.pairwise_of_forall_mem_list fun l hl l' hl' => ?_
    have h1 := h l hl
    have h2 := h l' hl'
    omega
  · have := h l hl
    omega

theorem nil : Stepped low high [] :=
  ⟨fun l hl => (by cases hl), .nil, fun l hl => (by cases hl)⟩

theorem single (hle : low ≤ high) (text : Text) : Stepped low high [⟨low, text⟩] :=
  level hle fun l hl => (by rw [List.mem_singleton.mp hl])

theorem mono {high' : Nat} {lines : List Line} (h : Stepped low high lines) (hle : high ≤ high') :
    Stepped low high' lines :=
  ⟨h.head, h.climb, fun l hl => ⟨(h.within l hl).1, (h.within l hl).2.trans hle⟩⟩

/-- A line in front of lines one level further in. -/
theorem cons {lines : List Line} (h : Stepped (low + 1) high lines) (hle : low ≤ high)
    (text : Text) : Stepped low high (⟨low, text⟩ :: lines) := by
  refine ⟨fun l hl => ?_, ?_, fun l hl => ?_⟩
  · obtain rfl : (⟨low, text⟩ : Line) = l := by simpa using hl
    rfl
  · rw [List.isChain_cons]
    exact ⟨fun l hl => (h.head l hl).le, h.climb⟩
  · rcases List.mem_cons.mp hl with rfl | hl
    · exact ⟨Nat.le_refl _, hle⟩
    · have hl' := h.within l hl
      omega

/-- Lines after other lines: the first of them is not further in than the last before it. -/
theorem append {a b : List Line} (ha : Stepped low high a) (hb : Stepped low high b) :
    Stepped low high (a ++ b) := by
  refine ⟨fun l hl => ?_, ha.climb.append hb.climb fun l hl l' hl' => ?_, fun l hl => ?_⟩
  · rw [List.head?_append] at hl
    cases ha' : a.head? with
    | none =>
        rw [ha', Option.none_or] at hl
        exact hb.head l hl
    | some x =>
        rw [ha', Option.some_or] at hl
        exact ha.head l (by rw [ha']; exact hl)
  · have hlow := (ha.within l (List.mem_of_mem_getLast? hl)).1
    have hhead := hb.head l' hl'
    omega
  · rcases List.mem_append.mp hl with hl | hl
    · exact ha.within l hl
    · exact hb.within l hl

/-- Lines inside another statement. -/
theorem shift {query : Query} (h : Stepped low high query.lines) (k : Nat) :
    Stepped (low + k) (high + k) (query.shift k).lines := by
  refine ⟨fun l hl => ?_, ?_, fun l hl => ?_⟩
  · rw [Query.shift, List.head?_map] at hl
    obtain ⟨l', hl', rfl⟩ := Option.map_eq_some_iff.mp hl
    rw [Line.shift, h.head l' hl']
  · rw [Query.shift, List.isChain_map]
    refine h.climb.imp fun l l' hstep => ?_
    simp only [Line.shift]
    omega
  · obtain ⟨l', hl', rfl⟩ := List.mem_map.mp hl
    have hwithin := h.within l' hl'
    simp only [Line.shift]
    omega

end Stepped

namespace Layout

/-! ## Constructs -/

section

variable {nested : Text → Except Fault Query} {level high : Nat}

/-- The lines of a column or a condition, if those of its query are stepped where they stand. -/
theorem ItemLines.stepped (hle : level + 1 ≤ high) {text : Text}
    (hn : ∀ u query, queryIn? text = some u → nested u = .ok query →
      Stepped (level + 1) high (query.shift (level + 1)).lines)
    {lines : List Line} (h : ItemLines nested text level lines) : Stepped level high lines := by
  have hlevel : level ≤ high := Nat.le_of_succ_le hle
  have hbracket : ∀ {inner : List Line}, Stepped (level + 1) high inner →
      ∀ before keyword after suffix : Text,
        Stepped level high (bracketBlock level before keyword inner after suffix).lines := by
    intro inner hinner before keyword after suffix
    rw [bracketBlock, ← List.cons_append]
    exact (hinner.cons hlevel _).append (.single hlevel _)
  cases h with
  | hanging head hinner => exact .cons (.level hle hinner) hlevel head
  | bracket before keyword after suffix hinner => exact hbracket (.level hle hinner) _ _ _ _
  | query before after suffix hin hq => exact hbracket (hn _ _ hin hq) _ _ _ _

theorem stepped_stack {lay : Text → Text → Layout} {items : List (Text × Text)}
    (hlay : ∀ item s block, (item, s) ∈ items → lay item s = .ok block →
      Stepped level high block.lines) {lines : List Line}
    (h : stack lay items = .ok lines) : Stepped level high lines := by
  induction items generalizing lines with
  | nil =>
      obtain rfl : [] = lines := Except.ok.inj h
      exact .nil
  | cons x xs ih =>
      obtain ⟨block, later, hblock, hlater, rfl⟩ := stack_cons_ok h
      have hfirst := hlay x.1 x.2 block List.mem_cons_self hblock
      have hrest := ih (fun item s b hmem => hlay item s b (List.mem_cons_of_mem _ hmem)) hlater
      exact hfirst.append hrest

/-! ## Clauses -/

/-- The lines of a clause further in than its head, where queries start at level two. -/
theorem InnerLines.stepped {c : Clause} (hle : 2 ≤ high)
    (hn : ∀ u ∈ clauseQueries c, ∀ query, nested u = .ok query →
      Stepped 2 high (query.shift 2).lines)
    {lines : List Line} (h : InnerLines nested c lines) : Stepped 1 high lines := by
  cases h with
  | flat hall => exact .level (by omega) hall
  | columns hstack =>
      refine stepped_stack (fun item s block _ hblock => ?_) hstack
      -- a column holds no query: any layout of queries will do
      refine (column_lines (fun _ => .ok ⟨[]⟩) hblock).stepped hle fun u query _ hq => ?_
      obtain rfl := Except.ok.inj hq
      exact .nil
  | conditions hkind hstack =>
      refine stepped_stack (fun item s block hmem hblock => ?_) hstack
      refine (condition_lines hblock).stepped hle fun u query hu hq => hn u ?_ query hq
      rw [clauseQueries, hkind]
      exact List.mem_filterMap.mpr ⟨item, mem_separated hmem, hu⟩

theorem stepped_clause {c : Clause} (hc : c.Canonical) (hle : 2 ≤ high)
    (hn : ∀ u ∈ clauseQueries c, ∀ query, nested u = .ok query →
      Stepped 2 high (query.shift 2).lines)
    {block : Block} (h : clause nested c 0 = .ok block) :
    block.lines ≠ [] ∧ Stepped 0 high block.lines := by
  obtain ⟨-, head, inner, feet, hlines, -, hinner, -⟩ := clause_lines hc h
  rw [hlines, ← List.cons_append]
  refine ⟨by simp, Stepped.append ((hinner.stepped hle hn).cons (Nat.zero_le _) head) ?_⟩
  refine .level (Nat.zero_le _) fun l hl => ?_
  obtain ⟨x, -, rfl⟩ := List.mem_map.mp hl
  rfl

/-- The lines of clauses one after another: each clause goes back to level zero. -/
theorem stepped_blocks {cs : List Clause} {blocks : List (List Line)} (hle : 2 ≤ high)
    (h : List.Forall₂ (fun c b => c.Canonical ∧ clause nested c 0 = .ok ⟨b, 0⟩) cs blocks)
    (hn : ∀ u ∈ cs.flatMap clauseQueries, ∀ query, nested u = .ok query →
      Stepped 2 high (query.shift 2).lines) :
    (cs ≠ [] → blocks.flatten ≠ []) ∧ Stepped 0 high blocks.flatten := by
  induction h with
  | nil => exact ⟨fun hne => absurd rfl hne, .nil⟩
  | cons hblock _ ih =>
      obtain ⟨hne, hfirst⟩ := stepped_clause hblock.1 hle
        (fun u hu => hn u (List.mem_append_left _ hu)) hblock.2
      obtain ⟨-, hrest⟩ := ih fun u hu => hn u (List.mem_append_right _ hu)
      rw [List.flatten_cons]
      exact ⟨fun _ => List.append_ne_nil_of_left_ne_nil hne _, hfirst.append hrest⟩

end

end Layout

/-! ## Statements -/

/-- How far in the lines of a statement can stand. -/
def deepest (t : Text) : Nat := 2 + 2 * t.normalize.withoutTerminator.count '('

/-- An inner query, two levels further in, does not stand further in than its statement. -/
theorem deepest_add_le {t u : Text} (h : u ∈ t.innerQueries) : deepest u + 2 ≤ deepest t := by
  have hlt := count_lt_statement h
  have hle := count_statement_le '(' (by decide) u
  unfold deepest
  omega

theorem stepped_layout {t : Text} {query : Query} (h : layout t = .ok query) :
    query.lines ≠ [] ∧ Stepped 0 (deepest t) query.lines := by
  -- inner queries have fewer opening parentheses
  induction hn : t.count '(' using Nat.strong_induction_on generalizing t query with
  | _ n ih =>
    have hpass := h
    rw [layout_eq, pass_eq_ok_iff] at hpass
    obtain ⟨hne, hvalid, hclauses⟩ := hpass
    have hpart := part_statement hne hvalid
    obtain ⟨blocks, hlines, hblocks⟩ := Layout.exists_blocks hpart hclauses
    have hinner : ∀ u ∈ t.innerQueries, ∀ query, layout u = .ok query →
        Stepped 2 (deepest t) (query.shift 2).lines := by
      intro u hu query hquery
      have hu' := (ih (u.count '(') (hn ▸ count_lt_of_mem_innerQueries hu) hquery rfl).2
      exact (hu'.shift 2).mono (deepest_add_le hu)
    obtain ⟨hfilled, hstepped⟩ := Layout.stepped_blocks (Nat.le_add_right 2 _) hblocks hinner
    rw [hlines]
    exact ⟨hfilled hpart.clauses_ne_nil, hstepped⟩

/-- The levels of a laid-out statement: they start at zero, rise by at most one from line to line,
and stay within two more than twice the number of opening parentheses. -/
theorem layout_levels {t : Text} {query : Query} (h : layout t = .ok query) :
    (∃ first rest, query.lines = first :: rest ∧ first.level = 0) ∧
      query.lines.IsChain (fun l l' => l'.level ≤ l.level + 1) ∧
      ∀ l ∈ query.lines, l.level ≤ 2 + 2 * t.normalize.withoutTerminator.count '(' := by
  obtain ⟨hne, hstepped⟩ := stepped_layout h
  refine ⟨?_, hstepped.climb, fun l hl => (hstepped.within l hl).2⟩
  obtain ⟨first, rest, hlines⟩ := List.exists_cons_of_ne_nil hne
  exact ⟨first, rest, hlines, hstepped.head first (by rw [hlines]; rfl)⟩

/-- A statement with a `CASE` in a query inside a condition. -/
def nestedCase : Text := "select a from t where x in (select case when b then c end from u)".toList

/-- The bound is reached. -/
theorem layout_levels_nestedCase : ∃ query, layout nestedCase = .ok query ∧
    ((∃ first rest, query.lines = first :: rest ∧ first.level = 0) ∧
      query.lines.IsChain (fun l l' => l'.level ≤ l.level + 1) ∧
      ∀ l ∈ query.lines, l.level ≤ 2 + 2 * nestedCase.normalize.withoutTerminator.count '(') ∧
    ∃ l ∈ query.lines, l.level = 2 + 2 * nestedCase.normalize.withoutTerminator.count '(' := by
  have hdeep : (layout nestedCase).toOption.any (fun query => query.lines.any fun l =>
      l.level == 2 + 2 * nestedCase.normalize.withoutTerminator.count '(') = true := by
    decide +kernel
  cases hlayout : layout nestedCase with
  | error e =>
      rw [hlayout] at hdeep
      cases hdeep
  | ok query =>
      rw [hlayout] at hdeep
      obtain ⟨l, hl, hlevel⟩ := List.any_eq_true.mp hdeep
      exact ⟨query, rfl, layout_levels hlayout, l, hl, by simpa using hlevel⟩

end SqlLayout
