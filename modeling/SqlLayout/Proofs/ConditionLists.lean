import SqlLayout.Proofs.Stacks
import SqlLayout.Proofs.Subqueries

set_option autoImplicit false

/-! # Lists of conditions

The conditions of a `WHERE` clause are cut at `AND` between spaces. The spaces of a layout can
make new ones, so a list of conditions, put on one line, may be cut in other places. Whether it
is decides, together with the queries in it, whether the clause is laid out as before
(`whereClause_again`). For one direction the lines must tell where a condition ends: at the
first line of its own level that ends with `AND` (`condition_ends`).
-/

namespace SqlLayout

open Text

/-! ## Cutting at a separator

The scan that cuts a text carries the number of characters to pass over; in terms of the first
place of the separator, cutting is a recursion on the list of pieces. -/

namespace Text

theorem splitOn_ne_nil {t sep : Text} (hsep : sep ≠ []) : splitOn t sep ≠ [] := by
  have hempty : sep.isEmpty = false := by simpa using hsep
  simp [splitOn, hempty]

/-- A text without the separator is one piece. -/
theorem splitOn_of_find?_eq_none {t sep : Text} (hsep : sep ≠ []) (h : find? sep t = none) :
    splitOn t sep = [t] := by
  have hempty : sep.isEmpty = false := by simpa using hsep
  have hcut : cutAt sep 0 t = (t, []) := by
    induction t with
    | nil => rfl
    | cons c cs ih =>
        rw [find?] at h
        by_cases hstart : startsWith (c :: cs) sep = true
        · simp [hstart] at h
        · have hrest : find? sep cs = none := by simpa [hstart] using h
          rw [cutAt, if_neg hstart, ih hrest]
  rw [splitOn, hempty, hcut]
  rfl

/-- The first piece ends at the first place of the separator; the rest is cut on its own. -/
theorem splitOn_of_find? {t sep : Text} (hsep : sep ≠ []) {i : Nat} (h : find? sep t = some i) :
    splitOn t sep = t.take i :: splitOn (t.drop (i + sep.length)) sep := by
  have hempty : sep.isEmpty = false := by simpa using hsep
  have hpos : 0 < sep.length := List.length_pos_of_ne_nil hsep
  have hcut : cutAt sep 0 t = (t.take i, (cutAt sep 0 (t.drop (i + sep.length))).1
      :: (cutAt sep 0 (t.drop (i + sep.length))).2) := by
    induction t generalizing i with
    | nil =>
        rw [find?, hempty] at h
        cases h
    | cons c cs ih =>
        rw [find?] at h
        by_cases hstart : startsWith (c :: cs) sep = true
        · obtain rfl : 0 = i := by simpa [hstart] using h
          have hdrop : (c :: cs).drop (0 + sep.length) = cs.drop (sep.length - 1) := by
            rw [show 0 + sep.length = sep.length - 1 + 1 by omega, List.drop_succ_cons]
          rw [cutAt, if_pos hstart, cutAt_skip, hdrop]
          rfl
        · rw [if_neg hstart] at h
          obtain ⟨j, hj, rfl⟩ := Option.map_eq_some_iff.mp h
          rw [cutAt, if_neg hstart, ih hj, show j + 1 + sep.length = j + sep.length + 1 by omega]
          rfl
  rw [splitOn, splitOn, hempty, hcut]
  rfl

end Text

/-- A separator between spaces cuts a neat text into neat texts that are not empty. -/
theorem Parted.neat {w sep : Text} (hsep : sep.upper = ' ' :: (w ++ [' '])) {q : Track}
    {ps : List Text} {t : Text} (h : Parted (fun s => s.upper = sep.upper) q ps t) (ht : Neat t)
    (hne : t ≠ []) : ∀ p ∈ ps, Neat p ∧ p ≠ [] := by
  induction h with
  | last _ =>
      intro p hp
      rw [List.mem_singleton.mp hp]
      exact ⟨ht, hne⟩
  | @cons q p s t ps _ hs _ _ ih =>
      obtain ⟨hfirst, hrest, hrestNe⟩ := ht.around_separator (hs.trans hsep)
      intro x hx
      rcases List.mem_cons.mp hx with rfl | hx
      · exact hfirst
      · exact ih hrest hrestNe x hx

namespace Layout

/-- The conditions of a `WHERE` clause. -/
def conditionsOf (body : Text) : List Text := (body.splitOn andSeparator).map Text.trim

/-- The conditions of a neat body are neat and not empty. -/
theorem mem_splitOn_and {body : Text} (hb : Neat body) (hne : body ≠ []) :
    ∀ c ∈ body.splitOn andSeparator, Neat c ∧ c ≠ [] := by
  have hparted := parted_splitOn (show andSeparator ∈ flatSeparators by decide)
    (Ready.untracked body) (fun h => absurd rfl h)
  exact hparted.neat (w := Keyword.AND) rfl hb hne

/-- There is nothing to trim. -/
theorem conditionsOf_eq {body : Text} (hb : Neat body) (hne : body ≠ []) :
    conditionsOf body = body.splitOn andSeparator := by
  rw [conditionsOf]
  exact (List.map_congr_left fun c hc => (mem_splitOn_and hb hne c hc).1.trim_eq).trans
    (List.map_id _)

theorem mem_conditionsOf {body : Text} (hb : Neat body) (hne : body ≠ []) :
    ∀ c ∈ conditionsOf body, Neat c ∧ c ≠ [] := by
  rw [conditionsOf_eq hb hne]
  exact mem_splitOn_and hb hne

/-- Conditions on one line. -/
theorem listText_eq_join {ps : List Text} (h : ∀ p ∈ ps, p ≠ []) :
    listText (' ' :: Keyword.AND) ps = join andSeparator ps := by
  induction ps with
  | nil => rfl
  | cons p ps ih =>
      cases ps with
      | nil => rfl
      | cons q qs =>
          have hrest := ih (fun x hx => h x (List.mem_cons_of_mem _ hx))
          have hne : join andSeparator (q :: qs) ≠ [] := fun hnil =>
            absurd ((join_eq_nil (fun x hx => h x (List.mem_cons_of_mem _ hx))).mp hnil) (by simp)
          rw [listText, hrest, join, headed, if_neg (by simpa using hne)]
          simp [andSeparator, Keyword.AND]

/-! ## Where a condition ends

Two lists of conditions may have the same lines. To see that they are then the same list, the
lines of the first condition are recognized among all lines. If it is followed by another one,
they go up to the first line of their level that ends with a `D` (`EndsCondition`): its last line
ends with `AND`, and before that one only a line that ends with `(` stands at this level. -/

/-- A line that ends a condition and is followed by another one. -/
def EndsCondition (level : Nat) (l : Line) : Prop :=
  l.level = level ∧ l.text.getLast? = some 'D'

/-- The lines of a condition: only the last one can end it. -/
def ConditionLines (level : Nat) (text suffix : Text) (lines : List Line) : Prop :=
  ∃ init l, lines = init ++ [l] ∧ (text ≠ [] → l.text ≠ []) ∧
    (∀ x ∈ init, ¬EndsCondition level x) ∧ (suffix = ' ' :: Keyword.AND → EndsCondition level l)

/-- A condition on one line. -/
theorem conditionLines_plain (text suffix : Text) (level : Nat) :
    ConditionLines level text suffix (plain text suffix level).lines := by
  refine ⟨[], ⟨level, text ++ suffix⟩, rfl, fun hne => ?_, fun x hx => (by cases hx), ?_⟩
  · exact List.append_ne_nil_of_left_ne_nil hne suffix
  · rintro rfl
    exact ⟨rfl, by simp [Keyword.AND]⟩

/-- A condition with parentheses: the line that opens them ends with `(`, and those inside stand
further in. -/
theorem conditionLines_bracket {level : Nat} {inner : List Line}
    (hinner : ∀ l ∈ inner, level < l.level) (text before keyword after suffix : Text) :
    ConditionLines level text suffix
      (bracketBlock level before keyword inner after suffix).lines := by
  refine ⟨⟨level, openLine before keyword⟩ :: inner, ⟨level, closeLine after suffix⟩, rfl,
    fun _ => ?_, ?_, ?_⟩
  · simp [closeLine_eq]
  · rintro x hx ⟨hlevel, hlast⟩
    rcases List.mem_cons.mp hx with rfl | hx
    · rw [openLine_eq, List.getLast?_concat] at hlast
      exact absurd hlast (by decide)
    · have hlt := hinner x hx
      omega
  · rintro rfl
    refine ⟨rfl, ?_⟩
    rw [closeLine_eq, ← List.cons_append, List.getLast?_append]
    rfl

/-- The items of a list stand at one level. -/
theorem level_listLines {level : Nat} {list : Text} :
    ∀ l ∈ listLines level list, l.level = level := by
  intro l hl
  unfold listLines at hl
  split at hl
  · cases hl
  · obtain ⟨x, -, rfl⟩ := List.mem_map.mp hl
    rfl

/-- Whatever a condition is, the only line at its level that ends with `AND` is its last, and that
only if `AND` was put behind it. -/
theorem condition_ends {nested : Text → Except Fault Query} {c suffix : Text} {level : Nat}
    {block : Block} (hc : Neat c) (h : condition nested level c suffix = .ok block) :
    block.level = level ∧ ConditionLines level c suffix block.lines := by
  unfold condition at h
  split at h
  · rcases subquery_cases h with ⟨-, hplain⟩ | ⟨o, inner, after, query, hopen, henc, -, hq⟩
    · rw [hplain] at h
      obtain rfl := Except.ok.inj h
      exact ⟨rfl, conditionLines_plain c suffix level⟩
    · rw [subquery_eq hopen henc, hq] at h
      obtain rfl := Except.ok.inj h
      refine ⟨rfl, conditionLines_bracket (fun l hl => ?_) _ _ _ _ _⟩
      obtain ⟨l', -, rfl⟩ := List.mem_map.mp hl
      simp only [Line.shift]
      omega
  · split at h
    · rename_i hin
      obtain ⟨i, hfind⟩ := Option.isSome_iff_exists.mp hin
      obtain ⟨a, k, r, list, after, -, -, -, -, -, -, rfl⟩ := inList_split hc hfind h
      refine ⟨rfl, conditionLines_bracket (fun l hl => ?_) _ _ _ _ _⟩
      have hlevel := level_listLines l hl
      omega
    · obtain rfl := Except.ok.inj h
      exact ⟨rfl, conditionLines_plain c suffix level⟩

/-- The lines of a condition that is followed by another one end where those of any other
condition end. -/
theorem ConditionLines.eq_of_append {level : Nat} {a a' b b' : List Line}
    {text text' suffix : Text} (ha : ConditionLines level text (' ' :: Keyword.AND) a)
    (ha' : ConditionLines level text' suffix a')
    (hsuffix : suffix = ' ' :: Keyword.AND ∨ b' = []) (h : a ++ b = a' ++ b') : a = a' := by
  obtain ⟨init, l, rfl, -, hinit, hend⟩ := ha
  obtain ⟨init', l', rfl, -, hinit', hend'⟩ := ha'
  have hl := hend rfl
  rw [List.append_assoc, List.append_assoc, List.append_eq_append_iff] at h
  rcases h with ⟨m, rfl, h⟩ | ⟨m, rfl, h⟩
  · cases m with
    | nil =>
        obtain ⟨rfl, -⟩ := List.cons.inj h
        rw [List.append_nil]
    | cons x xs =>
        obtain ⟨rfl, -⟩ := List.cons.inj h
        exact absurd hl (hinit' l (by simp))
  · cases m with
    | nil =>
        obtain ⟨rfl, -⟩ := List.cons.inj h
        rw [List.append_nil]
    | cons x xs =>
        obtain ⟨rfl, hb⟩ := List.cons.inj h
        rcases hsuffix with rfl | rfl
        · exact absurd (hend' rfl) (hinit l' (by simp))
        · simp at hb

/-- Each item but the last has the separator behind it. -/
theorem separated_cons (sep x : Text) (xs : List Text) :
    ∃ s, separated sep (x :: xs) = (x, s) :: separated sep xs ∧ (xs ≠ [] → s = sep) := by
  cases xs with
  | nil => exact ⟨[], rfl, fun h => absurd rfl h⟩
  | cons y ys => exact ⟨sep, rfl, fun _ => rfl⟩

/-- The last line of conditions is not empty. -/
theorem exists_last_line {nested : Text → Except Fault Query} {level : Nat} {c : Text}
    {cs : List Text} (hitems : ∀ x ∈ c :: cs, Neat x ∧ x ≠ []) {lines : List Line}
    (h : stack (condition nested level) (separated (' ' :: Keyword.AND) (c :: cs)) = .ok lines) :
    ∃ init l, lines = init ++ [l] ∧ l.text ≠ [] := by
  induction cs generalizing c lines with
  | nil =>
      obtain ⟨block, later, hlay, hlater, rfl⟩ := stack_cons_ok h
      obtain rfl : [] = later := Except.ok.inj hlater
      obtain ⟨hc, hne⟩ := hitems c List.mem_cons_self
      obtain ⟨init, l, hsplit, hl, -⟩ := (condition_ends hc hlay).2
      exact ⟨init, l, by rw [hsplit, List.append_nil], hl hne⟩
  | cons x xs ih =>
      obtain ⟨block, later, -, hlater, rfl⟩ := stack_cons_ok h
      obtain ⟨init, l, rfl, hl⟩ := ih (fun y hy => hitems y (List.mem_cons_of_mem _ hy)) hlater
      exact ⟨block.lines ++ init, l, by rw [List.append_assoc], hl⟩

/-- Conditions are cut off one by one. -/
theorem conditionsOf_of_find? {t : Text} (ht : Neat t) (hne : t ≠ []) {i : Nat}
    (h : find? andSeparator t = some i) :
    conditionsOf t = t.take i :: conditionsOf (t.drop (i + andSeparator.length)) := by
  have hsplit := splitOn_of_find? (by decide) h
  have hneat : Neat (t.take i) := (mem_splitOn_and ht hne (t.take i) (by rw [hsplit]; simp)).1
  rw [conditionsOf, hsplit, List.map_cons, hneat.trim_eq]
  rfl

theorem conditionsOf_ne_nil (t : Text) : conditionsOf t ≠ [] := by
  simp [conditionsOf, splitOn_ne_nil (show andSeparator ≠ [] by decide)]

/-- A `WHERE` clause with a body is laid out as the list of its conditions. -/
theorem whereClause_eq {nested : Text → Except Fault Query} {body : Text} (hne : body ≠ [])
    (level : Nat) :
    whereClause nested body level
      = (stack (condition nested (level + 1)) (separated (' ' :: Keyword.AND)
          (conditionsOf body))).map
        fun lines => ⟨⟨level, Keyword.WHERE⟩ :: lines, level⟩ := by
  rw [whereClause, if_neg (by simpa using hne), conditionsOf]
  dsimp only
  split <;> rename_i hstack <;> rw [hstack] <;> rfl

/-- The lines of a `WHERE` clause: its keyword, and those of its conditions. -/
theorem whereClause_ok {nested : Text → Except Fault Query} {body : Text} {level : Nat}
    {block : Block} (h : whereClause nested body level = .ok block) :
    (body = [] ∧ block = ⟨[⟨level, Keyword.WHERE⟩], level⟩) ∨
      (body ≠ [] ∧ ∃ lines, stack (condition nested (level + 1)) (separated (' ' :: Keyword.AND)
        (conditionsOf body)) = .ok lines ∧ block = ⟨⟨level, Keyword.WHERE⟩ :: lines, level⟩) := by
  by_cases hne : body = []
  · subst hne
    exact Or.inl ⟨rfl, (Except.ok.inj h).symm⟩
  · rw [whereClause_eq hne] at h
    cases hstack : stack (condition nested (level + 1)) (separated (' ' :: Keyword.AND)
        (conditionsOf body)) with
    | error f =>
        rw [hstack] at h
        cases h
    | ok lines =>
        rw [hstack] at h
        exact Or.inr ⟨hne, lines, rfl, (Except.ok.inj h).symm⟩

/-! ## Conditions that are found again -/

section

variable {nested : Text → Except Fault Query} {D S : Text → Bool} (hn : Nested nested D S)
  (hlines : ∀ {t : Text} {query : Query}, nested t = .ok query → ∀ l ∈ query.lines, Neat l.text)

include hn hlines

/-- A laid-out condition has the marks of the condition. -/
theorem laid_condition {c suffix : Text} {level : Nat} {block : Block} (hc : Neat c) (hne : c ≠ [])
    (hs : IsSuffix suffix) (h : condition nested level c suffix = .ok block) :
    Laid (c.glyphs none none) ((lineOf (condition nested level) c).marks none) := by
  have hlays := lays_condition hn h (Ready.untracked c) (fun hne => absurd rfl hne) Fresh.none
  exact laid_of_lays hlays (condition_again hn hlines hc hne hs h).flat

/-- No beginning of a laid-out condition is laid out as the whole of it. -/
theorem lineOf_ne_of_shorter {c p suffix : Text} {level : Nat} {block : Block} (hp : Neat p)
    (hne : p ≠ []) (hs : IsSuffix suffix) (h : condition nested level p suffix = .ok block)
    {r : Text} (hc : lineOf (condition nested level) c = p ++ r) (hr : r.marks none ≠ []) :
    lineOf (condition nested level) p ≠ lineOf (condition nested level) c := by
  intro heq
  have hle := (laid_condition hn hlines hp hne hs h).length_le
  have hmarks : ∀ e, r.marks e ≠ [] := by
    intro e hnil
    refine hr ?_
    cases r with
    | nil => rfl
    | cons x xs =>
        rw [marks] at hnil ⊢
        split at hnil
        · rename_i hx
          rwa [if_pos hx]
        · cases hnil
  have hpos := List.length_pos_of_ne_nil (hmarks (edge none p))
  have hlen : (p.glyphs none none).length = (p.marks none).length := by
    rw [← toMark_glyphs none none p, List.length_map]
  rw [heq, hc, marks_append, List.length_append, hlen] at hle
  omega

/-- A laid-out condition with the lines of its own layout has its queries laid out as before. -/
theorem queriesAgain_of_lines {c suffix : Text} {level : Nat} {block block' : Block} (hc : Neat c)
    (hne : c ≠ []) (hs : IsSuffix suffix) (h : condition nested level c suffix = .ok block)
    (h' : condition nested level (lineOf (condition nested level) c) suffix = .ok block')
    (hb : block.lines = block'.lines) : QueriesAgain nested c := by
  obtain ⟨-, -, hiff⟩ := condition_again hn hlines hc hne hs h
  have hblock : block' = block := by
    have hlevel := (condition_ends hc h).1
    have hlevel' := (condition_ends (neat_onOneLine _) h').1
    cases block
    cases block'
    simp_all
  rw [hblock] at h'
  exact hiff.mp h'

theorem lineOf_condition_ne_nil {c suffix : Text} {level : Nat} {block : Block} (hc : Neat c)
    (hne : c ≠ []) (hs : IsSuffix suffix) (h : condition nested level c suffix = .ok block) :
    lineOf (condition nested level) c ≠ [] :=
  (laid_condition hn hlines hc hne hs h).ne_nil (marks_ne_nil hne hc.last)

/-- The lines of conditions on one line. -/
theorem flat_conditions {items : List Text} (hitems : ∀ c ∈ items, Neat c ∧ c ≠ []) {level : Nat}
    {lines : List Line}
    (h : stack (condition nested level) (separated (' ' :: Keyword.AND) items) = .ok lines) :
    (∀ l ∈ lines, Neat l.text) ∧
      flat lines = join andSeparator (items.map (lineOf (condition nested level))) ∧
      ∀ f ∈ items.map (lineOf (condition nested level)), f ≠ [] := by
  have hsuffix : ∀ s, s = [] ∨ s = ' ' :: Keyword.AND → IsSuffix s := fun s hs =>
    hs.imp id Or.inr
  have hne : ∀ f ∈ items.map (lineOf (condition nested level)), f ≠ [] := by
    intro f hf
    obtain ⟨c, hc, rfl⟩ := List.mem_map.mp hf
    obtain ⟨s, block, hs, hlay⟩ := exists_block_of_stack h c hc
    exact lineOf_condition_ne_nil hn hlines (hitems c hc).1 (hitems c hc).2 (hsuffix s hs) hlay
  obtain ⟨hneat, hflat⟩ := flat_stack (by decide) h (fun c hc s block hs hlay => by
    obtain ⟨hneat, hflat, -⟩ :=
      condition_again hn hlines (hitems c hc).1 (hitems c hc).2 (hsuffix s hs) hlay
    exact ⟨hneat, hflat⟩)
  exact ⟨hneat, hflat.trans (listText_eq_join hne), hne⟩

/-- A condition alone that is laid out as before is one condition again. -/
theorem conditionsOf_last {c : Text} {level : Nat} {block : Block} (hc : Neat c) (hne : c ≠ [])
    (h : condition nested level c [] = .ok block)
    (hagain : stack (condition nested level) (separated (' ' :: Keyword.AND)
      (conditionsOf (lineOf (condition nested level) c))) = .ok block.lines) :
    conditionsOf (lineOf (condition nested level) c) = [lineOf (condition nested level) c] ∧
      QueriesAgain nested c := by
  have hneat : Neat (lineOf (condition nested level) c) := neat_onOneLine _
  have hcne := lineOf_condition_ne_nil hn hlines hc hne (Or.inl rfl) h
  have hmem := mem_conditionsOf hneat hcne
  cases hfind : find? andSeparator (lineOf (condition nested level) c) with
  | none =>
      have hcut : conditionsOf (lineOf (condition nested level) c)
          = [lineOf (condition nested level) c] := by
        rw [conditionsOf, splitOn_of_find?_eq_none (by decide) hfind, List.map_singleton,
          hneat.trim_eq]
      rw [hcut] at hagain
      obtain ⟨block', later, hlay', hlater, hsame⟩ := stack_cons_ok hagain
      obtain rfl : [] = later := Except.ok.inj hlater
      rw [List.append_nil] at hsame
      exact ⟨hcut, queriesAgain_of_lines hn hlines hc hne (Or.inl rfl) h hlay' hsame⟩
  | some i =>
      -- a second condition would have lines of its own
      exfalso
      rw [conditionsOf_of_find? hneat hcne hfind] at hagain hmem
      obtain ⟨q, qs, hqs⟩ := List.exists_cons_of_ne_nil (conditionsOf_ne_nil
        ((lineOf (condition nested level) c).drop (i + andSeparator.length)))
      rw [hqs] at hagain hmem
      obtain ⟨block', later, hlay', hlater, hsame⟩ := stack_cons_ok hagain
      have hends' := (condition_ends (hmem _ List.mem_cons_self).1 hlay').2
      have heq : block'.lines = block.lines :=
        hends'.eq_of_append (b := later) (condition_ends hc h).2 (Or.inr rfl) (by simp [hsame])
      obtain ⟨init, l, rfl, -⟩ :=
        exists_last_line (fun x hx => hmem x (List.mem_cons_of_mem _ hx)) hlater
      rw [heq] at hsame
      simp at hsame

/-- The first of several conditions that are laid out as before is cut off as before. -/
theorem conditionsOf_cons {c : Text} {level : Nat} {block : Block} (hc : Neat c) (hne : c ≠ [])
    (h : condition nested level c (' ' :: Keyword.AND) = .ok block) {rest : Text}
    (hrest : Neat rest) (hrestNe : rest ≠ []) {later : List Line}
    (hagain : stack (condition nested level) (separated (' ' :: Keyword.AND)
      (conditionsOf (lineOf (condition nested level) c ++ (andSeparator ++ rest))))
        = .ok (block.lines ++ later)) :
    conditionsOf (lineOf (condition nested level) c ++ (andSeparator ++ rest))
        = lineOf (condition nested level) c :: conditionsOf rest ∧
      stack (condition nested level) (separated (' ' :: Keyword.AND) (conditionsOf rest))
        = .ok later ∧ QueriesAgain nested c := by
  have hand : IsSuffix (' ' :: Keyword.AND) := Or.inr (Or.inr rfl)
  have hneat : Neat (lineOf (condition nested level) c) := neat_onOneLine _
  have hcne := lineOf_condition_ne_nil hn hlines hc hne hand h
  have htext : Neat (lineOf (condition nested level) c ++ (andSeparator ++ rest)) := by
    have hspace := (hneat.space (Neat.of_unblank (show Keyword.AND.all _ = true by decide)) hcne
      (by decide)).space hrest (by simp) hrestNe
    simpa [andSeparator, Keyword.AND] using hspace
  have htextNe : lineOf (condition nested level) c ++ (andSeparator ++ rest) ≠ [] := by simp [hcne]
  have hmem := mem_conditionsOf htext htextNe
  -- the first cut is not behind the condition
  obtain ⟨i, hfind, hi⟩ :=
    exists_find?_append (show andSeparator ≠ [] by decide) (lineOf (condition nested level) c) rest
  rw [conditionsOf_of_find? htext htextNe hfind, List.take_append_of_le_length hi] at hagain hmem ⊢
  obtain ⟨s, hs, hsep⟩ := separated_cons (' ' :: Keyword.AND)
    ((lineOf (condition nested level) c).take i)
    (conditionsOf
      ((lineOf (condition nested level) c ++ (andSeparator ++ rest)).drop
        (i + andSeparator.length)))
  obtain rfl := hsep (conditionsOf_ne_nil _)
  rw [hs] at hagain
  obtain ⟨block', later', hlay', hlater', hsame⟩ := stack_cons_ok hagain
  obtain ⟨hp, hpne⟩ := hmem _ List.mem_cons_self
  have heq : block.lines = block'.lines :=
    (condition_ends hc h).2.eq_of_append (condition_ends hp hlay').2 (Or.inl rfl) hsame
  -- nor before its end: it would be laid out with fewer marks
  obtain rfl : i = (lineOf (condition nested level) c).length := by
    by_contra hlt
    have hline := (condition_again hn hlines hc hne hand h).flat
    have hline' := (condition_again hn hlines hp hpne hand hlay').flat
    rw [heq, hline'] at hline
    refine lineOf_ne_of_shorter hn hlines hp hpne hand hlay'
      (List.take_append_drop i (lineOf (condition nested level) c)).symm ?_
      (List.append_cancel_right hline)
    refine marks_ne_nil (fun hnil => ?_) (fun d hd => hneat.last d ?_)
    · rw [List.drop_eq_nil_iff] at hnil
      omega
    · rw [List.getLast?_drop] at hd
      split at hd
      · cases hd
      · exact hd
  rw [List.take_length] at hlay' ⊢
  have hdrop : (lineOf (condition nested level) c ++ (andSeparator ++ rest)).drop
      ((lineOf (condition nested level) c).length + andSeparator.length) = rest := by
    rw [← List.append_assoc]
    exact List.drop_left' (by simp)
  rw [hdrop] at hlater' ⊢
  rw [heq, List.append_cancel_left_eq] at hsame
  refine ⟨rfl, by rw [hsame]; exact hlater', ?_⟩
  exact queriesAgain_of_lines hn hlines hc hne hand h hlay' heq

/-- Conditions that are laid out as before have been cut as before. -/
theorem conditionsOf_join {items : List Text} (hitems : ∀ c ∈ items, Neat c ∧ c ≠ [])
    (hne : items ≠ []) {level : Nat} {lines : List Line}
    (h : stack (condition nested level) (separated (' ' :: Keyword.AND) items) = .ok lines)
    (hagain : stack (condition nested level)
      (separated (' ' :: Keyword.AND)
        (conditionsOf (join andSeparator (items.map (lineOf (condition nested level)))))) =
      .ok lines) :
    conditionsOf (join andSeparator (items.map (lineOf (condition nested level))))
        = items.map (lineOf (condition nested level)) ∧
      ∀ c ∈ items, QueriesAgain nested c := by
  induction items generalizing lines with
  | nil => exact absurd rfl hne
  | cons x xs ih =>
      obtain ⟨hx, hxne⟩ := hitems x List.mem_cons_self
      cases xs with
      | nil =>
          obtain ⟨block, later, hlay, hlater, rfl⟩ := stack_cons_ok h
          obtain rfl : [] = later := Except.ok.inj hlater
          rw [List.append_nil] at hagain
          obtain ⟨hcut, hqueries⟩ := conditionsOf_last hn hlines hx hxne hlay hagain
          refine ⟨hcut, fun c hc => ?_⟩
          rw [List.mem_singleton.mp hc]
          exact hqueries
      -- the first line is cut off as before, and what is left is shorter
      | cons y ys =>
          obtain ⟨block, later, hlay, hlater, rfl⟩ := stack_cons_ok h
          have hys : ∀ c ∈ y :: ys, Neat c ∧ c ≠ [] :=
            fun c hc => hitems c (List.mem_cons_of_mem _ hc)
          have htext : join andSeparator ((x :: y :: ys).map (lineOf (condition nested level)))
              = lineOf (condition nested level) x ++ (andSeparator ++
                join andSeparator ((y :: ys).map (lineOf (condition nested level)))) := by
            simp [join]
          obtain ⟨-, hflat, hnonempty⟩ := flat_conditions hn hlines hys hlater
          have hrest :
              Neat (join andSeparator ((y :: ys).map (lineOf (condition nested level)))) := by
            rw [← hflat]
            exact neat_flat later
          rw [htext] at hagain ⊢
          obtain ⟨hcut, hlater', hqueries⟩ := conditionsOf_cons hn hlines hx hxne hlay hrest
            (fun hnil => absurd ((join_eq_nil hnonempty).mp hnil) (by simp)) hagain
          obtain ⟨hcuts, hall⟩ := ih hys (by simp) hlater hlater'
          refine ⟨by rw [hcut, hcuts]; rfl, fun c hc => ?_⟩
          rcases List.mem_cons.mp hc with rfl | hc
          · exact hqueries
          · exact hall c hc

/-! ## `WHERE` -/

/-- The lines of a `WHERE` clause, read again: they are those of the clause exactly if it is cut
and its queries are laid out as before. -/
theorem whereClause_again {body : Text} (hb : Neat body) {level : Nat} {block : Block}
    (h : whereClause nested body level = .ok block) :
    ∃ body', Neat body' ∧ flat block.lines = headed Keyword.WHERE body' ∧
      (∀ l ∈ block.lines, Neat l.text) ∧
      (whereClause nested body' level = .ok block ↔
        conditionsOf (join andSeparator
            ((conditionsOf body).map (lineOf (condition nested (level + 1)))))
          = (conditionsOf body).map (lineOf (condition nested (level + 1))) ∧
        ∀ c ∈ conditionsOf body, QueriesAgain nested c) := by
  have hwhere : Neat Keyword.WHERE := Neat.of_unblank (by decide)
  rcases whereClause_ok h with ⟨rfl, rfl⟩ | ⟨hne, lines, hstack, rfl⟩
  · -- no condition, and the keyword alone
    refine ⟨[], Neat.nil, ?_, ?_, iff_of_true rfl ⟨rfl, ?_⟩⟩
    · rw [flat_singleton, hwhere.normalize_eq]
      rfl
    · intro l hl
      rw [List.mem_singleton.mp hl]
      exact hwhere
    · intro c hc u query hu
      obtain rfl : c = [] := List.mem_singleton.mp hc
      cases hu
  · have hitems := mem_conditionsOf hb hne
    obtain ⟨hneat, hflat, hnonempty⟩ := flat_conditions hn hlines hitems hstack
    have hfne : flat lines ≠ [] := by
      rw [hflat]
      exact fun hnil => absurd (List.map_eq_nil_iff.mp ((join_eq_nil hnonempty).mp hnil))
        (conditionsOf_ne_nil body)
    -- read again, the clause is its keyword and its conditions, cut again
    have hagain : whereClause nested (flat lines) level
          = .ok ⟨⟨level, Keyword.WHERE⟩ :: lines, level⟩ ↔
        stack (condition nested (level + 1))
          (separated (' ' :: Keyword.AND) (conditionsOf (flat lines))) = .ok lines := by
      rw [whereClause_eq hfne]
      cases stack (condition nested (level + 1)) (separated (' ' :: Keyword.AND)
        (conditionsOf (flat lines))) <;> simp [Except.map]
    refine ⟨flat lines, neat_flat lines, ?_, ?_, ?_⟩
    · exact flat_cons_of_ne hwhere (by simp [Keyword.WHERE]) lines
    · intro l hl
      rcases List.mem_cons.mp hl with rfl | hl
      · exact hwhere
      · exact hneat l hl
    · rw [hagain, hflat]
      constructor
      · exact conditionsOf_join hn hlines hitems (conditionsOf_ne_nil body) hstack
      · rintro ⟨hcut, hqueries⟩
        rw [hcut]
        refine stack_again hstack (fun c hc s block hs hlay => ?_)
        have hsuffix : IsSuffix s := hs.imp id Or.inr
        exact (condition_again hn hlines (hitems c hc).1 (hitems c hc).2 hsuffix hlay).again.mpr
          (hqueries c hc)

end

end Layout

end SqlLayout
