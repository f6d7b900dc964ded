import SqlLayout.Proofs.Brackets
import SqlLayout.Proofs.Normal

set_option autoImplicit false

/-! # Lists and conditions

The items of a list are laid out one after another, each with the separator behind it on its
last line. `spread_stack` is about all of them: if every item respaces its text, so does the
list. The layouts of conditions are shown to do so here.
-/

namespace SqlLayout

/-! ## What is read at a fresh edge -/

theorem Fresh.of_eq_or_none {e e' : Option Char} (he : Fresh e) (h : e' = e ∨ e' = .none) :
    Fresh e' := by
  rcases h with rfl | rfl
  · exact he
  · exact Fresh.none

/-- A text that starts at a fresh edge still does so when it is trimmed. -/
theorem Fresh.glyphs_trim {e : Option Char} (he : Fresh e) {q : Track} (hq : q.Clear) (t : Text) :
    ∃ e', Fresh e' ∧ t.glyphs e q = t.trim.glyphs e' q := by
  obtain ⟨e', he', hg⟩ := Text.glyphs_trim hq e t
  exact ⟨e', he.of_eq_or_none he', hg⟩

namespace Layout

open Text

/-! ## Lines moved in -/

/-- Moving lines in does not change their marks. -/
theorem lineMarks_shift (k : Nat) (lines : List Line) :
    lineMarks (lines.map (Line.shift k)) = lineMarks lines := by
  simp [lineMarks, List.flatMap_map, Line.shift]

/-! ## One item after another

The items are the pieces of a text between separators (`Parted`), trimmed. Every piece is read
where the scan stands after those before it, and starts at a fresh edge, for a separator leaves
one behind it (`Divides.fresh`); so the statement about one item can be used for each of them,
and the induction follows the pieces. -/

/-- A list is laid out if its first item and the items behind it are. -/
theorem stack_cons_ok {lay : Text → Text → Layout} {item s : Text} {rest : List (Text × Text)}
    {lines : List Line} (h : stack lay ((item, s) :: rest) = .ok lines) :
    ∃ block later, lay item s = .ok block ∧ stack lay rest = .ok later ∧
      lines = block.lines ++ later := by
  rw [stack] at h
  cases hlay : lay item s with
  | error f =>
      rw [hlay] at h
      cases h
  | ok block =>
      rw [hlay] at h
      cases hrest : stack lay rest with
      | error f =>
          rw [hrest] at h
          cases h
      | ok later =>
          rw [hrest] at h
          exact ⟨block, later, rfl, rfl, (Except.ok.inj h).symm⟩

/-- The text `s` between two items may be laid out as `suffix`. -/
structure Divides (suffix s : Text) : Prop where
  unquoted : Unquoted s
  fresh : ∀ e, Fresh (edge e s)
  spread : ∀ {q : Track}, q.Clear → ∀ e e', Spread True (s.glyphs e q) (suffix.marks e')

/-- Items whose layouts respace them, one after another. -/
theorem spread_stack {lay : Text → Text → Layout} {D S : Text → Bool} {suffix : Text}
    {sep : Text → Prop} (hsep : ∀ s, sep s → Divides suffix s)
    (hlay : ∀ {p suf : Text} {block : Block} {q : Track} {e : Option Char},
      lay p suf = .ok block → Ready q p → q.Followed (S p) → Fresh e →
        Lays (D p = true) (p.glyphs e q) suf block.lines)
    {q : Track} {ps : List Text} {t : Text} (h : Parted sep q ps t)
    (hS : q.Followed ((ps.map trim).all S)) {e : Option Char} (he : Fresh e) {lines : List Line}
    (hs : stack lay (separated suffix (ps.map trim)) = .ok lines) :
    Spread ((ps.map trim).all D = true) (t.glyphs e q) (lineMarks lines) := by
  induction h generalizing e lines with
  | last hp =>
      rename_i q p
      obtain ⟨block, later, hb, hnil, rfl⟩ := stack_cons_ok hs
      obtain rfl : [] = later := Except.ok.inj hnil
      have hSp : q.Followed (S p.trim) := fun hne => by simpa using hS hne
      obtain ⟨e', he', hg⟩ := he.glyphs_trim hp.clear p
      obtain ⟨v', e'', hm, hspread⟩ := hlay hb hp.trim hSp he'
      rw [List.append_nil, hm, hg]
      simpa [marks] using hspread
  | cons hp hsp hclear hrest ih =>
      rename_i q p s t ps
      -- a separator is followed by a piece
      obtain ⟨p', ps', rfl⟩ : ∃ p' ps', ps = p' :: ps' := by
        cases hrest with
        | last _ => exact ⟨_, _, rfl⟩
        | cons _ _ _ _ => exact ⟨_, _, rfl⟩
      have hdivides := hsep s hsp
      obtain ⟨block, rest, hb, hr, rfl⟩ := stack_cons_ok hs
      have hall : q.Followed (S p.trim && ((p' :: ps').map trim).all S) := hS
      obtain ⟨hSp, hSps⟩ := hall.and
      obtain ⟨e', he', hg⟩ := he.glyphs_trim hp.clear p
      obtain ⟨v', e'', hm, hspread⟩ := hlay hb hp.trim hSp he'
      have hsuffix := hdivides.spread hclear (edge e p) e''
      have hlater := ih ((hSps.scan p).scan s) (hdivides.fresh (edge e p)) hr
      rw [lineMarks_append, hm, glyphs_append, glyphs_append, hg, List.append_assoc]
      refine (hspread.append (hsuffix.true_append hlater)).congr ?_
      simp

/-! ## Items on a line each -/

/-- A comma may be laid out as the comma behind an item. -/
theorem divides_comma {s : Text} (h : s = [',']) : Divides [','] s := by
  subst h
  refine ⟨by decide, fun e => Fresh.of_divider (by decide), ?_⟩
  intro q hq e e'
  exact Spread.divider hq e e' (by decide) (Or.inr rfl)

/-- A comma has no other spelling. -/
theorem eq_of_upper_eq_comma {s : Text} (h : s.upper = upper [',']) : s = [','] := by
  obtain ⟨c, rfl⟩ : ∃ c, s = [c] := List.length_eq_one_iff.mp (length_eq_of_upper_eq h)
  have hc : c.toUpper = ',' := by simpa [upper] using h
  rw [(toUpper_eq_iff_of_not_word (by decide) c).mp hc]

/-- Items on a line each are always laid out. -/
theorem stack_plain (level : Nat) (items : List (Text × Text)) :
    stack (fun t s => .ok (plain t s level)) items
      = .ok (items.map fun (item, s) => ⟨level, item ++ s⟩) := by
  induction items with
  | nil => rfl
  | cons i is ih =>
      obtain ⟨item, s⟩ := i
      simp only [stack, ih]
      rfl

/-- A list cut at every comma. -/
theorem spread_items {q : Track} {t : Text} (h : Ready q t)
    (hout : q.Followed (splitsOutside [','] t)) {e : Option Char} (he : Fresh e) (level : Nat) :
    Spread True (t.glyphs e q)
      (lineMarks (if t.isEmpty then [] else itemLines [','] level t.splitCommas)) := by
  split
  · rename_i hempty
    obtain rfl : t = [] := by simpa using hempty
    exact Spread.nil
  · have hparted := parted_splitOn (show [','] ∈ flatSeparators by decide) h hout
    refine (spread_stack (D := fun _ => true) (S := fun _ => true)
      (fun s hs => divides_comma (eq_of_upper_eq_comma hs)) ?_ hparted (fun _ => by simp) he
      (stack_plain level _)).congr (by simp)
    intro p suf block q e hb hp _ he
    simp only [Except.ok.injEq] at hb
    rw [← hb]
    exact (lays_plain hp.clear he p suf level).congr (by simp)

/-! ## Words between spaces -/

/-- A word between spaces, in any case. -/
theorem spread_spaced {w k : Text} (hw : Unquoted w)
    (hk : k.upper = ' ' :: (w ++ [' '])) {q : Track} (hq : q.Clear) (e : Option Char) :
    Spread True (k.glyphs e q) (w.marks none) := by
  have hunquoted : Unquoted k := by
    intro c hc
    have hmem : c.toUpper ∈ k.upper := List.mem_map_of_mem hc
    rw [hk] at hmem
    rw [← isQuoteMark_toUpper]
    simp only [List.mem_cons, List.mem_append, List.not_mem_nil, or_false] at hmem
    rcases hmem with h | h | h
    · rw [h]
      decide
    · exact hw _ h
    · rw [h]
      decide
  have hr := Recased.upper hq hunquoted
  rw [hk] at hr
  -- the space in front lets a line start there
  cases k with
  | nil => cases hk
  | cons c cs =>
      have hc : c.toUpper = ' ' := by
        simp only [upper, List.map_cons, List.cons.injEq] at hk
        exact hk.1
      obtain rfl : c = ' ' := (toUpper_eq_iff_of_not_word (by decide) c).mp hc
      have hmarks : Text.marks none (' ' :: (w ++ [' '])) = w.marks none := by
        rw [marks, if_pos (by decide), marks_append]
        simp [marks, show isBlank ' ' = true by decide]
      rw [← hmarks]
      refine (Spread.recased_line hr hq (e := e) (by cases e <;> rfl)).congr ?_
      cases e <;> simp [divided, show isBlank ' ' = true by decide]

/-! ## Value lists

The condition falls into what stands before the word `IN`, that word between spaces, the list and
what follows. Of the opening ` IN (` the word and the parenthesis are respaced apart, as one ends
the line with the other. -/

/-- What stands before the parenthesis of a value list ends with the word `IN`. -/
theorem in_before_list {condition pre rest : Text} {i : Nat}
    (hstart : startsWith (condition.drop i) inOpening = true)
    (ht : condition = pre ++ rest) (hlen : pre.length = i + (inOpening.length - 1)) :
    ∃ a k, pre = a ++ k ∧ condition.take i = a ∧ k.upper = [' ', 'I', 'N', ' '] := by
  have hpre : pre = condition.take (i + (inOpening.length - 1)) := by
    rw [ht]
    exact (List.take_left' hlen).symm
  refine ⟨condition.take i, (condition.drop i).take (inOpening.length - 1), ?_, rfl, ?_⟩
  · rw [hpre, List.take_add]
  · have hup := congrArg (List.take (inOpening.length - 1)) (same_iff.mp hstart)
    rw [upper, ← List.map_take, List.take_take] at hup
    exact hup

/-- The lines of a value list respace the condition, and the preserved words stay, as the cuts are
at commas and at the parenthesis. The search for ` IN (` and the cut of the list look at no
literals; if the scan follows them, both have to fall outside (`inListOutside`). -/
theorem lays_inList {condition suffix : Text} {level : Nat} {block : Block}
    (h : inList condition suffix level = .ok block) {q : Track} (hr : Ready q condition)
    (hout : q.Followed (inListOutside condition)) {e : Option Char} (he : Fresh e) :
    Lays True (condition.glyphs e q) suffix block.lines := by
  unfold inList at h
  cases hfind : Text.find? inOpening condition with
  | none =>
      simp only [hfind, Except.ok.injEq] at h
      rw [← h]
      exact lays_plain hr.clear he _ _ _
  | some i =>
      simp only [hfind] at h
      cases henc : condition.enclosed? (i + (inOpening.length - 1)) with
      | none => simp [henc] at h
      | some pair =>
          obtain ⟨list, trailing⟩ := pair
          simp only [henc, Except.ok.injEq] at h
          obtain ⟨hstart, -⟩ := (find?_eq_some_iff (by decide)).mp hfind
          -- the parts: `pre` up to `IN` and its space, the list `u`, and `v` behind the
          -- parenthesis
          obtain ⟨pre, u, v, ht, hlen, rfl, rfl, hu⟩ := enclosed?_split henc
          obtain ⟨a, k, rfl, ha, hk⟩ := in_before_list hstart ht hlen
          -- the scan has to follow two cuts, the one in front of `IN` and those at commas
          have hout' : q.Followed (!condition.isQuotedAt i && splitsOutside [','] (trim u)) := by
            intro hne
            have hcuts := hout hne
            simpa only [inListOutside, hfind, henc] using hcuts
          obtain ⟨hplace, hcommas⟩ := hout'.and
          -- outside before ` IN `, so also behind it
          have hclear : (q.scan a).Clear := by
            rw [← ha]
            exact hplace.clear_take hr.clear
          have hlistout : (q.scan (a ++ k)).Followed (splitsOutside [','] (trim u)) :=
            hcommas.scan _
          have hkscan : (q.scan a).scan k = q.scan a :=
            hclear.scan_eq (unquoted_of_upper_eq (t := [' ', 'I', 'N', ' ']) hk (by decide))
          have hpre : (q.scan (a ++ k)).Clear := by
            rw [Track.scan_append, hkscan]
            exact hclear
          have hready : Ready (q.scan (a ++ k)) u := Ready.inParens (ht ▸ hr) hpre
          have hhead : Spread True (Text.glyphs e q (a ++ k))
              (a.marks none ++ Keyword.IN.marks none) := by
            rw [glyphs_append]
            exact (Spread.fresh hr.clear he a).true_append (spread_spaced (by decide) hk hclear _)
          have hfresh : Fresh (some '(') := Fresh.of_divider (by decide)
          obtain ⟨e', he', hglyphs⟩ := hfresh.glyphs_trim hpre u
          have hlist := spread_items hready.trim hlistout he' (level + 1)
          rw [← hglyphs] at hlist
          have hinner := spread_closing hpre hu.quoting hlist
          rw [ht]
          refine (lays_bracket hpre hu.quoting hhead hinner ?_).congr (by simp)
          obtain ⟨e'', hclose⟩ := marks_closeLine (Text.trim v) suffix
          refine ⟨e'', ?_⟩
          rw [← h, ha]
          simp [marks_openLine, hclose, marks_trim]

/-! ## Subqueries

The layout of inner queries is a parameter, and `Nested` is what has to be known of it. A
statement is laid out with itself one level down, so the hypothesis is what an induction over the
nesting of queries provides. -/

/-- What the layout of an inner query does to its text, where `D` says whether it keeps the
preserved words and `S` whether its cuts fall outside literals. -/
def Nested (nested : Text → Except Fault Query) (D S : Text → Bool) : Prop :=
  ∀ {t : Text} {query : Query} {q : Track} {e : Option Char}, nested t = .ok query →
    Ready q t.normalize → q.Followed (S t) → Fresh e →
      Spread (D t = true) (t.normalize.withoutTerminator.glyphs e q) (lineMarks query.lines) ∧
        (q.scan t.normalize.withoutTerminator).Clear

/-- An inner query and the parenthesis that closes it. -/
theorem spread_query {nested : Text → Except Fault Query} {D S : Text → Bool}
    (hn : Nested nested D S) {q : Track} {u : Text} (hu : Ready q u)
    (hout : q.Followed (S u.trim)) (hclear : (q.scan u).Clear)
    {query : Query} (hquery : nested u.trim = .ok query) {e : Option Char} (he : Fresh e) :
    Spread (u.trim.getLast? ≠ some terminator ∧ D u.trim = true)
      (Text.glyphs e q (u ++ [')'])) (lineMarks query.lines ++ [⟨none, ')'⟩]) := by
  obtain ⟨e1, he1, hg1⟩ := glyphs_trim hu.clear e u
  obtain ⟨e2, he2, hg2⟩ := glyphs_normalize hu.clear e1 u.trim
  have hfresh : Fresh e2 := (he.of_eq_or_none he1).of_eq_or_none he2
  obtain ⟨hspread, hend⟩ := hn hquery hu.normalize_trim hout hfresh
  have hclose : Spread True (Text.glyphs (edge e u) (q.scan u) [')']) [⟨none, ')'⟩] :=
    Spread.divider hclear _ _ (by decide) (Or.inl rfl)
  rw [glyphs_append, hg1, hg2]
  rcases withoutTerminator_split u.trim.normalize with ⟨hlast, heq⟩ | ⟨hlast, b, hb, heq⟩
  · rw [getLast?_normalize_trim] at hlast
    rw [heq] at hspread
    exact (hspread.append_true hclose).congr (by simp [hlast])
  · -- the terminator stands in front of the parenthesis and is lost
    rw [getLast?_normalize_trim] at hlast
    have hparen : ∃ g, Text.glyphs (edge e u) (q.scan u) [')'] = [g] ∧ g.char = ')' :=
      ⟨_, rfl, rfl⟩
    obtain ⟨g, hg, hgchar⟩ := hparen
    have hscan : q.scan (u.trim.normalize.withoutTerminator ++ b)
        = q.scan u.trim.normalize.withoutTerminator := by
      rw [Track.scan_append]
      exact hend.scan_eq hb.isQuoteMark
    rw [heq, ← List.append_assoc, glyphs_append, glyphs_append, hb.glyphs_eq, List.append_nil,
      hscan, List.append_assoc]
    rw [hg] at hclose ⊢
    refine (hspread.append (Spread.lose ?_ hgchar ?_ rfl hclose)).congr (by simp [hlast])
    · rfl
    · exact hend.isQuoted_eq

/-- The lines of a condition with an inner query respace it, if the layout of the inner query
respaces its text. The preserved words stay if they stay in the inner query and it has no
terminator to lose (`conditionDivided`). -/
theorem lays_subquery {nested : Text → Except Fault Query} {D S : Text → Bool}
    (hn : Nested nested D S) {condition suffix : Text} {level : Nat} {block : Block}
    (h : subquery nested condition suffix level = .ok block) {q : Track}
    (hr : Ready q condition) (hout : q.Followed (subqueryOutside S condition))
    {e : Option Char} (he : Fresh e) :
    Lays (conditionDivided D condition = true) (condition.glyphs e q) suffix block.lines := by
  unfold subquery at h
  unfold conditionDivided
  cases hopen : (condition.firstOccurrence? Keyword.SELECT).bind condition.openAround? with
  | none =>
      simp only [hopen, Except.ok.injEq] at h
      rw [← h]
      exact (lays_plain hr.clear he _ _ _).congr (by simp)
  | some o =>
      simp only [hopen] at h ⊢
      obtain ⟨place, -, haround⟩ := Option.bind_eq_some_iff.mp hopen
      obtain ⟨-, hunquoted⟩ := openAround?_spec haround
      cases henc : condition.enclosed? o with
      | none => simp [henc] at h
      | some pair =>
          obtain ⟨interior, trailing⟩ := pair
          simp only [henc] at h ⊢
          -- the parts: `pre` up to the parenthesis, the inner query `u`, and `v` behind it
          obtain ⟨pre, u, v, ht, rfl, rfl, rfl, hu⟩ := enclosed?_split henc
          have htake : condition.take pre.length = pre := by
            rw [ht, List.take_left]
          rw [htake] at hunquoted
          cases hquery : nested (Text.trim u) with
          | error f => simp [hquery] at h
          | ok query =>
              simp only [hquery, Except.ok.injEq] at h
              -- the parenthesis is outside literals, so an inner text may be laid out from there
              have hpre : (q.scan pre).Clear :=
                (hr.clear.agrees_start.scan pre).clear hunquoted
              have hready : Ready (q.scan pre) u := Ready.inParens (ht ▸ hr) hpre
              have hinner : ((q.scan pre).scan u).Clear := hpre.scan_of_outside hu.quoting
              have hout' : (q.scan pre).Followed (S (trim u)) := by
                refine Track.Followed.scan (fun hne => ?_) _
                have hcuts := hout hne
                simpa only [subqueryOutside, hopen, henc] using hcuts
              have hspread := spread_query hn hready hout' hinner hquery
                (Fresh.of_divider (show isDivider '(' = true by decide))
              rw [ht]
              refine
                (lays_bracket hpre hu.quoting (Spread.fresh hr.clear he pre) hspread ?_).congr ?_
              · obtain ⟨e'', hclose⟩ := marks_closeLine (Text.trim v) suffix
                refine ⟨e'', ?_⟩
                rw [← h, htake]
                simp [marks_openLine, hclose, marks_trim, Query.shift, lineMarks_shift, marks]
              · simp

/-! ## Any condition -/

/-- The lines of a condition respace it: it holds an inner query if `SELECT` occurs in it, else a
value list if ` IN (` does, and else it stays on one line. -/
theorem lays_condition {nested : Text → Except Fault Query} {D S : Text → Bool}
    (hn : Nested nested D S) {text suffix : Text} {level : Nat} {block : Block}
    (h : condition nested level text suffix = .ok block) {q : Track} (hr : Ready q text)
    (hout : q.Followed (conditionOutside S text)) {e : Option Char} (he : Fresh e) :
    Lays (conditionDivided D text = true) (text.glyphs e q) suffix block.lines := by
  unfold condition at h
  unfold conditionOutside at hout
  split at h
  · rename_i hselect
    rw [if_pos hselect] at hout
    exact lays_subquery hn h hr hout he
  · rename_i hselect
    rw [if_neg hselect] at hout
    have hfirst : text.firstOccurrence? Keyword.SELECT = none := by
      simpa [hasKeyword] using hselect
    have hdivided : conditionDivided D text = true := by simp [conditionDivided, hfirst]
    split at h
    · exact (lays_inList h hr hout he).congr (by simp [hdivided])
    · simp only [Except.ok.injEq] at h
      rw [← h]
      exact (lays_plain hr.clear he _ _ _).congr (by simp [hdivided])

end Layout

end SqlLayout
