import SqlLayout.Proofs.Boundaries

set_option autoImplicit false

/-! # Clauses

Every clause respaces its text: the keyword comes first, and its body is laid out as the clause
wants it (`spread_clause`). The head of a join is broken before each `SELECT` in it, so there
the places of these words matter (`spread_headLines`).
-/

namespace SqlLayout

open Text

/-! ## Texts in another case

The keyword of a join is put in upper case before its head is looked at, so places are found in
one text and cut in another. Both have the same characters up to letter case, and none of what
is asked at a place, its edge, its quoting or whether a line may start there, sees the case. -/

namespace Recased

/-- A text in another case can be cut anywhere; the second piece is read from where the scan stands
after the first. -/
theorem take_drop {q : Track} {t t' : Text} (h : Recased q t t') (i : Nat) :
    Recased q (t.take i) (t'.take i) ∧ Recased (q.scan (t.take i)) (t.drop i) (t'.drop i) := by
  induction t generalizing q t' i with
  | nil =>
      cases t' with
      | nil => simpa using Recased.refl q []
      | cons d ds => exact h.elim
  | cons c cs ih =>
      cases t' with
      | nil => exact h.elim
      | cons d ds =>
          cases i with
          | zero => exact ⟨trivial, by simpa using h⟩
          | succ i =>
              obtain ⟨h1, h2⟩ := ih h.2 i
              refine ⟨⟨h.1, h1⟩, ?_⟩
              have hq : q.scan (c :: cs.take i) = (q.scan [c]).scan (cs.take i) :=
                q.scan_append [c] _
              simp only [List.take_succ_cons, List.drop_succ_cons, hq]
              exact h2

/-- Apart from where the scan stands, the characters correspond one by one. -/
theorem forall₂ {q : Track} {t t' : Text} (h : Recased q t t') : List.Forall₂ Recase t t' := by
  induction t generalizing q t' with
  | nil =>
      cases t' with
      | nil => exact .nil
      | cons d ds => exact h.elim
  | cons c cs ih =>
      cases t' with
      | nil => exact h.elim
      | cons d ds => exact .cons (h.1.imp id And.left) (ih h.2)

end Recased

/-- A cut is seen by the preserved words in whatever case. -/
theorem divided_recase {e e' : Option Char} (he : EdgeKept e e') {t t' : Text}
    (h : List.Forall₂ Recase t t') : divided e' t' = divided e t := by
  cases h with
  | nil => cases e <;> cases e' <;> rfl
  | cons hc _ =>
      cases e with
      | none =>
          cases e' with
          | none => rfl
          | some p' => exact he.elim
      | some p =>
          cases e' with
          | none => exact he.elim
          | some p' =>
              have hp : Recase p p' := he
              simp [divided, hp.isDivider_eq, hc.isBlank_eq, hc.isDivider_eq]

/-- Texts that differ in case leave edges that differ in case. -/
theorem edgeKept_edge {t t' : Text} (h : List.Forall₂ Recase t t') {e e' : Option Char}
    (he : EdgeKept e e') : EdgeKept (edge e t) (edge e' t') := by
  induction h generalizing e e' with
  | nil => exact he
  | @cons c d cs ds hc _ ih =>
      rw [edge_cons, edge_cons, hc.isBlank_eq]
      refine ih ?_
      split
      · trivial
      · exact hc

/-- A place in a text is divided in whatever case. -/
theorem dividedAt_recase {t t' : Text} (h : List.Forall₂ Recase t t') (i : Nat) :
    t'.dividedAt i = t.dividedAt i :=
  divided_recase (edgeKept_edge (List.forall₂_take i h) (show EdgeKept none none from trivial))
    (List.forall₂_drop i h)

/-- No letter is a quote mark, so literals begin and end in whatever case. -/
theorem scan_recase {q : Quoting} (h : q.Sound) {t t' : Text} (ht : List.Forall₂ Recase t t') :
    q.scan t' = q.scan t := by
  induction ht generalizing q with
  | nil => rfl
  | @cons c d cs ds hc _ ih =>
      have hnext : q.next d = q.next c := by
        rcases hc with rfl | rfl
        · rfl
        · exact h.next_toUpper c
      show (q.next d).scan ds = (q.next c).scan cs
      rw [hnext]
      exact ih (h.next c)

namespace Layout

/-! ## The head of a join -/

/-- At an occurrence of a keyword a line may start. -/
theorem breakable_occurrence {k t : Text} {i : Nat} (h : OccursAt k t i) :
    breakable (edge none (t.take i)) (t.drop i) = true := by
  obtain ⟨c, hc, hword⟩ := h.head
  obtain ⟨d, ds, hd⟩ : ∃ d ds, t.drop i = d :: ds := by
    cases hdrop : t.drop i with
    | nil => rw [hdrop] at hc; cases hc
    | cons d ds => exact ⟨d, ds, rfl⟩
  rw [hd] at hc ⊢
  obtain rfl : d = c := by simpa using hc
  refine breakable_word hword (fun p hp => ?_)
  by_cases hnil : t.take i = []
  · rw [hnil] at hp
    cases hp
  · rw [edge_eq_getLast? hnil] at hp
    exact h.before p (Option.filter_eq_some_iff.mp hp).1

/-- Whether a line may start does not depend on letter case. -/
theorem breakable_recase {e e' : Option Char} (he : EdgeKept e e') {t t' : Text}
    (h : List.Forall₂ Recase t t') : breakable e' t' = breakable e t := by
  cases h with
  | nil => cases e <;> cases e' <;> rfl
  | cons hc _ =>
      cases e with
      | none =>
          cases e' with
          | none => simp [breakable, loose]
          | some p' => exact he.elim
      | some p =>
          cases e' with
          | none => exact he.elim
          | some p' =>
              have hp : Recase p p' := he
              simp [breakable, loose, hp.isDivider_eq, hp.isWordChar_eq, hc.isBlank_eq,
                hc.isDivider_eq, hc.isWordChar_eq]

/-- A text, read in the case of `head` and broken at places where lines may start. -/
theorem spread_headLines {q : Track} {t head : Text} (h : Recased q t head)
    {e : Option Char} (level : Nat) {start : Nat} {places : List Nat}
    (hplaces : places.Pairwise (· < ·)) (hstart : ∀ i ∈ places, start ≤ i)
    (hbreak : ∀ i ∈ places, breakable (edge e (t.take i)) (t.drop i) = true)
    (hclear : ∀ i ∈ places, (q.scan (t.take i)).Clear)
    (hbreak0 : breakable (edge e (t.take start)) (t.drop start) = true)
    (hclear0 : (q.scan (t.take start)).Clear) :
    Spread (divided (edge e (t.take start)) (t.drop start) = true ∧
        ∀ i ∈ places, divided (edge e (t.take i)) (t.drop i) = true)
      (Text.glyphs (edge e (t.take start)) (q.scan (t.take start)) (t.drop start))
      (lineMarks (headLines head level start places)) := by
  induction places generalizing start with
  | nil =>
      simp only [headLines, lineMarks_cons, lineMarks_nil, List.append_nil, headLine, marks_trim]
      exact (Spread.recased_line (h.take_drop start).2 hclear0 hbreak0).congr (by simp)
  | cons i places ih =>
      obtain ⟨hlt, hpair⟩ := List.pairwise_cons.mp hplaces
      have hle : start ≤ i := hstart i (by simp)
      have hrest := ih hpair (fun j hj => (hlt j hj).le) (fun j hj => hbreak j (by simp [hj]))
        (fun j hj => hclear j (by simp [hj])) (hbreak i (by simp)) (hclear i (by simp))
      have hlines : lineMarks (headLines head level start (i :: places))
          = Text.marks none ((head.take i).drop start)
            ++ lineMarks (headLines head level i places) := by
        rw [headLines]
        split
        · rename_i hempty
          have hnil : Text.trim ((head.take i).drop start) = [] := by simpa using hempty
          rw [← marks_trim ((head.take i).drop start), hnil]
          rfl
        · simp [headLine, marks_trim]
      have hsplit := drop_eq_slice_append t hle
      have htake := take_append_slice t hle
      have hpiece : Recased (q.scan (t.take start)) ((t.take i).drop start)
          ((head.take i).drop start) := by
        have h1 := ((h.take_drop i).1.take_drop start).2
        rwa [List.take_take, Nat.min_eq_left hle] at h1
      rw [hlines, hsplit, glyphs_append, ← edge_append, ← Track.scan_append, htake]
      by_cases hnil : (t.take i).drop start = []
      · -- the same place again: the piece between them has no line
        have hnil' : (head.take i).drop start = [] := by
          have hlen := hpiece.length_eq
          rw [hnil] at hlen
          exact List.length_eq_zero_iff.mp hlen
        have hsame : t.take start = t.take i := by rw [← htake, hnil, List.append_nil]
        rw [hnil, hnil', hsame]
        refine (Spread.nil.true_append hrest).congr ?_
        simp
      · rw [divided_append hnil]
        rw [hsplit, breakable_append hnil] at hbreak0
        refine ((Spread.recased_line hpiece hclear0 hbreak0).append hrest).congr ?_
        simp

/-- The head of a join, broken before each `SELECT`. -/
theorem spread_head {q : Track} (hq : q.Clear) {t head : Text} (h : Recased q t head)
    {e : Option Char} (he : Fresh e) (level : Nat) :
    Spread (headDivided head = true) (t.glyphs e q)
      (lineMarks (headLines head level 0 (head.occurrences Keyword.SELECT))) := by
  have hocc : ∀ i ∈ head.occurrences Keyword.SELECT, OccursAt Keyword.SELECT head i :=
    fun i hi => mem_occurrences_iff.mp hi
  -- a place inside the text does not see what the text touches
  have hedge : ∀ {i : Nat}, t.take i ≠ [] → edge e (t.take i) = edge none (t.take i) :=
    fun hne => edge_eq_edge hne
  have hbreak : ∀ i ∈ head.occurrences Keyword.SELECT,
      breakable (edge e (t.take i)) (t.drop i) = true := by
    intro i hi
    by_cases hnil : t.take i = []
    · rw [hnil]
      exact he.breakable _
    · rw [hedge hnil, ← breakable_recase (edgeKept_edge (List.forall₂_take i h.forall₂)
        (show EdgeKept none none from trivial)) (List.forall₂_drop i h.forall₂)]
      exact breakable_occurrence (hocc i hi)
  have hclear : ∀ i ∈ head.occurrences Keyword.SELECT, (q.scan (t.take i)).Clear := by
    intro i hi
    have hunquoted := (hocc i hi).unquoted
    rw [Nesting.isQuoted_eq, Nesting.after, Nesting.quoting_scan] at hunquoted
    have hout := Quoting.eq_outside_of_not_isQuoted hunquoted
    rw [show Nesting.start.quoting = .outside from rfl,
      scan_recase (show Quoting.outside.Sound from trivial) (List.forall₂_take i h.forall₂)] at hout
    exact hq.scan_of_outside hout
  have hdivided : ∀ i, divided (edge e (t.take i)) (t.drop i) = head.dividedAt i := by
    intro i
    rw [dividedAt_recase h.forall₂]
    by_cases hnil : t.take i = []
    · rw [Text.dividedAt, hnil]
      simp [he.divided, Fresh.none.divided]
    · rw [hedge hnil]
      rfl
  have hspread := spread_headLines h level (pairwise_occurrences head Keyword.SELECT)
    (fun i _ => Nat.zero_le i) hbreak hclear (he.breakable _) (by simpa using hq)
  simp only [List.take_zero, edge_nil, Track.scan_nil, List.drop_zero] at hspread
  refine hspread.congr ?_
  rw [headDivided, List.all_eq_true]
  simp [he.divided, hdivided]

/-! ## A keyword and its body

The text of a clause is a spelling of its keyword and then nothing, or a blank and the body. -/

/-- A text that is empty or starts with a blank. -/
def Apart (t : Text) : Prop := ∀ c, t.head? = some c → isBlank c = true

theorem Resumes.apart {t : Text} (h : Resumes t) : Apart t := by
  intro c hc
  rcases h with rfl | ⟨r, rfl⟩
  · cases hc
  · obtain rfl : ' ' = c := by simpa using hc
    decide

/-- What follows a keyword begins with a blank, so it is read as its trimmed text would be at the
beginning of a line. -/
theorem glyphs_of_apart {q : Track} (hq : q.Clear) {t : Text} (h : Apart t) (e : Option Char) :
    t.glyphs e q = t.trim.glyphs none q := by
  cases t with
  | nil => rfl
  | cons c cs =>
      have hc : isBlank c = true := h c rfl
      rw [glyphs_trim_none hq, glyphs, glyphs, if_pos hc, if_pos hc]

/-- A spelling of a keyword, at a place where any line may start. -/
theorem spread_keyword {k s : Text} (hk : IsKeyword k) (hs : s.upper = k) {q : Track}
    (hq : q.Clear) {e : Option Char} (he : Fresh e) :
    Spread True (s.glyphs e q) (k.marks none) := by
  have hup : s.upper = k.upper := by rw [hs, hk.upper]
  have hr := Recased.upper hq (unquoted_of_upper_eq hup hk.unquoted)
  rw [hs] at hr
  exact (Spread.recased_line hr hq (he.breakable s)).congr (by simp [he.divided s])

/-- A keyword has no quote marks: behind it the scan stands where it stood. -/
theorem scan_keyword {k s : Text} (hk : IsKeyword k) (hs : s.upper = k) {q : Track}
    (hq : q.Clear) : q.scan s = q := by
  have hup : s.upper = k.upper := by rw [hs, hk.upper]
  exact hq.scan_eq (unquoted_of_upper_eq hup hk.unquoted)

/-- A keyword and what follows it. -/
theorem spread_headed {P : Prop} {k s r : Text} (hk : IsKeyword k) (hs : s.upper = k)
    (hr : Apart r) {q : Track} (hq : q.Clear) {e : Option Char} (he : Fresh e)
    {v : List Mark} (hbody : Spread P (r.trim.glyphs none q) v) :
    Spread P (Text.glyphs e q (s ++ r)) (k.marks none ++ v) := by
  rw [glyphs_append, scan_keyword hk hs hq, glyphs_of_apart hq hr]
  exact (spread_keyword hk hs hq he).true_append hbody

/-! ## The clauses

Each kind of clause has one lemma, which says what its lines do to its body under the condition
that the cuts inside it fall outside literals (`Track.Followed`), and when the preserved words
stay (the condition of `Spread`). `spread_clause` takes them together by the kind. -/

/-- The columns of a `SELECT` clause respace its body. They are cut at the commas outside
parentheses and `CASE` expressions (`parted_columns`), and each is laid out on its own
(`lays_column`), with its comma as the suffix. -/
theorem spread_columns {q : Track} {body : Text} (hr : Ready q body) {level : Nat}
    {lines : List Line}
    (h : stack (column level) (separated [','] body.columns) = .ok lines) :
    Spread (body.columns.all columnDivided = true) (body.glyphs none q) (lineMarks lines) := by
  by_cases hnil : body.columns = []
  · rw [hnil] at h
    simp only [separated, stack, Except.ok.injEq] at h
    rw [← h, (marks_of_columns_eq_nil hnil).glyphs_eq]
    exact Spread.nil.congr (by simp [hnil])
  · obtain ⟨ps, hps, hparted⟩ := parted_columns hr hnil
    rw [hps] at h ⊢
    exact spread_stack (S := fun _ => true) (fun s hs => divides_comma hs)
      (fun hb hp _ he => lays_column hb hp.clear he) hparted (fun _ => by simp) Fresh.none h

/-- A line may start behind a word between spaces. -/
theorem fresh_spaced {w s : Text} (h : s.upper = ' ' :: (w ++ [' '])) {e : Option Char} :
    Fresh (edge e s) := by
  rcases List.eq_nil_or_concat s with rfl | ⟨init, c, rfl⟩
  · cases h
  · have hlast := congrArg List.getLast? h
    rw [List.concat_eq_append] at hlast ⊢
    have hc : c.toUpper = ' ' := by simpa [upper, List.getLast?_cons] using hlast
    obtain rfl : c = ' ' := (toUpper_eq_iff_of_not_word (by decide) c).mp hc
    rw [edge_concat]
    exact Fresh.none

/-- `AND` between spaces may become `AND` at the end of a line. -/
theorem divides_and {s : Text} (h : s.upper = andSeparator.upper) :
    Divides (' ' :: Keyword.AND) s := by
  have hup : s.upper = ' ' :: (Keyword.AND ++ [' ']) := h
  refine ⟨unquoted_of_upper_eq h (by decide), fun e => fresh_spaced hup, ?_⟩
  intro q hq e e'
  rw [marks, if_pos (by decide)]
  exact spread_spaced (by decide) hup hq e

/-- The conditions of a `WHERE` clause respace its body. The cuts at ` AND ` look neither at
literals nor at parentheses; if the scan follows the literals, the cuts have to fall outside
them, in the body and in each condition. -/
theorem spread_conditions {nested : Text → Except Fault Query} {D S : Text → Bool}
    (hn : Nested nested D S) {q : Track} {body : Text} (hr : Ready q body)
    (hout : q.Followed (splitsOutside andSeparator body &&
      ((body.splitOn andSeparator).map Text.trim).all (conditionOutside S)))
    {level : Nat} {lines : List Line}
    (h : stack (condition nested level)
      (separated (' ' :: Keyword.AND) ((body.splitOn andSeparator).map Text.trim)) = .ok lines) :
    Spread (((body.splitOn andSeparator).map Text.trim).all (conditionDivided D) = true)
      (body.glyphs none q) (lineMarks lines) := by
  obtain ⟨hplaces, hconditions⟩ := hout.and
  have hparted := parted_splitOn (show andSeparator ∈ flatSeparators by decide) hr hplaces
  exact spread_stack (fun s hs => divides_and hs)
    (fun hb hp hS he => lays_condition hn hb hp hS he) hparted hconditions Fresh.none h

/-- The marks of a `SELECT` clause: its keyword, and those of its columns. -/
theorem spread_select {q : Track} {body : Text} (hr : Ready q body) {level : Nat} {block : Block}
    (h : selectClause body level = .ok block) :
    ∃ v, lineMarks block.lines = Keyword.SELECT.marks none ++ v ∧
      Spread (body.columns.all columnDivided = true) (body.glyphs none q) v := by
  unfold selectClause at h
  split at h
  · cases h
  · rename_i lines hlines
    obtain rfl := Except.ok.inj h
    exact ⟨lineMarks lines, rfl, spread_columns hr hlines⟩

/-- The marks of a `WHERE` clause: its keyword, and those of its conditions. -/
theorem spread_where {nested : Text → Except Fault Query} {D S : Text → Bool}
    (hn : Nested nested D S) {q : Track} {body : Text} (hr : Ready q body)
    (hout : q.Followed (splitsOutside andSeparator body &&
      ((body.splitOn andSeparator).map Text.trim).all (conditionOutside S)))
    {level : Nat} {block : Block} (h : whereClause nested body level = .ok block) :
    ∃ v, lineMarks block.lines = Keyword.WHERE.marks none ++ v ∧
      Spread (((body.splitOn andSeparator).map Text.trim).all (conditionDivided D) = true)
        (body.glyphs none q) v := by
  unfold whereClause at h
  split at h
  · rename_i hempty
    obtain rfl : body = [] := by simpa using hempty
    obtain rfl := Except.ok.inj h
    -- the only condition of an empty body is empty
    have hdivided : conditionDivided D [] = true := by rfl
    refine ⟨[], by simp, Spread.nil.congr ?_⟩
    simp [splitOn, andSeparator, cutAt, trim, trimStart, trimEnd, hdivided]
  · dsimp only at h
    split at h
    · cases h
    · rename_i lines hlines
      obtain rfl := Except.ok.inj h
      exact ⟨lineMarks lines, rfl, spread_conditions hn hr hout hlines⟩

/-- A keyword and a body behind it, glyph by glyph. -/
theorem glyphs_headed {s b : Text} {e : Option Char} {q : Track} (hs : (q.scan s).Clear) :
    Text.glyphs e q (headed s b) = s.glyphs e q ++ b.glyphs none (q.scan s) := by
  unfold headed
  split
  · rename_i hb
    obtain rfl : b = [] := by simpa using hb
    simp [glyphs]
  · have hspace : (q.scan s).scan [' '] = q.scan s := hs.scan_eq (by decide)
    rw [glyphs_append, glyphs, if_pos (by decide), hspace]

/-- A spelling of a keyword may be read as the keyword, with any body behind it. -/
theorem recased_headed {k s : Text} (hk : IsKeyword k) (hs : s.upper = k) {q : Track}
    (hq : q.Clear) (b : Text) : Recased q (headed s b) (headed k b) := by
  have hup : s.upper = k.upper := by rw [hs, hk.upper]
  have hr := Recased.upper hq (unquoted_of_upper_eq hup hk.unquoted)
  rw [hs] at hr
  unfold headed
  split
  · exact hr
  · exact hr.append (Recased.refl _ _)

/-- The body of a join, cut at its first ` ON `: the table before it, the condition after it. -/
theorem joinParts_split {body : Text} {i : Nat} (h : Text.find? onSeparator body = some i) :
    ∃ a s b, body = a ++ (s ++ b) ∧ body.take i = a ∧ s.upper = onSeparator.upper ∧
      joinParts body = (a.trim, some b.trim) := by
  obtain ⟨hstart, -⟩ := (find?_eq_some_iff (by decide)).mp h
  have hs := same_iff.mp hstart
  refine ⟨body.take i, (body.drop i).take onSeparator.length, body.drop (i + onSeparator.length),
    ?_, rfl, hs, ?_⟩
  · rw [← List.drop_drop, List.take_append_drop, List.take_append_drop]
  · simp [joinParts, h]

/-- A join respaces its text. Its head, the keyword with the joined table, is broken before each
`SELECT` in it (`spread_head`); the condition behind ` ON `, if there is one, stays in one
piece. -/
theorem spread_join {k s r : Text} (hk : IsKeyword k) (hs : s.upper = k) (hr : Apart r)
    {q : Track} (hready : Ready q r.trim)
    (hout : q.Followed ((Text.find? onSeparator r.trim).all fun i => !r.trim.isQuotedAt i))
    {e : Option Char} (he : Fresh e) {level : Nat} {block : Block}
    (h : joinClause k r.trim level = .ok block) :
    Spread (headDivided (headed k (joinParts r.trim).1) = true) (Text.glyphs e q (s ++ r))
      (lineMarks block.lines) := by
  have hq := hready.clear
  have hscan := scan_keyword hk hs hq
  have hqs : (q.scan s).Clear := by rw [hscan]; exact hq
  rw [glyphs_append, hscan, glyphs_of_apart hq hr]
  unfold joinClause at h
  cases hfind : Text.find? onSeparator r.trim with
  | none =>
      have hparts : joinParts r.trim = (r.trim, none) := by simp [joinParts, hfind]
      rw [hparts] at h ⊢
      simp only [Except.ok.injEq] at h
      rw [← h]
      have hhead := spread_head hq (recased_headed hk hs hq r.trim) he level
      rwa [glyphs_headed hqs, hscan] at hhead
  | some i =>
      obtain ⟨a, o, b, hbody, ha, ho, hparts⟩ := joinParts_split hfind
      rw [hparts] at h ⊢
      simp only [Except.ok.injEq] at h
      rw [← h]
      have hclear : (q.scan a).Clear := by
        rw [hfind] at hout
        rw [← ha]
        exact Track.Followed.clear_take hq hout
      rw [hbody]
      have hoscan : (q.scan a).scan o = q.scan a :=
        hclear.scan_eq (unquoted_of_upper_eq ho (by decide))
      -- the head, the separator and the condition are respaced one after another
      have hhead := spread_head hq (recased_headed hk hs hq a.trim) he level
      rw [glyphs_headed hqs, hscan, glyphs_trim_none hq] at hhead
      have hon := spread_spaced (w := Keyword.ON) (by decide) ho hclear (edge none a)
      have hcond := Spread.fresh hclear (e := edge (edge none a) o)
        (fresh_spaced (w := Keyword.ON) ho) b
      have hall := hhead.append_true (hon.true_append hcond)
      rw [glyphs_append, glyphs_append, hoscan, lineMarks_append]
      simpa [lineMarks, marks_headed, marks_trim] using hall

/-- Clauses are laid out if the first of them and those behind it are. -/
theorem clauses_cons_ok {nested : Text → Except Fault Query} {c : Clause} {cs : List Clause}
    {level : Nat} {lines : List Line} (h : clauses nested (c :: cs) level = .ok lines) :
    ∃ block later, clause nested c level = .ok block ∧
      clauses nested cs block.level = .ok later ∧ lines = block.lines ++ later := by
  rw [clauses] at h
  cases hclause : clause nested c level with
  | error f =>
      rw [hclause] at h
      cases h
  | ok block =>
      rw [hclause] at h
      cases hlater : clauses nested cs block.level with
      | error f => simp [hlater] at h
      | ok later =>
          simp only [hlater, Except.ok.injEq] at h
          exact ⟨block, later, rfl, hlater, h.symm⟩

/-- A clause with a keyword: a spelling of the keyword, and its body. -/
theorem spread_clause {nested : Text → Except Fault Query} {D S : Text → Bool}
    (hn : Nested nested D S) {b : Boundary} (hb : b ∈ Boundary.all) {s r : Text}
    (hs : s.upper = b.keyword) (hr : Apart r) {q : Track} (hready : Ready q (s ++ r))
    (hout : q.Followed (clauseOutside S (Clause.ofBoundary (some b) (s ++ r))))
    {e : Option Char} (he : Fresh e) {level : Nat} {block : Block}
    (h : clause nested (Clause.ofBoundary (some b) (s ++ r)) level = .ok block) :
    Spread (clauseDivided D (Clause.ofBoundary (some b) (s ++ r)) = true)
      (Text.glyphs e q (s ++ r)) (lineMarks block.lines) := by
  have hk := Boundary.isKeyword_of_mem hb
  have hq := hready.clear
  have hclause : Clause.ofBoundary (some b) (s ++ r) = ⟨b.kind, b.keyword, s ++ r, r.trim⟩ := by
    have hup : s.upper = b.keyword.upper := by rw [hs, hk.upper]
    simp [Clause.ofBoundary, Clause.ofText, dropBytes_keyword hk hup]
  have hbody : Ready q r.trim := by
    have hqs : (q.scan s).Clear := by rw [scan_keyword hk hs hq]; exact hq
    have h' := hready.right hqs
    rw [scan_keyword hk hs hq] at h'
    exact h'.trim
  rw [hclause] at h hout ⊢
  have hheaded : ∀ {v : List Mark} {P : Prop}, Spread P (r.trim.glyphs none q) v →
      Spread P (Text.glyphs e q (s ++ r)) (b.keyword.marks none ++ v) :=
    fun hv => spread_headed hk hs hr hq he hv
  have hplain : Spread True (r.trim.glyphs none q) (r.trim.marks none) :=
    Spread.verbatim none q r.trim
  have hitems := fun hcommas => spread_items hbody hcommas Fresh.none (level + 1)
  -- the layouts of some kinds bring their keyword along
  obtain ⟨hselect, hsource, hwhere, hhaving, hleading⟩ := Boundary.keyword_of_kind hb
  simp only [clause] at h
  simp only [clauseDivided]
  simp only [clauseOutside] at hout
  cases hkind : b.kind with
  | select =>
      rw [hselect hkind] at hheaded
      simp only [hkind] at h
      obtain ⟨v, hlines, hspread⟩ := spread_select hbody h
      rw [hlines]
      exact hheaded hspread
  | source =>
      rw [hsource hkind] at hheaded
      simp only [hkind, fromClause, Except.ok.injEq] at h
      rw [← h]
      simpa [marks_headed] using hheaded hplain
  | join =>
      simp only [hkind] at h hout
      exact spread_join hk hs hr hbody hout he h
  | condition =>
      rw [hwhere hkind] at hheaded
      simp only [hkind] at h hout
      obtain ⟨v, hlines, hspread⟩ := spread_where hn hbody hout h
      rw [hlines]
      exact hheaded hspread
  | groupBy =>
      simp only [hkind, listClause, Except.ok.injEq] at h hout
      rw [← h]
      simpa using hheaded (hitems hout)
  | having =>
      rw [hhaving hkind] at hheaded
      simp only [hkind, havingClause, Except.ok.injEq] at h
      rw [← h]
      simpa [marks_headed] using hheaded hplain
  | orderBy =>
      simp only [hkind, listClause, Except.ok.injEq] at h hout
      rw [← h]
      simpa using hheaded (hitems hout)
  | leading => exact absurd hkind hleading

end Layout

end SqlLayout
