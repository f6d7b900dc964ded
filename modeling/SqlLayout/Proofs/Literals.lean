import SqlLayout.Proofs.Characters
import SqlLayout.Proofs.Reading

set_option autoImplicit false

/-! # Quoted literals

The literals of a text, each with its quote marks, as the nesting tracks them (`literals`). The
searches for `,`, `AND`, `ON` and `IN (` do not look at quotes, so they can cut a literal: its
blanks and the case of a keyword in it may change, and a terminator in it may go. Nothing else
happens to it, and nothing at all if no such cut falls inside a literal (`format_literals`).

A blank is never put between a backslash and a quote mark, so the output has its literals where
the source has them (`Quoting.read_kept`).
-/

namespace SqlLayout

namespace Text

/-- What is left of the literal that is open, and the literals after it. -/
def literalsFrom : Nesting → Text → Text × List Text
  | _, [] => ([], [])
  | n, c :: cs =>
    let (p, ps) := literalsFrom (n.next c) cs
    if n.isQuoted then (c :: p, ps)
    else if (n.next c).isQuoted then ([], (c :: p) :: ps)
    else ([], ps)

/-- The quoted literals of a text, in order, each with the marks around it. -/
def literals (t : Text) : List Text := (literalsFrom .start t).2

/-! ## Literals without nesting -/

/-- The same with the quoting alone. -/
def spansFrom : Quoting → Text → Text × List Text
  | _, [] => ([], [])
  | q, c :: cs =>
    let r := spansFrom (q.next c) cs
    if q.isQuoted then (c :: r.1, r.2)
    else if (q.next c).isQuoted then ([], (c :: r.1) :: r.2)
    else ([], r.2)

theorem literalsFrom_eq (n : Nesting) (t : Text) : literalsFrom n t = spansFrom n.quoting t := by
  induction t generalizing n with
  | nil => rfl
  | cons c cs ih =>
      have hstep : literalsFrom n (c :: cs) =
          if n.isQuoted then (c :: (literalsFrom (n.next c) cs).1, (literalsFrom (n.next c) cs).2)
          else if (n.next c).isQuoted then
            ([], (c :: (literalsFrom (n.next c) cs).1) :: (literalsFrom (n.next c) cs).2)
          else ([], (literalsFrom (n.next c) cs).2) := rfl
      rw [hstep, ih, Nesting.isQuoted_eq, Nesting.isQuoted_eq, Nesting.quoting_next]
      rfl

theorem literals_eq (t : Text) : t.literals = (spansFrom .outside t).2 :=
  congrArg Prod.snd (literalsFrom_eq .start t)

/-- What follows the last literal does not matter. -/
theorem spansFrom_append {q : Quoting} {a b : Text} (ha : q.scan a = .outside)
    (hb : Unquoted b) : spansFrom q (a ++ b) = spansFrom q a := by
  have hnone : ∀ b : Text, (Unquoted b) → spansFrom .outside b = ([], []) := by
    intro b hb
    induction b with
    | nil => rfl
    | cons c cs ih =>
        have hc : Quoting.next .outside c = .outside := by simp [Quoting.next, hb c (by simp)]
        simp only [spansFrom, hc, ih (fun d hd => hb d (by simp [hd]))]
        rfl
  induction a generalizing q with
  | nil =>
      obtain rfl : q = .outside := ha
      exact hnone b hb
  | cons c cs ih =>
      have hrest := ih (q := q.next c) ha
      simp only [List.cons_append, spansFrom, hrest]

end Text

/-! ## Literals mark by mark -/

open Text

/-- A mark inside a literal belongs to it, with the space before it. -/
theorem spansFrom_quoted {q : Quoting} (hs : q.Sound) (hq : q.isQuoted = true) (m : Mark)
    (x : Text) :
    spansFrom q (m.expand ++ x)
      = (m.expand ++ (spansFrom (q.read m) x).1, (spansFrom (q.read m) x).2) := by
  rw [Quoting.read_eq, Mark.expand]
  split
  · have hq' : (q.next ' ').isQuoted = true := by rw [isQuoted_next_space hs, hq]
    simp [spansFrom, hq, hq']
  · simp [spansFrom, hq]

/-- A mark outside literals may open one. -/
theorem spansFrom_outside (m : Mark) (x : Text) :
    spansFrom .outside (m.expand ++ x)
      = if isQuoteMark m.char then
          ([], (m.char :: (spansFrom (.inside m.char) x).1)
            :: (spansFrom (.inside m.char) x).2)
        else ([], (spansFrom .outside x).2) := by
  have hspace : Quoting.next .outside ' ' = .outside := rfl
  have hout : Quoting.isQuoted .outside = false := rfl
  have hin : Quoting.isQuoted (.inside m.char) = true := rfl
  have hnext : Quoting.next .outside m.char
      = if isQuoteMark m.char then .inside m.char else .outside := rfl
  -- the character itself, without the space the mark may put in front of it
  have hchar : spansFrom .outside (m.char :: x)
      = if isQuoteMark m.char then
          ([], (m.char :: (spansFrom (.inside m.char) x).1)
            :: (spansFrom (.inside m.char) x).2)
        else ([], (spansFrom .outside x).2) := by
    rw [spansFrom, hnext]
    by_cases hc : isQuoteMark m.char = true
    · simp [hc, hout, hin]
    · simp [hc, hout]
  rw [Mark.expand]
  split
  · have hfirst : (spansFrom .outside (m.char :: x)).1 = [] := by
      rw [hchar]
      split <;> rfl
    simp only [List.cons_append, List.nil_append]
    rw [spansFrom, hspace]
    simp only [hout, Bool.false_eq_true, if_false]
    rw [← hchar]
    exact Prod.ext hfirst.symm rfl
  · exact hchar

/-- Two literals that differ in blanks, terminators and capitals only. -/
def Alike (l l' : Text) : Prop := List.Forall₂ Recase l.characters l'.characters

theorem Recase.isKept_eq {c d : Char} (h : Recase c d) : isKept d = isKept c := by
  rw [isKept, isKept, h.isBlank_eq, bne, bne, h.eq_terminator_iff]

theorem characters_cons (c : Char) (t : Text) :
    characters (c :: t) = if isKept c then c :: t.characters else t.characters := by
  rw [characters, List.filter_cons]
  rfl

theorem Alike.cons {c d : Char} (hcd : Recase c d) {l l' : Text} (h : Alike l l') :
    Alike (c :: l) (d :: l') := by
  rw [Alike, characters_cons, characters_cons, hcd.isKept_eq]
  split
  · exact .cons hcd h
  · exact h

theorem characters_expand (m : Mark) (t : Text) :
    characters (m.expand ++ t) = characters (m.char :: t) := by
  rw [Mark.expand]
  split
  · simp [characters_cons, show isKept ' ' = false by decide]
  · rfl

theorem Alike.expand {g m : Mark} (hk : Recase g.char m.char) {l l' : Text} (h : Alike l l') :
    Alike (g.expand ++ l) (m.expand ++ l') := by
  have hcons := h.cons hk
  rw [Alike, ← characters_expand, ← characters_expand] at hcons
  exact hcons

/-- What the literals of two texts have in common. -/
def SpansAlike (r r' : Text × List Text) : Prop := Alike r.1 r'.1 ∧ List.Forall₂ Alike r.2 r'.2

/-- A character that opens a literal is the same in the layout. -/
theorem Recase.eq_of_quoteMark {c d : Char} (h : Recase c d) (hc : isQuoteMark c = true) :
    d = c := by
  rcases h with h | h
  · exact h
  · rw [h]
    have hword : isWordChar c = false := by
      simp only [isQuoteMark, Bool.or_eq_true, beq_iff_eq] at hc
      rcases hc with (rfl | rfl) | rfl <;> decide
    exact (toUpper_eq_iff_of_not_word hword c).mpr rfl

theorem Recase.isQuoteMark_eq {c d : Char} (h : Recase c d) : isQuoteMark d = isQuoteMark c := by
  rcases h with rfl | rfl
  · rfl
  · exact isQuoteMark_toUpper c

/-- The literals stay where they are, and alike. -/
theorem Laid.spansAlike {v : List Glyph} {v' : List Mark} (h : Laid v v') {q : Quoting}
    (hq : q.Sound) {e : Option Char} (he : q.Escapes e)
    (hv : Linked e (v.map Glyph.toMark)) :
    SpansAlike (spansFrom q (expandMarks (v.map Glyph.toMark))) (spansFrom q (expandMarks v')) ∧
      q.scan (expandMarks v') = q.scan (expandMarks (v.map Glyph.toMark)) := by
  induction h generalizing q e with
  | nil => exact ⟨⟨.nil, .nil⟩, rfl⟩
  | @keep g m v v' hk _ _ ih =>
      obtain ⟨hleft, hlater⟩ := hv
      have hread : q.read m = q.read g.toMark := Quoting.read_kept hq he hleft hk
      obtain ⟨⟨hopen, hrest⟩, hscan⟩ := ih (hq.read g.toMark) (Quoting.escapes_read g.toMark) hlater
      simp only [List.map_cons, expandMarks_cons, Quoting.scan_append]
      refine ⟨?_, ?_⟩
      · rcases q.eq_outside_or_isQuoted with rfl | hquoted
        · rw [spansFrom_outside, spansFrom_outside, hk.char.isQuoteMark_eq]
          rw [Quoting.read_outside] at hopen hrest
          by_cases hmark : isQuoteMark g.char = true
          · rw [hk.char.eq_of_quoteMark hmark]
            simp only [hmark, if_true] at hopen hrest ⊢
            exact ⟨.nil, .cons (hopen.cons (Recase.refl _)) hrest⟩
          · simp only [hmark, if_false, Bool.false_eq_true] at hopen hrest ⊢
            exact ⟨.nil, hrest⟩
        · rw [spansFrom_quoted hq hquoted, spansFrom_quoted hq hquoted, hread]
          exact ⟨hopen.expand hk.char, hrest⟩
      · show (q.read m).scan _ = (q.read g.toMark).scan _
        rw [hread]
        exact hscan
  | @drop a b m v v' ha hb _ hm hk _ _ ih =>
      obtain ⟨-, -, hlater⟩ := hv
      have hread : q.read m = (q.read a.toMark).read b.toMark :=
        Quoting.read_drop hq ha hb hm hk.char
      obtain ⟨⟨hopen, hrest⟩, hscan⟩ := ih ((hq.read a.toMark).read b.toMark)
        (Quoting.escapes_read b.toMark) hlater
      have ha' : isQuoteMark a.char = false := by rw [ha]; decide
      have hb' : isQuoteMark b.char = false := by rw [hb]; decide
      have hm' : isQuoteMark m.char = false := by rw [hk.char.isQuoteMark_eq, hb']
      simp only [List.map_cons, expandMarks_cons, Quoting.scan_append]
      refine ⟨?_, ?_⟩
      · rcases q.eq_outside_or_isQuoted with rfl | hquoted
        · rw [Quoting.read_outside, ha'] at hopen hrest
          simp only [Bool.false_eq_true, if_false, Quoting.read_outside, hb'] at hopen hrest
          simp only [spansFrom_outside, ha', hb', hm', Bool.false_eq_true, if_false]
          exact ⟨.nil, hrest⟩
        · have ha'' := hq.isQuoted_read hquoted ha'
          rw [spansFrom_quoted hq hquoted, spansFrom_quoted hq hquoted,
            spansFrom_quoted (hq.read a.toMark) ha'', hread]
          refine ⟨?_, hrest⟩
          -- inside a literal a lost terminator is none of the characters compared
          have halike := hopen.expand hk.char
          have hskip : isKept a.char = false := by rw [ha]; decide
          rw [Alike, characters_expand a.toMark, characters_cons, hskip]
          exact halike
      · show (q.read m).scan _ = ((q.read a.toMark).read b.toMark).scan _
        rw [hread]
        exact hscan

/-! ## Literals that the layout follows -/

/-- The glyphs know where the literals are. -/
def Flagged : Quoting → List Glyph → Prop
  | _, [] => True
  | q, g :: v => g.quoted = q.isQuoted ∧ Flagged (q.read g.toMark) v

theorem flagged_glyphs {q : Quoting} (hq : q.Sound) (t : Text) :
    (∀ p, Flagged q (t.glyphs (some p) (some q))) ∧
      Flagged q (t.glyphs none (some (q.next ' '))) := by
  induction t generalizing q with
  | nil => exact ⟨fun _ => trivial, trivial⟩
  | cons c cs ih =>
      have hscan : ∀ x : Quoting, Track.scan (some x) [c] = some (x.next c) := fun _ => rfl
      by_cases hc : isBlank c = true
      · have hsound : Track.Sound (some q) := by
          intro x hx
          cases hx
          exact hq
        obtain ⟨hspace, hsettled⟩ := hsound.scan_blank hc
        have hnext : q.next c = q.next ' ' := by simpa [Track.scan, Quoting.scan] using hspace
        have hagain : (q.next ' ').next c = q.next ' ' := by
          have hset := hsettled c hc
          rw [hscan, hscan, hnext] at hset
          simpa using hset
        refine ⟨fun p => ?_, ?_⟩
        · rw [Text.glyphs, if_pos hc, hscan, hnext]
          exact (ih hq).2
        · rw [Text.glyphs, if_pos hc, hscan, hagain]
          exact (ih hq).2
      · refine ⟨fun p => ?_, ?_⟩
        · rw [Text.glyphs, if_neg hc, hscan]
          exact ⟨rfl, (ih (hq.next c)).1 c⟩
        · rw [Text.glyphs, if_neg hc, hscan]
          exact ⟨isQuoted_next_space hq, (ih ((hq.next ' ').next c)).1 c⟩

/-- Literals that the layout follows stay as they are. -/
theorem Laid.spansFrom_eq {v : List Glyph} {v' : List Mark} (h : Laid v v') {q : Quoting}
    (hq : q.Sound) (hv : Flagged q v) :
    spansFrom q (expandMarks v') = spansFrom q (expandMarks (v.map Glyph.toMark)) := by
  induction h generalizing q with
  | nil => rfl
  | @keep g m v v' hk hfrozen _ ih =>
      obtain ⟨hflag, hlater⟩ := hv
      have hrest := ih (hq.read g.toMark) hlater
      simp only [List.map_cons, expandMarks_cons]
      -- outside, letters may change and quote marks do not; inside, nothing does
      rcases q.eq_outside_or_isQuoted with rfl | hquoted
      · rw [Quoting.read_outside] at hrest
        rw [spansFrom_outside, spansFrom_outside, hk.char.isQuoteMark_eq]
        by_cases hmark : isQuoteMark g.char = true
        · rw [hk.char.eq_of_quoteMark hmark]
          simp only [hmark, if_true] at hrest ⊢
          rw [hrest]
        · simp only [hmark, if_false, Bool.false_eq_true] at hrest ⊢
          rw [hrest]
      · obtain ⟨hchar, hleft⟩ := hfrozen (by rw [hflag, hquoted])
        have hexpand : m.expand = g.toMark.expand := by
          have hnone : m.left.isNone = g.left.isNone := by
            rw [Bool.eq_iff_iff, Option.isNone_iff_eq_none, Option.isNone_iff_eq_none]
            exact hleft
          rw [Mark.expand, Mark.expand, hnone, hchar]
        rw [hexpand, spansFrom_quoted hq hquoted, spansFrom_quoted hq hquoted, hrest]
  | @drop a b m v v' ha hb hfree hm hk _ _ ih =>
      obtain ⟨hflag, -, hlater⟩ := hv
      have ha' : isQuoteMark a.char = false := by rw [ha]; decide
      have hb' : isQuoteMark b.char = false := by rw [hb]; decide
      have hm' : isQuoteMark m.char = false := by rw [hk.char.isQuoteMark_eq, hb']
      -- a terminator is dropped outside literals only
      obtain rfl : q = .outside := by
        refine Quoting.eq_outside_of_not_isQuoted ?_
        rw [← hflag, hfree]
      have hrest := ih ((hq.read a.toMark).read b.toMark) hlater
      rw [Quoting.read_outside, ha'] at hrest
      simp only [Bool.false_eq_true, if_false, Quoting.read_outside, hb'] at hrest
      simp only [List.map_cons, expandMarks_cons, spansFrom_outside, ha', hb', hm',
        Bool.false_eq_true, if_false, hrest]

/-! ## The literals of a formatted text -/

/-- The literals of a text, read off its marks. -/
theorem literals_normalize (t : Text) :
    t.normalize.literals = (spansFrom .outside (expandMarks (t.marks none))).2 := by
  rw [literals_eq, ← marks_normalize]
  by_cases hne : t.normalize = []
  · rw [hne]
    rfl
  · rw [expandMarks_normalize hne]
    rfl

/-- A terminator at the end belongs to no literal. -/
theorem spansFrom_terminator {v : List Mark}
    (hv : Quoting.outside.scan (expandMarks v) = .outside) (e : Option Char) :
    spansFrom .outside (expandMarks (v ++ [⟨e, terminator⟩]))
      = spansFrom .outside (expandMarks v) := by
  rw [expandMarks_append]
  refine spansFrom_append hv (fun c hc => ?_)
  have hc' : c = ' ' ∨ c = terminator := by
    cases e <;> simp [expandMarks, Mark.expand] at hc <;> simp [hc]
  rcases hc' with rfl | rfl <;> decide

/-- The literals of a text are those of its statement. -/
theorem literals_statement {t : Text}
    (h : Quoting.outside.scan
      (expandMarks (t.normalize.withoutTerminator.marks none)) = .outside) :
    t.normalize.literals
      = (spansFrom .outside (expandMarks (t.normalize.withoutTerminator.marks none))).2 := by
  rw [literals_normalize]
  rcases marks_statement t with ⟨-, ht⟩ | ⟨e, ht⟩
  · rw [ht]
  · rw [ht, spansFrom_terminator h]

/-- An accepted statement has been checked. -/
theorem validate_of_format {width : Nat} {t o : Text} (h : format width t = .ok o) :
    validate t.normalize.withoutTerminator = .ok () := by
  obtain ⟨query, hlayout, -⟩ := exists_layout_of_format h
  simp only [layout, layoutWithin] at hlayout
  split at hlayout
  · cases hlayout
  · split at hlayout
    · cases hlayout
    · rename_i hvalid
      exact hvalid

/-- The literals of an accepted statement are closed. -/
theorem closed_of_format {width : Nat} {t o : Text} (h : format width t = .ok o) :
    Quoting.outside.scan (expandMarks (t.normalize.withoutTerminator.marks none))
      = .outside := by
  have hclear := clear_of_validate (validate_of_format h) Track.clear_outside
  have hscan : Quoting.outside.scan t.normalize.withoutTerminator = .outside := hclear _ rfl
  rw [← normalize_withoutTerminator] at hscan ⊢
  by_cases hne : t.normalize.withoutTerminator.normalize = []
  · rw [hne]
    rfl
  · rw [expandMarks_normalize hne]
    exact hscan

/-- Formatting keeps the literals of a text up to blanks, terminators and capitals, and keeps
them as they are if all cuts fall outside literals. -/
theorem format_literals {width : Nat} {t o : Text} (h : format width t = .ok o) :
    List.Forall₂ Alike t.normalize.literals o.normalize.literals ∧
      (cutsOutside t = true → o.normalize.literals = t.normalize.literals) := by
  have hclosed := closed_of_format h
  have hsource := literals_statement hclosed
  have hresult : ∀ {v : List Mark} {e : Option Char}, o.marks none = v ++ [⟨e, terminator⟩] →
      Quoting.outside.scan (expandMarks v) = .outside →
        o.normalize.literals = (spansFrom .outside (expandMarks v)).2 := by
    intro v e hv hend
    rw [literals_normalize, hv, spansFrom_terminator hend]
  -- where the literals are does not depend on whether the layout follows them
  have halike : ∀ {q : Track} {v : List Mark},
      Laid (t.normalize.withoutTerminator.glyphs none q) v →
        SpansAlike (spansFrom .outside
            (expandMarks (t.normalize.withoutTerminator.marks none)))
          (spansFrom .outside (expandMarks v)) ∧
        Quoting.outside.scan (expandMarks v) = .outside := by
    intro q v hlaid
    have hlinked :
        Linked none ((t.normalize.withoutTerminator.glyphs none q).map Glyph.toMark) := by
      rw [toMark_glyphs]
      exact linked_marks none _
    have hescapes : Quoting.outside.Escapes none := fun m hm => by cases hm
    obtain ⟨hspans, hend⟩ := hlaid.spansAlike (show Quoting.outside.Sound from trivial) hescapes
      hlinked
    rw [toMark_glyphs] at hspans hend
    exact ⟨hspans, hend.trans hclosed⟩
  constructor
  · obtain ⟨v, e, hv, hspread, -⟩ := spread_format h (Ready.untracked _) (fun hne => absurd rfl hne)
    obtain ⟨⟨-, hrest⟩, hend⟩ := halike hspread.laid
    rw [hsource, hresult hv hend]
    exact hrest
  · intro hsafe
    have hready : Ready (some .outside) t.normalize :=
      ⟨Track.clear_outside, fun _ => tidy_normalize t⟩
    obtain ⟨v, e, hv, hspread, -⟩ := spread_format h hready (fun _ => hsafe)
    obtain ⟨-, hend⟩ := halike hspread.laid
    have hflagged := (flagged_glyphs (show Quoting.outside.Sound from trivial)
      t.normalize.withoutTerminator).2
    have hspans := hspread.laid.spansFrom_eq (show Quoting.outside.Sound from trivial) hflagged
    rw [toMark_glyphs] at hspans
    rw [hsource, hresult hv hend, hspans]

/-- Literals with commas in them, where commas are looked for outside literals only. -/
def commaInLiteral : Text := "select 'a,b' as x from t where y = 'it  is'".toList

theorem format_literals_commaInLiteral :
    ∃ o, format 4 commaInLiteral = .ok o ∧ cutsOutside commaInLiteral = true ∧
      o.normalize.literals = commaInLiteral.normalize.literals := by
  have hcuts : cutsOutside commaInLiteral = true := by decide +kernel
  have haccepted : (format 4 commaInLiteral).isOk = true := by decide +kernel
  cases hformat : format 4 commaInLiteral with
  | error e =>
      rw [hformat] at haccepted
      cases haccepted
  | ok o => exact ⟨o, rfl, hcuts, (format_literals hformat).2 hcuts⟩

/-- A literal with a separator in it that is looked for everywhere. -/
def andInLiteral : Text := "SELECT a FROM t WHERE x = 'a and b'".toList

theorem literals_andInLiteral_changed :
    ∃ o, format 4 andInLiteral = .ok o ∧
      o.normalize.literals ≠ andInLiteral.normalize.literals :=
  ⟨"SELECT\n    a\nFROM t\nWHERE\n    x = 'a AND\n    b';".toList, by decide +kernel,
    by decide +kernel⟩

end SqlLayout
