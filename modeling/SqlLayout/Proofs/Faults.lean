import SqlLayout.Proofs.Closed

set_option autoImplicit false

/-! # Where faults come from

A layout fails where the check of a statement fails, of the statement itself or of a query
inside it, or where a construct of a clause does not end (`layout_error`). The statement of an
inner query is closed and not empty, so its check finds no parenthesis without a partner and no
open literal: such faults are faults of the outer statement (`layout_error_provenance`).

A position is a byte offset into the statement whose check failed. For a parenthesis that is
the outer statement; for a statement separator it may be that of an inner query, and nothing is
added for the place of that query (`layout_error_position`).
-/

namespace SqlLayout

open Text

/-! ## Bytes -/

/-- The bytes of the UTF-8 form. -/
def Text.bytes (t : Text) : List UInt8 := t.flatMap String.utf8EncodeChar

theorem Text.length_bytes (t : Text) : t.bytes.length = t.byteLength := by
  induction t with
  | nil => rfl
  | cons c cs ih =>
      have hcons : bytes (c :: cs) = String.utf8EncodeChar c ++ bytes cs := rfl
      rw [hcons, List.length_append, ih, String.length_utf8EncodeChar, byteLength]

/-- The byte at the offset of an ASCII character. -/
theorem Text.bytes_byteOffset {whole a b : Text} {c : Char} (h : whole = a ++ c :: b)
    (hc : String.utf8EncodeChar c = [c.toUInt8]) :
    whole.bytes[whole.byteOffset a.length]? = some c.toUInt8 := by
  subst h
  have hbytes : bytes (a ++ c :: b) = bytes a ++ c.toUInt8 :: bytes b := by
    simp [bytes, hc]
  rw [byteOffset, List.take_left, hbytes, ← length_bytes,
    List.getElem?_append_right (Nat.le_refl _), Nat.sub_self, List.getElem?_cons_zero]

/-! ## Faults of the check -/

/-- What the check of a statement may report: a position holds the character that is at
fault. -/
def Fault.Located (s : Text) : Fault → Prop
  | .emptyInput => False
  | .unbalancedParentheses p =>
    s.bytes[p]? = some '('.toUInt8 ∨ s.bytes[p]? = some ')'.toUInt8
  | .severalStatements p => s.bytes[p]? = some terminator.toUInt8
  | .unterminated c _ => c = .stringLiteral ∨ c = .caseExpression

/-- Faults that only the outermost statement has. -/
def Fault.isOuter : Fault → Bool
  | .emptyInput | .unbalancedParentheses _ => true
  | .unterminated c _ => c == .stringLiteral || c == .windowSpec
  | .severalStatements _ => false

/-- Faults of a construct in a clause. -/
def Fault.isLocal : Fault → Bool
  | .unterminated c _ => c == .caseExpression || c == .subquery || c == .inList
  | _ => false

theorem Fault.isOuter_of_isLocal {f : Fault} (h : f.isLocal = true) : f.isOuter = false := by
  cases f with
  | unterminated c context => cases c <;> first | rfl | cases h
  | _ => cases h

namespace Check

variable {whole : Text} {k : Check}

/-- A character at fault: a parenthesis without a partner, or a terminator. -/
theorem read_error {c : Char} {cs : Text} {f : Fault} (h : k.read whole c cs = .error f) :
    k.nesting.isQuoted = false ∧
      ((c = ')' ∧ k.parens = [] ∧ f = .unbalancedParentheses (whole.byteOffset k.index)) ∨
        (c = terminator ∧ f = .severalStatements (whole.byteOffset k.index))) := by
  rw [read_eq_next] at h
  split_ifs at h with hclose hend
  · obtain ⟨hq, hc, hp⟩ := hclose
    exact ⟨hq, Or.inl ⟨hc, hp, (Except.error.inj h).symm⟩⟩
  · exact ⟨hend.1, Or.inr ⟨hend.2.1, (Except.error.inj h).symm⟩⟩

theorem read_ok {k' : Check} {c : Char} {cs : Text} (h : k.read whole c cs = .ok k') :
    k'.index = k.index + 1 ∧ ∀ i ∈ k'.parens, i ∈ k.parens ∨ (c = '(' ∧ i = k.index) := by
  obtain rfl := eq_next_of_read h
  refine ⟨rfl, fun i hi => ?_⟩
  simp only [next] at hi
  split_ifs at hi with hq hopen hc
  · exact Or.inl hi
  · rcases List.mem_cons.mp hi with rfl | hi
    · exact Or.inr ⟨hopen, rfl⟩
    · exact Or.inl hi
  · exact Or.inl (List.mem_of_mem_tail hi)
  · exact Or.inl hi

/-- The check has read `a` of the statement, and its open parentheses are parentheses there. -/
structure Placed (whole a : Text) (k : Check) : Prop where
  index : k.index = a.length
  parens : ∀ i ∈ k.parens, ∃ x y, whole = x ++ '(' :: y ∧ x.length = i

theorem Placed.next {a : Text} {k' : Check} {c : Char} {cs : Text} (h : k.Placed whole a)
    (hwhole : whole = a ++ c :: cs) (hread : k.read whole c cs = .ok k') :
    k'.Placed whole (a ++ [c]) := by
  obtain ⟨hindex, hparens⟩ := read_ok hread
  refine ⟨by rw [hindex, h.index, List.length_append]; rfl, fun i hi => ?_⟩
  rcases hparens i hi with hi | ⟨rfl, rfl⟩
  · exact h.parens i hi
  · exact ⟨a, cs, hwhole, h.index.symm⟩

theorem Placed.located_verdict {a : Text} {f : Fault} (h : k.Placed whole a)
    (hv : k.verdict whole = .error f) : f.Located whole := by
  unfold verdict at hv
  split at hv
  · cases hv
    exact Or.inl rfl
  · split at hv
    · rename_i i hi
      cases hv
      obtain ⟨x, y, hxy, rfl⟩ := h.parens i (List.mem_of_getLast? hi)
      exact Or.inl (bytes_byteOffset hxy (by decide))
    · cases hv
      exact Or.inr rfl
    · cases hv

/-- Every fault of a run is located. -/
theorem Placed.located_run {a t : Text} {f : Fault} (h : k.Placed whole a)
    (hwhole : whole = a ++ t) (hrun : k.run whole t = .error f) : f.Located whole := by
  induction t generalizing k a with
  | nil => exact h.located_verdict hrun
  | cons c cs ih =>
      rw [run] at hrun
      cases hread : k.read whole c cs with
      | ok k' =>
          rw [hread] at hrun
          exact ih (h.next hwhole hread) (by rw [hwhole]; simp) hrun
      | error f' =>
          rw [hread] at hrun
          obtain rfl : f' = f := Except.error.inj hrun
          obtain ⟨-, ⟨rfl, -, rfl⟩ | ⟨rfl, rfl⟩⟩ := read_error hread
          · rw [h.index]
            exact Or.inr (bytes_byteOffset hwhole (by decide))
          · rw [h.index]
            exact bytes_byteOffset hwhole (by decide)

/-- Where nothing is open any more, the verdict can only be about a `CASE` expression. -/
theorem isOuter_of_verdict (hk : k.Stacked) (hend : k.nesting = .start) {f : Fault}
    (h : k.verdict whole = .error f) : f.isOuter = false := by
  have hparens : k.parens = [] := by
    rw [← List.length_eq_zero_iff, hk, hend]
    rfl
  rw [verdict, hend, hparens] at h
  simp only [Nesting.isQuoted, Nesting.start, Bool.false_eq_true, if_false,
    List.getLast?_nil] at h
  split at h
  · rename_i hnone
    cases hnone
  · cases h
    rfl
  · cases h

/-- A run over a text that closes what is open finds no fault of parentheses and literals. -/
theorem isOuter_of_run (hk : k.Stacked) (hs : k.nesting.quoting.Sound) {e : Option Char}
    (he : k.nesting.Rests e) {t : Text} (hg : Guarded 0 (lexemes k.nesting (t.marks e)))
    (hend : k.nesting.scan t = .start) {f : Fault} (h : k.run whole t = .error f) :
    f.isOuter = false := by
  induction t generalizing k e with
  | nil => exact isOuter_of_verdict hk hend h
  | cons c cs ih =>
      rw [run] at h
      cases hread : k.read whole c cs with
      | ok k' =>
          rw [hread] at h
          obtain rfl := eq_next_of_read hread
          have hs' : (k.next c cs).nesting.quoting.Sound := Nesting.sound_next hs c
          by_cases hb : isBlank c = true
          · rw [lexemes_blank hs hb] at hg
            exact ih (hk.next c cs) hs' (Nesting.rests_next hs hb) hg hend h
          · rw [lexemes_cons (by simpa using hb) he, Guarded.cons_iff] at hg
            exact ih (hk.next c cs) hs' (Nesting.rests_some _ c) hg.2 hend h
      | error f' =>
          rw [hread] at h
          obtain rfl : f' = f := Except.error.inj h
          obtain ⟨hq, ⟨rfl, hp, -⟩ | ⟨-, rfl⟩⟩ := read_error hread
          · -- the parenthesis has a partner
            rw [lexemes_cons (by decide) he, Guarded.cons_iff] at hg
            have hdepth : 0 < k.nesting.depth := hg.1 rfl hq
            rw [← hk, hp] at hdepth
            cases hdepth
          · rfl

end Check

theorem located_of_validate {s : Text} {f : Fault} (h : validate s = .error f) : f.Located s :=
  Check.Placed.located_run (a := [])
    ⟨rfl, fun i hi => (by cases hi)⟩ rfl h

theorem Closed.isOuter_of_validate {s : Text} (hs : Closed s) {f : Fault}
    (h : validate s = .error f) : f.isOuter = false :=
  Check.isOuter_of_run (k := .start) rfl sound_start (Nesting.rests_of_unquoted rfl none)
    hs.guarded hs.after h

/-! ## Faults of the layouts -/

namespace Layout

theorem caseExpression_error {expr suffix : Text} {level : Nat} {f : Fault}
    (h : caseExpression expr suffix level = .error f) : f.isLocal = true := by
  unfold caseExpression at h
  split at h
  · cases h
  · split at h
    · cases h
      rfl
    · cases h

/-- The parenthesis behind the first `OVER` of a column is closed. -/
theorem windowFunction_ne_error {column suffix : Text} {level : Nat} {f : Fault}
    (hcolumn : Nesting.after column = .start) : windowFunction column suffix level ≠ .error f := by
  unfold windowFunction
  cases hfirst : column.firstOccurrence? Keyword.OVER with
  | none => simp
  | some i =>
      dsimp only
      split
      · rename_i hhead
        obtain ⟨a, s, ws, hcolumn', hopening, rfl, -, hs, hws⟩ := over_split hfirst
        obtain ⟨r, hr⟩ : ∃ r, Text.trimStart (column.drop (a.length + Keyword.OVER.length))
            = '(' :: r := by
          have hhead' := eq_of_beq hhead
          cases hrest : Text.trimStart (column.drop (a.length + Keyword.OVER.length)) with
          | nil =>
              rw [hrest] at hhead'
              cases hhead'
          | cons c cs =>
              rw [hrest] at hhead'
              exact ⟨cs, congrArg (· :: cs) (Option.some.inj hhead')⟩
        rw [← hopening]
        rw [hr] at hcolumn'
        -- neither the keyword nor the blanks behind it open a literal
        have hclear : (Track.scan (some .outside) ((a ++ s) ++ ws)).Clear := by
          have hocc := occursAt_of_firstOccurrence? hfirst
          rw [hcolumn', List.append_assoc, List.append_assoc] at hocc
          have ha := clear_before_keyword hocc Track.clear_outside
          rw [Track.scan_append, Track.scan_append,
            ha.scan_eq (unquoted_of_upper_eq hs over_isKeyword.unquoted),
            ha.scan_eq hws.isQuoteMark]
          exact ha
        have hunquoted : (Nesting.after ((a ++ s) ++ ws)).isQuoted = false := by
          rw [Nesting.isQuoted_eq, Nesting.after, Nesting.quoting_scan]
          have hout : Quoting.scan .outside ((a ++ s) ++ ws) = .outside := hclear _ rfl
          exact congrArg Quoting.isQuoted hout
        rw [hcolumn'] at hcolumn
        have hsome := enclosed?_ne_none hcolumn hunquoted
        rw [← hcolumn'] at hsome
        split
        · contradiction
        · simp
      · simp

theorem column_error {text suffix : Text} {level : Nat} {f : Fault}
    (htext : Nesting.after text = .start) (h : column level text suffix = .error f) :
    f.isLocal = true := by
  unfold column at h
  split at h
  · exact caseExpression_error h
  · split at h
    · exact absurd h (windowFunction_ne_error htext)
    · cases h

theorem inList_error {condition suffix : Text} {level : Nat} {f : Fault}
    (h : inList condition suffix level = .error f) : f.isLocal = true := by
  unfold inList at h
  split at h
  · cases h
  · split at h
    · cases h
      rfl
    · cases h

variable {nested : Text → Except Fault Query}

theorem subquery_error {condition suffix : Text} {level : Nat} {f : Fault}
    (h : subquery nested condition suffix level = .error f) :
    f.isLocal = true ∨ ∃ u, queryIn? condition = some u ∧ nested u = .error f := by
  unfold subquery at h
  split at h
  · cases h
  · rename_i o hopen
    split at h
    · cases h
      exact Or.inl rfl
    · rename_i inner trailing henc
      split at h
      · rename_i f' hf'
        cases h
        refine Or.inr ⟨inner, ?_, hf'⟩
        rw [queryIn?, hopen, Option.bind_some, henc]
        rfl
      · cases h

theorem condition_error {text suffix : Text} {level : Nat} {f : Fault}
    (h : condition nested level text suffix = .error f) :
    f.isLocal = true ∨ ∃ u, queryIn? text = some u ∧ nested u = .error f := by
  unfold condition at h
  split at h
  · exact subquery_error h
  · split at h
    · exact Or.inl (inList_error h)
    · cases h

theorem stack_error {lay : Text → Text → Layout} {items : List (Text × Text)} {f : Fault}
    (h : stack lay items = .error f) : ∃ item s, (item, s) ∈ items ∧ lay item s = .error f := by
  induction items with
  | nil => cases h
  | cons x xs ih =>
      obtain ⟨item, s⟩ := x
      rw [stack] at h
      split at h
      · rename_i f' hf'
        cases h
        exact ⟨item, s, List.mem_cons_self, hf'⟩
      · split at h
        · rename_i f' hf'
          cases h
          obtain ⟨item', s', hmem, hlay⟩ := ih hf'
          exact ⟨item', s', List.mem_cons_of_mem _ hmem, hlay⟩
        · cases h

theorem clause_error {c : Clause} {level : Nat} {f : Fault}
    (hbody : Nesting.after c.body = .start) (h : clause nested c level = .error f) :
    f.isLocal = true ∨ ∃ u ∈ clauseQueries c, nested u = .error f := by
  -- only columns and conditions have layouts that can fail
  unfold clause at h
  cases hkind : c.kind with
  | select =>
      simp only [hkind, selectClause] at h
      split at h
      · rename_i f' hf'
        cases h
        obtain ⟨item, s, hmem, hlay⟩ := stack_error hf'
        exact Or.inl (column_error (after_of_mem_columns hbody (mem_separated hmem)) hlay)
      · cases h
  | condition =>
      simp only [hkind, whereClause] at h
      split at h
      · cases h
      · split at h
        · rename_i f' hf'
          cases h
          obtain ⟨item, s, hmem, hlay⟩ := stack_error hf'
          rcases condition_error hlay with hlocal | ⟨u, hu, hf⟩
          · exact Or.inl hlocal
          · refine Or.inr ⟨u, ?_, hf⟩
            rw [clauseQueries, hkind]
            exact List.mem_filterMap.mpr ⟨item, mem_separated hmem, hu⟩
        · cases h
  | join =>
      simp only [hkind, joinClause] at h
      split at h <;> cases h
  | source =>
      rw [hkind] at h
      cases h
  | groupBy =>
      rw [hkind] at h
      cases h
  | having =>
      rw [hkind] at h
      cases h
  | orderBy =>
      rw [hkind] at h
      cases h
  | leading =>
      rw [hkind] at h
      cases h

theorem clauses_error {cs : List Clause} {level : Nat} {f : Fault}
    (hbody : ∀ c ∈ cs, Nesting.after c.body = .start) (h : clauses nested cs level = .error f) :
    f.isLocal = true ∨ ∃ u ∈ cs.flatMap clauseQueries, nested u = .error f := by
  induction cs generalizing level with
  | nil => cases h
  | cons c cs ih =>
      rw [clauses] at h
      split at h
      · rename_i f' hf'
        cases h
        rcases clause_error (hbody c List.mem_cons_self) hf' with hlocal | ⟨u, hu, hf⟩
        · exact Or.inl hlocal
        · exact Or.inr ⟨u, List.mem_flatMap.mpr ⟨c, List.mem_cons_self, hu⟩, hf⟩
      · split at h
        · rename_i f' hf'
          cases h
          rcases ih (fun c' hc' => hbody c' (List.mem_cons_of_mem _ hc')) hf' with
            hlocal | ⟨u, hu, hf⟩
          · exact Or.inl hlocal
          · refine Or.inr ⟨u, ?_, hf⟩
            rw [List.flatMap_cons]
            exact List.mem_append_right _ hu
        · cases h

end Layout

/-! ## Faults of a statement -/

/-- A layout fails at the check of the statement, in a construct of a clause, or in an inner
query. -/
theorem layout_error {t : Text} {f : Fault} (h : layout t = .error f) :
    (t.normalize.withoutTerminator = [] ∧ f = .emptyInput) ∨
      (t.normalize.withoutTerminator ≠ [] ∧
        (validate t.normalize.withoutTerminator = .error f ∨
          (validate t.normalize.withoutTerminator = .ok () ∧
            (f.isLocal = true ∨ ∃ u ∈ t.innerQueries, layout u = .error f)))) := by
  rw [layout_eq, pass] at h
  split at h
  · rename_i hempty
    cases h
    exact Or.inl ⟨by simpa using hempty, rfl⟩
  · rename_i hne
    refine Or.inr ⟨by simpa using hne, ?_⟩
    split at h
    · rename_i f' hf'
      cases h
      exact Or.inl hf'
    · rename_i hvalid
      split at h
      · rename_i f' hf'
        cases h
        refine Or.inr ⟨hvalid, Layout.clauses_error (fun c hc => ?_) hf'⟩
        have htidy : Tidy t.normalize.withoutTerminator := by
          rw [← normalize_withoutTerminator]
          exact tidy_normalize _
        exact after_body_of_mem_cut ((validate_eq_ok_iff _).mp hvalid).2.1 (starts_clauses htidy) hc
      · cases h

/-- A closed statement that is not empty has no outer fault. -/
theorem isOuter_of_layout {u : Text} (hclosed : Closed u.normalize.withoutTerminator)
    (hne : u.normalize.withoutTerminator ≠ []) {f : Fault} (h : layout u = .error f) :
    f.isOuter = false := by
  induction hn : u.count '(' using Nat.strong_induction_on generalizing u with
  | _ n ih =>
    rcases layout_error h with ⟨hnil, -⟩ | ⟨-, hf | ⟨-, hlocal | ⟨v, hv, hf⟩⟩⟩
    · exact absurd hnil hne
    · exact hclosed.isOuter_of_validate hf
    · exact Fault.isOuter_of_isLocal hlocal
    · obtain ⟨hclosed', hne'⟩ := closed_of_mem_innerQueries hv
      exact ih (v.count '(') (hn ▸ count_lt_of_mem_innerQueries hv) hclosed' hne' hf rfl

theorem InnerQuery.closed {t u : Text} (h : InnerQuery t u) :
    Closed u.normalize.withoutTerminator ∧ u.normalize.withoutTerminator ≠ [] := by
  induction h with
  | direct hu => exact closed_of_mem_innerQueries hu
  | deeper _ _ ih => exact ih

/-- An outer fault is one of the check of the outer statement. -/
theorem layout_error_iff_of_isOuter {t : Text} {f : Fault} (hf : f.isOuter = true) :
    layout t = .error f ↔
      (t.normalize.withoutTerminator = [] ∧ f = .emptyInput) ∨
        (t.normalize.withoutTerminator ≠ [] ∧
          validate t.normalize.withoutTerminator = .error f) := by
  constructor
  · intro h
    rcases layout_error h with hempty | ⟨hne, hv | ⟨-, hlocal | ⟨u, hu, hfu⟩⟩⟩
    · exact Or.inl hempty
    · exact Or.inr ⟨hne, hv⟩
    · rw [Fault.isOuter_of_isLocal hlocal] at hf
      cases hf
    · obtain ⟨hclosed, hne'⟩ := closed_of_mem_innerQueries hu
      rw [isOuter_of_layout hclosed hne' hfu] at hf
      cases hf
  · rintro (⟨hnil, rfl⟩ | ⟨hne, hv⟩)
    · rw [layout_eq, pass, hnil]
      rfl
    · rw [layout_eq, pass]
      simp [hne, hv]

/-- An empty statement, a parenthesis without a partner and an open literal are reported exactly
for the outer statement, as its check finds them; a window specification is never reported as
open; and no inner query has a fault of these four kinds. -/
theorem layout_error_provenance (t : Text) :
    (layout t = .error .emptyInput ↔ t.normalize.withoutTerminator = []) ∧
      (∀ p, layout t = .error (.unbalancedParentheses p) ↔
        t.normalize.withoutTerminator ≠ [] ∧
          validate t.normalize.withoutTerminator = .error (.unbalancedParentheses p)) ∧
      (∀ c, layout t = .error (.unterminated .stringLiteral c) ↔
        t.normalize.withoutTerminator ≠ [] ∧
          validate t.normalize.withoutTerminator = .error (.unterminated .stringLiteral c)) ∧
      (∀ c, layout t ≠ .error (.unterminated .windowSpec c)) ∧
      ∀ u f, InnerQuery t u → layout u = .error f → f.isOuter = false := by
  have hiff : ∀ f : Fault, f.isOuter = true → f ≠ .emptyInput →
      (layout t = .error f ↔ t.normalize.withoutTerminator ≠ [] ∧
        validate t.normalize.withoutTerminator = .error f) := by
    intro f hf hne
    rw [layout_error_iff_of_isOuter hf]
    simp [hne]
  refine ⟨?_, fun p => hiff _ rfl (by simp), fun c => hiff _ rfl (by simp), fun c h => ?_,
    fun u f hu hf => isOuter_of_layout hu.closed.1 hu.closed.2 hf⟩
  · rw [layout_error_iff_of_isOuter rfl]
    constructor
    · rintro (⟨hnil, -⟩ | ⟨-, hv⟩)
      · exact hnil
      · exact (located_of_validate hv).elim
    · exact fun hnil => Or.inl ⟨hnil, rfl⟩
  · obtain ⟨-, hv⟩ := (hiff _ rfl (by simp)).mp h
    have hlocated :
        Construct.windowSpec = .stringLiteral ∨ Construct.windowSpec = .caseExpression :=
      located_of_validate hv
    rcases hlocated with h | h <;> cases h

/-- A statement that is cut inside a literal; what stands behind the cut holds a query. -/
def queryInLiteral : Text :=
  "SELECT a FROM t WHERE x = 'p AND q IN (SELECT b FROM u; SELECT c FROM v)'".toList

theorem layout_error_provenance_queryInLiteral :
    ∃ u f, InnerQuery queryInLiteral u ∧ layout u = .error f ∧ f.isOuter = false ∧
      layout queryInLiteral = .error f := by
  have hinner : queryInLiteral.innerQueries = ["SELECT b FROM u; SELECT c FROM v".toList] := by
    decide +kernel
  have hu : InnerQuery queryInLiteral "SELECT b FROM u; SELECT c FROM v".toList :=
    .direct (by rw [hinner]; exact List.mem_cons_self)
  have hf : layout "SELECT b FROM u; SELECT c FROM v".toList = .error (.severalStatements 15) := by
    decide +kernel
  exact ⟨_, _, hu, hf, (layout_error_provenance queryInLiteral).2.2.2.2 _ _ hu hf,
    by decide +kernel⟩

/-! ## Positions -/

/-- A statement separator is reported by the check of the statement, or by that of a query
inside it. -/
theorem validate_of_severalStatements {t : Text} {p : Nat}
    (h : layout t = .error (.severalStatements p)) :
    ∃ u, (u = t ∨ validate t.normalize.withoutTerminator = .ok () ∧ InnerQuery t u) ∧
      validate u.normalize.withoutTerminator = .error (.severalStatements p) := by
  induction hn : t.count '(' using Nat.strong_induction_on generalizing t with
  | _ n ih =>
    rcases layout_error h with ⟨-, hf⟩ | ⟨-, hf | ⟨hvalid, hlocal | ⟨u, hu, hf⟩⟩⟩
    · cases hf
    · exact ⟨t, Or.inl rfl, hf⟩
    · cases hlocal
    · obtain ⟨v, rfl | ⟨-, hv⟩, hfv⟩ :=
        ih (u.count '(') (hn ▸ count_lt_of_mem_innerQueries hu) hf rfl
      · exact ⟨v, Or.inr ⟨hvalid, .direct hu⟩, hfv⟩
      · exact ⟨v, Or.inr ⟨hvalid, .deeper hu hv⟩, hfv⟩

/-- The position of a parenthesis without a partner is that of a parenthesis in the statement.
The position of a statement separator is that of a terminator in the statement whose check
failed: the outer one if its check fails, otherwise that of a query inside it. -/
theorem layout_error_position (t : Text) (p : Nat) :
    (layout t = .error (.unbalancedParentheses p) →
      t.normalize.withoutTerminator.bytes[p]? = some '('.toUInt8 ∨
        t.normalize.withoutTerminator.bytes[p]? = some ')'.toUInt8) ∧
    (layout t = .error (.severalStatements p) →
      ∃ u, (u = t ∨ validate t.normalize.withoutTerminator = .ok () ∧ InnerQuery t u) ∧
        validate u.normalize.withoutTerminator = .error (.severalStatements p) ∧
        u.normalize.withoutTerminator.bytes[p]? = some terminator.toUInt8) := by
  refine ⟨fun h => ?_, fun h => ?_⟩
  · rcases (layout_error_iff_of_isOuter rfl).mp h with ⟨-, hf⟩ | ⟨-, hv⟩
    · cases hf
    · exact located_of_validate hv
  · obtain ⟨u, hu, hv⟩ := validate_of_severalStatements h
    exact ⟨u, hu, hv, located_of_validate hv⟩

/-- A statement with two statements in its inner query. -/
def terminatedInside : Text :=
  "SELECT a FROM t WHERE x IN (SELECT b FROM u; SELECT c FROM v)".toList

/-- The reported position is one of the inner query: in the statement itself another character
stands there. -/
theorem layout_error_position_terminatedInside :
    layout terminatedInside = .error (.severalStatements 15) ∧
      terminatedInside.normalize.withoutTerminator.bytes[15]? ≠ some terminator.toUInt8 ∧
      ∃ u, InnerQuery terminatedInside u ∧
        u.normalize.withoutTerminator.bytes[15]? = some terminator.toUInt8 := by
  have hf : layout terminatedInside = .error (.severalStatements 15) := by decide +kernel
  have hvalid : validate terminatedInside.normalize.withoutTerminator = .ok () := by decide +kernel
  refine ⟨hf, by decide +kernel, ?_⟩
  obtain ⟨u, rfl | ⟨-, hu⟩, hv, hbyte⟩ := (layout_error_position terminatedInside 15).2 hf
  · rw [hvalid] at hv
    cases hv
  · exact ⟨u, hu, hbyte⟩

end SqlLayout
