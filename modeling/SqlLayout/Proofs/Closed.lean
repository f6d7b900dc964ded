import SqlLayout.Proofs.InnerQueries
import SqlLayout.Proofs.Terminated

set_option autoImplicit false

/-! # Closed texts

A text is *closed* if every parenthesis in it has a partner and no literal is open at its end.
What parentheses enclose is closed, so the statement of every inner query is, wherever the flat
cuts between conditions fall; and it is not empty, as it holds a `SELECT`
(`closed_of_mem_innerQueries`).

A clause of an accepted statement, and each of its columns, starts and ends outside parentheses
and literals (`after_body_of_mem_cut`, `after_of_mem_columns`). So a parenthesis that is opened
there is closed there (`enclosed?_ne_none`).
-/

namespace SqlLayout

open Text

/-- Every parenthesis has a partner, and nothing is open at the end. -/
structure Closed (t : Text) : Prop where
  guarded : Guarded 0 (lexemes .start (t.marks none))
  after : Nesting.after t = .start

theorem Closed.of_marks {s t : Text} (h : Closed s) (hm : s.marks none = t.marks none) :
    Closed t :=
  ⟨hm ▸ h.guarded, after_eq_of_marks hm h.after⟩

/-! ## What parentheses enclose -/

/-- Marks that leave a parenthesis around them open can be read without it. -/
theorem Guarded.shallower {v : List Mark} {d k : Nat} {q : Quoting}
    (h : Guarded (d + 1) (lexemes ⟨k + 1, q⟩ v)) :
    Guarded d (lexemes ⟨k, q⟩ v) ∧
      Nesting.readAll ⟨k + 1, q⟩ v
        = ⟨(Nesting.readAll ⟨k, q⟩ v).depth + 1, (Nesting.readAll ⟨k, q⟩ v).quoting⟩ := by
  induction v generalizing k q with
  | nil => exact ⟨fun x hx => (by cases hx), rfl⟩
  | cons m v ih =>
      rw [lexemes, Guarded.cons_iff] at h
      obtain ⟨hclose, hrest⟩ := h
      have hquoted : Nesting.isQuoted ⟨k + 1, q⟩ = Nesting.isQuoted ⟨k, q⟩ := rfl
      -- a mark moves both depths alike, as no parenthesis closes the outer one
      have hread : Nesting.read ⟨k + 1, q⟩ m
          = ⟨(Nesting.read ⟨k, q⟩ m).depth + 1, (Nesting.read ⟨k, q⟩ m).quoting⟩ := by
        simp only [Nesting.read, Nesting.depthAfter, hquoted, Nesting.mk.injEq, and_true]
        split_ifs with hq hopen hmc
        · rfl
        · rfl
        · have hlt : d + 1 < k + 1 := hclose (by rw [hmc]; rfl) (by rw [hquoted]; simpa using hq)
          omega
        · rfl
      rw [hread] at hrest
      obtain ⟨hguarded, hall⟩ := ih hrest
      refine ⟨?_, ?_⟩
      · rw [lexemes, Guarded.cons_iff]
        refine ⟨fun hmc hq => ?_, hguarded⟩
        have hlt : d + 1 < k + 1 := hclose hmc hq
        exact Nat.lt_of_succ_lt_succ hlt
      · simp only [Nesting.readAll, List.foldl_cons, hread] at hall ⊢
        exact hall

theorem Encloses.closed {w : Text} (h : Encloses w) : Closed w := by
  have hrests : ∀ d, Nesting.Rests ⟨d, .outside⟩ none := fun d => Nesting.rests_of_unquoted rfl none
  obtain ⟨hguarded, hread⟩ := Guarded.shallower h.guarded
  refine ⟨hguarded, ?_⟩
  obtain ⟨hdepth, hquoted⟩ := scan_eq_readAll (n := ⟨1, .outside⟩) trivial (hrests 1) w
  obtain ⟨hdepth', hquoted'⟩ := scan_eq_readAll sound_start (hrests 0) w
  rw [h.scan, hread] at hdepth hquoted
  have hunquoted : (Nesting.after w).isQuoted = false := hquoted'.trans hquoted.symm
  rw [Nesting.eq_of_unquoted hunquoted]
  refine congrArg (Nesting.mk · .outside) ?_
  exact hdepth'.trans (Nat.succ.inj hdepth).symm

/-! ## The statements of inner queries -/

/-- A closed text keeps so without its terminator. -/
theorem Closed.statement {t : Text} (h : Closed t) : Closed t.normalize.withoutTerminator := by
  have hn : Closed t.normalize := h.of_marks (marks_normalize t).symm
  rcases withoutTerminator_split t.normalize with ⟨-, heq⟩ | ⟨-, b, hb, heq⟩
  · rw [heq]
    exact hn
  · rw [← List.append_assoc] at heq
    have hmarks : Text.marks none (t.normalize.withoutTerminator ++ b)
        = t.normalize.withoutTerminator.marks none := by
      rw [marks_append, hb.marks_eq, List.append_nil]
    refine Closed.of_marks ⟨?_, ?_⟩ hmarks
    · have hguarded := hn.guarded
      rw [heq, lexemes_append sound_start (Nesting.rests_of_unquoted rfl none) _ _
        (Or.inr (by decide))] at hguarded
      exact fun x hx => hguarded x (List.mem_append_left _ hx)
    · refine Nesting.eq_start_of_next_terminator (Nesting.sound_scan sound_start _) ?_
      have hafter := hn.after
      rw [heq, Nesting.after, Nesting.scan, List.foldl_append] at hafter
      exact hafter

theorem Layout.closed_of_queryIn? {condition u : Text} (h : queryIn? condition = some u) :
    Closed u.normalize.withoutTerminator ∧ u.normalize.withoutTerminator ≠ [] := by
  obtain ⟨before, w, after, -, rfl, hw, s, x, d, rfl, hlead⟩ := queryIn?_split h
  refine ⟨(hw.closed.of_marks (marks_trim _).symm).statement, fun hnil => ?_⟩
  -- the keyword starts with a word character, which is no terminator
  have hhead := hlead.head
  cases x with
  | nil => cases hhead
  | cons c cs =>
      have hc : isWordChar c = true := hhead
      have hpos : 0 < ((Text.marks none (trim (s ++ c :: cs))).map Mark.char).count c := by
        rw [marks_trim, count_marks (not_isBlank_of (Or.inr (Or.inr (Or.inl hc)))),
          List.count_append, List.count_cons_self]
        omega
      rcases marks_statement (trim (s ++ c :: cs)) with ⟨-, hm⟩ | ⟨e, hm⟩
      · rw [hm, hnil] at hpos
        cases hpos
      · rw [hm, hnil] at hpos
        have hmem : c ∈ [terminator] := List.count_pos_iff.mp hpos
        rw [List.mem_singleton.mp hmem] at hc
        exact absurd hc (by decide)

theorem closed_of_mem_innerQueries {t u : Text} (h : u ∈ t.innerQueries) :
    Closed u.normalize.withoutTerminator ∧ u.normalize.withoutTerminator ≠ [] := by
  obtain ⟨c, -, hu⟩ := List.mem_flatMap.mp h
  unfold Layout.clauseQueries at hu
  split at hu
  · obtain ⟨condition, -, hin⟩ := List.mem_filterMap.mp hu
    exact Layout.closed_of_queryIn? hin
  · cases hu

/-! ## Clauses and columns -/

/-- Scanning in two steps. -/
theorem Nesting.scan_append (n : Nesting) (s t : Text) : n.scan (s ++ t) = (n.scan s).scan t := by
  rw [Nesting.scan, List.foldl_append]
  rfl

theorem Nesting.eq_start_of_isOutermost {n : Nesting} (h : n.isOutermost = true) : n = .start := by
  have hd : n.depth = 0 := by
    rw [Nesting.isOutermost, Bool.and_eq_true, beq_iff_eq] at h
    exact h.1
  rw [Nesting.eq_of_unquoted (isQuoted_eq_false_of_isOutermost h), hd]
  rfl

theorem after_trim {t : Text} (h : Nesting.after t = .start) : Nesting.after t.trim = .start :=
  after_eq_of_marks (marks_trim t).symm h

/-- A keyword opens and closes nothing. -/
theorem Layout.IsKeyword.after_append {k s : Text} (hk : IsKeyword k) (hs : s.upper = k)
    (r : Text) : Nesting.after (s ++ r) = Nesting.after r := by
  have hstep : ∀ c ∈ s, Nesting.start.next c = .start := by
    intro c hc
    have hmem : c.toUpper ∈ k := by
      rw [← hs]
      exact List.mem_map_of_mem hc
    -- neither a parenthesis nor a quote mark is part of a keyword
    have hplain : ∀ d : Char, isWordChar d = false → d ≠ ' ' → c ≠ d := by
      rintro d hd hspace rfl
      rcases hk.mem_cases hmem with hw | hw
      · rw [isWordChar_toUpper, hd] at hw
        cases hw
      · exact hspace ((toUpper_eq_iff_of_not_word (by decide) c).mp hw)
    have hquote : isQuoteMark c = false := by
      by_contra hq
      simp only [isQuoteMark, Bool.not_eq_false, Bool.or_eq_true, beq_iff_eq] at hq
      rcases hq with (hq | hq) | hq <;> exact hplain _ (by decide) (by decide) hq
    rw [Nesting.next_eq, Nesting.depthAfter]
    simp [Nesting.start, Quoting.next, hquote, hplain '(' (by decide) (by decide),
      hplain ')' (by decide) (by decide)]
  have hscan : Nesting.start.scan s = .start := by
    clear hs
    induction s with
    | nil => rfl
    | cons c cs ih =>
        show (Nesting.start.next c).scan cs = .start
        rw [hstep c List.mem_cons_self]
        exact ih (fun d hd => hstep d (List.mem_cons_of_mem _ hd))
  rw [Nesting.after, Nesting.scan_append, hscan]
  rfl

/-- What follows the keyword of a slice that starts and ends outside everything. -/
theorem Clause.after_body {x : Text} {b : Option Boundary}
    (hx : ∀ y, b = some y → y ∈ Boundary.all ∧ ∃ k r, x = k ++ r ∧ Text.upper k = y.keyword)
    (h : Nesting.after x = .start) : Nesting.after (ofBoundary b x.trim).body = .start := by
  cases b with
  | none =>
      show Nesting.after (trim (dropBytes 0 x.trim)) = .start
      rw [dropBytes, indexAt?]
      exact after_trim (after_trim h)
  | some y =>
      obtain ⟨hy, k, r, rfl, hk⟩ := hx y rfl
      have hkey := Boundary.isKeyword_of_mem hy
      have hbody : (ofBoundary (some y) (Text.trim (k ++ r))).body = trim (trimEnd r) := by
        rw [Boundary.trim_spelled hy hk]
        show trim (dropBytes y.keyword.byteLength (k ++ r.trimEnd)) = _
        rw [dropBytes_keyword hkey (hk.trans hkey.upper.symm)]
      rw [hbody]
      rw [hkey.after_append hk] at h
      exact after_trim (after_eq_of_marks (marks_trimEnd none r).symm h)

/-- What follows the keyword of a clause of a statement that closes what it opens. -/
theorem after_body_of_mem_cut {s : Text} (hs : Nesting.after s = .start)
    {starts : List (Nat × Option Boundary)} {lo : Nat} (hstarts : Starts s lo starts) {c : Clause}
    (hc : c ∈ Clause.cut s starts) : Nesting.after c.body = .start := by
  induction starts generalizing lo with
  | nil => cases hc
  | cons p rest ih =>
      obtain ⟨i, b⟩ := p
      obtain ⟨-, hat, hnext⟩ := hstarts
      have hi : Nesting.after (s.take i) = .start := Nesting.eq_start_of_isOutermost hat.outermost
      -- each clause starts outside everything, so it can be read alone
      have hscan : ∀ x y, s.take i ++ x = y → Nesting.after y = Nesting.after x := by
        rintro x y rfl
        rw [Nesting.after, Nesting.scan_append]
        exact congrArg (Nesting.scan · x) hi
      cases rest with
      | nil =>
          obtain rfl := List.mem_singleton.mp hc
          refine Clause.after_body (fun y hy => ?_) ?_
          · obtain ⟨hmem, k, r, hkr, hk, -⟩ := hat.spelled y hy
            exact ⟨hmem, k, r, hkr, hk⟩
          · rw [← hscan _ s (List.take_append_drop i s), hs]
      | cons p' rest =>
          obtain ⟨j, b'⟩ := p'
          rcases List.mem_cons.mp hc with rfl | hc
          · have hij : i + startWidth b ≤ j := hnext.1
            have htake := take_append_slice s (show i ≤ j by omega)
            refine Clause.after_body (fun y hy => ?_) ?_
            · obtain ⟨hmem, k, r, hkr, hk, -⟩ := hat.slice hij hy
              exact ⟨hmem, k, _, hkr, hk⟩
            · rw [← hscan _ _ htake]
              exact Nesting.eq_start_of_isOutermost hnext.2.1.outermost
          · exact ih hnext hc

/-- Columns are cut outside parentheses and literals. -/
theorem after_columnsFrom {t : Text} {n : Nesting} (h : n.scan t = .start) (w : Bool) (d : Nat) :
    n.scan (columnsFrom n w d t).1 = .start ∧
      ∀ p ∈ (columnsFrom n w d t).2, Nesting.after p = .start := by
  induction t generalizing n w d with
  | nil => exact ⟨h, fun p hp => (by cases hp)⟩
  | cons c cs ih =>
      have hrest : (n.next c).scan cs = .start := h
      rw [columnsFrom_cons]
      obtain ⟨hfirst, hlater⟩ := ih hrest (isWordChar c)
        (if !n.isQuoted && isWordChar c && !w then caseDepthAfter d (firstWord (c :: cs)) else d)
      dsimp only
      split
      · rename_i hcut
        simp only [Bool.and_eq_true, beq_iff_eq] at hcut
        obtain ⟨⟨⟨rfl, hout⟩, -⟩, -⟩ := hcut
        obtain rfl := Nesting.eq_start_of_isOutermost hout
        refine ⟨rfl, fun p hp => ?_⟩
        rcases List.mem_cons.mp hp with rfl | hp
        · exact hfirst
        · exact hlater p hp
      · exact ⟨hfirst, hlater⟩

theorem after_of_mem_columns {t p : Text} (h : Nesting.after t = .start) (hp : p ∈ t.columns) :
    Nesting.after p = .start := by
  obtain ⟨hfirst, hlater⟩ := after_columnsFrom (n := .start) h false 0
  rw [columns_eq] at hp
  dsimp only at hp
  split at hp
  · cases hp
  · obtain ⟨x, hx, rfl⟩ := List.mem_map.mp hp
    refine after_trim ?_
    rcases List.mem_cons.mp hx with rfl | hx
    · exact hfirst
    · exact hlater x hx

/-! ## Parentheses in a column -/

/-- A parenthesis that is not closed stays open. -/
theorem closeFrom_eq_none {n : Nesting} (hn : n.quoting.Sound) (hd : 0 < n.depth)
    {e : Option Char} (he : n.Rests e) {t : Text} {i : Nat} (h : closeFrom i n t = none) :
    Guarded 1 (lexemes n (t.marks e)) ∧ 0 < (n.scan t).depth := by
  induction t generalizing n e i with
  | nil => exact ⟨fun x hx => (by cases hx), hd⟩
  | cons x xs ih =>
      rw [closeFrom_cons hn i (fun _ _ => hd)] at h
      split at h
      · cases h
      · rename_i hx
        have hguard := Nesting.one_lt_depth hd hx
        have hd' : 0 < (n.next x).depth := Nesting.depth_next_pos hd hguard
        by_cases hb : isBlank x = true
        · rw [lexemes_blank hn hb]
          exact ih (Nesting.sound_next hn x) hd' (Nesting.rests_next hn hb) h
        · obtain ⟨hg, hs⟩ := ih (Nesting.sound_next hn x) hd' (Nesting.rests_some _ x) h
          rw [lexemes_cons (by simpa using hb) he, Guarded.cons_iff]
          refine ⟨⟨fun hup hq => hguard ?_ hq, hg⟩, hs⟩
          exact (toUpper_eq_iff_of_not_word (by decide) x).mp hup

/-- In a text that leaves nothing open, a parenthesis outside literals is closed. -/
theorem enclosed?_ne_none {a r : Text} (h : Nesting.after (a ++ '(' :: r) = .start)
    (ha : (Nesting.after a).isQuoted = false) : enclosed? (a ++ '(' :: r) a.length ≠ none := by
  intro hnone
  rw [enclosed?, Option.map_eq_none_iff, closeOf?_append] at hnone
  have hrests : Nesting.Rests ⟨1, .outside⟩ none := Nesting.rests_of_unquoted rfl none
  obtain ⟨hg, hopen⟩ := closeFrom_eq_none (n := ⟨1, .outside⟩) trivial (by decide) hrests hnone
  rw [after_paren (Nesting.eq_of_unquoted ha)] at h
  have hdeep := Nesting.scan_deeper (n := ⟨1, .outside⟩) trivial hrests
    (fun x hx hc hq => Nat.lt_of_succ_lt (hg x hx hc hq)) (Nesting.after a).depth
  rw [Nat.add_comm] at hdeep
  have hdepth := congrArg Nesting.depth (hdeep.symm.trans h)
  simp only [Nesting.start] at hdepth
  omega

end SqlLayout
