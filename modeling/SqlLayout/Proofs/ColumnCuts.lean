import SqlLayout.Proofs.ColumnLists
import SqlLayout.Proofs.PlacedWords

set_option autoImplicit false

/-! # Where columns are cut

`Separates` says which commas of a list lie between columns, by their indices and without a scan.
The cut keeps every character and is made at exactly those commas (`join_columnsAfter`,
`separates_iff_joint`). The columns, joined with commas again, are cut at the new commas and
nowhere else (`columns_join`), so a single column is not cut any further.
-/

namespace SqlLayout.Text

/-! ## Commas between columns -/

/-- After blanks, a text goes on with the whole word `w`. -/
def GoesOnWith (w t : Text) : Prop :=
  ∃ blanks word rest, t = blanks ++ (word ++ rest) ∧ AllBlank blanks ∧ word.upper = w.upper ∧
    ∀ c, rest.head? = some c → isWordChar c = false

/-- The comma at an index separates two columns: it stands outside parentheses and literals, no
`CASE` is open there, and the next word is not `OVER`. -/
structure Separates (l : Text) (i : Nat) : Prop where
  comma : l[i]? = some ','
  outermost : (Nesting.after (l.take i)).isOutermost = true
  noCase : l.caseDepth i = 0
  noOver : ¬ GoesOnWith Keyword.OVER (l.drop (i + 1))

theorem nextIs_iff_goesOnWith {w : Text} (hw : w.all isWordChar = true) (hne : w ≠ [])
    (t : Text) : nextIs w t = true ↔ GoesOnWith w t := by
  rw [nextIs, same_iff]
  constructor
  · intro h
    obtain ⟨blanks, hblanks, ht⟩ := trimStart_split t
    refine ⟨blanks, t.trimStart.firstWord, t.trimStart.dropWhile isWordChar, ?_, hblanks, h, ?_⟩
    · rw [firstWord, List.takeWhile_append_dropWhile]
      exact ht
    · intro c hc
      have hdrop := List.head?_dropWhile_not isWordChar t.trimStart
      rw [hc] at hdrop
      simpa using hdrop
  · rintro ⟨blanks, word, rest, rfl, hblanks, hword, hrest⟩
    have hall := isWordChar_of_upper hword hw
    -- the word starts with a word character, so trimming stops there
    have hhead : ∀ c, (word ++ rest).head? = some c → isBlank c = false := by
      intro c hc
      have hmem : c ∈ word := by
        cases word with
        | nil =>
            have hlength := length_eq_of_upper_eq hword
            exact absurd (List.length_eq_zero_iff.mp hlength.symm) hne
        | cons d ds =>
            obtain rfl : d = c := by simpa using hc
            exact List.mem_cons_self
      exact not_isBlank_of (Or.inr (Or.inr (Or.inl (hall c hmem))))
    have hfirst : firstWord (word ++ rest) = word := by
      rw [firstWord, List.takeWhile_append_of_pos hall]
      cases rest with
      | nil => simp
      | cons c cs => simp [hrest c rfl]
    rw [trimStart_append hblanks, trimStart_of_head hhead, hfirst, hword]

/-- What a scan tests at a comma. -/
theorem separates_append (a : Text) (c : Char) (cs : Text) :
    Separates (a ++ c :: cs) a.length ↔
      (c == ',' && (Nesting.after a).isOutermost && caseDepth (a ++ c :: cs) a.length == 0 &&
        !nextIs Keyword.OVER cs) = true := by
  have hover : nextIs Keyword.OVER cs = false ↔ ¬ GoesOnWith Keyword.OVER cs := by
    rw [← nextIs_iff_goesOnWith (by decide) (by decide), Bool.not_eq_true]
  have hchar : (a ++ c :: cs)[a.length]? = some c := by
    rw [List.getElem?_append_right (Nat.le_refl _), Nat.sub_self, List.getElem?_cons_zero]
  have hrest : (a ++ c :: cs).drop (a.length + 1) = cs := by
    rw [← List.drop_drop, List.drop_left, List.drop_one, List.tail_cons]
  simp only [Bool.and_eq_true, beq_iff_eq, Bool.not_eq_true', hover]
  constructor
  · rintro ⟨hcomma, houter, hcase, hnext⟩
    rw [hchar, Option.some.injEq] at hcomma
    rw [List.take_left] at houter
    rw [hrest] at hnext
    exact ⟨⟨⟨hcomma, houter⟩, hcase⟩, hnext⟩
  · rintro ⟨⟨⟨hcomma, houter⟩, hcase⟩, hnext⟩
    refine ⟨?_, ?_, hcase, ?_⟩
    · rw [hchar, hcomma]
    · rwa [List.take_left]
    · rwa [hrest]

/-! ## The cut -/

/-- There is a comma at index `i` where the pieces are joined with commas. -/
def Joint (ps : List Text) (i : Nat) : Prop :=
  ∃ before after, before ≠ [] ∧ after ≠ [] ∧ ps = before ++ after ∧
    i = (join [','] before).length

theorem not_joint_singleton (p : Text) (i : Nat) : ¬ Joint [p] i := by
  rintro ⟨before, after, hbefore, hafter, hps, -⟩
  have hlength := congrArg List.length hps
  have hone := List.length_pos_iff.mpr hbefore
  have htwo := List.length_pos_iff.mpr hafter
  rw [List.length_append, List.length_singleton] at hlength
  omega

theorem joint_nil_cons (q : Text) (qs : List Text) (i : Nat) :
    Joint ([] :: q :: qs) i ↔ i = 0 ∨ ∃ j, i = j + 1 ∧ Joint (q :: qs) j := by
  constructor
  · rintro ⟨before, after, hbefore, hafter, hps, rfl⟩
    obtain ⟨b, bs, rfl⟩ := List.exists_cons_of_ne_nil hbefore
    obtain ⟨rfl, hrest⟩ := List.cons.inj hps
    cases bs with
    | nil => exact Or.inl rfl
    | cons b bs =>
        refine Or.inr ⟨(join [','] (b :: bs)).length, ?_, b :: bs, after, by simp, hafter, hrest,
          rfl⟩
        simp [join]
  · rintro (rfl | ⟨j, rfl, before, after, hbefore, hafter, hps, rfl⟩)
    · exact ⟨[[]], q :: qs, by simp, by simp, rfl, rfl⟩
    · refine ⟨[] :: before, after, by simp, hafter, by rw [hps]; rfl, ?_⟩
      obtain ⟨b, bs, rfl⟩ := List.exists_cons_of_ne_nil hbefore
      simp [join]

theorem length_join_cons (c : Char) (p : Text) (ps : List Text) :
    (join [','] ((c :: p) :: ps)).length = (join [','] (p :: ps)).length + 1 := by
  cases ps <;> simp [join]

theorem joint_cons_cons (c : Char) (p : Text) (ps : List Text) (i : Nat) :
    Joint ((c :: p) :: ps) i ↔ ∃ j, i = j + 1 ∧ Joint (p :: ps) j := by
  constructor
  · rintro ⟨before, after, hbefore, hafter, hps, rfl⟩
    obtain ⟨b, bs, rfl⟩ := List.exists_cons_of_ne_nil hbefore
    obtain ⟨rfl, rfl⟩ := List.cons.inj hps
    exact ⟨_, length_join_cons c p bs, p :: bs, after, by simp, hafter, rfl, rfl⟩
  · rintro ⟨j, rfl, before, after, hbefore, hafter, hps, rfl⟩
    obtain ⟨b, bs, rfl⟩ := List.exists_cons_of_ne_nil hbefore
    obtain ⟨rfl, rfl⟩ := List.cons.inj hps
    exact ⟨(c :: p) :: bs, after, by simp, hafter, rfl, (length_join_cons c p bs).symm⟩

/-- What a scan that has read `a` makes of the rest. -/
def columnsAfter (a t : Text) : Text × List Text :=
  columnsFrom (Nesting.after a) (a.getLast?.any isWordChar) (caseDepth (a ++ t) a.length) t

/-- One step of the scan: a comma that separates ends a column, any other character belongs to
the column. -/
theorem columnsAfter_cons (a : Text) (c : Char) (cs : Text) :
    (Separates (a ++ c :: cs) a.length ∧ c = ',' ∧ columnsAfter a (c :: cs) =
        ([], (columnsAfter (a ++ [c]) cs).1 :: (columnsAfter (a ++ [c]) cs).2)) ∨
      (¬ Separates (a ++ c :: cs) a.length ∧ columnsAfter a (c :: cs) =
        (c :: (columnsAfter (a ++ [c]) cs).1, (columnsAfter (a ++ [c]) cs).2)) := by
  have hnesting : Nesting.after (a ++ [c]) = (Nesting.after a).next c := List.foldl_append
  have hdepth : caseDepth (a ++ [c] ++ cs) (a ++ [c]).length =
      if !(Nesting.after a).isQuoted && isWordChar c && !a.getLast?.any isWordChar then
        caseDepthAfter (caseDepth (a ++ c :: cs) a.length) (firstWord (c :: cs))
      else caseDepth (a ++ c :: cs) a.length := by
    rw [List.append_assoc, List.singleton_append, List.length_append, List.length_singleton,
      caseDepth_append]
  -- behind `c`, the scan is in the state that the definition names
  have hnext : columnsAfter (a ++ [c]) cs = columnsFrom ((Nesting.after a).next c) (isWordChar c)
      (if !(Nesting.after a).isQuoted && isWordChar c && !a.getLast?.any isWordChar then
        caseDepthAfter (caseDepth (a ++ c :: cs) a.length) (firstWord (c :: cs))
      else caseDepth (a ++ c :: cs) a.length) cs := by
    rw [columnsAfter, hnesting, hdepth, List.getLast?_concat, Option.any_some]
  rw [separates_append, hnext, columnsAfter, columnsFrom_cons]
  dsimp only
  split
  · rename_i hcut
    have hcomma : c = ',' := by
      simp only [Bool.and_eq_true, beq_iff_eq] at hcut
      exact hcut.1.1.1
    exact Or.inl ⟨hcut, hcomma, rfl⟩
  · rename_i hcut
    exact Or.inr ⟨hcut, rfl⟩

/-- The cut keeps every character. -/
theorem join_columnsAfter (a t : Text) :
    join [','] ((columnsAfter a t).1 :: (columnsAfter a t).2) = t := by
  induction t generalizing a with
  | nil => rfl
  | cons c cs ih =>
      have hrest := ih (a ++ [c])
      rcases columnsAfter_cons a c cs with ⟨-, rfl, hcut⟩ | ⟨-, hkept⟩
      · rw [hcut, join, hrest]
        rfl
      · rw [hkept]
        cases hps : (columnsAfter (a ++ [c]) cs).2 with
        | nil =>
            rw [hps] at hrest
            rw [join] at hrest ⊢
            rw [hrest]
        | cons q qs =>
            rw [hps, join] at hrest
            rw [join, List.cons_append, List.cons_append, hrest]

/-- The cut is made at the commas that separate. -/
theorem separates_iff_joint (a t : Text) (i : Nat) :
    Separates (a ++ t) (a.length + i) ↔
      Joint ((columnsAfter a t).1 :: (columnsAfter a t).2) i := by
  induction t generalizing a i with
  | nil =>
      apply iff_of_false
      · rintro ⟨hcomma, -⟩
        simp at hcomma
      · exact not_joint_singleton _ i
  | cons c cs ih =>
      have hlater : ∀ j, Separates (a ++ c :: cs) (a.length + (j + 1)) ↔
          Joint ((columnsAfter (a ++ [c]) cs).1 :: (columnsAfter (a ++ [c]) cs).2) j := by
        intro j
        rw [← ih (a ++ [c]) j, List.append_assoc, List.singleton_append, List.length_append,
          List.length_singleton, Nat.add_assoc, Nat.add_comm 1 j]
      rcases columnsAfter_cons a c cs with ⟨hcomma, -, hcut⟩ | ⟨hcomma, hkept⟩
      · rw [hcut, joint_nil_cons]
        cases i with
        | zero => simp [hcomma]
        | succ j => simp [hlater]
      · rw [hkept, joint_cons_cons]
        cases i with
        | zero => simp [hcomma]
        | succ j => simp [hlater]

/-! ## Joined again -/

theorem columns_join {ps : List Text} (h : Separate ps) (htrim : ∀ p ∈ ps, p.trim = p)
    (hne : ps ≠ [[]]) : columns (join [',', ' '] ps) = ps := by
  have hlisted : ∀ p rest, Listed (p :: rest) (join [',', ' '] (p :: rest)) := by
    intro p rest
    induction rest generalizing p with
    | nil => exact .last p
    | cons q rest ih =>
        rw [join, List.append_assoc]
        exact .cons p (ih q) (Or.inr rfl)
  cases ps with
  | nil => rfl
  | cons p rest => exact columns_listed (hlisted p rest) h htrim hne

theorem trim_trim (t : Text) : t.trim.trim = t.trim := by
  have hhead : ∀ c, t.trim.head? = some c → isBlank c = false := by
    intro c hc
    exact head_trimEnd (fun d hd => head_trimStart hd) hc
  have hlast : ∀ c, t.trim.getLast? = some c → isBlank c = false := fun c hc => last_trimEnd hc
  calc t.trim.trim = t.trim.trimStart.trimEnd := rfl
    _ = t.trim.trimEnd := by rw [trimStart_of_head hhead]
    _ = t.trim := trimEnd_of_last hlast

theorem trim_of_mem_columns {l c : Text} (hc : c ∈ l.columns) : c.trim = c := by
  rw [columns_eq] at hc
  dsimp only at hc
  split at hc
  · cases hc
  · obtain ⟨p, -, rfl⟩ := List.mem_map.mp hc
    exact trim_trim p

/-- A list of blanks has no columns; otherwise the columns are the pieces of the cut. -/
theorem columns_eq_pieces {l p : Text} {ps : List Text} (h : columnsFrom .start false 0 l = (p, ps))
    (hjoin : join [','] (p :: ps) = l) :
    l.columns = if l.trim = [] then [] else (p :: ps).map trim := by
  rw [columns_eq, h]
  cases ps with
  | nil =>
      obtain rfl : p = l := hjoin
      simp [List.isEmpty_iff]
  | cons q qs =>
      have hcomma : ',' ∈ l := by
        rw [← hjoin, join]
        simp
      have hblank : l.trim ≠ [] := by
        intro hnil
        obtain ⟨a, b, ha, hb, hl⟩ := trim_split l
        rw [hnil, List.nil_append] at hl
        rw [hl] at hcomma
        rcases List.mem_append.mp hcomma with hmem | hmem
        · exact absurd (ha _ hmem) (by decide)
        · exact absurd (hb _ hmem) (by decide)
      simp [hblank]

/-- The cut into columns loses nothing but blanks beside the commas it is made at, and at the
ends; it is made at the commas that separate; and it finds the same columns again, in one column
and in the columns joined with commas. -/
theorem columns_at_separators (l : Text) :
    (∃ pieces, join [','] pieces = l ∧
      l.columns = (if l.trim = [] then [] else pieces.map trim) ∧
      ∀ i, l.Separates i ↔ ∃ before after, before ≠ [] ∧ after ≠ [] ∧ pieces = before ++ after ∧
        i = (join [','] before).length) ∧
    (∀ c ∈ l.columns, c ≠ [] → c.columns = [c]) ∧
    columns (join [',', ' '] l.columns) = l.columns := by
  have hjoin := join_columnsAfter [] l
  refine ⟨⟨(columnsAfter [] l).1 :: (columnsAfter [] l).2, hjoin, ?_, ?_⟩, ?_, ?_⟩
  · exact columns_eq_pieces rfl hjoin
  · intro i
    have hcut := separates_iff_joint [] l i
    rwa [List.nil_append, List.length_nil, Nat.zero_add] at hcut
  · intro c hc hne
    -- a single column is a list of columns that stay apart
    have hone : Separate [c] := (Layout.separate_columns l).whole_of_mem hc
    have htrim : ∀ p ∈ [c], p.trim = p := by
      intro p hp
      obtain rfl := List.mem_singleton.mp hp
      exact trim_of_mem_columns hc
    exact columns_join hone htrim (fun h => hne (List.cons.inj h).1)
  · exact columns_join (Layout.separate_columns l) (fun p hp => trim_of_mem_columns hp)
      (Layout.columns_ne l)

/-- Commas in parentheses, in a literal, in a `CASE` and before `OVER`; an `END` too many, and
columns without text. -/
def mixedColumns : Text :=
  "END f(a, b),, 'x, \\' (', CASE y WHEN 1, 2 END, rank() , over (w), ".toList

theorem columns_at_separators_mixedColumns :
    let c := "CASE y WHEN 1, 2 END".toList
    mixedColumns.columns = ["END f(a, b)".toList, [], "'x, \\' ('".toList, c,
      "rank() , over (w)".toList, []] ∧
    c ∈ mixedColumns.columns ∧ c ≠ [] ∧ columns c = [c] ∧
    columns (join [',', ' '] mixedColumns.columns) = mixedColumns.columns := by
  intro c
  have hmem : c ∈ mixedColumns.columns := by decide +kernel
  have hne : c ≠ [] := by decide
  obtain ⟨-, hone, hagain⟩ := columns_at_separators mixedColumns
  exact ⟨by decide +kernel, hmem, hne, hone c hmem hne, hagain⟩

end SqlLayout.Text
