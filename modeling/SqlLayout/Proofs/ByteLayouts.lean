import SqlLayout.Proofs.ByteConstructs
import SqlLayout.Proofs.InnerQueries

set_option autoImplicit false

/-! # Statements laid out by bytes

The layout of a whole statement, written with byte offsets (`Bytewise.layout?`). It gives no result
where a cut is refused, where a number would fall below zero, or where queries are nested more
deeply than the text has opening parentheses. None of this happens on any text: the layout by bytes
returns the layout (`layout?_eq`).

The argument is the same at every cut: the offsets come from scans of the text, and the offsets that
scans find are boundaries of the text (`offsetsBound`).
-/

namespace SqlLayout

open Text Layout

namespace Bytewise

/-! ## Columns -/

/-- Lays out a column. -/
def column? (level : Nat) (text suffix : Text) : Option Layout :=
  if keywordAt text 0 Keyword.CASE then caseExpression? text suffix level
  else if (firstKeyword? text Keyword.OVER).isSome then windowFunction? text suffix level
  else some (.ok (plain text suffix level))

/-- `SELECT` and its columns. The list of columns may be empty, and then there is no last one. -/
def selectClause? (body : Text) (level : Nat) : Option Layout := do
  let columns ← columns? body
  match ← stack? (column? (level + 1)) (followed [','] (columns.length - 1) columns) with
  | .error e => some (.error e)
  | .ok lines => some (.ok ⟨⟨level, Keyword.SELECT⟩ :: lines, level⟩)

theorem keywordAt_zero (t k : Text) : keywordAt t 0 k = t.startsKeyword k := by
  have hzero : t.byteOffset 0 = 0 := rfl
  rw [← hzero, keywordAt_eq, hzero, List.drop_zero, startsKeyword_octets]

theorem isSome_firstKeyword? (t k : Text) : (firstKeyword? t k).isSome = t.hasKeyword k := by
  rw [firstKeyword?_eq, Option.isSome_map, hasKeyword]

theorem column?_eq (level : Nat) (text suffix : Text) :
    column? level text suffix = some (column level text suffix) := by
  rw [column?, column, keywordAt_zero, isSome_firstKeyword?, caseExpression?_eq,
    windowFunction?_eq]
  split_ifs <;> rfl

theorem selectClause?_eq (body : Text) (level : Nat) :
    selectClause? body level = some (selectClause body level) := by
  rw [selectClause?, columns?_eq]
  show Option.bind (stack? _ (followed _ _ body.columns)) _ = _
  rw [followed_eq, stack?_eq fun item s _ => column?_eq (level + 1) item s, selectClause]
  cases stack (column (level + 1)) (separated [','] body.columns) <;> rfl

/-! ## Joins -/

/-- The target of a join, and its condition if it has one. -/
def joinParts? (body : Text) : Option (Text × Option Text) :=
  match Text.find? onSeparator.octets body.octets with
  | some i => do
    let target ← body.slice? 0 i
    let condition ← body.slice? (i + onSeparator.byteLength) body.byteLength
    some (target.trim, some condition.trim)
  | none => some (body, none)

/-- Breaks the head of a join at the given offsets; the part that starts at `start` comes first. -/
def headLines? (head : Text) (level : Nat) : Nat → List Nat → Option (List Line)
  | start, [] => do
    let piece ← head.slice? start head.byteLength
    some [headLine level start piece.trim]
  | start, i :: rest => do
    let piece ← head.slice? start i
    let lines ← headLines? head level i rest
    some (if piece.trim.isEmpty then lines else headLine level start piece.trim :: lines)

/-- The join and its target, broken before each `SELECT`; then `ON` and its condition. -/
def joinClause? (keyword body : Text) (level : Nat) : Option Layout := do
  let (target, condition) ← joinParts? body
  let head := headed keyword target
  let lines ← headLines? head level 0 (keywords head Keyword.SELECT)
  match condition with
  | none => some (.ok ⟨lines, level⟩)
  | some c => some (.ok ⟨lines ++ [⟨level, headed Keyword.ON c⟩], level⟩)

theorem joinParts?_eq (body : Text) : joinParts? body = some (joinParts body) := by
  rw [joinParts?, joinParts, find?_octets (by decide)]
  cases hfind : find? onSeparator body with
  | none => rfl
  | some i =>
      obtain ⟨hstarts, -⟩ := (find?_eq_some_iff (by decide)).mp hfind
      rw [Option.map_some]
      dsimp only
      rw [slice?_zero, slice?_behind (same_iff.mp hstarts)]
      rfl

theorem headLine_byteOffset {head : Text} {start : Nat} (h : start ≤ head.length) (level : Nat)
    (piece : Text) : headLine level (head.byteOffset start) piece = headLine level start piece := by
  have hzero : (head.byteOffset start == 0) = (start == 0) := by
    rw [Bool.eq_iff_iff, beq_iff_eq, beq_iff_eq]
    constructor
    · intro hoffset
      by_contra hne
      have hlt : head.byteOffset 0 < head.byteOffset start := byteOffset_lt (by omega) (by omega)
      omega
    · rintro rfl
      rfl
  rw [headLine, headLine, hzero]

theorem headLines?_eq {head : Text} {start : Nat} {places : List Nat}
    (hsorted : (start :: places).Pairwise (· ≤ ·)) (hle : ∀ i ∈ start :: places, i ≤ head.length)
    (level : Nat) :
    headLines? head level (head.byteOffset start) (places.map head.byteOffset)
      = some (headLines head level start places) := by
  induction places generalizing start with
  | nil =>
      show Option.bind (head.slice? (head.byteOffset start) head.byteLength) _ = _
      rw [slice?_end, Option.bind_some, headLine_byteOffset (hle start List.mem_cons_self)]
      rfl
  | cons i rest ih =>
      obtain ⟨hfirst, hlater⟩ := List.pairwise_cons.mp hsorted
      show Option.bind (head.slice? (head.byteOffset start) (head.byteOffset i)) _ = _
      rw [slice?_byteOffset head (hfirst i List.mem_cons_self), Option.bind_some]
      show Option.bind (headLines? head level (head.byteOffset i) (rest.map head.byteOffset)) _ = _
      rw [ih hlater fun j hj => hle j (List.mem_cons_of_mem start hj), Option.bind_some,
        headLine_byteOffset (hle start List.mem_cons_self)]
      rfl

theorem joinClause?_eq (keyword body : Text) (level : Nat) :
    joinClause? keyword body level = some (joinClause keyword body level) := by
  rw [joinClause?, joinClause, joinParts?_eq]
  obtain ⟨target, condition⟩ := joinParts body
  have hlines : headLines? (headed keyword target) level 0
        (keywords (headed keyword target) Keyword.SELECT)
      = some (headLines (headed keyword target) level 0
        ((headed keyword target).occurrences Keyword.SELECT)) := by
    -- the places come in order, so each part is cut between two places in order
    generalize headed keyword target = head
    have hsorted : (0 :: head.occurrences Keyword.SELECT).Pairwise (· ≤ ·) := by
      have hplaces := pairwise_occurrences head Keyword.SELECT
      exact List.pairwise_cons.mpr ⟨fun i _ => Nat.zero_le i, hplaces.imp Nat.le_of_lt⟩
    have hle : ∀ i ∈ 0 :: head.occurrences Keyword.SELECT, i ≤ head.length := by
      intro i hi
      rcases List.mem_cons.mp hi with rfl | hplace
      · exact Nat.zero_le _
      · have hend := (mem_occurrences_iff.mp hplace).length_le
        omega
    rw [keywords_eq_octets, occurrences_octets]
    exact headLines?_eq hsorted hle level
  show Option.bind (headLines? (headed keyword target) level 0 _) _ = _
  rw [hlines]
  cases condition <;> rfl

/-! ## Conditions -/

/-- Lays out a condition. -/
def condition? (nested : Text → Option (Except Fault Query)) (level : Nat) (text suffix : Text) :
    Option Layout :=
  if (firstKeyword? text Keyword.SELECT).isSome then subquery? nested text suffix level
  else if (Text.find? inOpening.octets text.octets).isSome then inList? text suffix level
  else some (.ok (plain text suffix level))

/-- `WHERE` and its conditions. -/
def whereClause? (nested : Text → Option (Except Fault Query)) (body : Text) (level : Nat) :
    Option Layout :=
  if body.isEmpty then some (.ok ⟨[⟨level, Keyword.WHERE⟩], level⟩)
  else do
    let pieces ← split? body andSeparator
    let conditions ← separated? (' ' :: Keyword.AND) (pieces.map Text.trim)
    match ← stack? (condition? nested (level + 1)) conditions with
    | .error e => some (.error e)
    | .ok lines => some (.ok ⟨⟨level, Keyword.WHERE⟩ :: lines, level⟩)

/-- A keyword and the items between the commas of its body. -/
def listClause? (keyword body : Text) (level : Nat) : Option Layout := do
  let items ← listLines? (level + 1) body
  some (.ok ⟨⟨level, keyword⟩ :: items, level⟩)

/-- Lays out a clause; queries in its conditions are laid out by `nested`. -/
def clause? (nested : Text → Option (Except Fault Query)) (c : Clause) (level : Nat) :
    Option Layout :=
  match c.kind with
  | .select => selectClause? c.body level
  | .source => some (fromClause c.body)
  | .join => joinClause? c.keyword c.body level
  | .condition => whereClause? nested c.body level
  | .having => some (havingClause c.body level)
  | .groupBy | .orderBy => listClause? c.keyword c.body level
  | .leading => some (.ok ⟨[⟨level, c.text⟩], level⟩)

/-- Lays out clauses one after another. -/
def layClauses? (nested : Text → Option (Except Fault Query)) :
    List Clause → Nat → Option (Except Fault (List Line))
  | [], _ => some (.ok [])
  | c :: cs, level => do
    match ← clause? nested c level with
    | .error e => some (.error e)
    | .ok block =>
      match ← layClauses? nested cs block.level with
      | .error e => some (.error e)
      | .ok lines => some (.ok (block.lines ++ lines))

/-- One pass over a statement, whose inner queries are laid out by `nested`. -/
def pass? (nested : Text → Option (Except Fault Query)) (text : Text) :
    Option (Except Fault Query) :=
  let statement := text.normalize.withoutTerminator
  if statement.isEmpty then some (.error .emptyInput)
  else do
    match ← validate? statement with
    | .error e => some (.error e)
    | .ok () =>
      let clauses ← clauses? statement
      match ← layClauses? nested clauses 0 with
      | .error e => some (.error e)
      | .ok lines => some (.ok ⟨lines⟩)

/-- Lays out a statement in passes that are nested less than `bound` deep. -/
def layoutWithin? : Nat → Text → Option (Except Fault Query)
  | 0, _ => none
  | bound + 1, text => pass? (layoutWithin? bound) text

/-- Lays out a statement, in passes nested at most as deep as it has opening parentheses. -/
def layout? (text : Text) : Option (Except Fault Query) :=
  layoutWithin? (text.octets.count '(' + 1) text

section Nested

variable {nested : Text → Except Fault Query} {nested? : Text → Option (Except Fault Query)}

theorem condition?_eq {text : Text}
    (h : ∀ u, queryIn? text = some u → nested? u = some (nested u)) (level : Nat) (suffix : Text) :
    condition? nested? level text suffix = some (condition nested level text suffix) := by
  rw [condition?, condition, isSome_firstKeyword?, find?_octets (by decide), Option.isSome_map,
    subquery?_eq h, inList?_eq]
  split_ifs <;> rfl

theorem whereClause?_eq {body : Text}
    (h : ∀ u ∈ ((body.splitOn andSeparator).map Text.trim).filterMap queryIn?,
      nested? u = some (nested u)) (level : Nat) :
    whereClause? nested? body level = some (whereClause nested body level) := by
  have hne : (body.splitOn andSeparator).map Text.trim ≠ [] := by
    rw [ne_eq, List.map_eq_nil_iff]
    exact splitOn_ne_nil (by decide)
  have hstack : stack? (condition? nested? (level + 1))
        (separated (' ' :: Keyword.AND) ((body.splitOn andSeparator).map Text.trim))
      = some (stack (condition nested (level + 1))
        (separated (' ' :: Keyword.AND) ((body.splitOn andSeparator).map Text.trim))) := by
    apply stack?_eq
    intro item s hmem
    apply condition?_eq
    intro u hu
    exact h u (List.mem_filterMap.mpr ⟨item, mem_separated hmem, hu⟩)
  rw [whereClause?, whereClause, split?_eq (by decide)]
  simp only [Option.bind_eq_bind, Option.bind_some, separated?_eq hne, hstack]
  split_ifs
  · rfl
  · cases stack (condition nested (level + 1))
      (separated (' ' :: Keyword.AND) ((body.splitOn andSeparator).map Text.trim)) <;> rfl

theorem listClause?_eq (keyword body : Text) (level : Nat) :
    listClause? keyword body level = some (listClause keyword body level) := by
  rw [listClause?, listLines?_eq]
  rfl

theorem clause?_eq {c : Clause} (h : ∀ u ∈ clauseQueries c, nested? u = some (nested u))
    (level : Nat) : clause? nested? c level = some (clause nested c level) := by
  rw [clause?, clause]
  rw [clauseQueries] at h
  cases hkind : c.kind with
  | condition =>
      rw [hkind] at h
      exact whereClause?_eq h level
  | select => exact selectClause?_eq c.body level
  | join => exact joinClause?_eq c.keyword c.body level
  | groupBy => exact listClause?_eq c.keyword c.body level
  | orderBy => exact listClause?_eq c.keyword c.body level
  | _ => rfl

theorem layClauses?_eq {cs : List Clause}
    (h : ∀ u ∈ cs.flatMap clauseQueries, nested? u = some (nested u)) (level : Nat) :
    layClauses? nested? cs level = some (Layout.clauses nested cs level) := by
  induction cs generalizing level with
  | nil => rfl
  | cons c cs ih =>
      rw [List.flatMap_cons] at h
      have hfirst : clause? nested? c level = some (clause nested c level) :=
        clause?_eq (fun u hu => h u (List.mem_append_left _ hu)) level
      have hlater : ∀ l, layClauses? nested? cs l = some (Layout.clauses nested cs l) :=
        ih fun u hu => h u (List.mem_append_right _ hu)
      rw [layClauses?, Layout.clauses, hfirst]
      cases clause nested c level with
      | error e => rfl
      | ok block =>
          show Option.bind (layClauses? nested? cs block.level) _ = _
          rw [hlater]
          dsimp only [Option.bind_some]
          cases Layout.clauses nested cs block.level <;> rfl

/-- A pass over a statement has a result if the layout of each of its inner queries has one. -/
theorem pass?_eq {t : Text} (h : ∀ u ∈ t.innerQueries, nested? u = some (nested u)) :
    pass? nested? t = some (pass nested t) := by
  rw [pass?, pass, validate?_eq, clauses?_eq]
  cases t.normalize.withoutTerminator.isEmpty with
  | true => rfl
  | false =>
      cases validate t.normalize.withoutTerminator with
      | error e => rfl
      | ok valid =>
          show Option.bind (layClauses? nested? t.normalize.withoutTerminator.clauses 0) _ = _
          rw [layClauses?_eq h 0]
          dsimp only [Option.bind_some]
          cases Layout.clauses nested t.normalize.withoutTerminator.clauses 0 <;> rfl

end Nested

theorem layoutWithin?_eq {bound : Nat} {t : Text} (h : t.count '(' < bound) :
    layoutWithin? bound t = some (layout t) := by
  induction bound generalizing t with
  | zero => omega
  | succ bound ih =>
      rw [layoutWithin?, layout_eq]
      -- the bound that is left is enough for the inner queries, which have fewer parentheses
      apply pass?_eq
      intro u hu
      have hlt := count_lt_of_mem_innerQueries hu
      exact ih (by omega)

theorem layout?_eq (t : Text) : layout? t = some (layout t) := by
  rw [layout?, count_octets (by decide)]
  exact layoutWithin?_eq (Nat.lt_succ_self _)

end Bytewise

/-! ## Offsets -/

/-- The offsets that the scans of the bytes of a text find are boundaries of the text, and so are
the offsets that are counted from there to the end of what is found. -/
structure OffsetsBound (t : Text) : Prop where
  tokens : ∃ ks, Bytewise.tokens? t = some ks ∧
    ∀ k ∈ ks, t.IsBoundary k.index ∧ t.IsBoundary (k.index + k.text.byteLength)
  keywords : ∀ k : Text, ∀ i ∈ Bytewise.keywords t k,
    t.IsBoundary i ∧ t.IsBoundary (i + k.byteLength)
  closing : ∀ o c, t.octets.closeOf? o = some c →
    t.IsBoundary o ∧ t.IsBoundary (o + 1) ∧ t.IsBoundary c ∧ t.IsBoundary (c + 1)
  opening : ∀ p o, t.octets.openAround? p = some o → t.IsBoundary o ∧ t.IsBoundary (o + 1)
  /-- From any byte of a word to the end of that word. -/
  words : ∀ i c, t.octets[i]? = some c → isWordChar c = true →
    t.IsBoundary i ∧ t.IsBoundary (i + (firstWord (t.octets.drop i)).length)
  found : ∀ (k : Text) (i : Nat), k ≠ [] → find? k.octets t.octets = some i →
    t.IsBoundary i ∧ t.IsBoundary (i + k.byteLength)

theorem offsetsBound (t : Text) : OffsetsBound t where
  tokens := by
    refine ⟨_, Bytewise.tokens?_eq t, fun k hk => ?_⟩
    obtain ⟨k', hk', rfl⟩ := List.mem_map.mp hk
    have hslice := isSome_slice?_iff.mp (Option.isSome_of_eq_some (slice?_of_mem_tokens hk'))
    exact ⟨hslice.1, hslice.2.1⟩
  keywords := by
    intro k i hi
    rw [Bytewise.keywords_eq_octets, occurrences_octets] at hi
    obtain ⟨j, hj, rfl⟩ := List.mem_map.mp hi
    exact ⟨isBoundary_byteOffset t j, isBoundary_behind (mem_occurrences_iff.mp hj).spelled⟩
  closing := by
    intro o c h
    rw [closeOf?_octets] at h
    obtain ⟨c', hbind, rfl⟩ := Option.map_eq_some_iff.mp h
    obtain ⟨o', hindex, hclose⟩ := Option.bind_eq_some_iff.mp hbind
    have hcloses := closeOf?_eq_some_iff.mp hclose
    rw [← indexAt?_eq_some hindex]
    exact ⟨isBoundary_byteOffset t o', isBoundary_next hcloses.opening rfl,
      isBoundary_byteOffset t c', isBoundary_next hcloses.closing rfl⟩
  opening := by
    intro p o h
    rw [openAround?_octets] at h
    obtain ⟨o', haround, rfl⟩ := Option.map_eq_some_iff.mp h
    obtain ⟨-, hparen, -⟩ := opens_of_openAround? haround
    exact ⟨isBoundary_byteOffset t o', isBoundary_next hparen rfl⟩
  words := by
    intro i c hi hc
    -- a byte of a word is a character of its own, and so are the bytes up to the end of the word
    have hsplit : t.octets = t.octets.take i ++ c :: t.octets.drop (i + 1) := by
      obtain ⟨hlt, rfl⟩ := List.getElem?_eq_some_iff.mp hi
      rw [← List.drop_eq_getElem_cons hlt, List.take_append_drop]
    obtain ⟨j, -, hj⟩ := exists_index_of_word hc hsplit
    have hlength : (t.octets.take i).length = i :=
      List.length_take_of_le (Nat.le_of_lt (List.getElem?_eq_some_iff.mp hi).1)
    rw [hlength] at hj
    have hword : (firstWord (t.octets.drop i)).length = (firstWord (t.drop j)).byteLength := by
      rw [← hj, drop_octets, firstWord_octets, ← length_octets, octets_words mem_firstWord]
    have htake : (t.drop j).take (firstWord (t.drop j)).length = firstWord (t.drop j) :=
      List.prefix_iff_eq_take.mp (List.takeWhile_prefix isWordChar) |>.symm
    rw [hword, ← hj]
    exact ⟨isBoundary_byteOffset t j, isBoundary_behind (by rw [htake])⟩
  found := by
    intro k i hk h
    rw [find?_octets hk] at h
    obtain ⟨j, hfind, rfl⟩ := Option.map_eq_some_iff.mp h
    obtain ⟨hstarts, -⟩ := (find?_eq_some_iff hk).mp hfind
    exact ⟨isBoundary_byteOffset t j, isBoundary_behind (same_iff.mp hstarts)⟩

/-- No text can bring the layout to a stop. A cut is refused only where an offset is no boundary of
the text or comes too early, and the offsets that the scans find are boundaries; a list has a last
item wherever one is asked for; the counter of the open inner `CASE` words does not fall below zero.
So the layout by bytes has a result, which is the layout. -/
theorem bytewise_layout_total (t : Text) :
    (∀ i j, (t.slice? i j).isSome = true ↔ t.IsBoundary i ∧ t.IsBoundary j ∧ i ≤ j) ∧
    OffsetsBound t ∧
    (∃ pieces, Bytewise.split? t andSeparator = some pieces ∧ pieces ≠ []) ∧
    t.splitCommas ≠ [] ∧
    (∀ nested line ks,
      Bytewise.branchLines? nested line ks = some (branchLines nested line ks)) ∧
    Bytewise.layout? t = some (layout t) := by
  refine ⟨fun i j => isSome_slice?_iff, offsetsBound t, ?_, splitCommas_ne_nil t,
    Bytewise.branchLines?_eq, Bytewise.layout?_eq t⟩
  exact ⟨_, Bytewise.split?_eq (by decide) t, splitOn_ne_nil (by decide)⟩

/-- Characters of two bytes before and inside the parentheses of a value list. -/
def accentedValues : Text := "where é IN (ü)".toList

theorem bytewise_layout_total_accentedValues :
    find? inOpening.octets accentedValues.octets = some 8 ∧
    accentedValues.IsBoundary 8 ∧ accentedValues.IsBoundary (8 + inOpening.byteLength) ∧
    accentedValues.octets.closeOf? 12 = some 15 ∧
    accentedValues.IsBoundary 15 ∧ accentedValues.IsBoundary (15 + 1) ∧
    ¬ accentedValues.IsBoundary 14 ∧ accentedValues.slice? 13 14 = none ∧
    Bytewise.layout? accentedValues = some (layout accentedValues) := by
  obtain ⟨hslices, hoffsets, -, -, -, hlayout⟩ := bytewise_layout_total accentedValues
  have hfind : find? inOpening.octets accentedValues.octets = some 8 := by decide +kernel
  have hclose : accentedValues.octets.closeOf? 12 = some 15 := by decide +kernel
  have hinside : ¬ accentedValues.IsBoundary 14 := by decide +kernel
  have hrefused : accentedValues.slice? 13 14 = none := by
    rw [← Option.not_isSome_iff_eq_none, hslices]
    exact fun h => hinside h.2.1
  obtain ⟨hstart, hstop⟩ := hoffsets.found inOpening 8 (by decide) hfind
  obtain ⟨-, -, hclosing, hbehind⟩ := hoffsets.closing 12 15 hclose
  exact ⟨hfind, hstart, hstop, hclose, hclosing, hbehind, hinside, hrefused, hlayout⟩

end SqlLayout
