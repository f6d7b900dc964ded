import SqlLayout.Proofs.ByteCuts
import SqlLayout.Proofs.ColumnCuts
import SqlLayout.Proofs.Subqueries

set_option autoImplicit false

/-! # Constructs laid out by bytes

The layouts of `CASE` expressions, window functions, value lists and subqueries, written with byte
offsets. A layout by bytes gives no result where a cut is refused, where a number would fall below
zero, or where the layout of an inner query gives none. Each returns what its counterpart by
characters returns (`caseExpression?_eq`, `windowFunction?_eq`, `inList?_eq`, `subquery?_eq`).
-/

namespace SqlLayout

open Text Layout

namespace Bytewise

/-! ## Numbers and lists -/

/-- The difference of two numbers, which must not fall below zero. -/
def minus? (a b : Nat) : Option Nat := if b ≤ a then some (a - b) else none

/-- Every item with what follows it, which is the separator before the index `last`. -/
def followed (sep : Text) (last : Nat) (items : List Text) : List (Text × Text) :=
  items.mapIdx fun i item => (item, if i < last then sep else [])

/-- Every item of a list with the separator that follows it. The list must have a last item. -/
def separated? (sep : Text) (items : List Text) : Option (List (Text × Text)) := do
  let last ← minus? items.length 1
  some (followed sep last items)

/-- One line for each item. -/
def itemLines? (sep : Text) (level : Nat) (items : List Text) : Option (List Line) := do
  let followed ← separated? sep items
  some (followed.map fun (item, s) => ⟨level, item ++ s⟩)

/-- One line for each item between commas. A list without text has none. -/
def listLines? (level : Nat) (list : Text) : Option (List Line) :=
  if list.isEmpty then some [] else itemLines? [','] level list.splitCommas

/-- The layouts of the items one after another; the first fault stops them. -/
def stack? (lay : Text → Text → Option Layout) :
    List (Text × Text) → Option (Except Fault (List Line))
  | [] => some (.ok [])
  | (item, s) :: rest => do
    match ← lay item s with
    | .error e => some (.error e)
    | .ok block =>
      match ← stack? lay rest with
      | .error e => some (.error e)
      | .ok lines => some (.ok (block.lines ++ lines))

theorem followed_eq (sep : Text) (items : List Text) :
    followed sep (items.length - 1) items = separated sep items := by
  induction items with
  | nil => rfl
  | cons item rest ih =>
      cases rest with
      | nil => rfl
      | cons next rest =>
          rw [separated, ← ih]
          simp [followed, List.mapIdx_cons]

theorem separated?_eq {items : List Text} (h : items ≠ []) (sep : Text) :
    separated? sep items = some (separated sep items) := by
  have hpos : 1 ≤ items.length := List.length_pos_of_ne_nil h
  rw [separated?, minus?, if_pos hpos, ← followed_eq]
  rfl

theorem itemLines?_eq {items : List Text} (h : items ≠ []) (sep : Text) (level : Nat) :
    itemLines? sep level items = some (itemLines sep level items) := by
  rw [itemLines?, separated?_eq h]
  rfl

theorem listLines?_eq (level : Nat) (list : Text) :
    listLines? level list = some (listLines level list) := by
  rw [listLines?, listLines, itemLines?_eq (splitCommas_ne_nil list)]
  split <;> rfl

theorem stack?_eq {lay : Text → Text → Layout} {lay? : Text → Text → Option Layout}
    {items : List (Text × Text)}
    (h : ∀ item s, (item, s) ∈ items → lay? item s = some (lay item s)) :
    stack? lay? items = some (stack lay items) := by
  induction items with
  | nil => rfl
  | cons x xs ih =>
      obtain ⟨item, s⟩ := x
      rw [stack?, h item s List.mem_cons_self,
        ih fun item' s' hmem => h item' s' (List.mem_cons_of_mem _ hmem), stack]
      cases lay item s with
      | error e => rfl
      | ok block => cases stack lay xs <;> rfl

/-! ## `CASE` expressions -/

/-- The lines of a `CASE` expression up to the `END` that closes it, and the tokens after that
`END`; `nested` counts the open inner `CASE` words and must not fall below zero. -/
def branchLines? : Nat → Text → List Token → Option (Option (List Text × List Token))
  | _, _, [] => some none
  | nested, line, t :: ts =>
    if 0 < nested || !t.nesting.isOutermost then
      if t.spells Keyword.CASE then branchLines? (nested + 1) (line ++ ' ' :: t.text) ts
      else if t.spells Keyword.END then do
        let outer ← minus? nested 1
        branchLines? outer (line ++ ' ' :: t.text) ts
      else branchLines? nested (line ++ ' ' :: t.text) ts
    else if t.text.same Keyword.CASE then branchLines? (nested + 1) (line ++ ' ' :: t.text) ts
    else if t.text.same Keyword.WHEN then do
      let branches ← branchLines? nested Keyword.WHEN ts
      some (branches.map fun (lines, rest) => (line :: lines, rest))
    else if t.text.same Keyword.ELSE then do
      let branches ← branchLines? nested Keyword.ELSE ts
      some (branches.map fun (lines, rest) => (line :: lines, rest))
    else if t.text.same Keyword.THEN then branchLines? nested (line ++ ' ' :: Keyword.THEN) ts
    else if t.text.same Keyword.END then some (some ([line], ts))
    else branchLines? nested (line ++ ' ' :: t.text) ts

/-- Lays out a `CASE` expression. -/
def caseExpression? (expr suffix : Text) (level : Nat) : Option Layout := do
  match ← tokens? expr with
  | [] => some (.ok ⟨[], level⟩)
  | first :: rest =>
    let head := Keyword.CASE ++ first.text.dropBytes Keyword.CASE.byteLength
    match ← branchLines? 0 head rest with
    | none => some (.error (.unterminated .caseExpression (contextAt expr 0)))
    | some (lines, after) =>
      some (.ok ⟨hanging level lines ++ [⟨level + 1, endLine after suffix⟩], level⟩)

theorem branchLines?_eq (nested : Nat) (line : Text) (ts : List Token) :
    branchLines? nested line ts = some (branchLines nested line ts) := by
  induction ts generalizing nested line with
  | nil => rfl
  | cons t ts ih =>
      rw [branchLines?, branchLines]
      cases houter : t.nesting.isOutermost with
      | false =>
          -- such a token spells no keyword, so it only goes on the line
          have hspells : ∀ k, t.spells k = false := fun k => by rw [Token.spells, houter]; rfl
          cases nested <;> simp [hspells, ih]
      | true =>
          have hspells : ∀ k, t.spells k = t.text.same k :=
            fun k => by rw [Token.spells, houter]; rfl
          cases nested with
          | zero =>
              simp only [hspells, ih]
              simp only [Nat.lt_irrefl, decide_false, Bool.not_true, Bool.or_self,
                Bool.false_eq_true, if_false, beq_self_eq_true, if_true]
              split_ifs <;> rfl
          | succ nested =>
              -- an `END` closes an inner `CASE`, so the counter is not zero
              have hminus : minus? (nested + 1) 1 = some nested := rfl
              have hnonzero : (nested + 1 == 0) = false := rfl
              simp only [hspells, ih, hminus, hnonzero]
              simp only [Nat.zero_lt_succ, decide_true, Bool.true_or, if_true, Bool.false_eq_true,
                if_false]
              split_ifs <;> rfl

/-- The places of the tokens do not matter to the lines. -/
theorem branchLines_inBytes (t : Text) (nested : Nat) (line : Text) (ks : List Token) :
    branchLines nested line (ks.map (Token.inBytes t))
      = (branchLines nested line ks).map fun p => (p.1, p.2.map (Token.inBytes t)) := by
  induction ks generalizing nested line with
  | nil => rfl
  | cons k ks ih =>
      have hspells : ∀ w, (k.inBytes t).spells w = k.spells w := fun _ => rfl
      have htext : (k.inBytes t).text = k.text := rfl
      rw [List.map_cons, branchLines, branchLines]
      simp only [hspells, htext, ih]
      split_ifs <;> simp [Function.comp_def]

theorem endLine_inBytes (t : Text) (ks : List Token) (suffix : Text) :
    endLine (ks.map (Token.inBytes t)) suffix = endLine ks suffix := by
  rw [endLine, List.flatMap_map]
  rfl

theorem caseExpression?_eq (expr suffix : Text) (level : Nat) :
    caseExpression? expr suffix level = some (caseExpression expr suffix level) := by
  have hcontext : contextAt expr 0 = excerpt expr 0 := contextAt_byteOffset expr 0
  rw [caseExpression?, caseExpression, tokens?_eq]
  cases expr.tokens with
  | nil => rfl
  | cons first rest =>
      show (branchLines? 0 _ (rest.map (Token.inBytes expr))).bind _ = _
      rw [branchLines?_eq, branchLines_inBytes]
      have hhead : (first.inBytes expr).text = first.text := rfl
      rw [hhead]
      cases hlines : branchLines 0
          (Keyword.CASE ++ first.text.dropBytes Keyword.CASE.byteLength) rest with
      | none => simp only [hlines, Option.map_none, Option.bind_some, hcontext]
      | some p => simp only [hlines, Option.map_some, Option.bind_some, endLine_inBytes]

/-! ## Searches -/

/-- The offset of the first whole-word occurrence of a keyword outside literals. -/
def firstKeyword? (t keyword : Text) : Option Nat := (keywords t keyword).head?

theorem firstKeyword?_eq (t k : Text) :
    firstKeyword? t k = (t.firstOccurrence? k).map t.byteOffset := by
  rw [firstKeyword?, firstOccurrence?, keywords_eq_octets, occurrences_octets, List.head?_map]

/-- What the parentheses opened at a byte offset enclose, and what follows them, trimmed. -/
def enclosed? (t : Text) (opening : Nat) : Option (Option (Text × Text)) :=
  match t.octets.closeOf? opening with
  | none => some none
  | some closing => do
    let inner ← t.slice? (opening + 1) closing
    let behind ← t.slice? (closing + 1) t.byteLength
    some (some (inner.trim, behind.trim))

theorem enclosed?_eq {t : Text} {o : Nat} (ho : o ≤ t.length) :
    enclosed? t (t.byteOffset o) = some (t.enclosed? o) := by
  rw [enclosed?, closeOf?_octets, indexAt?_byteOffset, Nat.min_eq_left ho, Option.bind_some,
    Text.enclosed?]
  cases hclose : t.closeOf? o with
  | none => rfl
  | some c =>
      have hcloses := closeOf?_eq_some_iff.mp hclose
      rw [Option.map_some]
      dsimp only
      rw [← byteOffset_next hcloses.opening rfl, ← byteOffset_next hcloses.closing rfl,
        slice?_byteOffset t hcloses.order, slice?_end]
      rfl

/-! ## Value lists -/

/-- Lays out a condition with a value list. -/
def inList? (condition suffix : Text) (level : Nat) : Option Layout :=
  match Text.find? inOpening.octets condition.octets with
  | none => some (.ok (plain condition suffix level))
  | some i => do
    match ← enclosed? condition (i + (inOpening.byteLength - 1)) with
    | none => some (.error (.unterminated .inList (contextAt condition (i + 1))))
    | some (list, trailing) =>
      let before ← condition.slice? 0 i
      let values ← listLines? (level + 1) list
      let head := openLine before.trim Keyword.IN
      some (.ok ⟨⟨level, head⟩ :: (values ++ [⟨level, closeLine trailing suffix⟩]), level⟩)

theorem inList?_eq (condition suffix : Text) (level : Nat) :
    inList? condition suffix level = some (inList condition suffix level) := by
  rw [inList?, inList, find?_octets (by decide)]
  cases hfind : find? inOpening condition with
  | none => rfl
  | some i =>
      obtain ⟨hstarts, -⟩ := (find?_eq_some_iff (by decide)).mp hfind
      have hspelled : upper ((condition.drop i).take inOpening.length) = inOpening.upper :=
        same_iff.mp hstarts
      have hle := le_length_of_spelled (by decide) hspelled
      -- all that is found is ASCII, so bytes and characters are counted alike inside it
      have hopening : condition.byteOffset i + (inOpening.byteLength - 1)
          = condition.byteOffset (i + (inOpening.length - 1)) :=
        (byteOffset_within (inOpening.length - 1) hspelled (by decide)).symm
      have hcontext : condition.byteOffset i + 1 = condition.byteOffset (i + 1) :=
        (byteOffset_within 1 hspelled (by decide)).symm
      rw [Option.map_some]
      dsimp only
      rw [hopening, enclosed?_eq (by omega), hcontext, contextAt_byteOffset, slice?_zero]
      cases condition.enclosed? (i + (inOpening.length - 1)) with
      | none => rfl
      | some pair =>
          obtain ⟨list, trailing⟩ := pair
          show (listLines? (level + 1) list).bind _ = _
          rw [listLines?_eq]
          rfl

/-! ## Subqueries -/

/-- Lays out a condition with a subquery, whose inner query is laid out by `nested`. -/
def subquery? (nested : Text → Option (Except Fault Query)) (condition suffix : Text)
    (level : Nat) : Option Layout :=
  match (firstKeyword? condition Keyword.SELECT).bind condition.octets.openAround? with
  | none => some (.ok (plain condition suffix level))
  | some opening => do
    match ← enclosed? condition opening with
    | none => some (.error (.unterminated .subquery (contextAt condition opening)))
    | some (interior, trailing) =>
      let before ← condition.slice? 0 opening
      match ← nested interior with
      | .error e => some (.error e)
      | .ok query =>
        let head := openLine before.trim []
        let inner := (query.shift (level + 1)).lines
        some (.ok ⟨⟨level, head⟩ :: (inner ++ [⟨level, closeLine trailing suffix⟩]), level⟩)

theorem subquery?_eq {nested : Text → Except Fault Query}
    {nested? : Text → Option (Except Fault Query)} {condition : Text}
    (h : ∀ u, queryIn? condition = some u → nested? u = some (nested u)) (suffix : Text)
    (level : Nat) :
    subquery? nested? condition suffix level = some (subquery nested condition suffix level) := by
  -- the search from the right starts at a byte offset too
  have hopen : (firstKeyword? condition Keyword.SELECT).bind condition.octets.openAround?
      = ((condition.firstOccurrence? Keyword.SELECT).bind condition.openAround?).map
        condition.byteOffset := by
    rw [firstKeyword?_eq]
    cases hfirst : condition.firstOccurrence? Keyword.SELECT with
    | none => rfl
    | some i =>
        have hle := (occursAt_of_firstOccurrence? hfirst).length_le
        rw [Option.map_some, Option.bind_some, Option.bind_some, openAround?_octets,
          indexBefore_byteOffset, Nat.min_eq_left (by omega)]
  rw [subquery?, subquery, hopen]
  cases hopening : (condition.firstOccurrence? Keyword.SELECT).bind condition.openAround? with
  | none => rfl
  | some o =>
      have hle : o ≤ condition.length := by
        obtain ⟨place, -, haround⟩ := Option.bind_eq_some_iff.mp hopening
        obtain ⟨-, hparen, -⟩ := opens_of_openAround? haround
        exact Nat.le_of_lt (List.getElem?_eq_some_iff.mp hparen).1
      rw [Option.map_some]
      dsimp only
      rw [enclosed?_eq hle, contextAt_byteOffset, slice?_zero]
      cases henclosed : condition.enclosed? o with
      | none => rfl
      | some pair =>
          obtain ⟨interior, trailing⟩ := pair
          -- the text handed on is the one the layout looks at
          have hnested : nested? interior = some (nested interior) := by
            apply h
            rw [queryIn?, hopening, Option.bind_some, henclosed]
            rfl
          show Option.bind (nested? interior) _ = _
          rw [hnested]
          dsimp only
          cases nested interior <;> rfl

end Bytewise

/-! ## Blanks around a text

What follows a keyword is searched with the blanks around it, or trimmed: a keyword starts and ends
with a character of a word, so it does not reach into the blanks. -/

namespace Text

theorem trim_blank_append {a : Text} (ha : AllBlank a) (x : Text) : trim (a ++ x) = trim x := by
  rw [trim, trimStart_append ha]
  rfl

theorem trim_append_blank {b : Text} (hb : AllBlank b) (x : Text) : trim (x ++ b) = trim x := by
  have hnone : b.trimStart = [] := List.dropWhile_eq_nil_iff.mpr hb
  rw [trim, trim, trimStart, List.dropWhile_append]
  split
  · rename_i hempty
    have hx : x.trimStart = [] := List.isEmpty_iff.mp hempty
    rw [hx]
    exact congrArg trimEnd hnone
  · exact trimEnd_append hb _

theorem occurrencesFrom_add (k : Text) (i m : Nat) (n : Nesting) (inWord : Bool) (t : Text) :
    occurrencesFrom k (i + m) n inWord t = (occurrencesFrom k i n inWord t).map (· + m) := by
  induction t generalizing i n inWord with
  | nil => rfl
  | cons c cs ih =>
      rw [occurrencesFrom_cons, occurrencesFrom_cons, List.map_append, Nat.add_right_comm, ih]
      split <;> rfl

theorem startsKeyword_blank {k b : Text} (hk : IsKeyword k) (hb : AllBlank b) (s : Text) :
    startsKeyword (s ++ b) k = startsKeyword s k := by
  rw [Bool.eq_iff_iff, startsKeyword_iff, startsKeyword_iff]
  rcases Nat.lt_or_ge s.length k.length with hlt | hle
  · refine iff_of_false ?_ ?_
    · -- then the keyword would end with a blank
      rintro ⟨hspelled, -⟩
      have hlength := length_eq_of_upper_eq hspelled
      rw [List.take_append, List.take_of_length_le (Nat.le_of_lt hlt), hk.upper, upper_append]
        at hspelled
      rw [List.take_append, List.take_of_length_le (Nat.le_of_lt hlt), List.length_append]
        at hlength
      have hne : upper (b.take (k.length - s.length)) ≠ [] := by
        intro hnil
        rw [List.map_eq_nil_iff.mp hnil, List.length_nil] at hlength
        omega
      have hlast := hk.last
      rw [← hspelled, List.getLast?_append_of_ne_nil _ hne,
        List.getLast?_eq_getLast_of_ne_nil hne, Option.any_some] at hlast
      obtain ⟨c, hc, heq⟩ := List.mem_map.mp (List.getLast_mem hne)
      rw [← heq, isWordChar_toUpper,
        isWordChar_of_isBlank (hb c (List.mem_of_mem_take hc))] at hlast
      cases hlast
    · rintro ⟨hspelled, -⟩
      have hlength := length_eq_of_upper_eq hspelled
      rw [List.length_take] at hlength
      omega
  · rw [List.take_append_of_le_length hle, List.drop_append_of_le_length hle]
    refine and_congr_right fun _ => ?_
    cases s.drop k.length with
    | nil =>
        refine iff_of_true (fun c hc => ?_) (fun c hc => (by cases hc))
        exact isWordChar_of_isBlank (hb c (List.mem_of_head? hc))
    | cons c cs => exact Iff.rfl

theorem occurrences_blanks {k a u b : Text} (hk : IsKeyword k) (ha : AllBlank a)
    (hb : AllBlank b) : occurrences (a ++ (u ++ b)) k = (u.occurrences k).map (· + a.length) := by
  have hother : ∀ {x : Text}, AllBlank x → ∀ c ∈ x, isWordChar c = false :=
    fun hx c hc => isWordChar_of_isBlank (hx c hc)
  have hfirst :
      occurrences (a ++ (u ++ b)) k = occurrencesFrom k a.length .start false (u ++ b) := by
    by_cases hnil : a = []
    · rw [hnil]
      rfl
    · rw [occurrences, occurrencesFrom_others hnil (hother ha), Nat.zero_add,
        Nesting.scan_allBlank rfl ha]
  have hlast : ∀ i n w, occurrencesFrom k i n w b = [] := by
    intro i n w
    by_cases hnil : b = []
    · rw [hnil]
      rfl
    · rw [← List.append_nil b, occurrencesFrom_others hnil (hother hb)]
      rfl
  have hsplit := occurrencesFrom_append (k := k) (s := u) (r := b)
    (fun c cs _ => startsKeyword_blank hk hb (c :: cs)) a.length .start none
  rw [hlast, List.append_nil] at hsplit
  calc occurrences (a ++ (u ++ b)) k = occurrencesFrom k a.length .start false u :=
        hfirst.trans hsplit
    _ = occurrencesFrom k (0 + a.length) .start false u := by rw [Nat.zero_add]
    _ = (u.occurrences k).map (· + a.length) := occurrencesFrom_add k 0 a.length .start false u

end Text

theorem Layout.aroundKeyword_trim {k : Text} (hk : IsKeyword k) (t : Text) :
    aroundKeyword t.trim k = aroundKeyword t k := by
  obtain ⟨a, b, ha, hb, ht⟩ := trim_split t
  have hplace : t.firstOccurrence? k = (t.trim.firstOccurrence? k).map (· + a.length) := by
    conv_lhs => rw [ht]
    rw [firstOccurrence?, occurrences_blanks hk ha hb, List.head?_map, firstOccurrence?]
  rw [aroundKeyword, aroundKeyword, hplace]
  cases hfirst : t.trim.firstOccurrence? k with
  | none => rw [Option.map_none, trim_trim]
  | some i =>
      have hle := (occursAt_of_firstOccurrence? hfirst).length_le
      have htake : t.take (i + a.length) = a ++ t.trim.take i := by
        conv_lhs => rw [ht]
        rw [Nat.add_comm, List.take_length_add_append, List.take_append_of_le_length (by omega)]
      have hdrop : t.drop (i + a.length + k.length) = t.trim.drop (i + k.length) ++ b := by
        conv_lhs => rw [ht]
        rw [Nat.add_comm i, Nat.add_assoc, List.drop_length_add_append,
          List.drop_append_of_le_length hle]
      rw [Option.map_some]
      dsimp only
      rw [htake, hdrop, trim_blank_append ha, trim_append_blank hb]

namespace Bytewise

/-! ## Window functions -/

/-- The text before the first occurrence of a keyword and the text after it, trimmed. -/
def aroundKeyword? (text keyword : Text) : Option (Text × Option Text) :=
  match firstKeyword? text keyword with
  | some i => do
    let before ← text.slice? 0 i
    let behind ← text.slice? (i + keyword.byteLength) text.byteLength
    some (before.trim, some behind.trim)
  | none => some (text.trim, none)

/-- The lines of the `ORDER BY` part and the `ROWS` part of a window specification. -/
def orderLines? (text : Text) : Option (List Text) := do
  match ← aroundKeyword? text Keyword.ROWS with
  | (order, none) => some [headed Keyword.ORDER_BY order]
  | (order, some rows) => some [headed Keyword.ORDER_BY order, headed Keyword.ROWS rows]

/-- The lines of a window specification. What follows `PARTITION BY` is searched as it stands,
with the blanks around it. -/
def windowLines? (spec : Text) : Option (List Text) :=
  match firstKeyword? spec Keyword.PARTITION_BY with
  | none => some (if spec.isEmpty then [] else [spec])
  | some i => do
    let before ← spec.slice? 0 i
    let behind ← spec.slice? (i + Keyword.PARTITION_BY.byteLength) spec.byteLength
    let lines ←
      match ← aroundKeyword? behind Keyword.ORDER_BY with
      | (partition, none) => some [headed Keyword.PARTITION_BY partition]
      | (partition, some order) => do
        let lines ← orderLines? order
        some (headed Keyword.PARTITION_BY partition :: lines)
    some (if before.trim.isEmpty then lines else before.trim :: lines)

/-- Lays out a column with a window function. -/
def windowFunction? (column suffix : Text) (level : Nat) : Option Layout :=
  match firstKeyword? column Keyword.OVER with
  | none => some (.ok (plain column suffix level))
  | some i => do
    let func ← column.slice? 0 i
    let behind ← column.slice? (i + Keyword.OVER.byteLength) column.byteLength
    let opening ← minus? column.byteLength behind.trimStart.byteLength
    if behind.trimStart.head? == some '(' then
      match ← enclosed? column opening with
      | none => some (.error (.unterminated .windowSpec (contextAt column opening)))
      | some (spec, trailing) =>
        let parts ← windowLines? spec
        let head := openLine func.trimEnd Keyword.OVER
        let lines := parts.map fun part => ⟨level + 1, part⟩
        some (.ok ⟨⟨level, head⟩ :: (lines ++ [⟨level, closeLine trailing suffix⟩]), level⟩)
    else some (.ok (plain column suffix level))

theorem aroundKeyword?_eq (text k : Text) :
    aroundKeyword? text k = some (aroundKeyword text k) := by
  rw [aroundKeyword?, aroundKeyword, firstKeyword?_eq]
  cases hfirst : text.firstOccurrence? k with
  | none => rfl
  | some i =>
      rw [Option.map_some]
      dsimp only
      rw [slice?_zero, slice?_behind (occursAt_of_firstOccurrence? hfirst).spelled]
      rfl

theorem orderLines?_eq (text : Text) : orderLines? text = some (orderLines text) := by
  rw [orderLines?, orderLines, aroundKeyword?_eq]
  obtain ⟨order, rows⟩ := aroundKeyword text Keyword.ROWS
  cases rows <;> rfl

theorem windowLines?_eq (spec : Text) : windowLines? spec = some (windowLines spec) := by
  rw [windowLines?, windowLines, firstKeyword?_eq, aroundKeyword]
  cases hfirst : spec.firstOccurrence? Keyword.PARTITION_BY with
  | none => rfl
  | some i =>
      rw [Option.map_some]
      dsimp only
      rw [slice?_zero, slice?_behind (occursAt_of_firstOccurrence? hfirst).spelled, partitionLines,
        aroundKeyword_trim (windowKeywords_isKeyword _ (by decide))]
      show Option.bind (aroundKeyword? _ Keyword.ORDER_BY) _ = _
      rw [aroundKeyword?_eq]
      obtain ⟨partition, order⟩ :=
        aroundKeyword (spec.drop (i + Keyword.PARTITION_BY.length)) Keyword.ORDER_BY
      cases order with
      | none => rfl
      | some order =>
          show Option.bind (orderLines? order) _ = _
          rw [orderLines?_eq]
          rfl

/-- Where the end of a text starts. -/
theorem minus?_suffix {t after : Text} (h : ∃ x, t = x ++ after) :
    minus? t.byteLength after.byteLength = some (t.byteOffset (t.length - after.length)) := by
  obtain ⟨x, rfl⟩ := h
  have hlength : (x ++ after).length - after.length = x.length := by
    rw [List.length_append, Nat.add_sub_cancel]
  have hoffset : byteOffset (x ++ after) x.length = x.byteLength := by
    rw [byteOffset, List.take_left]
  rw [minus?, byteLength_append, if_pos (Nat.le_add_left _ _), Nat.add_sub_cancel, hlength, hoffset]

theorem windowFunction?_eq (column suffix : Text) (level : Nat) :
    windowFunction? column suffix level = some (windowFunction column suffix level) := by
  rw [windowFunction?, windowFunction, firstKeyword?_eq]
  cases hfirst : column.firstOccurrence? Keyword.OVER with
  | none => rfl
  | some i =>
      rw [Option.map_some]
      dsimp only
      rw [slice?_zero, slice?_behind (occursAt_of_firstOccurrence? hfirst).spelled]
      simp only [Option.bind_eq_bind, Option.bind_some]
      generalize hafter : trimStart (column.drop (i + Keyword.OVER.length)) = after
      have hsuffix : ∃ x, column = x ++ after := by
        obtain ⟨blanks, -, hblanks⟩ := trimStart_split (column.drop (i + Keyword.OVER.length))
        refine ⟨column.take (i + Keyword.OVER.length) ++ blanks, ?_⟩
        rw [List.append_assoc, ← hafter, ← hblanks, List.take_append_drop]
      -- the blanks behind the keyword may have any width, so the place is counted from the end
      have hopening := minus?_suffix hsuffix
      rw [hopening, Option.bind_some]
      cases hparen : after.head? == some '(' with
      | false => rfl
      | true =>
          show Option.bind (enclosed? column _) _ = _
          rw [enclosed?_eq (Nat.sub_le _ _), contextAt_byteOffset]
          cases column.enclosed? (column.length - after.length) with
          | none => rfl
          | some pair =>
              obtain ⟨spec, trailing⟩ := pair
              show Option.bind (windowLines? spec) _ = _
              rw [windowLines?_eq]
              rfl

end Bytewise

end SqlLayout
