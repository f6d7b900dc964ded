import SqlLayout.Proofs.Columns
import SqlLayout.Proofs.Verdicts
import SqlLayout.Statement.Clause

set_option autoImplicit false

/-! # Letter case and scans

What a scan finds does not depend on the case of letters. A place in a text stays where it is,
and a part that is cut out of the text in upper case is that part in upper case. So each of the
operations of this library has a rule that moves `Text.upper` outwards, from `trim_upper` to
`validate_upper` and `clauses_upper`.

The rules about literals ask that the scan stands in a literal opened by a quote mark: a letter
would not close the literal that its capital opened.
-/

namespace SqlLayout

/-! ## Characters -/

/-- Whether a text starts or ends with a given mark does not depend on its case. -/
theorem map_toUpper_beq {d : Char} (hd : isWordChar d = false) (o : Option Char) :
    (o.map Char.toUpper == some d) = (o == some d) := by
  cases o with
  | none => rfl
  | some c => exact beq_toUpper hd c

namespace Text

/-! ## Texts

Taking, dropping and trimming commute with `upper`, because they go by places or by tests that
do not see the case. The rules that hold without a condition are simplification rules, so the
proofs about layouts need not name them. -/

theorem upper_cons (c : Char) (cs : Text) : upper (c :: cs) = c.toUpper :: upper cs := rfl

@[simp] theorem isEmpty_upper (t : Text) : t.upper.isEmpty = t.isEmpty := by
  cases t <;> rfl

@[simp] theorem take_upper (i : Nat) (t : Text) : t.upper.take i = upper (t.take i) :=
  List.map_take.symm

@[simp] theorem drop_upper (i : Nat) (t : Text) : t.upper.drop i = upper (t.drop i) :=
  List.map_drop.symm

theorem head?_upper (t : Text) : t.upper.head? = t.head?.map Char.toUpper := List.head?_map

theorem takeWhile_upper {p : Char → Bool} (hp : ∀ c : Char, p c.toUpper = p c) (t : Text) :
    t.upper.takeWhile p = upper (t.takeWhile p) := by
  have hcomp : p ∘ Char.toUpper = p := funext hp
  rw [upper, List.takeWhile_map, hcomp]
  rfl

theorem dropWhile_upper {p : Char → Bool} (hp : ∀ c : Char, p c.toUpper = p c) (t : Text) :
    t.upper.dropWhile p = upper (t.dropWhile p) := by
  have hcomp : p ∘ Char.toUpper = p := funext hp
  rw [upper, List.dropWhile_map, hcomp]
  rfl

@[simp] theorem trimStart_upper (t : Text) : t.upper.trimStart = t.trimStart.upper :=
  dropWhile_upper isBlank_toUpper t

@[simp] theorem trimEnd_upper (t : Text) : t.upper.trimEnd = t.trimEnd.upper := by
  have hrev : ∀ s : Text, s.upper.reverse = upper s.reverse := fun s => List.map_reverse.symm
  rw [trimEnd, hrev, dropWhile_upper isBlank_toUpper, hrev]
  rfl

@[simp] theorem trim_upper (t : Text) : t.upper.trim = t.trim.upper := by
  rw [trim, trimStart_upper, trimEnd_upper]
  rfl

@[simp] theorem firstWord_upper (t : Text) : t.upper.firstWord = t.firstWord.upper :=
  takeWhile_upper isWordChar_toUpper t

/-- Runs of characters are cut in the same places, for a test that does not see the case. -/
theorem runsFrom_upper {p : Char → Bool} (hp : ∀ c : Char, p c.toUpper = p c) (inside : Bool)
    (t : Text) : runsFrom p inside t.upper = (runsFrom p inside t).map upper := by
  induction t generalizing inside with
  | nil => rfl
  | cons c cs ih =>
      have htake := takeWhile_upper hp (c :: cs)
      rw [upper_cons] at htake ⊢
      rw [runsFrom, runsFrom, hp, htake, ih, ih]
      split_ifs <;> rfl

@[simp] theorem words_upper (t : Text) : t.upper.words = t.words.map upper :=
  runsFrom_upper (fun c => by rw [isBlank_toUpper]) false t

theorem join_upper (sep : Text) (ps : List Text) :
    join sep.upper (ps.map upper) = (join sep ps).upper := by
  induction ps with
  | nil => rfl
  | cons p ps ih =>
      cases ps with
      | nil => rfl
      | cons q qs =>
          rw [List.map_cons, List.map_cons, join, join, ← List.map_cons, ih, upper_append,
            upper_append]

/-! ### Bytes

Case is changed for the 26 small letters only, which take one byte in either case. -/

/-- A capital takes as many bytes as its small letter, so places in bytes stay as well. -/
@[simp] theorem byteLength_upper (t : Text) : t.upper.byteLength = t.byteLength := by
  induction t with
  | nil => rfl
  | cons c cs ih => rw [upper_cons, byteLength, byteLength, utf8Size_toUpper, ih]

@[simp] theorem byteOffset_upper (t : Text) (i : Nat) :
    t.upper.byteOffset i = t.byteOffset i := by
  rw [byteOffset, take_upper, byteLength_upper]
  rfl

/-- A byte offset leads to the same character. -/
theorem indexAt?_upper (n : Nat) (t : Text) : indexAt? n t.upper = indexAt? n t := by
  induction t generalizing n with
  | nil => rfl
  | cons c cs ih =>
      cases n with
      | zero => rfl
      | succ n => rw [upper_cons, indexAt?, indexAt?, utf8Size_toUpper, ih]

@[simp] theorem dropBytes_upper (n : Nat) (t : Text) :
    t.upper.dropBytes n = (t.dropBytes n).upper := by
  rw [dropBytes, dropBytes, indexAt?_upper]
  cases indexAt? n t with
  | none => rfl
  | some i => exact drop_upper i t

@[simp] theorem excerpt_upper (t : Text) (i : Nat) :
    excerpt t.upper i = (excerpt t i).upper := by
  rw [excerpt, drop_upper, take_upper]
  rfl

/-! ### Searching

A search that compares up to case answers with the same place. -/

@[simp] theorem startsWith_upper (t p : Text) : t.upper.startsWith p = t.startsWith p := by
  rw [startsWith, take_upper, same_upper]
  rfl

@[simp] theorem find?_upper (needle t : Text) : find? needle t.upper = find? needle t := by
  induction t with
  | nil => rfl
  | cons c cs ih =>
      have hstart := startsWith_upper (c :: cs) needle
      rw [upper_cons] at hstart ⊢
      rw [find?, find?, hstart, ih]

/-- The separator is compared up to case, so a text is cut at the same places; what is cut out comes
in upper case. -/
theorem cutAt_upper (sep : Text) (k : Nat) (t : Text) :
    cutAt sep k t.upper = Prod.map upper (List.map upper) (cutAt sep k t) := by
  induction t generalizing k with
  | nil => cases k <;> rfl
  | cons c cs ih =>
      cases k with
      | succ k => exact ih k
      | zero =>
          have hstart := startsWith_upper (c :: cs) sep
          rw [upper_cons] at hstart ⊢
          rw [cutAt, cutAt, hstart, ih, ih]
          split_ifs <;> rfl

@[simp] theorem splitOn_upper (t sep : Text) : t.upper.splitOn sep = (t.splitOn sep).map upper := by
  unfold splitOn
  split_ifs
  · simp [upper]
  · rw [cutAt_upper]
    rfl

@[simp] theorem splitCommas_upper (t : Text) :
    t.upper.splitCommas = t.splitCommas.map upper := by
  rw [splitCommas, splitOn_upper, List.map_map, splitCommas, List.map_map]
  exact List.map_congr_left (fun p _ => trim_upper p)

/-- Looking ahead for a word does not see the case. -/
@[simp] theorem nextIs_upper (w t : Text) : nextIs w t.upper = nextIs w t := by
  rw [nextIs, trimStart_upper, firstWord_upper, same_upper]
  rfl

/-- A keyword starts a text in whatever case: it is compared up to case, and the character behind
it goes on with the word, or does not, in either case. -/
@[simp] theorem startsKeyword_upper (t k : Text) : t.upper.startsKeyword k = t.startsKeyword k := by
  have hany : ∀ o : Option Char, (o.map Char.toUpper).any isWordChar = o.any isWordChar := by
    intro o
    cases o with
    | none => rfl
    | some c => exact isWordChar_toUpper c
  rw [startsKeyword, startsWith_upper, drop_upper, head?_upper, hany]
  rfl

end Text

/-! ## Scans

Each scan reads one character after another and carries the nesting along. For each there is one
lemma about any state it may be in, by induction over the text, and one about the whole text,
which starts outside everything. -/

open Text

/-- One character of a scan, or its refusal of a `)` that closes nothing. -/
theorem Nesting.next?_toUpper {n : Nesting} (h : n.quoting.Sound) (c : Char) :
    n.next? c.toUpper = n.next? c := by
  have hnext := Nesting.next_toUpper h c
  by_cases hfault : c = ')' ∧ n = ⟨0, .outside⟩
  · obtain ⟨rfl, rfl⟩ := hfault
    rfl
  · have hopen : c = ')' → n.isQuoted = false → 0 < n.depth := by
      intro hc hq
      by_contra hd
      refine hfault ⟨hc, ?_⟩
      rw [Nesting.eq_of_unquoted hq, Nat.eq_zero_of_not_pos hd]
    have hopen' : c.toUpper = ')' → n.isQuoted = false → 0 < n.depth := by
      intro hc
      exact hopen ((toUpper_eq_iff_of_not_word (by decide) c).mp hc)
    rw [Nesting.next?_eq_some hopen, Nesting.next?_eq_some hopen', hnext]

namespace Text

/-- A keyword occurs at the same places. -/
theorem occurrencesFrom_upper (k : Text) {n : Nesting} (h : n.quoting.Sound) (i : Nat) (w : Bool)
    (t : Text) : occurrencesFrom k i n w t.upper = occurrencesFrom k i n w t := by
  induction t generalizing n i w with
  | nil => rfl
  | cons c cs ih =>
      have hstart := startsKeyword_upper (c :: cs) k
      rw [upper_cons] at hstart ⊢
      rw [occurrencesFrom, occurrencesFrom, hstart, Nesting.next_toUpper h, isWordChar_toUpper,
        ih (Nesting.sound_next h c)]

@[simp] theorem occurrences_upper (t k : Text) : t.upper.occurrences k = t.occurrences k :=
  occurrencesFrom_upper k sound_start 0 false t

@[simp] theorem firstOccurrence?_upper (t k : Text) :
    t.upper.firstOccurrence? k = t.firstOccurrence? k := by
  rw [firstOccurrence?, occurrences_upper]
  rfl

@[simp] theorem hasKeyword_upper (t k : Text) : t.upper.hasKeyword k = t.hasKeyword k := by
  rw [hasKeyword, firstOccurrence?_upper]
  rfl

/-! ### Parentheses -/

/-- The closing parenthesis is found at the same place. -/
theorem closeFrom_upper {n : Nesting} (h : n.quoting.Sound) (i : Nat) (t : Text) :
    closeFrom i n t.upper = closeFrom i n t := by
  induction t generalizing n i with
  | nil => rfl
  | cons c cs ih =>
      rw [upper_cons, closeFrom, closeFrom, Nesting.next?_toUpper h, beq_toUpper (by decide)]
      cases hnext : n.next? c with
      | none => rfl
      | some m =>
          have hm : m = n.next c := by rw [Nesting.next, hnext]; rfl
          simp only [ih (n := m) (hm ▸ Nesting.sound_next h c)]

@[simp] theorem closeOf?_upper (t : Text) (o : Nat) : t.upper.closeOf? o = t.closeOf? o := by
  have hget : t.upper[o]? = t[o]?.map Char.toUpper := List.getElem?_map
  rw [closeOf?, hget, map_toUpper_beq (by decide), drop_upper, closeFrom_upper sound_start]
  rfl

/-- The same parentheses are open. -/
theorem openParens_upper {n : Nesting} (h : n.quoting.Sound) (i : Nat) (opened : List Nat)
    (t : Text) : openParens i n opened t.upper = openParens i n opened t := by
  induction t generalizing n i opened with
  | nil => rfl
  | cons c cs ih =>
      rw [upper_cons, openParens, openParens, beq_toUpper (by decide), beq_toUpper (by decide),
        Nesting.next_toUpper h, ih (Nesting.sound_next h c)]

@[simp] theorem openAround?_upper (t : Text) (place : Nat) :
    t.upper.openAround? place = t.openAround? place := by
  rw [openAround?, take_upper, openParens_upper sound_start]
  rfl

/-- What stands in parentheses, and what follows them, comes in upper case. -/
@[simp] theorem enclosed?_upper (t : Text) (o : Nat) :
    t.upper.enclosed? o = (t.enclosed? o).map (Prod.map upper upper) := by
  rw [enclosed?, closeOf?_upper, enclosed?, Option.map_map]
  cases t.closeOf? o with
  | none => rfl
  | some c => simp

/-! ### Columns -/

/-- Columns are cut at the same commas. The scan compares each word with `CASE` and `END`, and the
word behind a comma with `OVER`; all of this is done up to case. -/
theorem columnsFrom_upper {n : Nesting} (h : n.quoting.Sound) (w : Bool) (d : Nat) (t : Text) :
    columnsFrom n w d t.upper = Prod.map upper (List.map upper) (columnsFrom n w d t) := by
  induction t generalizing n w d with
  | nil => rfl
  | cons c cs ih =>
      have hword := firstWord_upper (c :: cs)
      rw [upper_cons] at hword ⊢
      rw [columnsFrom_cons, columnsFrom_cons, hword, isWordChar_toUpper, Nesting.next_toUpper h,
        caseDepthAfter_upper, beq_toUpper (by decide), nextIs_upper]
      dsimp only
      rw [ih (Nesting.sound_next h c)]
      split_ifs <;> rfl

@[simp] theorem columns_upper (t : Text) : t.upper.columns = t.columns.map upper := by
  rw [columns_eq, columns_eq, columnsFrom_upper sound_start]
  simp only [Prod.map_fst, Prod.map_snd, List.isEmpty_map, trim_upper, isEmpty_upper]
  split_ifs
  · rfl
  · rw [← List.map_cons, List.map_map, List.map_map]
    exact List.map_congr_left (fun p _ => trim_upper p)

end Text

/-! ### Tokens and clauses

A token in upper case keeps its place and its nesting; which boundary starts at it is decided by
comparing one or two words up to case. -/

/-- The token in upper case. -/
def Token.upper (t : Token) : Token := ⟨t.text.upper, t.index, t.nesting⟩

@[simp] theorem Token.spells_upper (t : Token) (k : Text) : t.upper.spells k = t.spells k := by
  rw [Token.spells, Token.upper, same_upper]
  rfl

/-- The tokens have the same places and the same nesting. -/
theorem Token.scan_upper {n : Nesting} (h : n.quoting.Sound) (i : Nat) (inside : Bool)
    (t : Text) : Token.scan i n inside t.upper = (Token.scan i n inside t).map Token.upper := by
  have hspace : ∀ c : Char, (c.toUpper == ' ') = (c == ' ') := beq_toUpper (by decide)
  induction t generalizing n i inside with
  | nil => rfl
  | cons c cs ih =>
      have htake := takeWhile_upper (p := (· != ' ')) (fun c => by rw [bne, hspace]; rfl) (c :: cs)
      rw [upper_cons] at htake ⊢
      rw [Token.scan, Token.scan, hspace, htake, Nesting.next_toUpper h,
        ih (Nesting.sound_next h c), ih (Nesting.sound_next h c)]
      split_ifs <;> rfl

@[simp] theorem Text.tokens_upper (t : Text) : t.upper.tokens = t.tokens.map Token.upper :=
  Token.scan_upper sound_start 0 false t

/-- The words that start a clause start it in whatever case. -/
theorem Boundary.ofWords?_upper (w : Text) : ofWords? w.upper = ofWords? w := by
  simp only [ofWords?, same_upper]

theorem Boundary.ofTokens?_upper (ts : List Token) :
    ofTokens? (ts.map Token.upper) = ofTokens? ts := by
  cases ts with
  | nil => rfl
  | cons t ts =>
      cases ts with
      | nil =>
          simp only [List.map_cons, List.map_nil, ofTokens?, Token.upper, ofWords?_upper]
      | cons u us =>
          have htwo : t.text.upper ++ ' ' :: u.text.upper = upper (t.text ++ ' ' :: u.text) := by
            rw [upper_append]
            rfl
          simp only [List.map_cons, ofTokens?, Token.upper, htwo, ofWords?_upper]

namespace Clause

/-- The clause in upper case. -/
def upper (c : Clause) : Clause := ⟨c.kind, c.keyword, c.text.upper, c.body.upper⟩

theorem ofBoundary_upper (b : Option Boundary) (t : Text) :
    ofBoundary b t.upper = (ofBoundary b t).upper := by
  cases b with
  | none => simp [ofBoundary, ofText, Clause.upper]
  | some b => simp [ofBoundary, ofText, Clause.upper]

theorem laterStarts_upper (ts : List Token) :
    laterStarts (ts.map Token.upper) = laterStarts ts := by
  induction ts with
  | nil => rfl
  | cons t ts ih =>
      have hfirst := Boundary.ofTokens?_upper (t :: ts)
      rw [List.map_cons] at hfirst ⊢
      rw [laterStarts, laterStarts, hfirst, ih]
      rfl

theorem starts_upper (ts : List Token) : starts (ts.map Token.upper) = starts ts := by
  cases ts with
  | nil => rfl
  | cons t ts =>
      have hfirst := Boundary.ofTokens?_upper (t :: ts)
      rw [List.map_cons] at hfirst ⊢
      rw [starts, starts, hfirst, laterStarts_upper]
      rfl

theorem cut_upper (s : Text) (places : List (Nat × Option Boundary)) :
    cut s.upper places = (cut s places).map Clause.upper := by
  induction places with
  | nil => rfl
  | cons p rest ih =>
      cases rest with
      | nil => simp [cut, ofBoundary_upper]
      | cons p' rest => simp [cut, ofBoundary_upper, ih]

end Clause

/-- A statement is cut into the same clauses. -/
theorem Text.clauses_upper (s : Text) : s.upper.clauses = s.clauses.map Clause.upper := by
  rw [clauses, tokens_upper, Clause.starts_upper, Clause.cut_upper]
  rfl

/-! ## Statements

A fault names a place, a construct, or an excerpt of the statement. Only the excerpt shows the
case. -/

/-- Blanks are set right in the same places. -/
theorem Text.normalize_upper (t : Text) : t.upper.normalize = t.normalize.upper := by
  rw [normalize, words_upper]
  exact join_upper [' '] t.words

theorem Text.withoutTerminator_upper (t : Text) :
    t.upper.withoutTerminator = t.withoutTerminator.upper := by
  have hlast : t.upper.getLast? = t.getLast?.map Char.toUpper := List.getLast?_map
  have hdrop : t.upper.dropLast = upper t.dropLast := List.map_dropLast.symm
  rw [withoutTerminator, hlast, map_toUpper_beq (by decide), hdrop, trimEnd_upper,
    withoutTerminator]
  split_ifs <;> rfl

/-- The fault with its excerpt in upper case. -/
def Fault.upper : Fault → Fault
  | .unterminated c context => .unterminated c context.upper
  | f => f

namespace Check

theorem casesAfter_upper (cases : List Nat) (i : Nat) (w : Text) :
    casesAfter cases i w.upper = casesAfter cases i w := by
  simp only [casesAfter, same_upper]

/-- One character of the check: it goes on in the same state, or finds the same fault with the
excerpt in upper case. -/
theorem read_upper {k : Check} (h : k.nesting.quoting.Sound) (whole : Text) (c : Char)
    (cs : Text) :
    k.read whole.upper c.toUpper (Text.upper cs)
      = (k.read whole c cs).mapError Fault.upper := by
  have hword := firstWord_upper (c :: cs)
  rw [upper_cons] at hword
  unfold read
  rw [hword, casesAfter_upper, Nesting.next_toUpper h, isWordChar_toUpper,
    beq_toUpper (by decide), beq_toUpper (by decide), beq_toUpper (by decide),
    isQuoteMark_toUpper, byteOffset_upper]
  dsimp only
  split_ifs
  · rfl
  · rfl
  · rfl
  · rfl
  · cases k.parens <;> rfl
  · rfl
  · rfl
  · rfl

theorem verdict_upper (k : Check) (whole : Text) :
    k.verdict whole.upper = (k.verdict whole).mapError Fault.upper := by
  unfold verdict
  rw [excerpt_upper]
  split_ifs
  · rfl
  · cases k.parens.getLast? with
    | some i => simp [Except.mapError, Fault.upper]
    | none =>
        cases k.cases.getLast? with
        | some i => simp [Except.mapError, Fault.upper]
        | none => rfl

theorem run_upper {k : Check} (h : k.nesting.quoting.Sound) (whole t : Text) :
    k.run whole.upper t.upper = (k.run whole t).mapError Fault.upper := by
  induction t generalizing k with
  | nil => exact verdict_upper k whole
  | cons c cs ih =>
      rw [upper_cons, run, run, read_upper h]
      cases hread : k.read whole c cs with
      | error f => rfl
      | ok k' =>
          refine ih ?_
          rw [nesting_read hread]
          exact Nesting.sound_next h c

end Check

/-- A statement in upper case is accepted, or refused for the same reason at the same place. -/
theorem validate_upper (s : Text) : validate s.upper = (validate s).mapError Fault.upper :=
  Check.run_upper sound_start s s

end SqlLayout
