import SqlLayout.Proofs.KeywordPlaces
import SqlLayout.Proofs.TokenRuns
import SqlLayout.Proofs.ConditionLists
import SqlLayout.Proofs.Diagnosis

set_option autoImplicit false

/-! # Cuts by bytes

The functions that cut a statement, written as loops over bytes. A loop keeps byte offsets, and
every part of the text is cut out by `Text.slice?`, which refuses an offset that no character starts
at.
Each of them returns what its counterpart by characters returns (`validate?_eq`, `columns?_eq`,
`split?_eq`, `clauses?_eq`); in particular none of their cuts is ever refused.

The loops that pass over whole words are compared with the scans by characters along
`Text.word_induction`.
-/

namespace SqlLayout

open Text

/-! ## Words and their bytes -/

namespace Text

theorem octets_words {w : Text} (hw : ∀ c ∈ w, isWordChar c = true) : w.octets = w := by
  induction w with
  | nil => rfl
  | cons c cs ih =>
      rw [octets_cons, octets_word (hw c List.mem_cons_self),
        ih fun d hd => hw d (List.mem_cons_of_mem c hd)]
      rfl

theorem head_octets {r : Text} (hr : ∀ c, r.head? = some c → isWordChar c = false) :
    ∀ c, r.octets.head? = some c → isWordChar c = false := by
  have hnone : r.head?.any isWordChar = false := (Option.any_eq_false _ _).mpr hr
  rw [← head?_octets] at hnone
  exact (Option.any_eq_false _ _).mp hnone

end Text

/-! ## The check -/

namespace Bytewise

/-- The beginning of the text from a byte offset on, as messages show it. -/
def contextAt (t : Text) (i : Nat) : Text := (t.dropBytes i).take excerptLength

/-- Reads a byte that is in a literal or in no word. -/
def checkByte (k : Check) (c : Char) : Except Fault Check :=
  let next : Check := { k with index := k.index + 1, nesting := k.nesting.next c }
  if k.nesting.isQuoted then .ok next
  else if c == '(' then .ok { next with parens := k.index :: k.parens }
  else if c == ')' then
    match k.parens with
    | [] => .error (.unbalancedParentheses k.index)
    | _ :: ps => .ok { next with parens := ps }
  else if c == terminator && k.nesting.depth == 0 then .error (.severalStatements k.index)
  else if isQuoteMark c then .ok { next with quoteStart := k.index }
  else .ok next

/-- The verdict at the end of the statement. -/
def checkEnd (t : Text) (k : Check) : Except Fault Unit :=
  if k.nesting.isQuoted then .error (.unterminated .stringLiteral (contextAt t k.quoteStart))
  else match k.parens.getLast?, k.cases.getLast? with
    | some i, _ => .error (.unbalancedParentheses i)
    | none, some i => .error (.unterminated .caseExpression (contextAt t i))
    | none, none => .ok ()

/-- Reads the rest of the bytes. A word outside literals is cut out and passed over as a whole, so
the flag of the state is of no use. -/
def checkFrom (t : Text) (k : Check) (rest : Text) : Option (Except Fault Unit) :=
  match rest with
  | [] => some (checkEnd t k)
  | c :: cs =>
    if !k.nesting.isQuoted && isWordChar c then do
      let wordEnd := k.index + (Text.firstWord (c :: cs)).length
      let w ← t.slice? k.index wordEnd
      let cases := Check.casesAfter k.cases k.index w
      checkFrom t { k with index := wordEnd, cases := cases } (cs.dropWhile isWordChar)
    else
      match checkByte k c with
      | .error e => some (.error e)
      | .ok k' => checkFrom t k' cs
termination_by rest.length
decreasing_by
  · exact Nat.lt_succ_of_le (List.dropWhile_sublist isWordChar).length_le
  · exact Nat.lt_succ_self _

/-- The check of a statement. -/
def validate? (t : Text) : Option (Except Fault Unit) := checkFrom t .start t.octets

/-! ### One step -/

theorem checkByte_eq {k : Check} {c : Char} (h : (!k.nesting.isQuoted && isWordChar c) = false)
    (cs : Text) :
    checkByte k c =
      if k.nesting.isQuoted = false ∧ c = ')' ∧ k.parens = [] then
        .error (.unbalancedParentheses k.index)
      else if k.nesting.isQuoted = false ∧ c = terminator ∧ k.nesting.depth = 0 then
        .error (.severalStatements k.index)
      else .ok { k.next c cs with inWord := k.inWord } := by
  cases hq : k.nesting.isQuoted with
  | true => simp [checkByte, Check.next, hq]
  | false =>
      have hw : isWordChar c = false := by simpa [hq] using h
      by_cases hopen : c = '('
      · subst hopen
        simp [checkByte, Check.next, hq, hw, terminator, isQuoteMark]
      · by_cases hclose : c = ')'
        · subst hclose
          cases hp : k.parens <;> simp [checkByte, Check.next, hq, hw, hp, terminator, isQuoteMark]
        · by_cases hend : c = terminator ∧ k.nesting.depth = 0
          · obtain ⟨rfl, hzero⟩ := hend
            simp [checkByte, hq, hzero, terminator]
          · cases hm : isQuoteMark c <;>
              simp [checkByte, Check.next, hq, hw, hopen, hclose, hend, hm]

theorem checkFrom_word {k : Check} (hk : k.nesting.isQuoted = false) {w r : Text} (hne : w ≠ [])
    (hw : ∀ c ∈ w, isWordChar c = true) (hr : ∀ c, r.head? = some c → isWordChar c = false)
    (t : Text) :
    checkFrom t k (w ++ r) = (t.slice? k.index (k.index + w.length)).bind fun x =>
      checkFrom t { k with
        index := k.index + w.length
        cases := Check.casesAfter k.cases k.index x } r := by
  obtain ⟨c, cs, rfl, hc, hfirst, hrest⟩ := exists_cons_word hne hw hr
  rw [List.cons_append, checkFrom, hk, hc, hfirst, hrest]
  rfl

theorem checkFrom_other {k : Check} {c : Char} (h : (!k.nesting.isQuoted && isWordChar c) = false)
    (t cs : Text) :
    checkFrom t k (c :: cs) =
      match checkByte k c with
      | .error e => some (.error e)
      | .ok k' => checkFrom t k' cs := by
  rw [checkFrom, h]
  rfl

theorem checkFrom_high {x : Text} (hx : ∀ d ∈ x, IsHigh d) (t : Text) (k : Check) (r : Text) :
    checkFrom t k (x ++ r) =
      checkFrom t { k with index := k.index + x.length, nesting := k.nesting.scan x } r := by
  induction x generalizing k with
  | nil => rfl
  | cons d ds ih =>
      have hd := hx d List.mem_cons_self
      have hbyte : checkByte k d =
          .ok { k with index := k.index + 1, nesting := k.nesting.next d } := by
        have hopen : d ≠ '(' := hd.ne (by decide)
        have hclose : d ≠ ')' := hd.ne (by decide)
        have hend : d ≠ terminator := hd.ne (by decide)
        simp [checkByte, hopen, hclose, hend, hd.isQuoteMark_eq]
      rw [List.cons_append, checkFrom_other (by rw [hd.isWordChar_eq, Bool.and_false]), hbyte]
      dsimp only
      rw [ih fun e he => hx e (List.mem_cons_of_mem d he), List.length_cons, Nat.add_assoc,
        Nat.add_comm 1]
      rfl

end Bytewise

namespace Check

/-- Inside a word the check only counts. -/
theorem run_inWord {k : Check} (hk : k.nesting.isQuoted = false) (hin : k.inWord = true) {w : Text}
    (hw : ∀ c ∈ w, isWordChar c = true) (t r : Text) :
    run t k (w ++ r) = run t { k with index := k.index + w.length } r := by
  induction w generalizing k with
  | nil => rfl
  | cons c cs ih =>
      have hc := hw c List.mem_cons_self
      have hread : k.read t c (cs ++ r) = .ok { k with index := k.index + 1 } := by
        obtain ⟨index, nesting, inWord, parens, cases, quoteStart⟩ := k
        dsimp only at hk hin
        simp [read, hk, hc, hin, Nesting.next_word hk hc]
      rw [List.cons_append, run, hread]
      dsimp only
      rw [ih (k := { k with index := k.index + 1 }) hk hin
        fun d hd => hw d (List.mem_cons_of_mem c hd), List.length_cons, Nat.add_assoc,
        Nat.add_comm 1]

/-- A word is looked at where it starts. -/
theorem run_word {k : Check} (hk : k.nesting.isQuoted = false) (hin : k.inWord = false)
    {w r : Text} (hne : w ≠ []) (hw : ∀ c ∈ w, isWordChar c = true)
    (hr : ∀ c, r.head? = some c → isWordChar c = false) (t : Text) :
    run t k (w ++ r) = run t { k with
      index := k.index + w.length
      inWord := true
      cases := casesAfter k.cases k.index w } r := by
  obtain ⟨hfirst, -⟩ := takeWhile_word hw hr
  obtain ⟨c, cs, rfl⟩ := List.exists_cons_of_ne_nil hne
  have hc := hw c List.mem_cons_self
  rw [List.cons_append] at hfirst ⊢
  have hread : k.read t c (cs ++ r) = .ok { k with
      index := k.index + 1
      inWord := true
      cases := casesAfter k.cases k.index (c :: cs) } := by
    simp [read, hk, hc, hin, Nesting.next_word hk hc, firstWord, hfirst]
  rw [run, hread]
  dsimp only
  rw [run_inWord (k := { k with
    index := k.index + 1
    inWord := true
    cases := casesAfter k.cases k.index (c :: cs) }) hk rfl
      fun d hd => hw d (List.mem_cons_of_mem c hd)]
  rw [List.length_cons, Nat.add_assoc, Nat.add_comm 1]

end Check

namespace Bytewise

theorem contextAt_byteOffset (t : Text) (i : Nat) : contextAt t (t.byteOffset i) = excerpt t i := by
  rw [contextAt, dropBytes_byteOffset, excerpt]

theorem checkEnd_eq (t : Text) (k : Check) : checkEnd t (k.inBytes t) = k.verdict t := by
  unfold checkEnd Check.verdict Check.inBytes
  simp only [List.getLast?_map, contextAt_byteOffset]
  cases k.nesting.isQuoted with
  | true => rfl
  | false =>
      cases k.parens.getLast? <;> cases k.cases.getLast? <;>
        simp only [Option.map_some, Option.map_none, contextAt_byteOffset, Bool.false_eq_true,
          if_false]

/-- The state of the loop: byte offsets, and the flag as it was at the start. -/
def loopState (t : Text) (k : Check) : Check := { k.inBytes t with inWord := false }

/-- The bytes of a character that is in a literal or in no word are read like the character. -/
theorem checkFrom_character {t a cs : Text} {c : Char} (ht : t = a ++ c :: cs) {k : Check}
    (hindex : k.index = a.length) (hsound : k.nesting.quoting.Sound)
    (hcond : (!k.nesting.isQuoted && isWordChar c) = false) :
    checkFrom t (loopState t k) (octets (c :: cs)) =
      match k.read t c cs with
      | .error e => some (.error e)
      | .ok k' => checkFrom t (loopState t k') cs.octets := by
  have hplace : t.byteOffset (k.index + 1) = t.byteOffset k.index + (octets [c]).length := by
    rw [ht, hindex, byteOffset_succ]
  rw [Check.read_eq_next, octets_cons]
  -- several bytes, none of which counts for the check, or one that is read like the character
  by_cases hc : IsHigh c
  · have hclose : c ≠ ')' := hc.ne (by decide)
    have hend : c ≠ terminator := hc.ne (by decide)
    have hstate : loopState t (k.next c cs) = { loopState t k with
        index := (loopState t k).index + (octets [c]).length
        nesting := (loopState t k).nesting.scan (octets [c]) } := by
      unfold loopState
      rw [Check.inBytes_next ht hindex hsound,
        Check.nexts_high (isHigh_of_mem_octets hc) (octets_ne_nil c)]
    rw [checkFrom_high (isHigh_of_mem_octets hc), ← hstate, if_neg (fun h => hclose h.2.1),
      if_neg (fun h => hend h.2.1)]
  · rw [octets_of_ascii hc] at hplace ⊢
    have hcond' : (!(loopState t k).nesting.isQuoted && isWordChar c) = false := hcond
    have hstate : { (loopState t k).next c (octets cs) with inWord := (loopState t k).inWord }
        = loopState t (k.next c cs) := by
      have hbytes : (k.next c cs).inBytes t = (k.inBytes t).next c (octets cs) :=
        Check.inBytes_next_ascii hc hplace
      unfold loopState at hcond' ⊢
      rw [hbytes]
      simp only [Check.next, hcond', Bool.false_and]
    have hparens : (loopState t k).parens = [] ↔ k.parens = [] := List.map_eq_nil_iff
    have hnesting : (loopState t k).nesting = k.nesting := rfl
    have hat : (loopState t k).index = t.byteOffset k.index := rfl
    rw [List.singleton_append, checkFrom_other hcond', checkByte_eq hcond' cs.octets, hstate]
    simp only [hparens, hnesting, hat]
    split_ifs <;> rfl

/-- Behind a word, the loop stands where the check by characters does. -/
theorem loopState_word {t a w r : Text} (ht : t = a ++ (w ++ r)) {k : Check}
    (hindex : k.index = a.length) (hw : ∀ c ∈ w, isWordChar c = true) :
    loopState t { k with
        index := k.index + w.length
        inWord := true
        cases := Check.casesAfter k.cases k.index w }
      = { loopState t k with
        index := (loopState t k).index + w.length
        cases := Check.casesAfter (loopState t k).cases (loopState t k).index w } := by
  have hend : t.byteOffset (k.index + w.length) = t.byteOffset k.index + w.length := by
    have hspelled : upper ((t.drop k.index).take w.length) = w.upper := by
      rw [ht, hindex, List.drop_left, List.take_left]
    rw [byteOffset_spelled hspelled, ← length_octets, octets_words hw]
  simp only [loopState, Check.inBytes, Check.map_casesAfter, hend]

/-- A word is cut out of the text and read at once. -/
theorem checkFrom_cutWord {t a w r : Text} (ht : t = a ++ (w ++ r)) {k : Check}
    (hindex : k.index = a.length) (hq : k.nesting.isQuoted = false) (hne : w ≠ [])
    (hw : ∀ c ∈ w, isWordChar c = true) (hr : ∀ c, r.head? = some c → isWordChar c = false) :
    checkFrom t (loopState t k) (octets (w ++ r))
      = checkFrom t (loopState t { k with
          index := k.index + w.length
          inWord := true
          cases := Check.casesAfter k.cases k.index w }) r.octets := by
  have hplace : (loopState t k).index = a.octets.length := by
    show t.byteOffset k.index = _
    rw [ht, hindex, byteOffset_append]
  have hcut : t.slice? (loopState t k).index ((loopState t k).index + w.length) = some w := by
    have hslice := slice?_append a w r
    rwa [octets_words hw, ← ht, ← hplace] at hslice
  have hq' : (loopState t k).nesting.isQuoted = false := hq
  rw [octets_append, octets_words hw, checkFrom_word hq' hne hw (head_octets hr), hcut,
    Option.bind_some, loopState_word ht hindex hw]

/-- The check of the bytes of a statement is its check by characters. -/
theorem validate?_eq (t : Text) : validate? t = some (validate t) := by
  -- over whole words, since the loop reads them at once
  have hrun : ∀ k : Check, k.index = ([] : Text).length → k.nesting = Nesting.after [] →
      k.inWord = ([] : Text).getLast?.any isWordChar →
      checkFrom t (loopState t k) t.octets = some (k.run t t) := by
    apply word_induction (x := t) (motive := fun a rest => ∀ k : Check,
      k.index = a.length → k.nesting = Nesting.after a → k.inWord = a.getLast?.any isWordChar →
        checkFrom t (loopState t k) rest.octets = some (k.run t rest))
    case nil =>
      intro k _ _ _
      rw [show octets [] = [] from rfl, checkFrom, Check.run, ← checkEnd_eq]
      rfl
    case other =>
      intro a c cs ht hcond ih k hindex hnesting hin
      have hsound : k.nesting.quoting.Sound := hnesting ▸ Nesting.sound_after a
      rw [← hnesting] at hcond
      rw [checkFrom_character ht hindex hsound hcond, Check.run]
      cases hread : k.read t c cs with
      | error e => rfl
      | ok k' =>
          obtain rfl := Check.eq_next_of_read hread
          apply ih
          · show k.index + 1 = _
            rw [hindex, List.length_append]
            rfl
          · show k.nesting.next c = _
            rw [hnesting, Nesting.after_concat]
          · rw [List.getLast?_concat]
            rfl
    case word =>
      intro a w r ht hunquoted hbefore hne hw hr ih k hindex hnesting hin
      have hq : k.nesting.isQuoted = false := by rw [hnesting, hunquoted]
      rw [checkFrom_cutWord ht hindex hq hne hw hr,
        Check.run_word hq (hin.trans hbefore) hne hw hr]
      apply ih
      · rw [List.length_append, ← hindex]
      · rw [after_word hunquoted hw]
        exact hnesting
      · exact (any_getLast?_word hne hw a).symm
  exact hrun .start rfl rfl rfl

/-! ## Columns -/

/-- Whether the first thing behind a byte offset and the blanks there is the word `w`. -/
def nextIs? (w t : Text) (i : Nat) : Option Bool := do
  let behind ← t.slice? i t.byteLength
  let rest := behind.trimStart
  if rest.octets.head?.any isWordChar then do
    let first ← rest.slice? 0 (Text.firstWord rest.octets).length
    some (first.same w)
  else some false

/-- Whether the byte `c` at offset `i` separates two columns. -/
def separates? (t : Text) (i : Nat) (n : Nesting) (depth : Nat) (c : Char) : Option Bool :=
  if c == ',' && n.isOutermost && depth == 0 then (nextIs? Keyword.OVER t (i + 1)).map (!·)
  else some false

/-- The columns from the one that starts at offset `start`, where `rest` are the bytes from `i` on,
`n` is the nesting there and `depth` counts the open `CASE` words. -/
def columnsFrom? (t : Text) (start i : Nat) (n : Nesting) (depth : Nat) (rest : Text) :
    Option (List Text) :=
  match rest with
  | [] => do
    let last ← t.slice? start t.byteLength
    some [last.trim]
  | c :: cs =>
    if !n.isQuoted && isWordChar c then do
      let wordEnd := i + (Text.firstWord (c :: cs)).length
      let w ← t.slice? i wordEnd
      columnsFrom? t start wordEnd n (caseDepthAfter depth w) (cs.dropWhile isWordChar)
    else do
      let separates ← separates? t i n depth c
      if separates then do
        let column ← t.slice? start i
        let columns ← columnsFrom? t (i + 1) (i + 1) (n.next c) depth cs
        some (column.trim :: columns)
      else columnsFrom? t start (i + 1) (n.next c) depth cs
termination_by rest.length
decreasing_by
  · exact Nat.lt_succ_of_le (List.dropWhile_sublist isWordChar).length_le
  · exact Nat.lt_succ_self _
  · exact Nat.lt_succ_self _

/-- The columns of a list. One empty column is none. -/
def columns? (t : Text) : Option (List Text) := do
  let columns ← columnsFrom? t 0 0 .start 0 t.octets
  some (if columns == [[]] then [] else columns)

/-- The first word of a text is cut out where there is one. -/
theorem cutFirstWord_eq {w : Text} (hw : w ≠ []) (rest : Text) :
    (if rest.octets.head?.any isWordChar then
      (rest.slice? 0 (firstWord rest.octets).length).bind fun first => some (first.same w)
      else some false) = some (same rest.firstWord w) := by
  rw [head?_octets, firstWord_octets]
  cases hword : rest.head?.any isWordChar with
  | true =>
      have hcut := slice?_append [] rest.firstWord (rest.dropWhile isWordChar)
      rw [octets_words mem_firstWord] at hcut
      have hall : [] ++ (rest.firstWord ++ rest.dropWhile isWordChar) = rest :=
        List.takeWhile_append_dropWhile
      rw [hall, show (octets []).length = 0 from rfl, Nat.zero_add] at hcut
      rw [hcut]
      rfl
  | false =>
      have hnone : rest.firstWord = [] := by
        cases rest with
        | nil => rfl
        | cons c cs => exact List.takeWhile_cons_of_neg (by simpa using hword)
      have hother : same [] w = false := by
        rw [← Bool.not_eq_true, same_iff]
        intro hsame
        exact hw (List.map_eq_nil_iff.mp hsame.symm)
      rw [hnone, hother]
      rfl

theorem nextIs?_eq {w : Text} (hw : w ≠ []) (t : Text) (i : Nat) :
    nextIs? w t (t.byteOffset i) = some (nextIs w (t.drop i)) := by
  rw [nextIs?, slice?_end]
  exact cutFirstWord_eq hw (trimStart (t.drop i))

theorem columnsFrom?_word {n : Nesting} (hn : n.isQuoted = false) {w r : Text} (hne : w ≠ [])
    (hw : ∀ c ∈ w, isWordChar c = true) (hr : ∀ c, r.head? = some c → isWordChar c = false)
    (t : Text) (start i depth : Nat) :
    columnsFrom? t start i n depth (w ++ r) = (t.slice? i (i + w.length)).bind fun x =>
      columnsFrom? t start (i + w.length) n (caseDepthAfter depth x) r := by
  obtain ⟨c, cs, rfl, hc, hfirst, hrest⟩ := exists_cons_word hne hw hr
  rw [List.cons_append, columnsFrom?, hn, hc, hfirst, hrest]
  rfl

theorem columnsFrom?_other {n : Nesting} {c : Char} (h : (!n.isQuoted && isWordChar c) = false)
    {t : Text} {i depth : Nat} {separates : Bool} (hc : separates? t i n depth c = some separates)
    (start : Nat) (cs : Text) :
    columnsFrom? t start i n depth (c :: cs) =
      if separates then (t.slice? start i).bind fun column =>
        (columnsFrom? t (i + 1) (i + 1) (n.next c) depth cs).bind fun columns =>
          some (column.trim :: columns)
      else columnsFrom? t start (i + 1) (n.next c) depth cs := by
  rw [columnsFrom?, h, hc]
  cases separates <;> rfl

theorem columnsFrom?_high {x : Text} (hx : ∀ d ∈ x, IsHigh d) (t : Text) (start i : Nat)
    (n : Nesting) (depth : Nat) (r : Text) :
    columnsFrom? t start i n depth (x ++ r)
      = columnsFrom? t start (i + x.length) (n.scan x) depth r := by
  induction x generalizing i n with
  | nil => rfl
  | cons d ds ih =>
      have hd := hx d List.mem_cons_self
      have hcomma : d ≠ ',' := hd.ne (by decide)
      have hsep : separates? t i n depth d = some false := by simp [separates?, hcomma]
      rw [List.cons_append, columnsFrom?_other (by rw [hd.isWordChar_eq, Bool.and_false]) hsep,
        if_neg (by decide), ih fun e he => hx e (List.mem_cons_of_mem d he), List.length_cons,
        Nat.add_assoc, Nat.add_comm 1]
      rfl

end Bytewise

namespace Text

/-- Inside a word no column ends. -/
theorem columnsFrom_inWord {n : Nesting} (hn : n.isQuoted = false) {w : Text}
    (hw : ∀ c ∈ w, isWordChar c = true) (depth : Nat) (r : Text) :
    columnsFrom n true depth (w ++ r)
      = (w ++ (columnsFrom n true depth r).1, (columnsFrom n true depth r).2) := by
  induction w with
  | nil => rfl
  | cons c cs ih =>
      have hc := hw c List.mem_cons_self
      have hcomma : c ≠ ',' := ne_of_isWordChar hc (by decide)
      rw [List.cons_append, columnsFrom_cons, Nesting.next_word hn hc, hc]
      simp [hn, hcomma, ih fun d hd => hw d (List.mem_cons_of_mem c hd)]

/-- A word is counted where it starts. -/
theorem columnsFrom_word {n : Nesting} (hn : n.isQuoted = false) {w r : Text} (hne : w ≠ [])
    (hw : ∀ c ∈ w, isWordChar c = true) (hr : ∀ c, r.head? = some c → isWordChar c = false)
    (depth : Nat) :
    columnsFrom n false depth (w ++ r)
      = (w ++ (columnsFrom n true (caseDepthAfter depth w) r).1,
        (columnsFrom n true (caseDepthAfter depth w) r).2) := by
  obtain ⟨hfirst, -⟩ := takeWhile_word hw hr
  obtain ⟨c, cs, rfl⟩ := List.exists_cons_of_ne_nil hne
  have hc := hw c List.mem_cons_self
  have hcomma : c ≠ ',' := ne_of_isWordChar hc (by decide)
  rw [List.cons_append] at hfirst ⊢
  rw [columnsFrom_cons, Nesting.next_word hn hc, hc, firstWord, hfirst]
  simp [hn, hcomma, columnsFrom_inWord hn fun d hd => hw d (List.mem_cons_of_mem c hd)]

end Text

namespace Bytewise

/-- The bytes of a character that is in a literal or in no word are read like the character. -/
theorem columnsFrom?_character {t a cs : Text} {c : Char} (ht : t = a ++ c :: cs)
    (hcond : (!(Nesting.after a).isQuoted && isWordChar c) = false) (start depth : Nat) :
    columnsFrom? t start a.octets.length (Nesting.after a) depth (octets (c :: cs)) =
      if c == ',' && (Nesting.after a).isOutermost && depth == 0 && !nextIs Keyword.OVER cs then
        (t.slice? start a.octets.length).bind fun column =>
          (columnsFrom? t (a ++ [c]).octets.length (a ++ [c]).octets.length
            (Nesting.after (a ++ [c])) depth cs.octets).bind fun columns =>
              some (column.trim :: columns)
      else columnsFrom? t start (a ++ [c]).octets.length (Nesting.after (a ++ [c])) depth
        cs.octets := by
  have hlength : (a ++ [c]).octets.length = a.octets.length + (octets [c]).length := by
    rw [octets_append, List.length_append]
  rw [octets_cons, Nesting.after_concat, hlength]
  -- bytes of which none is a comma, or one byte
  by_cases hc : IsHigh c
  · have hcomma : (c == ',') = false := by simpa using hc.ne (d := ',') (by decide)
    rw [columnsFrom?_high (isHigh_of_mem_octets hc),
      Nesting.scan_octets (Nesting.sound_after a), hcomma]
    rfl
  · have hplace : t.byteOffset (a.length + 1) = a.octets.length + 1 := by
      rw [ht, byteOffset_succ, byteOffset_append, octets_of_ascii hc]
      rfl
    have hdrop : t.drop (a.length + 1) = cs := by
      rw [ht, ← List.drop_drop, List.drop_left]
      rfl
    have hsep : separates? t a.octets.length (Nesting.after a) depth c =
        some (c == ',' && (Nesting.after a).isOutermost && depth == 0 &&
          !nextIs Keyword.OVER cs) := by
      rw [separates?, ← hplace, nextIs?_eq (by decide), hdrop]
      cases c == ',' && (Nesting.after a).isOutermost && depth == 0 <;> rfl
    rw [octets_of_ascii hc, List.singleton_append, columnsFrom?_other hcond hsep]
    rfl

/-- The cut into columns by bytes is the cut by characters. -/
theorem columnsFrom?_eq (t : Text) :
    columnsFrom? t 0 0 .start 0 t.octets
      = some (((columnsFrom .start false 0 t).1 :: (columnsFrom .start false 0 t).2).map trim) := by
  -- `b` stands before the current column, of which `p` has been read
  have hrun : ∀ (b p : Text) (depth : Nat), [] = b ++ p →
      columnsFrom? t b.octets.length (octets []).length (Nesting.after []) depth t.octets =
        some (trim (p ++ (columnsFrom .start false depth t).1)
          :: (columnsFrom .start false depth t).2.map trim) := by
    apply word_induction (x := t) (motive := fun a rest =>
      ∀ (b p : Text) (depth : Nat), a = b ++ p →
      columnsFrom? t b.octets.length a.octets.length (Nesting.after a) depth rest.octets =
        some (trim (p ++ (columnsFrom (Nesting.after a) (a.getLast?.any isWordChar) depth rest).1)
          :: (columnsFrom (Nesting.after a) (a.getLast?.any isWordChar) depth rest).2.map trim))
    case nil =>
      intro b p depth ht
      have hcut : t.slice? b.octets.length t.byteLength = some p := ht ▸ slice?_suffix b p
      rw [show octets [] = [] from rfl, columnsFrom?, hcut]
      simp [columnsFrom]
    case other =>
      intro a c cs ht hcond ih b p depth ha
      have hin : ((a ++ [c]).getLast?.any isWordChar) = isWordChar c := by
        rw [List.getLast?_concat]
        rfl
      rw [hin, Nesting.after_concat] at ih
      rw [columnsFrom?_character ht hcond, columnsFrom_cons, hcond, Nesting.after_concat]
      simp only [Bool.false_and, Bool.false_eq_true, if_false]
      split
      · have hcut : t.slice? b.octets.length a.octets.length = some p := by
          have hslice := slice?_append b p (c :: cs)
          rwa [← List.append_assoc, ← ha, ← ht, ← List.length_append, ← octets_append, ← ha]
            at hslice
        rw [hcut, ih (a ++ [c]) [] depth (List.append_nil _).symm]
        simp
      · rw [ih b (p ++ [c]) depth (by rw [ha, List.append_assoc])]
        simp
    case word =>
      intro a w r ht hunquoted hbefore hne hw hr ih b p depth ha
      have hlength : (a ++ w).octets.length = a.octets.length + w.length := by
        rw [octets_append, List.length_append, octets_words hw]
      have hcut : t.slice? a.octets.length (a.octets.length + w.length) = some w := by
        have hslice := slice?_append a w r
        rwa [octets_words hw, ← ht] at hslice
      have hlater := ih b (p ++ w) (caseDepthAfter depth w) (by rw [ha, List.append_assoc])
      rw [after_word hunquoted hw, any_getLast?_word hne hw, hlength] at hlater
      rw [octets_append, octets_words hw, columnsFrom?_word hunquoted hne hw (head_octets hr), hcut,
        Option.bind_some, hlater, hbefore, columnsFrom_word hunquoted hne hw hr, List.append_assoc]
  exact hrun [] [] 0 rfl

theorem columns?_eq (t : Text) : columns? t = some t.columns := by
  rw [columns?, columnsFrom?_eq, columns_eq]
  generalize columnsFrom .start false 0 t = r
  obtain ⟨p, ps⟩ := r
  show some (if _ then _ else _) = _
  cases ps with
  | nil => cases trim p <;> simp
  | cons q qs => simp

/-! ## Pieces between separators -/

/-- The offsets of the leftmost occurrences of a non-empty separator that do not overlap, where `i`
is the offset of the next byte. The second number counts the bytes of an occurrence that are still
to be skipped. -/
def matchesFrom (sep : Text) : Nat → Nat → Text → List Nat
  | _, _, [] => []
  | i, skip + 1, _ :: cs => matchesFrom sep (i + 1) skip cs
  | i, 0, c :: cs =>
    if startsWith (c :: cs) sep then i :: matchesFrom sep (i + 1) (sep.length - 1) cs
    else matchesFrom sep (i + 1) 0 cs

/-- The pieces of a text from the offset `start` on, between separators of the given width in bytes
at the given offsets. -/
def piecesFrom? (t : Text) (width : Nat) : Nat → List Nat → Option (List Text)
  | start, [] => do
    let last ← t.slice? start t.byteLength
    some [last]
  | start, i :: rest => do
    let piece ← t.slice? start i
    let pieces ← piecesFrom? t width (i + width) rest
    some (piece :: pieces)

/-- The pieces between the leftmost non-overlapping occurrences of a separator. -/
def split? (t sep : Text) : Option (List Text) :=
  piecesFrom? t sep.byteLength 0 (matchesFrom sep.octets 0 0 t.octets)

theorem matchesFrom_skip (sep : Text) {k : Nat} {x : Text} (h : k ≤ x.length) (i : Nat) :
    matchesFrom sep i k x = matchesFrom sep (i + k) 0 (x.drop k) := by
  induction x generalizing k i with
  | nil =>
      obtain rfl : k = 0 := by simpa using h
      rfl
  | cons c cs ih =>
      cases k with
      | zero => rfl
      | succ k =>
          rw [matchesFrom, ih (by simpa using h), Nat.add_assoc, Nat.add_comm 1]
          rfl

/-- The search goes on behind an occurrence. -/
theorem matchesFrom_found {sep x : Text} (hsep : sep ≠ []) (h : startsWith x sep = true) (i : Nat) :
    matchesFrom sep i 0 x = i :: matchesFrom sep (i + sep.length) 0 (x.drop sep.length) := by
  obtain ⟨s, r, rfl, hs⟩ := startsWith_split h
  have hlength : s.length = sep.length := length_eq_of_upper_eq hs
  cases s with
  | nil => exact absurd (List.length_eq_zero_iff.mp hlength.symm) hsep
  | cons c cs =>
      rw [List.length_cons] at hlength
      rw [List.cons_append] at h ⊢
      have hle : sep.length - 1 ≤ (cs ++ r).length := by
        rw [List.length_append]
        omega
      rw [matchesFrom, if_pos h, matchesFrom_skip sep hle, ← hlength]
      congr 2
      omega

/-- The search passes over bytes with which no occurrence starts. -/
theorem matchesFrom_pass {sep x y : Text}
    (h : ∀ b < x.length, startsWith ((x ++ y).drop b) sep = false) (i : Nat) :
    matchesFrom sep i 0 (x ++ y) = matchesFrom sep (i + x.length) 0 y := by
  induction x generalizing i with
  | nil => rfl
  | cons c cs ih =>
      have hfirst : startsWith (c :: (cs ++ y)) sep = false := h 0 (Nat.succ_pos _)
      have hlater : ∀ b < cs.length, startsWith ((cs ++ y).drop b) sep = false :=
        fun b hb => h (b + 1) (Nat.succ_lt_succ hb)
      rw [List.cons_append, matchesFrom, hfirst, List.length_cons]
      simp only [Bool.false_eq_true, if_false]
      rw [ih hlater, Nat.add_assoc, Nat.add_comm 1]

/-- No occurrence starts at a byte of a character with which none starts. -/
theorem startsWith_drop_octets {sep : Text} (hsep : sep ≠ []) {c : Char} {cs : Text}
    (h : startsWith (c :: cs) sep = false) :
    ∀ b < (octets [c]).length,
      startsWith ((octets [c] ++ octets cs).drop b) sep.octets = false := by
  intro b hb
  rw [← octets_cons, ← Bool.not_eq_true]
  intro hmatch
  obtain ⟨j, -, rfl⟩ := exists_index_of_startsWith hsep hmatch
  cases j with
  | zero =>
      have hwhole : startsWith (octets (c :: cs)) sep.octets = true := hmatch
      rw [startsWith_octets, h] at hwhole
      cases hwhole
  | succ j =>
      have hone : byteOffset (c :: cs) 1 = (octets [c]).length := (length_octets [c]).symm
      have hmono : byteOffset (c :: cs) 1 ≤ byteOffset (c :: cs) (j + 1) :=
        byteOffset_mono _ (by omega)
      omega

theorem cutAt_found {sep t : Text} (hsep : sep ≠ []) (h : startsWith t sep = true) :
    cutAt sep 0 t = ([], (cutAt sep 0 (t.drop sep.length)).1
      :: (cutAt sep 0 (t.drop sep.length)).2) := by
  cases t with
  | nil =>
      obtain ⟨s, r, hsr, hs⟩ := startsWith_split h
      have hlength : s.length = sep.length := length_eq_of_upper_eq hs
      obtain rfl : s = [] := (List.append_eq_nil_iff.mp hsr.symm).1
      exact absurd (List.length_eq_zero_iff.mp hlength.symm) hsep
  | cons c cs =>
      have hpos := List.length_pos_of_ne_nil hsep
      have hdrop : (c :: cs).drop sep.length = cs.drop (sep.length - 1) := by
        obtain ⟨m, hm⟩ := Nat.exists_eq_add_of_lt hpos
        rw [hm]
        rfl
      rw [cutAt, if_pos h, cutAt_skip, hdrop]

/-- The separator with which a text starts, and what follows it. -/
theorem exists_behind {sep x : Text} (h : startsWith x sep = true) :
    ∃ s r, x = s ++ r ∧ s.length = sep.length ∧ s.octets.length = sep.byteLength ∧
      x.drop sep.length = r ∧ x.octets.drop sep.byteLength = r.octets := by
  obtain ⟨s, r, rfl, hs⟩ := startsWith_split h
  have hlength : s.length = sep.length := length_eq_of_upper_eq hs
  have hwidth : s.octets.length = sep.byteLength := by
    rw [length_octets, ← byteLength_upper, hs, byteLength_upper]
  refine ⟨s, r, rfl, hlength, hwidth, ?_, ?_⟩
  · rw [← hlength, List.drop_left]
  · rw [octets_append, ← hwidth, List.drop_left]

/-- `b` stands before the current piece, of which `p` has been read. -/
theorem piecesFrom?_eq {sep : Text} (hsep : sep ≠ []) {t : Text} (b p rest : Text)
    (ht : t = b ++ (p ++ rest)) :
    piecesFrom? t sep.byteLength b.octets.length
        (matchesFrom sep.octets (b ++ p).octets.length 0 rest.octets)
      = some ((p ++ (cutAt sep 0 rest).1) :: (cutAt sep 0 rest).2) := by
  induction hm : rest.length using Nat.strong_induction_on generalizing b p rest with
  | _ m ih =>
      cases rest with
      | nil =>
          have hcut : t.slice? b.octets.length t.byteLength = some p := by
            rw [List.append_nil] at ht
            exact ht ▸ slice?_suffix b p
          show (t.slice? b.octets.length t.byteLength).bind _ = _
          rw [hcut, cutAt, List.append_nil]
          rfl
      | cons c cs =>
          cases hmatch : startsWith (c :: cs) sep with
          | true =>
              -- the piece is cut out, and the next one starts behind the separator
              obtain ⟨s, r, hsr, hlength, hwidth, hrest, hbytes⟩ := exists_behind hmatch
              have hshorter : r.length < m := by
                have hlen := congrArg List.length hsr
                rw [hm, List.length_append, hlength] at hlen
                have hpos := List.length_pos_of_ne_nil hsep
                omega
              have hcut : t.slice? b.octets.length (b ++ p).octets.length = some p := by
                have hslice := slice?_append b p (c :: cs)
                rwa [← ht, ← List.length_append, ← octets_append] at hslice
              have hend :
                  (b ++ p ++ s).octets.length = (b ++ p).octets.length + sep.byteLength := by
                rw [octets_append, List.length_append, hwidth]
              have hfound : startsWith (octets (c :: cs)) sep.octets = true := by
                rw [startsWith_octets, hmatch]
              have hlater := ih r.length hshorter (b ++ p ++ s) [] r (by rw [ht, hsr]; simp) rfl
              rw [List.append_nil, hend, List.nil_append] at hlater
              rw [matchesFrom_found (octets_ne_nil_of_ne_nil hsep) hfound, length_octets sep,
                hbytes, cutAt_found hsep hmatch, hrest, List.append_nil]
              show (t.slice? _ _).bind _ = _
              rw [hcut, Option.bind_some, hlater]
              rfl
          | false =>
              have hlater := ih cs.length (by rw [← hm]; exact Nat.lt_succ_self _) b (p ++ [c]) cs
                (by rw [ht]; simp) rfl
              have hlength : (b ++ (p ++ [c])).octets.length
                  = (b ++ p).octets.length + (octets [c]).length := by
                rw [← List.append_assoc, octets_append, List.length_append]
              rw [octets_cons, matchesFrom_pass (startsWith_drop_octets hsep hmatch), ← hlength,
                hlater, cutAt, if_neg (by rw [hmatch]; decide)]
              simp

theorem split?_eq {sep : Text} (hsep : sep ≠ []) (t : Text) :
    split? t sep = some (t.splitOn sep) := by
  have hcut := piecesFrom?_eq hsep [] [] t rfl
  rw [splitOn, if_neg (by simpa using hsep)]
  exact hcut

/-! ## Clauses -/

/-- The clauses that start at the given offsets. -/
def cut? (t : Text) : List (Nat × Option Boundary) → Option (List Clause)
  | [] => some []
  | [(i, b)] => do
    let text ← t.slice? i t.byteLength
    some [Clause.ofBoundary b text.trim]
  | (i, b) :: (j, b') :: rest => do
    let text ← t.slice? i j
    let clauses ← cut? t ((j, b') :: rest)
    some (Clause.ofBoundary b text.trim :: clauses)

/-- The clauses of a statement. -/
def clauses? (t : Text) : Option (List Clause) := do
  let tokens ← tokens? t
  cut? t (Clause.starts tokens)

/-- A place where a clause starts, in bytes. -/
def placeInBytes (t : Text) (p : Nat × Option Boundary) : Nat × Option Boundary :=
  (t.byteOffset p.1, p.2)

theorem cut?_eq {t : Text} {places : List (Nat × Option Boundary)}
    (h : (places.map Prod.fst).Pairwise (· ≤ ·)) :
    cut? t (places.map (placeInBytes t)) = some (Clause.cut t places) := by
  induction places with
  | nil => rfl
  | cons p rest ih =>
      obtain ⟨i, b⟩ := p
      cases rest with
      | nil =>
          show (t.slice? (t.byteOffset i) t.byteLength).bind _ = _
          rw [slice?_end]
          rfl
      | cons q rest =>
          obtain ⟨j, b'⟩ := q
          obtain ⟨hfirst, hlater⟩ := List.pairwise_cons.mp h
          show (t.slice? (t.byteOffset i) (t.byteOffset j)).bind _ = _
          rw [slice?_byteOffset t (hfirst j List.mem_cons_self), Option.bind_some]
          show (cut? t (((j, b') :: rest).map (placeInBytes t))).bind _ = _
          rw [ih hlater]
          rfl

theorem ofTokens?_inBytes (t : Text) (ks : List Token) :
    Boundary.ofTokens? (ks.map (Token.inBytes t)) = Boundary.ofTokens? ks := by
  cases ks with
  | nil => rfl
  | cons k ks => cases ks <;> rfl

theorem laterStarts_inBytes (t : Text) (ks : List Token) :
    Clause.laterStarts (ks.map (Token.inBytes t))
      = (Clause.laterStarts ks).map (placeInBytes t) := by
  induction ks with
  | nil => rfl
  | cons k ks ih =>
      have hstart := ofTokens?_inBytes t (k :: ks)
      rw [List.map_cons] at hstart ⊢
      rw [Clause.laterStarts, Clause.laterStarts, hstart, ih]
      cases Boundary.ofTokens? (k :: ks) <;> rfl

theorem starts_inBytes (t : Text) (ks : List Token) :
    Clause.starts (ks.map (Token.inBytes t)) = (Clause.starts ks).map (placeInBytes t) := by
  cases ks with
  | nil => rfl
  | cons k ks =>
      have hstart := ofTokens?_inBytes t (k :: ks)
      rw [List.map_cons] at hstart ⊢
      rw [Clause.starts, Clause.starts, hstart, laterStarts_inBytes]
      cases Boundary.ofTokens? (k :: ks) <;> rfl

/-- Clauses start at tokens. -/
theorem sublist_laterStarts (ks : List Token) :
    ((Clause.laterStarts ks).map Prod.fst).Sublist (ks.map Token.index) := by
  induction ks with
  | nil => exact List.Sublist.refl _
  | cons k ks ih =>
      rw [Clause.laterStarts]
      cases Boundary.ofTokens? (k :: ks) with
      | none => exact ih.cons _
      | some b => exact ih.cons_cons _

theorem pairwise_starts {ks : List Token} (h : (ks.map Token.index).Pairwise (· < ·)) :
    ((Clause.starts ks).map Prod.fst).Pairwise (· ≤ ·) := by
  have hle : (ks.map Token.index).Pairwise (· ≤ ·) := h.imp Nat.le_of_lt
  cases ks with
  | nil => exact List.Pairwise.nil
  | cons k ks =>
      obtain ⟨hfirst, hlater⟩ := List.pairwise_cons.mp hle
      have hsublist := sublist_laterStarts ks
      rw [Clause.starts]
      cases Boundary.ofTokens? (k :: ks) with
      | none => exact List.pairwise_cons.mpr ⟨fun _ _ => Nat.zero_le _, hlater.sublist hsublist⟩
      | some b =>
          exact List.pairwise_cons.mpr
            ⟨fun j hj => hfirst j (hsublist.subset hj), hlater.sublist hsublist⟩

/-- The clauses cut by bytes are the clauses. -/
theorem clauses?_eq (t : Text) : clauses? t = some t.clauses := by
  have hsorted : (t.tokens.map Token.index).Pairwise (· < ·) := Token.pairwise_scan 0 .start false t
  rw [clauses?, tokens?_eq]
  show cut? t (Clause.starts (t.tokens.map (Token.inBytes t))) = _
  rw [starts_inBytes, cut?_eq (pairwise_starts hsorted)]
  rfl

end Bytewise

end SqlLayout
