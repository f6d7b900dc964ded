import SqlLayout.Proofs.Octets
import SqlLayout.Proofs.PlacedWords

set_option autoImplicit false

/-! # What the check finds

`WellFormed` says which statements the check accepts and `Diagnosis` what it says of the others,
both by the places in the bytes of the statement: what is open in front of a byte, and which words
start there. Each statement is well-formed or has one diagnosis, so the two say all there is to
say about the check.

The check reads characters and keeps stacks of their indices. `Check.Upto` is the invariant that
ties its state, with indices turned into byte offsets, to the places; it is kept by reading a byte
(`Upto.next`), and reading a character is reading its bytes (`inBytes_next`).
-/

namespace SqlLayout

open Text

/-! ## Faults by their places -/

namespace Text

/-- A `)` that nothing opened or a terminator, outside literals and parentheses, and the fault
that it is. -/
def Misplaced (x : Text) (i : Nat) (f : Fault) : Prop :=
  (Nesting.after (x.take i)).isOutermost = true ∧
    (x[i]? = some ')' ∧ f = .unbalancedParentheses i ∨
      x[i]? = some terminator ∧ f = .severalStatements i)

/-- A literal opens at an index and does not end. -/
structure OpensLiteral (x : Text) (i : Nat) : Prop where
  within : i < x.length
  before : (Nesting.after (x.take i)).isQuoted = false
  behind : ∀ j, i < j → j ≤ x.length → (Nesting.after (x.take j)).isQuoted = true

/-- A `(` that is never closed: behind it, more parentheses are open than in front of it. -/
structure NeverClosed (x : Text) (i : Nat) : Prop where
  opens : x[i]? = some '('
  before : (Nesting.after (x.take i)).isQuoted = false
  behind : ∀ j, i < j → j ≤ x.length →
    (Nesting.after (x.take i)).depth < (Nesting.after (x.take j)).depth

/-- The `CASE` words before an index that no `END` has closed, the last one first. -/
def openCaseWords (x : Text) (i : Nat) : List Nat :=
  (x.wordsBefore i).foldl (fun cases word => Check.casesAfter cases word.1 word.2) []

/-- A text that a statement may be: nothing is closed that is not open, nothing is open at the
end, and no terminator stands outside everything. -/
structure WellFormed (x : Text) : Prop where
  accepted : ∀ i c, x[i]? = some c → ((Nesting.after (x.take i)).next? c).isSome = true
  closed : Nesting.after x = .start
  single : ∀ i, x[i]? = some terminator → (Nesting.after (x.take i)).isOutermost = false
  noCase : x.caseDepth x.length = 0

end Text

/-- Why a statement is refused: the first character at fault; if there is none, the literal that
is open at the end; otherwise the first `(` that is never closed; otherwise the first `CASE` that is
left on the stack. -/
inductive Diagnosis (s : Text) : Fault → Prop where
  | misplaced {i : Nat} {f : Fault} (h : s.octets.Misplaced i f)
      (first : ∀ j < i, ∀ g, ¬ s.octets.Misplaced j g) : Diagnosis s f
  | literal {i : Nat} (none : ∀ j g, ¬ s.octets.Misplaced j g) (h : s.octets.OpensLiteral i) :
      Diagnosis s (.unterminated .stringLiteral ((s.dropBytes i).take excerptLength))
  | parenthesis {i : Nat} (none : ∀ j g, ¬ s.octets.Misplaced j g)
      (unquoted : (Nesting.after s.octets).isQuoted = false) (h : s.octets.NeverClosed i)
      (first : ∀ j < i, ¬ s.octets.NeverClosed j) : Diagnosis s (.unbalancedParentheses i)
  | caseWord {i : Nat} (none : ∀ j g, ¬ s.octets.Misplaced j g)
      (unquoted : (Nesting.after s.octets).isQuoted = false)
      (closed : ∀ j, ¬ s.octets.NeverClosed j)
      (h : (s.octets.openCaseWords s.octets.length).getLast? = some i) :
      Diagnosis s (.unterminated .caseExpression ((s.dropBytes i).take excerptLength))

/-! ## One diagnosis -/

namespace Text

variable {x : Text} {i j : Nat}

theorem Misplaced.lt_length {f : Fault} (h : x.Misplaced i f) : i < x.length := by
  obtain ⟨-, ⟨hchar, -⟩ | ⟨hchar, -⟩⟩ := h
  · exact (List.getElem?_eq_some_iff.mp hchar).1
  · exact (List.getElem?_eq_some_iff.mp hchar).1

theorem Misplaced.unique {f g : Fault} (hf : x.Misplaced i f) (hg : x.Misplaced i g) : f = g := by
  have hne : some ')' ≠ some terminator := by decide
  obtain ⟨-, ⟨hchar, rfl⟩ | ⟨hchar, rfl⟩⟩ := hf
  · obtain ⟨-, ⟨-, rfl⟩ | ⟨hchar', rfl⟩⟩ := hg
    · rfl
    · exact absurd (hchar.symm.trans hchar') hne
  · obtain ⟨-, ⟨hchar', rfl⟩ | ⟨-, rfl⟩⟩ := hg
    · exact absurd (hchar'.symm.trans hchar) hne
    · rfl

theorem OpensLiteral.quoted (h : x.OpensLiteral i) : (Nesting.after x).isQuoted = true := by
  have hend := h.behind x.length h.within (Nat.le_refl _)
  rwa [List.take_length] at hend

theorem OpensLiteral.unique (hi : x.OpensLiteral i) (hj : x.OpensLiteral j) : i = j := by
  rcases Nat.lt_trichotomy i j with hlt | heq | hlt
  · have hquoted := hi.behind j hlt (Nat.le_of_lt hj.within)
    rw [hj.before] at hquoted
    cases hquoted
  · exact heq
  · have hquoted := hj.behind i hlt (Nat.le_of_lt hi.within)
    rw [hi.before] at hquoted
    cases hquoted

theorem NeverClosed.lt_length (h : x.NeverClosed i) : i < x.length :=
  (List.getElem?_eq_some_iff.mp h.opens).1

theorem NeverClosed.depth_pos (h : x.NeverClosed i) : 0 < (Nesting.after x).depth := by
  have hend := h.behind x.length h.lt_length (Nat.le_refl _)
  rw [List.take_length] at hend
  omega

theorem openCaseWords_succ (x : Text) (i : Nat) :
    x.openCaseWords (i + 1) =
      if x.startsWord i then Check.casesAfter (x.openCaseWords i) i (firstWord (x.drop i))
      else x.openCaseWords i := by
  unfold openCaseWords
  rw [wordsBefore_succ]
  split
  · rw [List.foldl_append]
    rfl
  · rw [List.append_nil]

theorem length_openCaseWords (x : Text) (i : Nat) :
    (x.openCaseWords i).length = x.caseDepth i := by
  induction i with
  | zero => rfl
  | succ i ih =>
      rw [openCaseWords_succ, caseDepth_succ]
      split
      · rw [Check.length_casesAfter, ih]
      · exact ih

end Text

namespace Diagnosis

variable {s : Text} {f g : Fault}

/-- The first of the things that can be wrong is one thing. -/
theorem unique (hf : Diagnosis s f) (hg : Diagnosis s g) : f = g := by
  -- two of one kind are both the first of it; of two kinds, each excludes what the other needs
  cases hf with
  | @misplaced i f h first =>
      cases hg with
      | @misplaced j g h' first' =>
          rcases Nat.lt_trichotomy i j with hlt | rfl | hlt
          · exact absurd h (first' i hlt f)
          · exact h.unique h'
          · exact absurd h' (first j hlt g)
      | literal none _ => exact absurd h (none _ _)
      | parenthesis none _ _ _ => exact absurd h (none _ _)
      | caseWord none _ _ _ => exact absurd h (none _ _)
  | literal none h =>
      cases hg with
      | misplaced h' _ => exact absurd h' (none _ _)
      | literal _ h' => rw [h.unique h']
      | parenthesis _ unquoted _ _ => simp [h.quoted] at unquoted
      | caseWord _ unquoted _ _ => simp [h.quoted] at unquoted
  | @parenthesis i none unquoted h first =>
      cases hg with
      | misplaced h' _ => exact absurd h' (none _ _)
      | literal _ h' => simp [h'.quoted] at unquoted
      | @parenthesis j _ _ h' first' =>
          rcases Nat.lt_trichotomy i j with hlt | rfl | hlt
          · exact absurd h (first' i hlt)
          · rfl
          · exact absurd h' (first j hlt)
      | caseWord _ _ closed _ => exact absurd h (closed _)
  | caseWord none unquoted closed h =>
      cases hg with
      | misplaced h' _ => exact absurd h' (none _ _)
      | literal _ h' => simp [h'.quoted] at unquoted
      | parenthesis _ _ h' _ => exact absurd h' (closed _)
      | caseWord _ _ _ h' =>
          rw [h, Option.some.injEq] at h'
          rw [h']

/-- A well-formed statement has none. -/
theorem not_wellFormed (hf : Diagnosis s f) : ¬ s.octets.WellFormed := by
  intro hs
  have hstart : Nesting.after s.octets = .start := hs.closed
  cases hf with
  | misplaced h first =>
      obtain ⟨houter, ⟨hchar, -⟩ | ⟨hchar, -⟩⟩ := h
      · have haccepted := hs.accepted _ _ hchar
        rw [Nesting.eq_start_of_isOutermost houter] at haccepted
        cases haccepted
      · rw [hs.single _ hchar] at houter
        cases houter
  | literal none h =>
      have hquoted := h.quoted
      rw [hstart] at hquoted
      cases hquoted
  | parenthesis none unquoted h first =>
      have hdepth := h.depth_pos
      rw [hstart] at hdepth
      cases hdepth
  | caseWord none unquoted closed h =>
      have hnil : s.octets.openCaseWords s.octets.length = [] := by
        apply List.eq_nil_of_length_eq_zero
        rw [length_openCaseWords, hs.noCase]
      rw [hnil] at h
      cases h

end Diagnosis

/-! ## The state of the check, by places -/

namespace Check

/-- What the state of a check says about the part of `x` that it has read. -/
structure Upto (x : Text) (k : Check) : Prop where
  nesting : k.nesting = Nesting.after (x.take k.index)
  inWord : k.inWord = (x.take k.index).getLast?.any isWordChar
  stacked : k.Stacked
  clean : ∀ j < k.index, ∀ f, ¬ x.Misplaced j f
  bottom : ∀ p, k.parens.getLast? = some p → p < k.index ∧ x[p]? = some '(' ∧
    Nesting.after (x.take p) = .start ∧
    ∀ q, p < q → q ≤ k.index → 0 < (Nesting.after (x.take q)).depth
  cases : k.cases = x.openCaseWords k.index
  quote : k.nesting.isQuoted = true → k.quoteStart < k.index ∧
    (Nesting.after (x.take k.quoteStart)).isQuoted = false ∧
    ∀ q, k.quoteStart < q → q ≤ k.index → (Nesting.after (x.take q)).isQuoted = true

theorem upto_start (x : Text) : start.Upto x where
  nesting := rfl
  inWord := rfl
  stacked := rfl
  clean := fun _ h => absurd h (Nat.not_lt_zero _)
  bottom := fun _ h => (by cases h)
  cases := rfl
  quote := fun h => (by cases h)

variable {x a : Text} {k : Check} {c : Char} {cs : Text}

/-- The outermost open parenthesis is the one that was, or a first one. -/
theorem bottom_next {p : Nat} (h : (k.next c cs).parens.getLast? = some p) :
    k.parens.getLast? = some p ∨
      (k.parens = [] ∧ k.nesting.isQuoted = false ∧ c = '(' ∧ p = k.index) := by
  simp only [next] at h
  split_ifs at h with hq hopen hclose
  · exact Or.inl h
  · cases hparens : k.parens with
    | nil =>
        rw [hparens, List.getLast?_singleton, Option.some.injEq] at h
        exact Or.inr ⟨rfl, by simpa using hq, hopen, h.symm⟩
    | cons q qs =>
        rw [hparens, List.getLast?_cons_cons] at h
        exact Or.inl h
  · cases hparens : k.parens with
    | nil =>
        rw [hparens] at h
        cases h
    | cons q qs =>
        rw [hparens, List.tail_cons] at h
        cases qs with
        | nil => cases h
        | cons r rs => exact Or.inl (by rw [List.getLast?_cons_cons, h])
  · exact Or.inl h

theorem isQuoteMark_of_next {n : Nesting} (hn : n.isQuoted = false)
    (h : (n.next c).isQuoted = true) : isQuoteMark c = true := by
  rw [Nesting.isQuoted_eq, Nesting.quoting_next, Nesting.eq_of_unquoted hn] at h
  by_contra hmark
  simp [Quoting.next, hmark, Quoting.isQuoted] at h

/-- What holds behind `p` up to an index, and at the next index too. -/
theorem upto_succ {P : Nat → Prop} {p i : Nat} (hupto : ∀ q, p < q → q ≤ i → P q)
    (hlast : P (i + 1)) : ∀ q, p < q → q ≤ i + 1 → P q := by
  intro q hpq hq
  rcases Nat.lt_or_ge i q with hlt | hle
  · obtain rfl : q = i + 1 := by omega
    exact hlast
  · exact hupto q hpq hle

section

variable (h : k.Upto x) (hx : x = a ++ c :: cs) (hindex : k.index = a.length)

include hx hindex

theorem take_index : x.take k.index = a ∧ x.take (k.index + 1) = a ++ [c] := by
  constructor
  · rw [hx, hindex, List.take_left]
  · rw [hx, hindex, List.take_append, List.take_of_length_le (by omega), Nat.add_sub_cancel_left]
    rfl

include h

theorem Upto.after_succ : Nesting.after (x.take (k.index + 1)) = k.nesting.next c := by
  obtain ⟨htake, htake'⟩ := take_index hx hindex
  rw [htake', h.nesting, htake]
  exact List.foldl_append

theorem Upto.bottom_succ {p : Nat} (hp : (k.next c cs).parens.getLast? = some p) :
    p < k.index + 1 ∧ x[p]? = some '(' ∧ Nesting.after (x.take p) = .start ∧
      ∀ q, p < q → q ≤ k.index + 1 → 0 < (Nesting.after (x.take q)).depth := by
  have hdepth : 0 < (Nesting.after (x.take (k.index + 1))).depth := by
    have hne : (k.next c cs).parens ≠ [] := by
      intro hnil
      rw [hnil] at hp
      cases hp
    have hstacked : (k.next c cs).parens.length = (k.nesting.next c).depth := h.stacked.next c cs
    rw [h.after_succ hx hindex, ← hstacked]
    exact List.length_pos_of_ne_nil hne
  rcases bottom_next hp with hold | ⟨hparens, hq, rfl, rfl⟩
  · obtain ⟨hlt, hchar, hstart, hopen⟩ := h.bottom p hold
    exact ⟨Nat.lt_succ_of_lt hlt, hchar, hstart, upto_succ hopen hdepth⟩
  · refine ⟨Nat.lt_succ_self _, ?_, ?_, upto_succ (fun q hpq hq => by omega) hdepth⟩
    · rw [hx, hindex, List.getElem?_append_right (Nat.le_refl _), Nat.sub_self,
        List.getElem?_cons_zero]
    · -- nothing is open in front of the first open parenthesis
      have hzero : k.nesting.depth = 0 := by
        rw [← h.stacked, hparens]
        rfl
      rw [← h.nesting, Nesting.eq_of_unquoted hq, hzero]
      rfl

theorem Upto.quote_succ (hquoted : (k.nesting.next c).isQuoted = true) :
    (k.next c cs).quoteStart < k.index + 1 ∧
      (Nesting.after (x.take (k.next c cs).quoteStart)).isQuoted = false ∧
      ∀ q, (k.next c cs).quoteStart < q → q ≤ k.index + 1 →
        (Nesting.after (x.take q)).isQuoted = true := by
  have hlast : (Nesting.after (x.take (k.index + 1))).isQuoted = true := by
    rw [h.after_succ hx hindex]
    exact hquoted
  cases hq : k.nesting.isQuoted with
  | true =>
      have hkept : (k.next c cs).quoteStart = k.quoteStart := by simp [next, hq]
      obtain ⟨hlt, hbefore, hbehind⟩ := h.quote hq
      rw [hkept]
      exact ⟨Nat.lt_succ_of_lt hlt, hbefore, upto_succ hbehind hlast⟩
  | false =>
      have hnew : (k.next c cs).quoteStart = k.index := by
        simp [next, hq, isQuoteMark_of_next hq hquoted]
      rw [hnew]
      refine ⟨Nat.lt_succ_self _, ?_, upto_succ (fun q hpq hq => by omega) hlast⟩
      rw [← h.nesting]
      exact hq

/-- Reading a character that is not at fault keeps what the state says. -/
theorem Upto.next (hclean : ∀ f, ¬ x.Misplaced k.index f) : (k.next c cs).Upto x := by
  obtain ⟨htake, htake'⟩ := take_index hx hindex
  refine ⟨(h.after_succ hx hindex).symm, ?_, h.stacked.next c cs, ?_,
    fun p hp => h.bottom_succ hx hindex hp, ?_, h.quote_succ hx hindex⟩
  · show isWordChar c = (x.take (k.index + 1)).getLast?.any isWordChar
    rw [htake', List.getLast?_concat, Option.any_some]
  · intro j hj f
    rcases Nat.lt_or_ge j k.index with hlt | hge
    · exact h.clean j hlt f
    · obtain rfl : j = k.index := by
        have hle : j < k.index + 1 := hj
        omega
      exact hclean f
  · have hnesting : k.nesting = Nesting.after a := by rw [h.nesting, htake]
    show (if _ then _ else _) = x.openCaseWords (k.index + 1)
    rw [openCaseWords_succ, hx, hindex, startsWord_append, List.drop_left, ← hx, ← hindex,
      ← hnesting, ← h.cases, h.inWord, htake]

end

/-! ## Characters and their bytes -/

/-- The check once the characters `t` are read, which are followed by `rest` and not at fault. -/
def nexts (k : Check) : Text → Text → Check
  | [], _ => k
  | c :: cs, rest => (k.next c (cs ++ rest)).nexts cs rest

/-- Several characters that are not at fault. -/
theorem Upto.nexts {t rest : Text} (h : k.Upto x) (hx : x = a ++ (t ++ rest))
    (hindex : k.index = a.length)
    (hclean : ∀ j, k.index ≤ j → j < k.index + t.length → ∀ f, ¬ x.Misplaced j f) :
    (k.nexts t rest).Upto x := by
  induction t generalizing k a with
  | nil => exact h
  | cons c cs ih =>
      have hstep : (k.next c (cs ++ rest)).Upto x := by
        apply h.next hx hindex
        exact hclean k.index (Nat.le_refl _) (by rw [List.length_cons]; omega)
      have hindex' : (k.next c (cs ++ rest)).index = k.index + 1 := rfl
      apply ih (a := a ++ [c]) hstep
      · rw [hx, List.append_assoc]
        rfl
      · rw [hindex', hindex, List.length_append]
        rfl
      · intro j hj hlt
        rw [hindex'] at hj hlt
        exact hclean j (by omega) (by rw [List.length_cons]; omega)

/-- The bytes of a character outside ASCII open and close nothing. -/
theorem nexts_high {t : Text} (ht : ∀ d ∈ t, IsHigh d) (hne : t ≠ []) (rest : Text) :
    k.nexts t rest =
      { k with index := k.index + t.length, nesting := k.nesting.scan t, inWord := false } := by
  have hstep : ∀ (k : Check) {d : Char} (ds : Text), IsHigh d →
      k.next d ds =
        { k with index := k.index + 1, nesting := k.nesting.next d, inWord := false } := by
    intro k d ds hd
    simp [next, hd.isWordChar_eq, hd.isQuoteMark_eq, hd.ne (d := '(') (by decide),
      hd.ne (d := ')') (by decide)]
  induction t generalizing k with
  | nil => exact absurd rfl hne
  | cons d ds ih =>
      have hd := ht d List.mem_cons_self
      rw [nexts, hstep k (ds ++ rest) hd]
      by_cases hnil : ds = []
      · rw [hnil]
        rfl
      · rw [ih (fun e he => ht e (List.mem_cons_of_mem d he)) hnil, List.length_cons]
        simp only [mk.injEq, and_true]
        exact ⟨by omega, rfl⟩

/-- The state with byte offsets in place of indices. -/
def inBytes (whole : Text) (k : Check) : Check :=
  { k with
    index := whole.byteOffset k.index
    parens := k.parens.map whole.byteOffset
    cases := k.cases.map whole.byteOffset
    quoteStart := whole.byteOffset k.quoteStart }

theorem map_casesAfter (f : Nat → Nat) (cases : List Nat) (i : Nat) (w : Text) :
    (casesAfter cases i w).map f = casesAfter (cases.map f) (f i) w := by
  unfold casesAfter
  split_ifs
  · rfl
  · rw [List.map_tail]
  · rfl

theorem inBytes_next_ascii {whole : Text} (hc : ¬ IsHigh c)
    (hoffset : whole.byteOffset (k.index + 1) = whole.byteOffset k.index + 1) :
    (k.next c cs).inBytes whole = (k.inBytes whole).next c cs.octets := by
  have hword : firstWord (c :: cs.octets) = firstWord (c :: cs) := by
    have hall := firstWord_octets (c :: cs)
    rwa [octets_cons, octets_of_ascii hc] at hall
  simp only [inBytes, next, mk.injEq, true_and]
  refine ⟨hoffset, ?_, ?_, ?_⟩
  · simp only [apply_ite (List.map whole.byteOffset), List.map_cons, List.map_tail]
    rfl
  · rw [hword, apply_ite (List.map whole.byteOffset), map_casesAfter]
    rfl
  · rw [apply_ite whole.byteOffset]
    rfl

/-- Reading a character is reading its bytes. -/
theorem inBytes_next {whole : Text} (hwhole : whole = a ++ c :: cs) (hindex : k.index = a.length)
    (hsound : k.nesting.quoting.Sound) :
    (k.next c cs).inBytes whole = (k.inBytes whole).nexts (octets [c]) cs.octets := by
  have hoffset : whole.byteOffset (k.index + 1) =
      whole.byteOffset k.index + (octets [c]).length := by
    rw [hwhole, hindex, byteOffset_succ]
  by_cases hc : IsHigh c
  · have hopen : c ≠ '(' := hc.ne (by decide)
    have hclose : c ≠ ')' := hc.ne (by decide)
    rw [nexts_high (isHigh_of_mem_octets hc) (octets_ne_nil c)]
    simp [inBytes, next, hc.isWordChar_eq, hc.isQuoteMark_eq, hopen, hclose, hoffset,
      Nesting.scan_octets hsound c]
  · rw [octets_of_ascii hc] at hoffset ⊢
    exact inBytes_next_ascii hc hoffset

/-! ## The run of the check -/

section

variable {s : Text} (h : (k.inBytes s).Upto s.octets) (hs : s = a ++ c :: cs)
  (hindex : k.index = a.length)

include hs hindex in
theorem index_inBytes : (k.inBytes s).index = a.octets.length := by
  show s.byteOffset k.index = _
  rw [hs, hindex, byteOffset_append]

include hs in
/-- The bytes of a character in a text. -/
theorem getElem?_octets {j : Nat} (hj : j < (octets [c]).length) :
    s.octets[a.octets.length + j]? = (octets [c])[j]? := by
  rw [hs, octets_append, octets_cons, List.getElem?_append_right (Nat.le_add_right _ _),
    Nat.add_sub_cancel_left, List.getElem?_append_left hj]

include h hs hindex in
/-- Whether a character is at fault, by its place. -/
theorem Upto.misplaced_iff (hc : ¬ IsHigh c) {f : Fault} :
    s.octets.Misplaced (s.byteOffset k.index) f ↔ k.nesting.isOutermost = true ∧
      (c = ')' ∧ f = .unbalancedParentheses (s.byteOffset k.index) ∨
        c = terminator ∧ f = .severalStatements (s.byteOffset k.index)) := by
  have hplace : s.byteOffset k.index = a.octets.length := index_inBytes hs hindex
  have hnesting : Nesting.after (s.octets.take (s.byteOffset k.index)) = k.nesting :=
    h.nesting.symm
  have hchar : s.octets[s.byteOffset k.index]? = some c := by
    have hfirst := getElem?_octets hs (j := 0) (by rw [octets_of_ascii hc]; exact Nat.one_pos)
    rw [hplace]
    rwa [octets_of_ascii hc] at hfirst
  unfold Misplaced
  rw [hnesting, hchar, Option.some.injEq, Option.some.injEq]

include h hs hindex in
/-- Reading a character that is not at fault keeps what the state says. -/
theorem Upto.character (hfault : k.nesting.isOutermost = true → c ≠ ')' ∧ c ≠ terminator) :
    ((k.next c cs).inBytes s).Upto s.octets := by
  have hsound : k.nesting.quoting.Sound := by
    have hnesting : k.nesting = Nesting.after _ := h.nesting
    rw [hnesting]
    exact Nesting.sound_scan sound_start _
  have hplace := index_inBytes hs hindex
  rw [inBytes_next hs hindex hsound]
  have hoctets : s.octets = a.octets ++ (octets [c] ++ cs.octets) := by
    rw [hs, octets_append, octets_cons]
  apply h.nexts hoctets hplace
  intro j hj hlt f hmisplaced
  by_cases hc : IsHigh c
  · -- no byte of the character is a parenthesis or a terminator
    obtain ⟨d, rfl⟩ : ∃ d, j = a.octets.length + d := ⟨j - a.octets.length, by omega⟩
    have hd : d < (octets [c]).length := by omega
    have hhigh : ∀ e, s.octets[a.octets.length + d]? = some e → IsHigh e := by
      intro e he
      rw [getElem?_octets hs hd] at he
      exact isHigh_of_mem_octets hc e (List.mem_of_getElem? he)
    obtain ⟨-, ⟨hchar, -⟩ | ⟨hchar, -⟩⟩ := hmisplaced
    · exact (hhigh _ hchar).ne (d := ')') (by decide) rfl
    · exact (hhigh _ hchar).ne (d := terminator) (by decide) rfl
  · have hone : (octets [c]).length = 1 := by rw [octets_of_ascii hc]; rfl
    obtain rfl : j = s.byteOffset k.index := by
      have hindexed : (k.inBytes s).index = s.byteOffset k.index := rfl
      omega
    obtain ⟨houter, ⟨hclose, -⟩ | ⟨hend, -⟩⟩ := (h.misplaced_iff hs hindex hc).mp hmisplaced
    · exact (hfault houter).1 hclose
    · exact (hfault houter).2 hend

end

/-- The outermost open parenthesis at the end is the first one that is never closed. -/
theorem Upto.neverClosed {p : Nat} (h : k.Upto x) (hindex : k.index = x.length)
    (hp : k.parens.getLast? = some p) : x.NeverClosed p ∧ ∀ j < p, ¬ x.NeverClosed j := by
  obtain ⟨hlt, hchar, hstart, hopen⟩ := h.bottom p hp
  rw [hindex] at hlt hopen
  refine ⟨⟨hchar, by rw [hstart]; rfl, fun q hpq hq => ?_⟩, fun j hj hnever => ?_⟩
  · rw [hstart]
    exact hopen q hpq hq
  · -- no parenthesis is open in front of it
    have hdepth := hnever.behind p hj (Nat.le_of_lt hlt)
    rw [hstart] at hdepth
    exact Nat.not_lt_zero _ hdepth

/-- A text without a misplaced character in which nothing is open at the end. -/
theorem wellFormed_of_clean (hclean : ∀ j f, ¬ x.Misplaced j f)
    (hclosed : Nesting.after x = .start) (hcases : x.openCaseWords x.length = []) :
    x.WellFormed := by
  refine ⟨fun i c hc => ?_, hclosed, fun i hi => ?_, ?_⟩
  · rw [Nesting.next?_eq_some]
    · rfl
    · rintro rfl hq
      rw [Nat.pos_iff_ne_zero]
      intro hzero
      exact hclean i _ ⟨by simp [Nesting.isOutermost, hq, hzero], Or.inl ⟨hc, rfl⟩⟩
  · rw [← Bool.not_eq_true]
    intro houter
    exact hclean i _ ⟨houter, Or.inr ⟨hi, rfl⟩⟩
  · rw [← length_openCaseWords, hcases]
    rfl

/-- What the verdict says at the end of a statement. -/
theorem Upto.verdict {s : Text} (h : (k.inBytes s).Upto s.octets) (hindex : k.index = s.length) :
    match k.verdict s with
    | .ok _ => s.octets.WellFormed
    | .error f => Diagnosis s f := by
  -- what holds of the bytes that have been read holds of all of them
  have hlength : (k.inBytes s).index = s.octets.length := by
    show s.byteOffset k.index = _
    rw [hindex, byteOffset, List.take_length, length_octets]
  have hafter : k.nesting = Nesting.after s.octets := by
    have hnesting : k.nesting = _ := h.nesting
    rwa [hlength, List.take_length] at hnesting
  have hclean : ∀ j f, ¬ s.octets.Misplaced j f := by
    intro j f hmisplaced
    exact h.clean j (hlength ▸ hmisplaced.lt_length) f hmisplaced
  have hexcerpt : ∀ i, excerpt s i = (s.dropBytes (s.byteOffset i)).take excerptLength := by
    intro i
    rw [excerpt, dropBytes_byteOffset]
  have hcases : k.cases.map s.byteOffset = s.octets.openCaseWords s.octets.length := by
    have hwords : k.cases.map s.byteOffset = _ := h.cases
    rwa [hlength] at hwords
  rw [Check.verdict]
  by_cases hquoted : k.nesting.isQuoted = true
  · obtain ⟨hlt, hbefore, hbehind⟩ := h.quote hquoted
    rw [hlength] at hlt hbehind
    rw [if_pos hquoted, hexcerpt]
    exact .literal hclean ⟨hlt, hbefore, hbehind⟩
  · have hunquoted : (Nesting.after s.octets).isQuoted = false := by
      rw [← hafter]
      simpa using hquoted
    rw [if_neg hquoted]
    cases hparens : k.parens.getLast? with
    | some i =>
        have hp : (k.inBytes s).parens.getLast? = some (s.byteOffset i) := by
          show (k.parens.map s.byteOffset).getLast? = _
          rw [List.getLast?_map, hparens]
          rfl
        obtain ⟨hnever, hfirst⟩ := h.neverClosed hlength hp
        exact .parenthesis hclean hunquoted hnever hfirst
    | none =>
        have hdepth : (Nesting.after s.octets).depth = 0 := by
          have hstacked : (k.parens.map s.byteOffset).length = k.nesting.depth := h.stacked
          rw [List.getLast?_eq_none_iff.mp hparens] at hstacked
          rw [← hafter, ← hstacked]
          rfl
        cases hlast : k.cases.getLast? with
        | some i =>
            dsimp only
            rw [hexcerpt]
            refine .caseWord hclean hunquoted (fun j hnever => ?_) ?_
            · exact absurd hnever.depth_pos (by omega)
            · rw [← hcases, List.getLast?_map, hlast]
              rfl
        | none =>
            apply wellFormed_of_clean hclean
            · rw [Nesting.eq_of_unquoted hunquoted, hdepth]
              rfl
            · rw [← hcases, List.getLast?_eq_none_iff.mp hlast]
              rfl

/-- What comes of the rest of a statement. -/
theorem Upto.run {s t : Text} (h : (k.inBytes s).Upto s.octets) (hs : s = a ++ t)
    (hindex : k.index = a.length) :
    match k.run s t with
    | .ok _ => s.octets.WellFormed
    | .error f => Diagnosis s f := by
  induction t generalizing k a with
  | nil =>
      rw [List.append_nil] at hs
      exact h.verdict (by rw [hindex, hs])
  | cons c cs ih =>
      -- the stack of parentheses is as high as the depth
      have hparens : k.parens = [] ↔ k.nesting.depth = 0 := by
        rw [← List.length_eq_zero_iff]
        have hstacked : (k.parens.map s.byteOffset).length = k.nesting.depth := h.stacked
        rw [List.length_map] at hstacked
        rw [hstacked]
      have hfirst : ∀ j < s.byteOffset k.index, ∀ g, ¬ s.octets.Misplaced j g := h.clean
      rw [Check.run, read_eq_next]
      split_ifs with hclose hend
      · obtain ⟨hq, rfl, hnil⟩ := hclose
        have houter : k.nesting.isOutermost = true := by
          simp [Nesting.isOutermost, hq, hparens.mp hnil]
        exact .misplaced ((h.misplaced_iff hs hindex (by unfold IsHigh; decide)).mpr
          ⟨houter, Or.inl ⟨rfl, rfl⟩⟩) hfirst
      · obtain ⟨hq, rfl, hzero⟩ := hend
        have houter : k.nesting.isOutermost = true := by simp [Nesting.isOutermost, hq, hzero]
        exact .misplaced ((h.misplaced_iff hs hindex (by unfold IsHigh; decide)).mpr
          ⟨houter, Or.inr ⟨rfl, rfl⟩⟩) hfirst
      · -- nothing is misplaced here, so one character more has been read without a fault
        have hfault : k.nesting.isOutermost = true → c ≠ ')' ∧ c ≠ terminator := by
          intro houter
          simp only [Nesting.isOutermost, Bool.and_eq_true, beq_iff_eq,
            Bool.not_eq_true'] at houter
          exact ⟨fun hc => hclose ⟨houter.2, hc, hparens.mpr houter.1⟩,
            fun hc => hend ⟨houter.2, hc, houter.1⟩⟩
        apply ih (a := a ++ [c]) (h.character hs hindex hfault)
        · rw [hs, List.append_assoc]
          rfl
        · show k.index + 1 = _
          rw [hindex, List.length_append]
          rfl

end Check

/-- The check is exact: it accepts the well-formed statements, and of any other one it reports its
diagnosis. -/
theorem validate_exact (s : Text) :
    (validate s = .ok () ↔ s.octets.WellFormed) ∧
      ∀ f, validate s = .error f ↔ Diagnosis s f := by
  have hrun := Check.Upto.run (k := .start) (a := []) (t := s) (Check.upto_start s.octets) rfl rfl
  have hvalidate : validate s = Check.run s .start s := rfl
  rw [← hvalidate] at hrun
  cases hresult : validate s with
  | ok u =>
      rw [hresult] at hrun
      have hs : s.octets.WellFormed := hrun
      exact ⟨⟨fun _ => hs, fun _ => rfl⟩,
        fun f => ⟨fun h => (by cases h), fun h => absurd hs h.not_wellFormed⟩⟩
  | error f =>
      rw [hresult] at hrun
      have hf : Diagnosis s f := hrun
      refine ⟨⟨fun h => (by cases h), fun hs => absurd hs hf.not_wellFormed⟩, fun g => ⟨?_, ?_⟩⟩
      · intro h
        rwa [← Except.error.inj h]
      · intro hg
        rw [hf.unique hg]

example : validate "é('ü', ';".toList = .error (.unterminated .stringLiteral "';".toList) ∧
    validate "é('ü'".toList = .error (.unbalancedParentheses 2) := by decide

end SqlLayout
