import SqlLayout.Proofs.Conditions

set_option autoImplicit false

/-! # Columns

A `CASE` expression is laid out token by token. `spread_branchLines` is the invariant of that
scan: the lines so far, with the line that is still being written, respace the tokens read.

What one token does is said once, by `branchLines_cons`: it closes the expression, or it is
written on the line or at the start of one. In each case it is written as itself or as the
keyword it spells (`Token.Written`), so the proofs about the branches have three cases and not
one for every keyword.
-/

namespace SqlLayout

/-! ## Keywords of one byte a character

The text behind a keyword is cut off by bytes. A spelling of a keyword has one byte for each
character, as the keyword has. -/

namespace Text

/-- A capital takes as many bytes as its small letter. -/
@[simp] theorem utf8Size_toUpper (c : Char) : c.toUpper.utf8Size = c.utf8Size := by
  have hletters : ∀ n : Fin 26,
      (Char.ofNat (65 + n)).utf8Size = (Char.ofNat (97 + n)).utf8Size := by decide
  rcases toUpper_cases c with hc | ⟨n, hc, hu⟩
  · rw [hc]
  · rw [hu, hletters n, ← hc]

/-- Among characters of one byte, offsets and places agree. -/
theorem indexAt?_append {s : Text} (hs : ∀ c ∈ s, c.utf8Size = 1) (r : Text) :
    indexAt? s.length (s ++ r) = some s.length := by
  induction s with
  | nil => simp [indexAt?]
  | cons c cs ih =>
      have hc : c.utf8Size = 1 := hs c (by simp)
      have hrec := ih (fun d hd => hs d (by simp [hd]))
      simp only [List.length_cons, List.cons_append, indexAt?, hc]
      simp [hrec]

theorem byteLength_eq_length {t : Text} (h : ∀ c ∈ t, c.utf8Size = 1) :
    t.byteLength = t.length := by
  induction t with
  | nil => rfl
  | cons c cs ih =>
      have hrec := ih (fun d hd => h d (by simp [hd]))
      rw [byteLength, h c (by simp), hrec, List.length_cons]
      omega

/-- Letters, digits and the underscore take one byte. -/
theorem utf8Size_of_isWordChar {c : Char} (h : isWordChar c = true) : c.utf8Size = 1 := by
  have hsmall : c.val.toNat ≤ 127 := by
    show c.toNat ≤ 127
    rcases isWordChar_iff.mp h with h | h | h | rfl
    · omega
    · omega
    · omega
    · decide
  have hle : c.val ≤ 0x7f := UInt32.le_iff_toNat_le.mpr hsmall
  simp [Char.utf8Size, hle]

/-- What follows a spelling of a keyword. -/
theorem dropBytes_keyword {k s : Text} (hkey : Layout.IsKeyword k) (hs : s.upper = k.upper)
    (r : Text) : dropBytes k.byteLength (s ++ r) = r := by
  have hk : ∀ c ∈ k, c.utf8Size = 1 := by
    intro c hc
    rcases hkey.mem_cases hc with hw | rfl
    · exact utf8Size_of_isWordChar hw
    · decide
  have hlen : k.byteLength = s.length := by
    rw [length_eq_of_upper_eq hs, byteLength_eq_length hk]
  have hbytes : ∀ c ∈ s, c.utf8Size = 1 := by
    intro c hc
    have hmem : c.toUpper ∈ k.upper := hs ▸ List.mem_map_of_mem hc
    obtain ⟨d, hd, hdc⟩ := List.mem_map.mp hmem
    rw [← utf8Size_toUpper, ← hdc, utf8Size_toUpper]
    exact hk d hd
  rw [dropBytes, hlen, indexAt?_append hbytes]
  simp

end Text

namespace Layout

open Text

/-! ## Tokens -/

/-- The next token of a text that continues after a token, and the spaces before it. -/
theorem spread_token {lead text : Text} (hlead : ∀ c ∈ lead, c = ' ') (hne : lead ≠ [])
    {q : Track} (e : Option Char) {w : Text}
    (hw : w = text ∨ (w = text.upper ∧ (q.scan lead).Clear ∧ Unquoted w)) :
    Spread True (Text.glyphs e q (lead ++ text)) (w.marks none) := by
  have hblank : AllBlank lead := by
    intro c hc
    rw [hlead c hc]
    decide
  have hedge : edge e lead = none := by rw [hblank.edge_eq, if_neg hne]
  rw [glyphs_append, hblank.glyphs_eq, hedge, List.nil_append]
  refine Spread.recased ?_ (show EdgeKept none none from trivial)
  rcases hw with rfl | ⟨rfl, hclear, hquote⟩
  · exact Recased.refl _ _
  · refine Recased.upper hclear (fun c hc => ?_)
    rw [← isQuoteMark_toUpper]
    exact hquote _ (List.mem_map_of_mem hc)

/-- The rest of a text after one of its tokens. -/
def Resumes (t : Text) : Prop := t = [] ∨ ∃ r, t = ' ' :: r

/-- Between two tokens there is a space. -/
theorem Resumes.lead_ne_nil {lead text rest : Text} (h : Resumes (lead ++ (text ++ rest)))
    (hne : text ≠ []) (htext : ∀ c ∈ text, c ≠ ' ') : lead ≠ [] := by
  rintro rfl
  obtain ⟨c, cs, rfl⟩ := List.exists_cons_of_ne_nil hne
  rcases h with hnil | ⟨r, hr⟩
  · cases hnil
  · simp only [List.nil_append, List.cons_append, List.cons.injEq] at hr
    exact htext c (by simp) hr.1

/-- The tokens that follow another one. -/
theorem spread_tokens {ts : List Token} {i : Nat} {n : Nesting} {t : Text}
    (h : ts = Token.scan i n false t) (hres : Resumes t) {q : Track} (e e' : Option Char) :
    Spread True (t.glyphs e q) (Text.marks e' (ts.flatMap fun k => ' ' :: k.text)) := by
  induction ts generalizing i n t q e e' with
  | nil =>
      have hspace := Token.eq_space_of_scan_eq_nil h.symm
      have hblank : AllBlank t := by
        intro c hc
        rw [hspace c hc]
        decide
      rw [hblank.glyphs_eq]
      exact Spread.nil
  | cons k ks ih =>
      obtain ⟨lead, rest, rfl, hlead, hne, htext, hrest, -, -, hks⟩ := Token.scan_split h.symm
      have hleadne : lead ≠ [] := hres.lead_ne_nil hne htext
      have hfirst := spread_token hlead hleadne (q := q) e (Or.inl (rfl : k.text = k.text))
      have hlater := ih (q := q.scan (lead ++ k.text)) hks hrest (edge e (lead ++ k.text))
        (edge none k.text)
      rw [← List.append_assoc, glyphs_append, List.flatMap_cons, List.cons_append, marks,
        if_pos (by decide), marks_append]
      exact hfirst.true_append hlater

end Layout

/-! ## What a token is written as -/

namespace Token

open Text Layout

/-- A token that spells a keyword is the keyword up to case. -/
theorem upper_of_spells {t : Token} {k : Text} (h : t.spells k = true) :
    k.upper = t.text.upper := by
  simp only [Token.spells, Bool.and_eq_true, same_iff] at h
  exact h.2.symm

/-- A token spells one keyword. -/
theorem spells_eq_false {t : Token} {k k' : Text} (h : t.spells k = true)
    (hne : k.upper ≠ k'.upper) : t.spells k' = false := by
  rw [← Bool.not_eq_true]
  exact fun h' => hne ((upper_of_spells h).trans (upper_of_spells h').symm)

/-- What a token is written as: it stays as it is, or becomes the keyword it spells. -/
def Written (t : Token) (w : Text) : Prop :=
  w = t.text ∨ (t.spells w = true ∧ w.upper = w ∧ Unquoted w)

/-- Writing a token changes its case at most. -/
theorem Written.upper_eq {t : Token} {w : Text} (h : t.Written w) : w.upper = t.text.upper := by
  rcases h with rfl | ⟨hspells, -, -⟩
  · rfl
  · exact upper_of_spells hspells

/-- A token and the spaces before it are respaced by what the token is written as. A keyword is
spelled outside everything only, so no literal is touched. -/
theorem Written.spread {t : Token} {w : Text} (h : t.Written w) {lead : Text}
    (hlead : ∀ c ∈ lead, c = ' ') (hne : lead ≠ []) {q : Track}
    (hq : (q.scan lead).Agrees t.nesting) (e : Option Char) :
    Spread True (Text.glyphs e q (lead ++ t.text)) (w.marks none) := by
  refine spread_token hlead hne e ?_
  rcases h with rfl | ⟨hspells, hupper, hquote⟩
  · exact Or.inl rfl
  · have hout := hspells
    simp only [Token.spells, Bool.and_eq_true] at hout
    refine Or.inr ⟨?_, hq.clear (isQuoted_eq_false_of_isOutermost hout.1), hquote⟩
    rw [← upper_of_spells hspells, hupper]

end Token

namespace Layout

open Text

/-! ## The branches of a `CASE` expression -/

/-- Where the scan stands before a token is what the token knows of its nesting. -/
theorem agrees_token {q : Track} {n : Nesting} (hq : q.Agrees n) {lead : Text} {k : Token}
    (hk : k.nesting = n.scan lead) : (q.scan lead).Agrees k.nesting := by
  rw [hk]
  exact hq.scan lead

/-- What a token does: it closes the expression, or it goes on the line or starts one, as it is or
as the keyword it spells. -/
theorem branchLines_cons (nested : Nat) (line : Text) (t : Token) (ts : List Token) :
    (nested = 0 ∧ t.spells Keyword.CASE = false ∧ t.spells Keyword.END = true ∧
      branchLines nested line (t :: ts) = some ([line], ts)) ∨
    ∃ (nested' : Nat) (w : Text),
      nested' + 1 = (if t.spells Keyword.CASE then nested + 1 + 1
        else if t.spells Keyword.END then nested + 1 - 1 else nested + 1) ∧
      t.Written w ∧
      (branchLines nested line (t :: ts) = branchLines nested' (line ++ ' ' :: w) ts ∨
        branchLines nested line (t :: ts)
          = (branchLines nested' w ts).map fun (lines, rest) => (line :: lines, rest)) := by
  have hkept : t.Written t.text := Or.inl rfl
  have hkeyword : ∀ {k : Text}, t.spells k = true → k.upper = k → Unquoted k → t.Written k :=
    fun hk hupper hquote => Or.inr ⟨hk, hupper, hquote⟩
  rw [branchLines]
  -- `CASE` and `END` move the depth; the other keywords only count at depth zero
  cases hcase : t.spells Keyword.CASE with
  | true => exact Or.inr ⟨nested + 1, t.text, by simp, hkept, Or.inl (by simp)⟩
  | false =>
      cases hend : t.spells Keyword.END with
      | true =>
          have hwhen : t.spells Keyword.WHEN = false := Token.spells_eq_false hend (by decide)
          have helse : t.spells Keyword.ELSE = false := Token.spells_eq_false hend (by decide)
          have hthen : t.spells Keyword.THEN = false := Token.spells_eq_false hend (by decide)
          cases nested with
          | zero => exact Or.inl ⟨rfl, rfl, rfl, by simp [hwhen, helse, hthen]⟩
          | succ nested => exact Or.inr ⟨nested, t.text, by simp, hkept, Or.inl (by simp)⟩
      | false =>
          refine Or.inr ⟨nested, ?_⟩
          cases nested with
          | succ nested => exact ⟨t.text, by simp, hkept, Or.inl (by simp)⟩
          | zero =>
              cases hwhen : t.spells Keyword.WHEN with
              | true =>
                  exact ⟨Keyword.WHEN, by simp, hkeyword hwhen (by decide) (by decide),
                    Or.inr (by simp)⟩
              | false =>
                  cases helse : t.spells Keyword.ELSE with
                  | true =>
                      exact ⟨Keyword.ELSE, by simp, hkeyword helse (by decide) (by decide),
                        Or.inr (by simp)⟩
                  | false =>
                      cases hthen : t.spells Keyword.THEN with
                      | true =>
                          exact ⟨Keyword.THEN, by simp, hkeyword hthen (by decide) (by decide),
                            Or.inl (by simp)⟩
                      | false => exact ⟨t.text, by simp, hkept, Or.inl (by simp)⟩

/-- The branches up to `END`: the lines take over the line so far and respace the tokens up to
that `END`, which is on none of them. -/
theorem spread_branchLines {ts : List Token} {i : Nat} {n : Nesting} {t : Text}
    (hts : ts = Token.scan i n false t) (hres : Resumes t) {nested : Nat} {line : Text}
    {lines : List Text} {after : List Token}
    (h : branchLines nested line ts = some (lines, after)) {q : Track} (hq : q.Agrees n)
    (e : Option Char) :
    ∃ a b i' n' v', t = a ++ b ∧ after = Token.scan i' n' false b ∧ Resumes b ∧
      (lines.flatMap fun l => l.marks none) = line.marks none ++ v' ∧
      Spread True (a.glyphs e q) (v' ++ Keyword.END.marks none) := by
  induction ts generalizing i n t nested line lines q e with
  | nil => cases h
  | cons k ks ih =>
      obtain ⟨lead, rest, rfl, hlead, hne, htext, hrest, -, hnest, hks⟩ :=
        Token.scan_split hts.symm
      have hleadne : lead ≠ [] := hres.lead_ne_nil hne htext
      have hagrees := agrees_token hq hnest
      have hqrest : (q.scan (lead ++ k.text)).Agrees (k.nesting.scan k.text) := by
        rw [Track.scan_append]
        exact hagrees.scan k.text
      -- one token is written as `w`, and the scan goes on with the line `line'`
      have step : ∀ {w line' : Text} {nested' : Nat} {lines' : List Text}, k.Written w →
          branchLines nested' line' ks = some (lines', after) →
          (∀ v', (lines'.flatMap fun l => l.marks none) = line'.marks none ++ v' →
            (lines.flatMap fun l => l.marks none)
              = line.marks none ++ (w.marks none ++ v')) →
          ∃ a b i' n' v', lead ++ (k.text ++ rest) = a ++ b ∧ after = Token.scan i' n' false b ∧
            Resumes b ∧ (lines.flatMap fun l => l.marks none) = line.marks none ++ v' ∧
            Spread True (Text.glyphs e q a) (v' ++ Keyword.END.marks none) := by
        intro w line' nested' lines' hw hrec hlines
        obtain ⟨a, b, i', n', v', rfl, hafter, hb, hmarks, hspread⟩ :=
          ih hks hrest hrec hqrest (edge e (lead ++ k.text))
        refine ⟨(lead ++ k.text) ++ a, b, i', n', w.marks none ++ v', by simp, hafter, hb,
          hlines v' hmarks, ?_⟩
        rw [glyphs_append, List.append_assoc]
        exact (hw.spread hlead hleadne hagrees e).true_append hspread
      rcases branchLines_cons nested line k ks with
        ⟨-, -, hend, hstep⟩ | ⟨nested', w, -, hw, hstep | hstep⟩
      · rw [hstep] at h
        obtain ⟨rfl, rfl⟩ : [line] = lines ∧ ks = after := by simpa using h
        have hEND : k.Written Keyword.END := Or.inr ⟨hend, by decide, by decide⟩
        exact ⟨lead ++ k.text, rest, _, _, [], by simp, hks, hrest, by simp,
          hEND.spread hlead hleadne hagrees e⟩
      · -- the line goes on
        rw [hstep] at h
        refine step hw h (fun v' hv => ?_)
        rw [hv, marks_append, marks, if_pos (by decide), List.append_assoc]
      · -- a new one starts
        rw [hstep] at h
        obtain ⟨⟨lines', after'⟩, hrec, hpair⟩ := Option.map_eq_some_iff.mp h
        obtain ⟨rfl, rfl⟩ : line :: lines' = lines ∧ after' = after := by simpa using hpair
        refine step hw hrec (fun v' hv => ?_)
        rw [List.flatMap_cons, hv]

/-- How far the branches stand in does not matter to their marks. -/
theorem lineMarks_hanging (level : Nat) (lines : List Text) :
    lineMarks (hanging level lines) = lines.flatMap fun l => l.marks none := by
  cases lines with
  | nil => rfl
  | cons l ls => simp [hanging, lineMarks, List.flatMap_map]

theorem case_isKeyword : IsKeyword Keyword.CASE := ⟨by decide, by decide, by decide, by decide⟩

/-- The first token of a `CASE` expression, with the rest of its text. -/
theorem tokens_case {expr : Text} (h : expr.startsKeyword Keyword.CASE = true) :
    ∃ first rest s r b, expr.tokens = first :: rest ∧ first.text = s ++ r ∧
      s.upper = Keyword.CASE.upper ∧ expr = (s ++ r) ++ b ∧ Resumes b ∧
      rest = Token.scan (s ++ r).length (Nesting.after (s ++ r)) false b := by
  obtain ⟨hspell, -⟩ := startsKeyword_iff.mp h
  generalize hs : expr.take Keyword.CASE.length = s at hspell
  have hexpr : expr = s ++ expr.drop Keyword.CASE.length := by
    rw [← hs, List.take_append_drop]
  have hnospace : ∀ c ∈ s, c ≠ ' ' := by
    rintro c hc rfl
    have hmem : Char.toUpper ' ' ∈ Keyword.CASE.upper := hspell ▸ List.mem_map_of_mem hc
    exact absurd hmem (by decide)
  have hne : s ≠ [] := by
    rintro rfl
    exact absurd hspell (by decide)
  obtain ⟨c, cs, hc⟩ := List.exists_cons_of_ne_nil hne
  cases htok : expr.tokens with
  | nil =>
      have hspace := Token.eq_space_of_scan_eq_nil htok
      exact absurd (hspace c (by rw [hexpr, hc]; simp)) (hnospace c (by simp [hc]))
  | cons first rest =>
      obtain ⟨lead, b, hsplit, hlead, -, htext, hb, hidx, hnest, hrest⟩ :=
        Token.scan_split htok
      obtain rfl : lead = [] := by
        cases lead with
        | nil => rfl
        | cons d ds =>
            rw [hexpr, hc] at hsplit
            simp only [List.cons_append, List.cons.injEq] at hsplit
            exact absurd (hsplit.1.trans (hlead d (by simp))) (hnospace c (by simp [hc]))
      obtain ⟨r, hr⟩ : ∃ r, first.text = s ++ r := by
        have heq : s ++ expr.drop Keyword.CASE.length = first.text ++ b := by
          rw [← hexpr]
          exact hsplit
        rcases List.append_eq_append_iff.mp heq with ⟨r, hr, -⟩ | ⟨r, hr, hbr⟩
        · exact ⟨r, hr⟩
        · -- a space of `b` would belong to the keyword
          rcases hb with rfl | ⟨x, rfl⟩
          · obtain rfl : r = [] := (List.append_eq_nil_iff.mp hbr.symm).1
            exact ⟨[], by simp [hr]⟩
          · cases r with
            | nil => exact ⟨[], by simp [hr]⟩
            | cons y ys =>
                simp only [List.cons_append, List.cons.injEq] at hbr
                exact absurd hbr.1.symm (hnospace y (by simp [hr]))
      rw [hr] at hsplit hrest
      refine ⟨first, rest, s, r, b, rfl, hr, hspell, hsplit, hb, ?_⟩
      rw [hrest, hnest]
      simp [Nesting.after, Nesting.scan]

/-- The lines of a `CASE` expression respace it, and the preserved words stay: it is broken between
tokens only, and a space is no part of a word. The first token is the keyword with what follows
it, then come the branches up to `END` (`spread_branchLines`) and the tokens behind it. -/
theorem lays_caseExpression {expr suffix : Text} {level : Nat} {block : Block}
    (hcase : expr.startsKeyword Keyword.CASE = true)
    (h : caseExpression expr suffix level = .ok block) {q : Track} (hq : q.Clear)
    {e : Option Char} (he : Fresh e) : Lays True (expr.glyphs e q) suffix block.lines := by
  obtain ⟨first, rest, s, r, t, htok, hfirst, hs, ht, hres, hrest⟩ := tokens_case hcase
  unfold caseExpression at h
  rw [htok] at h
  dsimp only at h
  rw [hfirst, dropBytes_keyword case_isKeyword hs] at h
  cases hbranch : branchLines 0 (Keyword.CASE ++ r) rest with
  | none => simp [hbranch] at h
  | some pair =>
      obtain ⟨lines, after⟩ := pair
      simp only [hbranch, Except.ok.injEq] at h
      have hagrees : (q.scan (s ++ r)).Agrees (Nesting.after (s ++ r)) :=
        hq.agrees_start.scan (s ++ r)
      obtain ⟨a, b, i', n', v', rfl, hafter, hb, hmarks, hspread⟩ :=
        spread_branchLines hrest hres hbranch hagrees (edge e (s ++ r))
      -- the keyword is written in capitals, whatever is attached to it
      have hhead :
          Spread True (Text.glyphs e q (s ++ r)) (Text.marks none (Keyword.CASE ++ r)) := by
        have hrecased : Recased q (s ++ r) (Keyword.CASE ++ r) := by
          have hup := Recased.upper hq (unquoted_of_upper_eq hs case_isKeyword.unquoted)
          rw [hs] at hup
          exact hup.append (Recased.refl _ r)
        exact (Spread.recased_line hrecased hq (he.breakable _)).congr (by simp [he.divided])
      have htail := spread_tokens hafter hb (q := q.scan ((s ++ r) ++ a))
        (edge e ((s ++ r) ++ a)) (edge none Keyword.END)
      -- the first token, the branches and `END`, and the rest
      have hall := (hhead.true_append hspread).true_append htail
      rw [← glyphs_append, ← glyphs_append, List.append_assoc, ← ht] at hall
      refine ⟨_, edge (edge none Keyword.END) (after.flatMap fun k => ' ' :: k.text), ?_, hall⟩
      rw [← h]
      simp only [lineMarks_append, lineMarks_hanging, lineMarks_cons, lineMarks_nil, hmarks,
        endLine, marks_append, List.append_assoc, List.append_nil]

/-! ## Any column -/

/-- The lines of a column respace it, whichever construct it is. The preserved words stay unless a
window function is broken where they do not (`windowDivided`). -/
theorem lays_column {text suffix : Text} {level : Nat} {block : Block}
    (h : column level text suffix = .ok block) {q : Track} (hq : q.Clear) {e : Option Char}
    (he : Fresh e) :
    Lays (columnDivided text = true) (text.glyphs e q) suffix block.lines := by
  unfold column at h
  unfold columnDivided
  split at h
  · rename_i hcase
    exact (lays_caseExpression hcase h hq he).congr (by simp [hcase])
  · rename_i hcase
    have hcase' : text.startsKeyword Keyword.CASE = false := by simpa using hcase
    rw [hcase', Bool.false_or]
    split at h
    · exact lays_windowFunction h hq he
    · rename_i hover
      have hfirst : text.firstOccurrence? Keyword.OVER = none := by
        simpa [hasKeyword] using hover
      simp only [Except.ok.injEq] at h
      rw [← h]
      exact (lays_plain hq he _ _ _).congr (by simp [windowDivided, hfirst])

end Layout

end SqlLayout
