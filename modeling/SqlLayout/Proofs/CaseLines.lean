import SqlLayout.Proofs.Columns
import SqlLayout.Proofs.Windows

set_option autoImplicit false

/-! # CASE expressions on one line

The branches of a `CASE` expression, put on one line, are its words again, some of them in upper
case (`branchLines_again`). The words have the same nesting, so the branches start at the same
words, and the expression is laid out as before (`relaid_caseExpression`).
-/

namespace SqlLayout

open Text

/-! ## Words and tokens

A neat text is its words with a space between each two. Read from the left, it is its first word
and then the others, each with a space before it; this is the form that the induction over the
branches takes, since every token but the first stands behind a space. -/

/-- Words, each with a space before it. -/
def spell (ws : List Text) : Text := ws.flatMap fun w => ' ' :: w

/-- A word between blanks. -/
structure Solid (w : Text) : Prop where
  ne_nil : w ≠ []
  unblank : ∀ c ∈ w, isBlank c = false

theorem spell_cons (w : Text) (ws : List Text) : spell (w :: ws) = ' ' :: (w ++ spell ws) := by
  simp [spell]

theorem resumes_spell (ws : List Text) : Layout.Resumes (spell ws) := by
  cases ws with
  | nil => exact Or.inl rfl
  | cons w ws => exact Or.inr ⟨_, spell_cons w ws⟩

/-- Words with a space between them are the first word and the others spelled behind it. -/
theorem join_eq_spell (w : Text) (ws : List Text) : join [' '] (w :: ws) = w ++ spell ws := by
  induction ws generalizing w with
  | nil => simp [join, spell]
  | cons v vs ih => rw [join, ih v, spell_cons, List.append_assoc, List.singleton_append]

/-- A word has no blanks to set right. -/
theorem Solid.neat {w : Text} (h : Solid w) : Neat w :=
  Neat.of_unblank (by simpa using h.unblank)

theorem Neat.words_eq {t : Text} (h : Neat t) : join [' '] t.words = t := h.normalize_eq

/-- A keyword of one word. -/
theorem solid_of_isWordChar {w : Text} (hne : w.isEmpty = false) (hw : w.all isWordChar = true) :
    Solid w := by
  refine ⟨by simpa using hne, fun c hc => ?_⟩
  rw [List.all_eq_true] at hw
  exact not_isBlank_of (Or.inr (Or.inr (Or.inl (hw c hc))))

theorem solid_words {t w : Text} (h : w ∈ t.words) : Solid w := ⟨(mem_words h).1, (mem_words h).2⟩

/-- Letter case makes no difference. -/
theorem Solid.of_upper {w w' : Text} (hw : Solid w) (h : w'.upper = w.upper) : Solid w' := by
  refine ⟨?_, fun c hc => ?_⟩
  · rintro rfl
    exact hw.ne_nil (List.map_eq_nil_iff.mp h.symm)
  · have hmem : c.toUpper ∈ w.upper := h ▸ List.mem_map_of_mem hc
    obtain ⟨d, hd, heq⟩ := List.mem_map.mp hmem
    rw [← isBlank_toUpper, ← heq, isBlank_toUpper]
    exact hw.unblank d hd

/-- A word that is followed by a space, or by nothing, is read as one token. The scan goes on behind
it with the nesting that the word leaves. -/
theorem Token.scan_solid {w : Text} (hw : Solid w) {rest : Text} (hrest : Layout.Resumes rest)
    (i : Nat) (n : Nesting) :
    Token.scan i n false (w ++ rest)
      = ⟨w, i, n⟩ :: Token.scan (i + w.length) (n.scan w) false rest := by
  have hspace : ∀ c ∈ w, (c != ' ') = true := by
    intro c hc
    have hblank := hw.unblank c hc
    rw [bne_iff_ne]
    rintro rfl
    exact absurd hblank (by decide)
  have htake : rest.takeWhile (· != ' ') = [] := by
    rcases hrest with rfl | ⟨r, rfl⟩ <;> rfl
  have hdrop : rest.dropWhile (· != ' ') = rest := by
    rcases hrest with rfl | ⟨r, rfl⟩ <;> rfl
  obtain ⟨c, cs, rfl⟩ := List.exists_cons_of_ne_nil hw.ne_nil
  have hc : (c == ' ') = false := by simpa using hspace c (by simp)
  have hcs : ∀ d ∈ cs, (d != ' ') = true := fun d hd => hspace d (List.mem_cons_of_mem _ hd)
  have htext : (c :: (cs ++ rest)).takeWhile (· != ' ') = c :: cs := by
    rw [← List.cons_append, List.takeWhile_append_of_pos hspace, htake, List.append_nil]
  rw [List.cons_append, Token.scan, hc]
  simp only [Bool.false_eq_true, if_false]
  rw [htext, Token.scan_inside, List.takeWhile_append_of_pos hcs, htake,
    List.dropWhile_append_of_pos hcs, hdrop, List.append_nil, List.length_cons]
  have hlen : i + 1 + cs.length = i + (cs.length + 1) := by omega
  rw [hlen]
  rfl

/-- The token of a word stands behind the space that is spelled before it. -/
theorem Token.scan_spell {w : Text} (hw : Solid w) (ws : List Text) (i : Nat) (n : Nesting) :
    Token.scan i n false (spell (w :: ws)) = ⟨w, i + 1, n.next ' '⟩ ::
      Token.scan (i + 1 + w.length) ((n.next ' ').scan w) false (spell ws) := by
  rw [spell_cons, Token.scan]
  exact Token.scan_solid hw (resumes_spell ws) (i + 1) (n.next ' ')

/-- Scanning spelled words gives the words back. -/
theorem Token.text_scan_spell {ws : List Text} (hws : ∀ w ∈ ws, Solid w) (i : Nat) (n : Nesting) :
    (Token.scan i n false (spell ws)).map Token.text = ws := by
  induction ws generalizing i n with
  | nil => rfl
  | cons w ws ih =>
      rw [Token.scan_spell (hws w (by simp)), List.map_cons,
        ih (fun v hv => hws v (List.mem_cons_of_mem _ hv))]

/-! ## Branches

The words of an expression and the words of its lines are the same up to letter case, but the
places of the tokens move. `Retold` therefore asks for the branches at every place `i` from which
the words are scanned; what has to agree is the nesting `n`. There is one lemma for each thing a
word can do: stay on the line, start a line, or close the expression. -/

namespace Layout

/-- The words `ws` are the branches from `line` on, up to `END` and what follows it, and are
broken into the same branches. -/
structure Retold (n : Nesting) (nested : Nat) (line : Text) (lines : List Text)
    (after : List Token) (ws : List Text) : Prop where
  solid : ∀ w ∈ ws, Solid w
  neat : ∀ l ∈ lines, Neat l ∧ l ≠ []
  rest : ∀ t ∈ after, Solid t.text
  text : join [' '] lines ++ spell (Keyword.END :: after.map Token.text) = line ++ spell ws
  again : ∀ i, ∃ after', branchLines nested line (Token.scan i n false (spell ws))
    = some (lines, after') ∧ after'.map Token.text = after.map Token.text

/-- Branches that are closed have a line at least: the one on which `END` was met. -/
theorem branchLines_ne_nil {nested : Nat} {line : Text} {ts after : List Token}
    {lines : List Text} (h : branchLines nested line ts = some (lines, after)) : lines ≠ [] := by
  induction ts generalizing nested line lines after with
  | nil => cases h
  | cons t ts ih =>
      have hmap : ∀ w, (branchLines 0 w ts).map (fun p => (line :: p.1, p.2))
          = some (lines, after) → lines ≠ [] := by
        intro w hw
        obtain ⟨pair, -, hpair⟩ := Option.map_eq_some_iff.mp hw
        obtain ⟨rfl, -⟩ := Prod.mk.inj hpair
        exact List.cons_ne_nil _ _
      unfold branchLines at h
      split_ifs at h
      · exact ih h
      · exact hmap _ h
      · exact hmap _ h
      · exact ih h
      · obtain ⟨rfl, -⟩ := Prod.mk.inj (Option.some.inj h)
        exact List.cons_ne_nil _ _
      · exact ih h
      · exact ih h
      · exact ih h

/-- A word that goes on the line. -/
theorem Retold.onLine {n : Nesting} {nested nested' : Nat} {line w : Text} {lines : List Text}
    {after : List Token} {ws : List Text} (hw : Solid w)
    (h : Retold ((n.next ' ').scan w) nested' (line ++ ' ' :: w) lines after ws)
    (hstep : ∀ i ts, branchLines nested line (⟨w, i, n.next ' '⟩ :: ts)
      = branchLines nested' (line ++ ' ' :: w) ts) :
    Retold n nested line lines after (w :: ws) := by
  refine ⟨?_, h.neat, h.rest, ?_, ?_⟩
  · intro v hv
    rcases List.mem_cons.mp hv with rfl | hv
    · exact hw
    · exact h.solid v hv
  · rw [h.text, spell_cons, List.append_assoc]
    rfl
  · intro i
    rw [Token.scan_spell hw, hstep]
    exact h.again _

/-- A word that starts a line. -/
theorem Retold.newLine {n : Nesting} {line w : Text} {lines : List Text}
    {after : List Token} {ws : List Text} (hw : Solid w) (hline : Neat line) (hne : line ≠ [])
    (hlines : lines ≠ [])
    (h : Retold ((n.next ' ').scan w) 0 w lines after ws)
    (hstep : ∀ i ts, branchLines 0 line (⟨w, i, n.next ' '⟩ :: ts)
      = (branchLines 0 w ts).map fun (lines, rest) => (line :: lines, rest)) :
    Retold n 0 line (line :: lines) after (w :: ws) := by
  refine ⟨?_, ?_, h.rest, ?_, ?_⟩
  · intro v hv
    rcases List.mem_cons.mp hv with rfl | hv
    · exact hw
    · exact h.solid v hv
  · intro l hl
    rcases List.mem_cons.mp hl with rfl | hl
    · exact ⟨hline, hne⟩
    · exact h.neat l hl
  · obtain ⟨x, xs, rfl⟩ := List.exists_cons_of_ne_nil hlines
    rw [join, List.append_assoc, h.text, spell_cons, List.append_assoc]
    rfl
  · intro i
    obtain ⟨after', hagain, hafter⟩ := h.again (i + 1 + w.length)
    refine ⟨after', ?_, hafter⟩
    rw [Token.scan_spell hw, hstep, hagain]
    rfl

section Keywords

variable {m : Nesting} (hm : m.isOutermost = true) (line : Text) (i : Nat) (ts : List Token)

include hm

/-- `WHEN` outside everything closes the line and starts one of its own. -/
theorem branchLines_when : branchLines 0 line (⟨Keyword.WHEN, i, m⟩ :: ts)
    = (branchLines 0 Keyword.WHEN ts).map fun (lines, rest) => (line :: lines, rest) := by
  have hcase : same Keyword.WHEN Keyword.CASE = false := by decide
  have hself : same Keyword.WHEN Keyword.WHEN = true := by decide
  simp [branchLines, Token.spells, hm, hcase, hself]

/-- `ELSE` does the same. -/
theorem branchLines_else : branchLines 0 line (⟨Keyword.ELSE, i, m⟩ :: ts)
    = (branchLines 0 Keyword.ELSE ts).map fun (lines, rest) => (line :: lines, rest) := by
  have hcase : same Keyword.ELSE Keyword.CASE = false := by decide
  have hwhen : same Keyword.ELSE Keyword.WHEN = false := by decide
  have hself : same Keyword.ELSE Keyword.ELSE = true := by decide
  simp [branchLines, Token.spells, hm, hcase, hwhen, hself]

/-- `THEN` goes on the line, in upper case. -/
theorem branchLines_then : branchLines 0 line (⟨Keyword.THEN, i, m⟩ :: ts)
    = branchLines 0 (line ++ ' ' :: Keyword.THEN) ts := by
  have hcase : same Keyword.THEN Keyword.CASE = false := by decide
  have hwhen : same Keyword.THEN Keyword.WHEN = false := by decide
  have helse : same Keyword.THEN Keyword.ELSE = false := by decide
  have hself : same Keyword.THEN Keyword.THEN = true := by decide
  simp [branchLines, Token.spells, hm, hcase, hwhen, helse, hself]

/-- `END` closes the last line; what stands behind it is left. -/
theorem branchLines_end : branchLines 0 line (⟨Keyword.END, i, m⟩ :: ts) = some ([line], ts) := by
  have hcase : same Keyword.END Keyword.CASE = false := by decide
  have hwhen : same Keyword.END Keyword.WHEN = false := by decide
  have helse : same Keyword.END Keyword.ELSE = false := by decide
  have hthen : same Keyword.END Keyword.THEN = false := by decide
  have hself : same Keyword.END Keyword.END = true := by decide
  simp [branchLines, Token.spells, hm, hcase, hwhen, helse, hthen, hself]

end Keywords

/-- The word `END` closes the branches, and the words behind it are left. -/
theorem Retold.atEnd {n : Nesting} (hout : (n.next ' ').isOutermost = true) {line : Text}
    (hline : Neat line) (hne : line ≠ []) {ws : List Text} (hws : ∀ w ∈ ws, Solid w)
    {after : List Token} (hafter : after.map Token.text = ws) :
    Retold n 0 line [line] after (Keyword.END :: ws) := by
  have hEND : Solid Keyword.END := solid_of_isWordChar rfl rfl
  refine ⟨?_, ?_, ?_, ?_, ?_⟩
  · intro v hv
    rcases List.mem_cons.mp hv with rfl | hv
    · exact hEND
    · exact hws v hv
  · intro l hl
    obtain rfl := List.mem_singleton.mp hl
    exact ⟨hline, hne⟩
  · intro t ht
    exact hws t.text (hafter ▸ List.mem_map_of_mem ht)
  · rw [hafter]
    rfl
  · intro i
    rw [Token.scan_spell hEND, branchLines_end hout]
    exact ⟨_, rfl, by rw [Token.text_scan_spell hws, hafter]⟩

/-- A word that spells a keyword stands outside everything, and leads on as the keyword does. -/
theorem scan_of_spells {m : Nesting} (hm : m.quoting.Sound) {w k : Text} {i : Nat}
    (h : (⟨w, i, m⟩ : Token).spells k = true) :
    m.isOutermost = true ∧ m.scan k = m.scan w := by
  obtain ⟨hout, hsame⟩ : m.isOutermost = true ∧ w.same k = true := by
    simpa [Token.spells] using h
  exact ⟨hout, Nesting.scan_eq_of_upper hm (same_iff.mp hsame).symm⟩

/-- Branches put on one line are broken as before. The induction is over the words; each of
them stays as it is, or becomes the keyword it spells. -/
theorem branchLines_again {ws : List Text} (hws : ∀ w ∈ ws, Solid w) {n : Nesting}
    (hn : n.quoting.Sound) {nested i : Nat} {line : Text} {lines : List Text}
    {after : List Token} (hline : Neat line) (hne : line ≠ [])
    (h : branchLines nested line (Token.scan i n false (spell ws)) = some (lines, after)) :
    ∃ ws', Retold n nested line lines after ws' := by
  induction ws generalizing n nested line i lines after with
  | nil => cases h
  | cons w ws ih =>
      have hw := hws w (by simp)
      have hws' : ∀ v ∈ ws, Solid v := fun v hv => hws v (List.mem_cons_of_mem _ hv)
      have hn' : (n.next ' ').quoting.Sound := Nesting.sound_next hn ' '
      have hn'' : ((n.next ' ').scan w).quoting.Sound := Nesting.sound_scan hn' w
      rw [Token.scan_spell hw] at h
      generalize hm : n.next ' ' = m at h hn' hn''
      -- the word stays on the line
      have hstay : ∀ {nested' : Nat} {i' : Nat},
          (∀ i ts, branchLines nested line (⟨w, i, m⟩ :: ts)
            = branchLines nested' (line ++ ' ' :: w) ts) →
          branchLines nested' (line ++ ' ' :: w) (Token.scan i' (m.scan w) false (spell ws))
            = some (lines, after) → ∃ ws', Retold n nested line lines after ws' := by
        intro nested' i' hstep hrest
        obtain ⟨ws', hr⟩ := ih hws' hn'' (hline.space hw.neat hne hw.ne_nil) (by simp) hrest
        exact ⟨w :: ws', Retold.onLine hw (by rw [hm]; exact hr) (by rw [hm]; exact hstep)⟩
      -- the word starts a line, as the keyword it spells
      have hbreak : ∀ {k : Text} {i' : Nat}, Solid k → m.scan k = m.scan w →
          (∀ i ts, branchLines 0 line (⟨k, i, m⟩ :: ts)
            = (branchLines 0 k ts).map fun (lines, rest) => (line :: lines, rest)) →
          (branchLines 0 k (Token.scan i' (m.scan w) false (spell ws))).map
            (fun (lines, rest) => (line :: lines, rest)) = some (lines, after) →
          ∃ ws', Retold n 0 line lines after ws' := by
        intro k i' hk hscan hstep hrest
        obtain ⟨⟨lines', after'⟩, hbranch, hpair⟩ := Option.map_eq_some_iff.mp hrest
        obtain ⟨rfl, rfl⟩ := Prod.mk.inj hpair
        obtain ⟨ws', hr⟩ := ih hws' hn'' hk.neat hk.ne_nil hbranch
        rw [← hscan] at hr
        exact ⟨k :: ws', Retold.newLine hk hline hne (branchLines_ne_nil hbranch)
          (by rw [hm]; exact hr) (by rw [hm]; exact hstep)⟩
      have hidx : ∀ (j : Nat) (k : Text),
          (⟨w, j, m⟩ : Token).spells k = (⟨w, i + 1, m⟩ : Token).spells k := fun j k => rfl
      -- one case for each thing that `branchLines` does with a word; inside a nested `CASE`
      -- every word stays on the line
      rw [branchLines] at h
      split_ifs at h with hcase hzero hwhen helse hthen hend hend
      · refine hstay (fun j ts => ?_) h
        rw [branchLines, hidx j Keyword.CASE, if_pos hcase]
      · obtain rfl : nested = 0 := by simpa using hzero
        obtain ⟨hout, hscan⟩ := scan_of_spells hn' hwhen
        exact hbreak (solid_of_isWordChar rfl rfl) hscan
          (fun i ts => branchLines_when hout line i ts) h
      · obtain rfl : nested = 0 := by simpa using hzero
        obtain ⟨hout, hscan⟩ := scan_of_spells hn' helse
        exact hbreak (solid_of_isWordChar rfl rfl) hscan
          (fun i ts => branchLines_else hout line i ts) h
      · obtain rfl : nested = 0 := by simpa using hzero
        obtain ⟨hout, hscan⟩ := scan_of_spells hn' hthen
        have hTHEN : Solid Keyword.THEN := solid_of_isWordChar rfl rfl
        obtain ⟨ws', hr⟩ := ih hws' hn'' (hline.space hTHEN.neat hne hTHEN.ne_nil) (by simp) h
        rw [← hscan] at hr
        exact ⟨_, Retold.onLine hTHEN (by rw [hm]; exact hr)
          (by rw [hm]; exact fun i ts => branchLines_then hout line i ts)⟩
      · obtain rfl : nested = 0 := by simpa using hzero
        obtain ⟨hout, -⟩ := scan_of_spells hn' hend
        obtain ⟨rfl, rfl⟩ := Prod.mk.inj (Option.some.inj h)
        exact ⟨Keyword.END :: ws, Retold.atEnd (by rw [hm]; exact hout) hline hne hws'
          (Token.text_scan_spell hws' _ _)⟩
      · obtain rfl : nested = 0 := by simpa using hzero
        refine hstay (fun j ts => ?_) h
        rw [branchLines, hidx j Keyword.CASE, if_neg hcase, if_pos hzero, hidx j Keyword.WHEN,
          if_neg hwhen, hidx j Keyword.ELSE, if_neg helse, hidx j Keyword.THEN, if_neg hthen,
          hidx j Keyword.END, if_neg hend]
      · refine hstay (fun j ts => ?_) h
        rw [branchLines, hidx j Keyword.CASE, if_neg hcase, if_neg hzero, hidx j Keyword.END,
          if_pos hend]
      · refine hstay (fun j ts => ?_) h
        rw [branchLines, hidx j Keyword.CASE, if_neg hcase, if_neg hzero, hidx j Keyword.END,
          if_neg hend]

/-! ## CASE expressions

The lines of an expression are its branches and one more line with `END`. On one line they spell
the words of `Retold`, behind a first word that starts with `CASE`. -/

/-- Spelled words are neat. -/
theorem neat_spell {w : Text} (hw : Solid w) {ws : List Text} (hws : ∀ v ∈ ws, Solid v) :
    Neat (w ++ spell ws) := by
  induction ws generalizing w with
  | nil =>
      rw [spell, List.flatMap_nil, List.append_nil]
      exact hw.neat
  | cons v vs ih =>
      have hv := hws v (by simp)
      rw [spell_cons]
      exact hw.neat.space (ih hv fun x hx => hws x (List.mem_cons_of_mem _ hx)) hw.ne_nil
        (by simp [hv.ne_nil])

/-- Lines that are neat and not empty are put on one line by a space between each two. -/
theorem flat_eq_join {lines : List Line} (h : ∀ l ∈ lines, Neat l.text ∧ l.text ≠ []) :
    flat lines = join [' '] (lines.map Line.text) := by
  induction lines with
  | nil => rfl
  | cons l ls ih =>
      obtain ⟨hl, hne⟩ := h l (by simp)
      have hls := fun x hx => h x (List.mem_cons_of_mem _ hx)
      rw [flat_cons_of_ne hl hne, ih hls]
      cases ls with
      | nil => rfl
      | cons x xs =>
          have hjoin : join [' '] ((x :: xs).map Line.text) ≠ [] := by
            rw [Ne, join_eq_nil]
            · simp
            · intro w hw
              obtain ⟨y, hy, rfl⟩ := List.mem_map.mp hw
              exact (hls y hy).2
          rw [headed, if_neg (by simpa using hjoin)]
          simp only [List.map_cons]
          rw [join_eq_spell, join_eq_spell, spell_cons]

/-- The layout of a `CASE` expression. -/
def caseBlock (level : Nat) (lines : List Text) (after : List Token) (suffix : Text) : Block :=
  ⟨hanging level lines ++ [⟨level + 1, endLine after suffix⟩], level⟩

/-- The level of a line does not matter to its text. -/
theorem mem_hanging {level : Nat} {lines : List Text} {l : Line} (h : l ∈ hanging level lines) :
    l.text ∈ lines := by
  cases lines with
  | nil => cases h
  | cons x xs =>
      rw [hanging, List.mem_cons, List.mem_map] at h
      rcases h with rfl | ⟨y, hy, rfl⟩
      · exact List.mem_cons_self
      · exact List.mem_cons_of_mem _ hy

theorem text_hanging (level : Nat) (lines : List Text) :
    (hanging level lines).map Line.text = lines := by
  cases lines with
  | nil => rfl
  | cons x xs => simp [hanging, Function.comp_def]

/-- The last line spells `END` and what followed it, and then has the suffix. -/
theorem endLine_eq (after : List Token) (suffix : Text) :
    endLine after suffix = (Keyword.END ++ spell (after.map Token.text)) ++ suffix := by
  rw [endLine, spell, List.flatMap_map]

/-- The last line of an expression is neat. -/
theorem neat_endLine {after : List Token} (h : ∀ t ∈ after, Solid t.text) {suffix : Text}
    (hs : IsSuffix suffix) : Neat (endLine after suffix) ∧ endLine after suffix ≠ [] := by
  have hEND : Solid Keyword.END := solid_of_isWordChar rfl rfl
  have hsolid : ∀ w ∈ after.map Token.text, Solid w := by
    intro w hw
    obtain ⟨t, ht, rfl⟩ := List.mem_map.mp hw
    exact h t ht
  rw [endLine_eq]
  exact ⟨Neat.suffixed (neat_spell hEND hsolid) (by simp [Keyword.END]) hs, by simp [Keyword.END]⟩

/-- An expression on one line spells its branches, `END`, and the words behind it; the suffix
follows at the end. -/
theorem flat_caseBlock {level : Nat} {lines : List Text} {after : List Token} {suffix : Text}
    (hlines : ∀ l ∈ lines, Neat l ∧ l ≠ []) (hne : lines ≠ [])
    (hafter : ∀ t ∈ after, Solid t.text) (hs : IsSuffix suffix) :
    flat (caseBlock level lines after suffix).lines
      = (join [' '] lines ++ spell (Keyword.END :: after.map Token.text)) ++ suffix := by
  have hneat : ∀ l ∈ (caseBlock level lines after suffix).lines,
      Neat l.text ∧ l.text ≠ [] := by
    intro l hl
    rcases List.mem_append.mp hl with hl | hl
    · exact hlines _ (mem_hanging hl)
    · obtain rfl := List.mem_singleton.mp hl
      exact neat_endLine hafter hs
  rw [flat_eq_join hneat, caseBlock, List.map_append, text_hanging, List.map_singleton,
    join_append hne (by simp), endLine_eq, spell_cons]
  simp [join]

/-- An expression word by word: `CASE`, what its first word has beyond that, and the other words. -/
theorem exists_caseWords {expr : Text} (hn : Neat expr)
    (hcase : expr.startsKeyword Keyword.CASE = true) :
    ∃ (s r : Text) (ws : List Text), expr = (s ++ r) ++ spell ws ∧
      s.upper = Keyword.CASE.upper ∧ r.head?.any isWordChar = false ∧ Solid (s ++ r) ∧
      ∀ w ∈ ws, Solid w := by
  obtain ⟨first, rest, s, r, b, htokens, hfirst, hspelled, -⟩ := tokens_case hcase
  have hwords := hn.words_eq
  cases hws : expr.words with
  | nil =>
      rw [hws] at hwords
      rw [← hwords] at htokens
      cases htokens
  | cons w ws =>
      rw [hws, join_eq_spell] at hwords
      have hw : Solid w := solid_words (hws ▸ List.mem_cons_self)
      -- the first token is the first word
      have hscan := Token.scan_solid hw (resumes_spell ws) 0 .start
      rw [hwords, ← tokens, htokens] at hscan
      obtain rfl : w = s ++ r := by
        rw [← hfirst, (List.cons.inj hscan).1]
      refine ⟨s, r, ws, hwords.symm, hspelled, ?_, hw,
        fun v hv => solid_words (hws ▸ List.mem_cons_of_mem _ hv)⟩
      cases r with
      | nil => rfl
      | cons c cs =>
          have hlen : s.length = Keyword.CASE.length := length_eq_of_upper_eq hspelled
          refine (startsKeyword_iff.mp hcase).2 c ?_
          rw [← hwords, List.append_assoc, ← hlen, List.drop_left]
          rfl

/-- The line of an expression starts with the keyword: what its first word has beyond `CASE` is no
letter. -/
theorem startsKeyword_case {r : Text} (hr : r.head?.any isWordChar = false) (ws : List Text) :
    startsKeyword ((Keyword.CASE ++ r) ++ spell ws) Keyword.CASE = true := by
  rw [startsKeyword_iff, List.append_assoc, List.take_left, List.drop_left]
  refine ⟨rfl, fun c hc => ?_⟩
  cases r with
  | nil =>
      rcases resumes_spell ws with hnil | ⟨x, hx⟩
      · rw [hnil] at hc
        cases hc
      · rw [hx] at hc
        obtain rfl : ' ' = c := by simpa using hc
        decide
  | cons d ds =>
      obtain rfl : d = c := Option.some.inj hc
      exact hr

/-- The layout of an expression that is given word by word. -/
theorem caseExpression_spell {s r : Text} (hspelled : s.upper = Keyword.CASE.upper)
    (hsolid : Solid (s ++ r)) (ws : List Text) (suffix : Text) (level : Nat) :
    caseExpression ((s ++ r) ++ spell ws) suffix level =
      match branchLines 0 (Keyword.CASE ++ r)
          (Token.scan (s ++ r).length (Nesting.after (s ++ r)) false (spell ws)) with
      | none =>
        .error (.unterminated .caseExpression (excerpt ((s ++ r) ++ spell ws) 0))
      | some (lines, after) => .ok (caseBlock level lines after suffix) := by
  have htokens : tokens ((s ++ r) ++ spell ws) = ⟨s ++ r, 0, .start⟩ ::
      Token.scan (s ++ r).length (Nesting.after (s ++ r)) false (spell ws) := by
    rw [tokens, Token.scan_solid hsolid (resumes_spell ws), Nat.zero_add]
    rfl
  have hdrop : dropBytes Keyword.CASE.byteLength (s ++ r) = r :=
    dropBytes_keyword case_isKeyword hspelled r
  simp only [caseExpression, htokens, hdrop]
  rfl

/-- A `CASE` expression is laid out as before once its lines are put on one line, and that line is a
`CASE` expression again. Its words are those of the expression, some in upper case, so scanning
them meets the same nesting (`branchLines_again`); the words behind `END` are kept one by one. -/
theorem relaid_caseExpression {expr suffix : Text} {level : Nat} {block : Block}
    (hn : Neat expr) (hcase : expr.startsKeyword Keyword.CASE = true) (hs : IsSuffix suffix)
    (h : caseExpression expr suffix level = .ok block) :
    Relaid (fun t s => caseExpression t s level) expr suffix block ∧
      startsKeyword (onOneLine (caseExpression expr [] level)) Keyword.CASE = true := by
  obtain ⟨s, r, ws, rfl, hspelled, hr, hsolid, hws⟩ := exists_caseWords hn hcase
  -- in the layout, the first word starts with the keyword itself
  have hupper : upper (Keyword.CASE ++ r) = upper (s ++ r) := by
    rw [upper_append, upper_append, hspelled]
  have hsolid' : Solid (Keyword.CASE ++ r) := hsolid.of_upper hupper
  have hafter : Nesting.after (Keyword.CASE ++ r) = Nesting.after (s ++ r) :=
    Nesting.scan_eq_of_upper sound_start hupper
  cases hbranch : branchLines 0 (Keyword.CASE ++ r)
      (Token.scan (s ++ r).length (Nesting.after (s ++ r)) false (spell ws)) with
  | none =>
      rw [caseExpression_spell hspelled hsolid, hbranch] at h
      cases h
  | some pair =>
      obtain ⟨lines, after⟩ := pair
      have hlay : ∀ x, caseExpression ((s ++ r) ++ spell ws) x level
          = .ok (caseBlock level lines after x) := by
        intro x
        rw [caseExpression_spell hspelled hsolid, hbranch]
      obtain rfl : caseBlock level lines after suffix = block := by
        rw [hlay] at h
        exact Except.ok.inj h
      have hsound : (Nesting.after (s ++ r)).quoting.Sound :=
        Nesting.sound_scan (n := .start) trivial _
      obtain ⟨ws', htold⟩ := branchLines_again hws hsound hsolid'.neat hsolid'.ne_nil hbranch
      have hne := branchLines_ne_nil hbranch
      have htext : onOneLine (caseExpression ((s ++ r) ++ spell ws) [] level)
          = (Keyword.CASE ++ r) ++ spell ws' := by
        rw [hlay]
        show flat _ = _
        rw [flat_caseBlock htold.neat hne htold.rest (Or.inl rfl), List.append_nil, htold.text]
      refine ⟨⟨?_, ?_, ?_⟩, ?_⟩
      · intro l hl
        rcases List.mem_append.mp hl with hl | hl
        · exact (htold.neat _ (mem_hanging hl)).1
        · obtain rfl := List.mem_singleton.mp hl
          exact (neat_endLine htold.rest hs).1
      · rw [htext, flat_caseBlock htold.neat hne htold.rest hs, htold.text]
      · obtain ⟨after', hbranch', htexts⟩ := htold.again (Keyword.CASE ++ r).length
        have hend : endLine after' suffix = endLine after suffix := by
          rw [endLine_eq, endLine_eq, htexts]
        rw [htext, caseExpression_spell rfl hsolid', hafter, hbranch']
        simp only [caseBlock, hend]
      · rw [htext]
        exact startsKeyword_case hr ws'

end Layout

end SqlLayout
