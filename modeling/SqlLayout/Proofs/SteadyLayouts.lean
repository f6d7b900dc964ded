import SqlLayout.Proofs.ClauseLines
import SqlLayout.Proofs.Terminated

set_option autoImplicit false

/-! # Layouts that are found again

A formatted text is formatted the same way again exactly if its statement is steady, that is, if
its clauses and conditions are cut where they were cut before (`format_steady`). It is not always
so: the layout puts spaces of its own behind parentheses, and a keyword that stood close to one
is cut at when it is read again.

That a steady statement is found again follows clause by clause (`Laying.again`). The other
direction needs that lines tell their clauses (`blocks_ext`): a line opens a clause if it stands
at level zero and starts like a keyword. Empty lines at the end of a text are lost, so this is
shown up to those; a `WHERE` clause has none.
-/

namespace SqlLayout

open Text

namespace Layout

/-! ## Lines and their clauses -/

theorem not_isInner_head {bs : List Block} (h : ∀ b ∈ bs, ClauseBlock b ∧ Opens b) :
    ∀ l, (trimLines (bs.flatMap Block.lines)).head? = some l → ¬IsInner l := by
  intro l hl
  cases bs with
  | nil => cases hl
  | cons b bs =>
      obtain ⟨⟨-, first, rest, hlines, -, hne, -⟩, hopens⟩ := h b List.mem_cons_self
      rw [List.flatMap_cons, hlines, List.cons_append, trimLines_cons hne] at hl
      obtain rfl : first = l := Option.some.inj hl
      exact (hopens first (by rw [hlines]; rfl)).not_isInner

theorem trimLines_blocks_ne_nil {b : Block} (hb : ClauseBlock b) (bs : List Block) :
    trimLines ((b :: bs).flatMap Block.lines) ≠ [] := by
  obtain ⟨-, first, rest, hlines, -, hne, -⟩ := hb
  rw [List.flatMap_cons, hlines]
  exact trimLines_ne_nil hne _

/-- The lines of a first clause, and those of the others. -/
theorem trimLines_blocks {b : Block} {bs : List Block} (hb : ClauseBlock b)
    (hbs : ∀ x ∈ bs, ClauseBlock x ∧ Opens x) :
    ∃ first rest, (∀ l ∈ rest, IsInner l) ∧ trimLines b.lines = trimLines (first :: rest) ∧
      trimLines ((b :: bs).flatMap Block.lines)
        = first :: (rest ++ trimLines (bs.flatMap Block.lines)) := by
  obtain ⟨-, first, rest, hlines, -, hne, hrest⟩ := hb
  have hwhole : trimLines ((b :: bs).flatMap Block.lines)
      = first :: trimLines (rest ++ bs.flatMap Block.lines) := by
    rw [List.flatMap_cons, hlines, List.cons_append, trimLines_cons hne]
  rw [hwhole, hlines]
  cases bs with
  | nil =>
      -- the last clause loses its own empty lines
      refine ⟨first, trimLines rest, fun l hl => ?_, ?_, ?_⟩
      · exact hrest l (mem_of_mem_trimLines hl)
      · rw [trimLines_cons hne, trimLines_cons hne, trimLines_idem]
      · simp [trimLines_nil]
  | cons x xs =>
      refine ⟨first, rest, hrest, rfl, ?_⟩
      rw [trimLines_append _ (trimLines_blocks_ne_nil (hbs x List.mem_cons_self).1 xs)]

theorem block_ext {b b' : Block} {bs bs' : List Block} (hb : ClauseBlock b)
    (hb' : ClauseBlock b') (hbs : ∀ x ∈ bs, ClauseBlock x ∧ Opens x)
    (hbs' : ∀ x ∈ bs', ClauseBlock x ∧ Opens x)
    (h : trimLines ((b :: bs).flatMap Block.lines) = trimLines ((b' :: bs').flatMap Block.lines)) :
    trimLines b.lines = trimLines b'.lines ∧
      trimLines (bs.flatMap Block.lines) = trimLines (bs'.flatMap Block.lines) := by
  obtain ⟨first, rest, hrest, hblock, hall⟩ := trimLines_blocks hb hbs
  obtain ⟨first', rest', hrest', hblock', hall'⟩ := trimLines_blocks hb' hbs'
  rw [hall, hall', List.cons.injEq] at h
  obtain ⟨rfl, htail⟩ := h
  obtain ⟨rfl, hlater⟩ := append_inj_of_head hrest hrest' (not_isInner_head hbs)
    (not_isInner_head hbs') htail
  exact ⟨by rw [hblock, hblock'], hlater⟩

/-- The lines of clauses, each of which but the first opens with a keyword, tell the clauses, up
to empty lines at their end. -/
theorem blocks_ext {b b' : Block} {bs bs' : List Block} (hb : ClauseBlock b)
    (hb' : ClauseBlock b') (hbs : ∀ x ∈ bs, ClauseBlock x ∧ Opens x)
    (hbs' : ∀ x ∈ bs', ClauseBlock x ∧ Opens x)
    (h : trimLines ((b :: bs).flatMap Block.lines) = trimLines ((b' :: bs').flatMap Block.lines)) :
    (b :: bs).map (fun x => trimLines x.lines) = (b' :: bs').map (fun x => trimLines x.lines) := by
  induction bs generalizing b b' bs' with
  | nil =>
      obtain ⟨hblock, hlater⟩ := block_ext hb hb' hbs hbs' h
      cases bs' with
      | nil => rw [List.map_singleton, List.map_singleton, hblock]
      | cons y ys =>
          have hy := (hbs' y List.mem_cons_self).1
          exact absurd hlater.symm (trimLines_blocks_ne_nil hy ys)
  | cons x xs ih =>
      obtain ⟨hblock, hlater⟩ := block_ext hb hb' hbs hbs' h
      have hx := (hbs x List.mem_cons_self).1
      cases bs' with
      | nil => exact absurd hlater (trimLines_blocks_ne_nil hx xs)
      | cons y ys =>
          have hrest := ih hx (hbs' y List.mem_cons_self).1
            (fun z hz => hbs z (List.mem_cons_of_mem _ hz))
            (fun z hz => hbs' z (List.mem_cons_of_mem _ hz)) hlater
          rw [List.map_cons, hrest, hblock]
          rfl

/-! ## Clauses and their blocks -/

/-- The layout of a statement is made of the layouts of its clauses. -/
theorem clauses_eq_ok_iff {nested : Text → Except Fault Query} {ts : List Text}
    (hlevel : ∀ t ∈ ts, ∀ block, clause nested t.asClause 0 = .ok block → block.level = 0)
    {lines : List Line} :
    clauses nested (ts.map Text.asClause) 0 = .ok lines ↔
      ∃ ps : List (Text × Block), ts = ps.map Prod.fst ∧
        (∀ p ∈ ps, clause nested p.1.asClause 0 = .ok p.2) ∧
        lines = (ps.map Prod.snd).flatMap Block.lines := by
  induction ts generalizing lines with
  | nil =>
      constructor
      · intro h
        exact ⟨[], rfl, fun p hp => (by cases hp), (Except.ok.inj h).symm⟩
      · rintro ⟨ps, hps, -, rfl⟩
        rw [List.map_eq_nil_iff.mp hps.symm]
        rfl
  | cons t ts ih =>
      have hrest := fun later => @ih (fun u hu => hlevel u (List.mem_cons_of_mem _ hu)) later
      rw [List.map_cons, clauses]
      constructor
      · intro h
        cases hclause : clause nested t.asClause 0 with
        | error f =>
            rw [hclause] at h
            cases h
        | ok block =>
            rw [hclause] at h
            dsimp only at h
            -- the next clause starts at the level this one leaves
            rw [hlevel t List.mem_cons_self block hclause] at h
            cases hlater : clauses nested (ts.map Text.asClause) 0 with
            | error f =>
                rw [hlater] at h
                cases h
            | ok later =>
                rw [hlater] at h
                obtain ⟨ps, rfl, hps, rfl⟩ := (hrest later).mp hlater
                refine ⟨(t, block) :: ps, rfl, fun p hp => ?_, (Except.ok.inj h).symm⟩
                rcases List.mem_cons.mp hp with rfl | hp
                · exact hclause
                · exact hps p hp
      · rintro ⟨ps, hts, hps, rfl⟩
        obtain ⟨p, ps, rfl, rfl, rfl⟩ := List.map_eq_cons_iff.mp hts.symm
        have hclause := hps p List.mem_cons_self
        have hlater := (hrest _).mpr ⟨ps, rfl, fun q hq => hps q (List.mem_cons_of_mem _ hq), rfl⟩
        rw [hclause]
        dsimp only
        rw [hlevel p.1 List.mem_cons_self p.2 hclause, hlater]
        rfl

/-- Blocks on one line, side by side. -/
theorem flat_blocks {bs : List Block} (h : ∀ b ∈ bs, flat b.lines ≠ []) :
    flat (bs.flatMap Block.lines) = join [' '] (bs.map fun b => flat b.lines) := by
  induction bs with
  | nil => rfl
  | cons b bs ih =>
      have hrest := ih (fun x hx => h x (List.mem_cons_of_mem _ hx))
      rw [List.flatMap_cons, flat_append, if_neg (h b List.mem_cons_self), hrest]
      unfold headed
      cases bs with
      | nil => rfl
      | cons x xs =>
          have hne : join [' '] ((x :: xs).map fun b => flat b.lines) ≠ [] := by
            rw [Ne, join_eq_nil (by
              intro w hw
              obtain ⟨y, hy, rfl⟩ := List.mem_map.mp hw
              exact h y (List.mem_cons_of_mem _ hy))]
            simp
          rw [if_neg (by simpa using hne)]
          simp [join]

end Layout

/-! ## Texts that are one clause each -/

/-- The slices of a statement are its clauses. -/
theorem clauses_slices {s : Text} (hs : Part s) :
    ∃ t ts, s = join [' '] (t :: ts) ∧ (∀ u ∈ t :: ts, Part u) ∧ (∀ u ∈ ts, StartsClause u) ∧
      s.clauses = (t :: ts).map Text.asClause := by
  obtain ⟨t, ts, hsliced, -⟩ := exists_slices hs.neat hs.ne_nil
  refine ⟨t, ts, hsliced.joined.symm, fun u hu => ?_, hsliced.later, hsliced.clauses⟩
  obtain ⟨hneat, hne, -⟩ := hsliced.single u hu
  exact ⟨hneat, hne, hsliced.closed hs.after u hu⟩

/-- A text that is cut into one clause is that clause. -/
theorem Part.clauses_eq_of_length {t : Text} (h : Part t) (hlen : t.clauses.length = 1) :
    t.clauses = [t.asClause] := by
  obtain ⟨u, us, hjoin, -, -, hclauses⟩ := clauses_slices h
  rw [hclauses, List.length_map, List.length_cons] at hlen
  obtain rfl : us = [] := List.eq_nil_of_length_eq_zero (by omega)
  obtain rfl : t = u := hjoin
  exact hclauses

theorem length_le_clauses {ts : List Text} (h : ∀ u ∈ ts, Part u) :
    ts.length ≤ (ts.flatMap Text.clauses).length := by
  induction ts with
  | nil => exact Nat.le_refl _
  | cons t ts ih =>
      have hrest := ih (fun u hu => h u (List.mem_cons_of_mem _ hu))
      have hpos := List.length_pos_of_ne_nil (h t List.mem_cons_self).clauses_ne_nil
      rw [List.flatMap_cons, List.length_append, List.length_cons]
      omega

/-- As many clauses as texts: each text is a clause. -/
theorem clauses_eq_of_length {ts : List Text} (h : ∀ u ∈ ts, Part u)
    (hlen : (ts.flatMap Text.clauses).length = ts.length) :
    ts.flatMap Text.clauses = ts.map Text.asClause := by
  induction ts with
  | nil => rfl
  | cons t ts ih =>
      have ht := h t List.mem_cons_self
      have hts : ∀ u ∈ ts, Part u := fun u hu => h u (List.mem_cons_of_mem _ hu)
      -- no text is cut into nothing, so none is cut into two
      have hpos := List.length_pos_of_ne_nil ht.clauses_ne_nil
      have hle := length_le_clauses hts
      rw [List.flatMap_cons, List.length_append, List.length_cons] at hlen
      rw [List.flatMap_cons, ht.clauses_eq_of_length (by omega), ih hts (by omega)]
      rfl

namespace Layout

/-! ## Clauses with their blocks -/

/-- The lines of clauses with their blocks. -/
def linesOf (ps : List (Text × Block)) : List Line := (ps.map Prod.snd).flatMap Block.lines

/-- The clauses as their blocks say them on one line. -/
def laidOf (ps : List (Text × Block)) : List Text := ps.map fun q => flat q.2.lines

/-- The clauses of a statement with their blocks. -/
structure Laying (nested : Text → Except Fault Query) (p : Text × Block)
    (ps : List (Text × Block)) : Prop where
  block : ∀ q ∈ p :: ps, clause nested q.1.asClause 0 = .ok q.2
  recut : ∀ q ∈ p :: ps, Recut nested q.1 q.2
  starts : ∀ q ∈ ps, StartsClause q.1

namespace Laying

variable {nested : Text → Except Fault Query} {p : Text × Block} {ps : List (Text × Block)}
  (h : Laying nested p ps)

include h

theorem part_of_mem : ∀ u ∈ laidOf (p :: ps), Part u := by
  intro u hu
  obtain ⟨q, hq, rfl⟩ := List.mem_map.mp hu
  exact (h.recut q hq).part

theorem flat_lines : flat (linesOf (p :: ps)) = join [' '] (laidOf (p :: ps)) := by
  rw [linesOf, flat_blocks, List.map_map]
  · rfl
  · intro b hb
    obtain ⟨q, hq, rfl⟩ := List.mem_map.mp hb
    exact (h.recut q hq).part.ne_nil

/-- The clauses on one line are cut one by one. -/
theorem part_flat : Part (flat (linesOf (p :: ps))) ∧
    (flat (linesOf (p :: ps))).clauses = (laidOf (p :: ps)).flatMap Text.clauses := by
  have hlater : ∀ u ∈ laidOf ps, StartsClause u := by
    intro u hu
    obtain ⟨q, hq, rfl⟩ := List.mem_map.mp hu
    obtain ⟨b, hb⟩ := h.starts q hq
    exact ⟨b, by rw [(h.recut q (List.mem_cons_of_mem _ hq)).boundary, hb]⟩
  have hjoin := part_join (t := flat p.2.lines) h.part_of_mem hlater
  rw [h.flat_lines]
  exact ⟨hjoin.1, hjoin.2.2⟩

theorem clauses_flat (hlen : (flat (linesOf (p :: ps))).clauses.length = (p :: ps).length) :
    (flat (linesOf (p :: ps))).clauses = (laidOf (p :: ps)).map Text.asClause := by
  rw [h.part_flat.2] at hlen ⊢
  exact clauses_eq_of_length h.part_of_mem (by rw [hlen, laidOf, List.length_map])

theorem opens : ∀ b ∈ ps.map Prod.snd, ClauseBlock b ∧ Opens b := by
  intro b hb
  obtain ⟨q, hq, rfl⟩ := List.mem_map.mp hb
  have hrecut := h.recut q (List.mem_cons_of_mem _ hq)
  exact ⟨hrecut.shape, hrecut.opens (h.starts q hq)⟩

theorem ext {p' : Text × Block} {ps' : List (Text × Block)} (h' : Laying nested p' ps')
    (htrim : trimLines (linesOf (p :: ps)) = trimLines (linesOf (p' :: ps'))) :
    (p :: ps).map (fun q => trimLines q.2.lines)
      = (p' :: ps').map (fun q => trimLines q.2.lines) := by
  have hblocks := blocks_ext (h.recut p List.mem_cons_self).shape
    (h'.recut p' List.mem_cons_self).shape h.opens h'.opens htrim
  simpa [Function.comp_def] using hblocks

end Laying

section

variable {nested : Text → Except Fault Query} {D S : Text → Bool} (hn : Nested nested D S)
  (hlines : ∀ {t : Text} {query : Query}, nested t = .ok query → ∀ l ∈ query.lines, Neat l.text)

include hn hlines

theorem level_eq_zero {ts : List Text} (hall : ∀ u ∈ ts, Part u) :
    ∀ u ∈ ts, ∀ block, clause nested u.asClause 0 = .ok block → block.level = 0 :=
  fun u hu _ hblock => (clause_again hn hlines (hall u hu) hblock).shape.1

/-- The clauses of a statement that is laid out, with their blocks. -/
theorem exists_laying {s : Text} (hs : Part s) {lines : List Line}
    (h : clauses nested s.clauses 0 = .ok lines) :
    ∃ p ps, Laying nested p ps ∧ s.clauses = ((p :: ps).map Prod.fst).map Text.asClause ∧
      lines = linesOf (p :: ps) := by
  obtain ⟨t, ts, -, hall, hts, hclauses⟩ := clauses_slices hs
  rw [hclauses] at h
  obtain ⟨ps, hps, hblocks, rfl⟩ := (clauses_eq_ok_iff (level_eq_zero hn hlines hall)).mp h
  obtain ⟨p, ps, rfl, rfl, rfl⟩ := List.map_eq_cons_iff.mp hps.symm
  refine ⟨p, ps, ⟨hblocks, fun q hq => ?_, fun q hq => ?_⟩, hclauses, rfl⟩
  · exact clause_again hn hlines (hall q.1 (List.mem_map_of_mem hq)) (hblocks q hq)
  · exact hts q.1 (List.mem_map_of_mem hq)

/-- Clauses that are cut as before, each of which has the same lines again, have the same lines
again. -/
theorem Laying.again {p : Text × Block} {ps : List (Text × Block)} (h : Laying nested p ps)
    (hcuts : (flat (linesOf (p :: ps))).clauses.map Clause.text = laidOf (p :: ps))
    (hagain : ∀ q ∈ p :: ps, clause nested (flat q.2.lines).asClause 0 = .ok q.2) :
    clauses nested (flat (linesOf (p :: ps))).clauses 0 = .ok (linesOf (p :: ps)) := by
  have hlen := congrArg List.length hcuts
  rw [List.length_map, laidOf, List.length_map] at hlen
  rw [h.clauses_flat hlen]
  refine (clauses_eq_ok_iff (level_eq_zero hn hlines h.part_of_mem)).mpr
    ⟨(p :: ps).map fun q => (flat q.2.lines, q.2), ?_, fun x hx => ?_, ?_⟩
  · rw [List.map_map]
    rfl
  · obtain ⟨q, hq, rfl⟩ := List.mem_map.mp hx
    exact hagain q hq
  · rw [List.map_map]
    rfl

/-- A statement on one line that has the same lines again, up to empty ones at the end, is cut
into the same clauses, and each of them has the same lines again, up to empty ones. -/
theorem Laying.of_again {p : Text × Block} {ps : List (Text × Block)} (h : Laying nested p ps)
    {lines : List Line} (hagain : clauses nested (flat (linesOf (p :: ps))).clauses 0 = .ok lines)
    (htrim : trimLines (linesOf (p :: ps)) = trimLines lines) :
    (flat (linesOf (p :: ps))).clauses.map Clause.text = laidOf (p :: ps) ∧
      ∀ q ∈ p :: ps, ∃ block, clause nested (flat q.2.lines).asClause 0 = .ok block ∧
        trimLines q.2.lines = trimLines block.lines := by
  obtain ⟨p', ps', h', hclauses', rfl⟩ := exists_laying hn hlines h.part_flat.1 hagain
  -- the lines tell how many clauses there are
  have hblocks := h.ext h' htrim
  have hlen : (p' :: ps').length = (p :: ps).length := by
    simpa using (congrArg List.length hblocks).symm
  have hcut := h.clauses_flat (by rw [hclauses', List.length_map, List.length_map, hlen])
  have htexts : (p' :: ps').map Prod.fst = laidOf (p :: ps) := by
    rw [← map_text_asClause ((p' :: ps').map Prod.fst), ← hclauses', hcut, map_text_asClause]
  refine ⟨by rw [hcut, map_text_asClause], fun q hq => ?_⟩
  have hzip : (p' :: ps').map (fun x => (x.1, trimLines x.2.lines))
      = (p :: ps).map fun q => (flat q.2.lines, trimLines q.2.lines) := by
    rw [← List.zip_map', htexts, ← hblocks, laidOf, List.zip_map']
  obtain ⟨x, hx, hxq⟩ := List.mem_map.mp (hzip ▸ List.mem_map_of_mem hq)
  obtain ⟨hfst, hsnd⟩ := Prod.mk.inj hxq
  exact ⟨x.2, by rw [← hfst]; exact h'.block x hx, hsnd.symm⟩

end

/-- The clauses of a statement and their conditions are cut as before. -/
def CutAgain (nested : Text → Except Fault Query) (s : Text) (lines : List Line) : Prop :=
  (flat lines).clauses.map Clause.text = s.clauses.map (fun c => onOneLine (clause nested c 0)) ∧
    ∀ c ∈ s.clauses, c.kind = .condition → ConditionsAgain nested c.body

section

variable {nested : Text → Except Fault Query} {D S : Text → Bool} (hn : Nested nested D S)
  (hlines : ∀ {t : Text} {query : Query}, nested t = .ok query → ∀ l ∈ query.lines, Neat l.text)

include hn hlines

/-- A clause that has the same lines again has its conditions cut as before. The last line of a
`WHERE` clause is not empty, so empty lines at the end do not matter. -/
theorem Recut.conditionsAgain {t : Text} {block block' : Block} (h : Recut nested t block)
    (hblock : clause nested (flat block.lines).asClause 0 = .ok block')
    (htrim : trimLines block.lines = trimLines block'.lines)
    (hkind : t.asClause.kind = .condition) : ConditionsAgain nested t.asClause.body := by
  have h' := clause_again hn hlines h.part hblock
  have hkind' : (flat block.lines).asClause.kind = .condition := by
    rw [← hkind, kind_asClause, kind_asClause, h.boundary]
  -- neither of the blocks ends with an empty line
  have hsame : block' = block := by
    rw [h.full hkind, h'.full hkind'] at htrim
    obtain ⟨lines, level⟩ := block
    obtain ⟨lines', level'⟩ := block'
    have hlevel : level = 0 := h.shape.1
    have hlevel' : level' = 0 := h'.shape.1
    simp_all
  rw [hsame] at hblock
  exact h.again.mp hblock hkind

/-- The clauses of a statement, laid out and put on one line. -/
theorem clauses_again {s : Text} (hs : Part s) {lines : List Line}
    (h : clauses nested s.clauses 0 = .ok lines) :
    (∀ l ∈ lines, Neat l.text) ∧ Part (flat lines) ∧
      flat lines = join [' '] (s.clauses.map fun c => onOneLine (clause nested c 0)) ∧
      (∀ c ∈ s.clauses, ∃ block, clause nested c 0 = .ok block) ∧
      (CutAgain nested s lines → clauses nested (flat lines).clauses 0 = .ok lines) ∧
      ∀ lines', clauses nested (flat lines).clauses 0 = .ok lines' →
        trimLines lines = trimLines lines' → CutAgain nested s lines := by
  obtain ⟨p, ps, hlaying, hclauses, rfl⟩ := exists_laying hn hlines hs h
  unfold CutAgain
  rw [hclauses]
  have hlaid : (((p :: ps).map Prod.fst).map Text.asClause).map
      (fun c => onOneLine (clause nested c 0)) = laidOf (p :: ps) := by
    rw [List.map_map, List.map_map]
    refine List.map_congr_left fun q hq => ?_
    simp only [Function.comp_apply, hlaying.block q hq]
    rfl
  -- what is said of the clauses is said of the texts they come from
  have hmem : ∀ {P : Clause → Prop}, (∀ c ∈ ((p :: ps).map Prod.fst).map Text.asClause, P c) ↔
      ∀ q ∈ p :: ps, P q.1.asClause := by
    intro P
    rw [List.map_map, List.forall_mem_map]
    rfl
  rw [hlaid, hmem, hmem]
  refine ⟨?_, hlaying.part_flat.1, hlaying.flat_lines, ?_, ?_, ?_⟩
  · intro l hl
    obtain ⟨b, hb, hl⟩ := List.mem_flatMap.mp hl
    obtain ⟨q, hq, rfl⟩ := List.mem_map.mp hb
    exact (hlaying.recut q hq).neat l hl
  · exact fun q hq => ⟨q.2, hlaying.block q hq⟩
  · rintro ⟨hcuts, hconditions⟩
    exact hlaying.again hn hlines hcuts
      fun q hq => (hlaying.recut q hq).again.mpr (hconditions q hq)
  · intro lines' hagain htrim
    obtain ⟨hcuts, hblocks⟩ := hlaying.of_again hn hlines hagain htrim
    refine ⟨hcuts, fun q hq => ?_⟩
    obtain ⟨block, hblock, hsame⟩ := hblocks q hq
    exact (hlaying.recut q hq).conditionsAgain hn hlines hblock hsame

end

/-! ## Conditions -/

section

variable {nested : Text → Except Fault Query} {good : Text → Bool}
  (hgood : ∀ {u : Text} {query : Query}, nested u = .ok query →
    (nested (flat query.lines) = .ok query ↔ good u = true))

include hgood

theorem queriesAgain_iff {c suffix : Text} {level : Nat} {block : Block}
    (h : condition nested level c suffix = .ok block) :
    (queryIn? c).all good = true ↔ QueriesAgain nested c := by
  cases hin : queryIn? c with
  | none =>
      refine iff_of_true rfl fun u query hu => ?_
      rw [hin] at hu
      cases hu
  | some u =>
      have hselect : c.hasKeyword Keyword.SELECT = true := by
        by_contra hnot
        rw [queryIn?_eq_none (by simpa using hnot)] at hin
        cases hin
      rw [condition, if_pos hselect] at h
      rcases subquery_cases h with ⟨hnone, -⟩ | ⟨-, inner, -, query, -, -, hinner, hq⟩
      · rw [hnone] at hin
        cases hin
      · -- the query named by the check is the one that was laid out
        obtain rfl : u = inner := by
          rw [hin] at hinner
          exact Option.some.inj hinner
        rw [Option.all_some, ← hgood hq]
        constructor
        · intro hagain v query' hv hq'
          obtain rfl : u = v := by
            rw [hin] at hv
            exact Option.some.inj hv
          rw [hq] at hq'
          obtain rfl := Except.ok.inj hq'
          exact hagain
        · intro hagain
          exact hagain u query hin hq

theorem conditionsSteady_iff {body : Text} {block : Block}
    (h : whereClause nested body 0 = .ok block) :
    conditionsSteady nested good body = true ↔ ConditionsAgain nested body := by
  have hqueries : ∀ c ∈ conditionsOf body,
      (queryIn? c).all good = true ↔ QueriesAgain nested c := by
    intro c hc
    rcases whereClause_ok h with ⟨rfl, -⟩ | ⟨-, lines, hstack, -⟩
    · obtain rfl : c = [] := List.mem_singleton.mp hc
      exact iff_of_true rfl fun u query hu => (by cases hu)
    · obtain ⟨s, block, -, hlay⟩ := exists_block_of_stack hstack c hc
      exact queriesAgain_iff hgood hlay
  simp only [conditionsSteady, Bool.and_eq_true, beq_iff_eq, List.all_eq_true]
  exact and_congr Iff.rfl (forall₂_congr hqueries)

theorem clauseSteady_iff {c : Clause} {block : Block} (h : clause nested c 0 = .ok block) :
    clauseSteady nested good c = true ↔
      (c.kind = .condition → ConditionsAgain nested c.body) := by
  unfold clauseSteady
  split
  · rename_i hkind
    rw [clause, hkind] at h
    rw [conditionsSteady_iff hgood h]
    exact ⟨fun hagain _ => hagain, fun hagain => hagain hkind⟩
  · rename_i hkind
    exact iff_of_true rfl fun hcond => absurd hcond hkind

end

end Layout

/-! ## Statements -/

theorem pass_eq_ok_iff {nested : Text → Except Fault Query} {t : Text} {query : Query} :
    pass nested t = .ok query ↔ t.normalize.withoutTerminator ≠ [] ∧
      validate t.normalize.withoutTerminator = .ok () ∧
      Layout.clauses nested t.normalize.withoutTerminator.clauses 0 = .ok query.lines := by
  unfold pass
  dsimp only
  by_cases hnil : t.normalize.withoutTerminator = []
  · simp [hnil]
  · rw [if_neg (by simpa using hnil)]
    cases hvalid : validate t.normalize.withoutTerminator with
    | error f => simp
    | ok u =>
        cases Layout.clauses nested t.normalize.withoutTerminator.clauses 0 with
        | error f => simp
        | ok lines =>
            obtain ⟨lines'⟩ := query
            simp [hnil]

theorem part_statement {t : Text} (hne : t.normalize.withoutTerminator ≠ [])
    (hvalid : validate t.normalize.withoutTerminator = .ok ()) :
    Part t.normalize.withoutTerminator := by
  refine ⟨?_, hne, ((validate_eq_ok_iff _).mp hvalid).2.1⟩
  rw [← normalize_withoutTerminator]
  exact Neat.normalize _

/-- An accepted statement on one line is its own statement. -/
theorem statement_eq_self {s : Text} (hs : Neat s) (hvalid : validate s = .ok ()) :
    s.normalize.withoutTerminator = s := by
  rw [hs.normalize_eq]
  rcases withoutTerminator_split s with ⟨-, h⟩ | ⟨hlast, -⟩
  · exact h
  · exact absurd hlast (getLast?_ne_terminator_of_validate hvalid)

/-- A laid-out statement, put on one line, is accepted. -/
theorem validate_flat {bound : Nat} {t : Text} {query : Query}
    (h : layoutWithin bound t = .ok query)
    (hvalid : validate t.normalize.withoutTerminator = .ok ()) :
    validate (flat query.lines) = .ok () := by
  have hspread := (nested_layoutWithin bound h (Ready.untracked _) (fun hne => absurd rfl hne)
    Fresh.none).1
  refine validate_of_laid hvalid (q := none) ?_
  rw [marks_flat]
  exact hspread.laid

/-- A laid-out statement, put on one line: it is laid out as before if it is steady, and only
then has it the same lines, up to empty ones at the end. -/
theorem layoutWithin_again (bound : Nat) {t : Text} {query : Query}
    (h : layoutWithin bound t = .ok query) :
    (∀ l ∈ query.lines, Neat l.text) ∧ flat query.lines ≠ [] ∧
      (steadyWithin bound t = true → layoutWithin bound (flat query.lines) = .ok query) ∧
      ∀ query', layoutWithin bound (flat query.lines) = .ok query' →
        trimLines query.lines = trimLines query'.lines → steadyWithin bound t = true := by
  induction bound generalizing t query with
  | zero => cases h
  | succ bound ih =>
      have hpass := h
      rw [layoutWithin_succ, pass_eq_ok_iff] at hpass
      obtain ⟨hne, hvalid, hclauses⟩ := hpass
      obtain ⟨hneat, hpart, hflat, hblocks, hagain, hof⟩ :=
        Layout.clauses_again (nested_layoutWithin bound) (fun h => (ih h).1)
          (part_statement hne hvalid) hclauses
      -- the text on one line is its own statement
      have hvalid' := validate_flat h hvalid
      have hself := statement_eq_self hpart.neat hvalid'
      have hgood : ∀ {u : Text} {query : Query}, layoutWithin bound u = .ok query →
          (layoutWithin bound (flat query.lines) = .ok query ↔ steadyWithin bound u = true) :=
        fun hu => ⟨fun hsame => (ih hu).2.2.2 _ hsame rfl, (ih hu).2.2.1⟩
      have hsteady : steadyWithin (bound + 1) t = true ↔
          Layout.CutAgain (layoutWithin bound) t.normalize.withoutTerminator query.lines := by
        rw [steadyWithin, ← hflat, Bool.and_eq_true, beq_iff_eq, List.all_eq_true]
        refine and_congr_right fun _ => forall₂_congr fun c hc => ?_
        obtain ⟨block, hblock⟩ := hblocks c hc
        exact Layout.clauseSteady_iff hgood hblock
      rw [hsteady]
      refine ⟨hneat, hpart.ne_nil, fun hcut => ?_, fun query' hquery' => ?_⟩
      · rw [layoutWithin_succ, pass_eq_ok_iff, hself]
        exact ⟨hpart.ne_nil, hvalid', hagain hcut⟩
      · rw [layoutWithin_succ, pass_eq_ok_iff, hself] at hquery'
        exact hof query'.lines hquery'.2.2

/-! ## Formatted text -/

/-- A layout has no more of a character than its text, unless it is one whose case changes. -/
theorem Laid.count_le {v : List Glyph} {v' : List Mark} (h : Laid v v') {x : Char}
    (hx : isWordChar x = false) :
    (v'.map Mark.char).count x ≤ ((v.map Glyph.toMark).map Mark.char).count x := by
  induction h with
  | nil => exact Nat.le_refl _
  | keep hk _ _ ih =>
      simp only [List.map_cons, List.count_cons, beq_iff_eq, hk.char.eq_iff hx]
      omega
  | drop _ _ _ _ hk _ _ ih =>
      simp only [List.map_cons, List.count_cons, beq_iff_eq, hk.char.eq_iff hx]
      omega

theorem count_flat_le {t : Text} {query : Query} (h : layout t = .ok query) :
    (flat query.lines).count '(' ≤ t.count '(' := by
  have hlaid := (nested_layoutWithin _ h (Ready.untracked _) (fun hne => absurd rfl hne)
    Fresh.none).1.laid
  have hle := hlaid.count_le (x := '(') (by decide)
  rw [toMark_glyphs, ← marks_flat, count_marks (by decide), count_marks (by decide)] at hle
  exact hle.trans (count_statement_le '(' (by decide) t)

/-- The statement of a formatted text. -/
theorem statement_format (width : Nat) (query : Query) :
    (query.statement width).normalize.withoutTerminator = flat query.lines := by
  have hmarks : (query.statement width).marks none
      = lineMarks query.lines ++ [⟨edge none (query.render width).trimEnd, terminator⟩] := by
    rw [Query.statement, marks_append, marks_trimEnd, marks_render]
    rfl
  have hneat : Neat (query.statement width).normalize.withoutTerminator := by
    rw [← normalize_withoutTerminator]
    exact Neat.normalize _
  refine hneat.ext (neat_flat query.lines) ?_
  rw [marks_withoutTerminator hmarks, marks_flat]

theorem layout_statement_congr {s t : Text}
    (h : s.normalize.withoutTerminator = t.normalize.withoutTerminator) : layout s = layout t := by
  rw [layout_eq, layout_eq, pass, pass, h]

/-- The layout of a formatted text is that of its statement on one line. -/
theorem layout_format (width : Nat) {t : Text} {query : Query} (h : layout t = .ok query) :
    layout (query.statement width) = layoutWithin (t.count '(' + 1) (flat query.lines) := by
  have hpass := h
  rw [layout_eq, pass_eq_ok_iff] at hpass
  have hself := statement_eq_self (neat_flat query.lines) (validate_flat h hpass.2.1)
  rw [layoutWithin_eq_layout (Nat.lt_succ_of_le (count_flat_le h))]
  exact layout_statement_congr (by rw [statement_format, hself])

/-- Formatting a formatted text again changes nothing if the statement is steady, and only then
if an indent has a width. At any width, the lines are the same again exactly then. -/
theorem format_steady {width : Nat} {t o : Text} (h : format width t = .ok o) :
    (steady t = true → format width o = .ok o) ∧
      (0 < width → format width o = .ok o → steady t = true) ∧
      (layout o = layout t ↔ steady t = true) := by
  obtain ⟨query, hlayout, rfl⟩ := exists_layout_of_format h
  have hsame := layout_format width hlayout
  obtain ⟨hneat, hne, hagain, hof⟩ := layoutWithin_again _ hlayout
  have hlines : layout (query.statement width) = layout t ↔ steady t = true := by
    rw [hsame, hlayout]
    exact ⟨fun hquery => hof query hquery rfl, hagain⟩
  refine ⟨fun hsteady => ?_, fun hw hfixed => ?_, hlines⟩
  · rw [format, hlines.mpr hsteady]
    exact h
  · obtain ⟨query', hlayout', htext⟩ := exists_layout_of_format hfixed
    obtain ⟨hneat', hne', -⟩ := layoutWithin_again _ hlayout'
    rw [hsame] at hlayout'
    have hfilled : ∀ {lines : List Line}, flat lines ≠ [] → trimLines lines ≠ [] := by
      intro lines hflat hnil
      rw [← flat_trimLines, hnil] at hflat
      exact hflat rfl
    exact hof query' hlayout' (trimLines_eq_of_statement hw hneat hneat' (hfilled hne)
      (hfilled hne') htext.symm)

/-- A statement with a query inside a query. -/
def nestedReport : Text :=
  "select a, b from t left join u on x = y where a in (select c from v where d in (1)) and e".toList

/-- A statement whose second condition stands close to a parenthesis: the layout puts a space
before its `AND`. -/
def closeCondition : Text := "SELECT a FROM t WHERE x IN (1)AND y = 2".toList

theorem exists_format_of_isOk {width : Nat} {t : Text} (h : (format width t).isOk = true) :
    ∃ o, format width t = .ok o := by
  cases hformat : format width t with
  | error e =>
      rw [hformat] at h
      cases h
  | ok o => exact ⟨o, rfl⟩

theorem format_steady_nestedReport :
    (∃ o, format 4 nestedReport = .ok o ∧ steady nestedReport = true ∧ format 4 o = .ok o ∧
      layout o = layout nestedReport) ∧
    ∃ o, format 4 closeCondition = .ok o ∧ steady closeCondition = false ∧
      format 4 o ≠ .ok o := by
  constructor
  · obtain ⟨o, hformat⟩ : ∃ o, format 4 nestedReport = .ok o :=
      exists_format_of_isOk (by decide +kernel)
    have hsteady : steady nestedReport = true := by decide +kernel
    obtain ⟨hagain, -, hlayout⟩ := format_steady hformat
    exact ⟨o, hformat, hsteady, hagain hsteady, hlayout.mpr hsteady⟩
  · obtain ⟨o, hformat⟩ : ∃ o, format 4 closeCondition = .ok o :=
      exists_format_of_isOk (by decide +kernel)
    have hsteady : steady closeCondition = false := by decide +kernel
    obtain ⟨-, honly, -⟩ := format_steady hformat
    refine ⟨o, hformat, hsteady, fun hfixed => ?_⟩
    rw [honly (by decide) hfixed] at hsteady
    cases hsteady

end SqlLayout
