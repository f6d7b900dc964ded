import SqlLayout.Proofs.Search
import SqlLayout.Proofs.FlatCuts

set_option autoImplicit false

/-! # The pieces a text is cut into

A cut gives back the text: the pieces with something between them. `Parted sep q ps t` says so
for a text that is read from the state `q`, and that the separators stand outside literals as
far as `q` follows them. A scan that knows about literals cuts outside them anyway; a flat
search does if the separator is `Outside` them.
-/

namespace SqlLayout

/-! ## Separators outside literals -/

/-- The separators that are looked for without regard to literals. -/
def flatSeparators : List Text :=
  [[','], Layout.andSeparator, Layout.onSeparator, Layout.inOpening]

/-- A condition on texts whose literals are followed. -/
def Track.Followed (q : Track) (b : Bool) : Prop := q ≠ none → b = true

theorem Track.Followed.and {q : Track} {b b' : Bool} (h : q.Followed (b && b')) :
    q.Followed b ∧ q.Followed b' :=
  ⟨fun hne => (Bool.and_eq_true_iff.mp (h hne)).1, fun hne => (Bool.and_eq_true_iff.mp (h hne)).2⟩

theorem Track.Followed.scan {q : Track} {b : Bool} (h : q.Followed b) (t : Text) :
    (q.scan t).Followed b := by
  intro hne
  cases q with
  | none => exact absurd rfl hne
  | some x => exact h (by simp)

/-- The separator stands at clear places only, in a text that is read from `q`. -/
def Outside (sep : Text) (q : Track) (t : Text) : Prop :=
  ∀ a b, t = a ++ b → Text.startsWith b sep = true → (q.scan a).Clear

theorem Outside.right {sep a b : Text} {q : Track} (h : Outside sep q (a ++ b)) :
    Outside sep (q.scan a) b := by
  intro x y hxy hy
  rw [← Track.scan_append]
  exact h (a ++ x) y (by simp [hxy]) hy

theorem Quoting.eq_outside_of_not_isQuoted {q : Quoting} (h : q.isQuoted = false) :
    q = .outside := by
  simpa [Quoting.isQuoted] using h

/-- A place that is not quoted is clear. -/
theorem Track.Clear.scan_take {q : Track} (hq : q.Clear) {t : Text} {i : Nat}
    (h : t.isQuotedAt i = false) : (q.scan (t.take i)).Clear := by
  rw [Text.isQuotedAt, Nesting.isQuoted_eq, Nesting.after, Nesting.quoting_scan] at h
  exact hq.scan_of_outside (Quoting.eq_outside_of_not_isQuoted h)

/-- What is followed to a cut outside literals is clear there. -/
theorem Track.Followed.clear_take {q : Track} (hq : q.Clear) {t : Text} {i : Nat}
    (h : q.Followed (!t.isQuotedAt i)) : (q.scan (t.take i)).Clear := by
  by_cases hne : q = none
  · rw [hne]
    exact Track.clear_none
  · exact hq.scan_take (by simpa using h hne)

theorem outside_of_splitsOutside {sep : Text} (hsep : sep ≠ []) {q : Track} (hq : q.Clear)
    {t : Text} (h : q.Followed (Text.splitsOutside sep t)) : Outside sep q t := by
  rintro a b rfl hb
  by_cases hnone : q = none
  · rw [hnone]
    exact Track.clear_none
  · have hall := List.all_eq_true.mp (h hnone) a.length
    have hlt : a.length < (a ++ b).length := by
      cases b with
      | nil =>
          cases sep with
          | nil => exact absurd rfl hsep
          | cons c cs => simp [Text.startsWith, Text.same, Text.upper] at hb
      | cons c cs => simp
    have hat := hall (List.mem_range.mpr hlt)
    rw [List.drop_left, hb] at hat
    have hclear := hq.scan_take (t := a ++ b) (i := a.length) (by simpa using hat)
    rwa [List.take_left] at hclear

/-- Blanks are single spaces. -/
def Tidy (t : Text) : Prop :=
  ∀ a c b, t = a ++ c :: b → isBlank c = true → c = ' ' ∧ ∀ d, b.head? = some d → isBlank d = false

theorem Tidy.part {a b c : Text} (h : Tidy (a ++ (b ++ c))) : Tidy b := by
  intro u x v huv hx
  have hsplit : a ++ (b ++ c) = (a ++ u) ++ x :: (v ++ c) := by simp [huv]
  obtain ⟨rfl, hnext⟩ := h _ _ _ hsplit hx
  refine ⟨rfl, fun d hd => hnext d ?_⟩
  cases v with
  | nil => cases hd
  | cons y ys => simpa using hd

/-- A text that can be read from `q`: outside literals, and tidy if `q` follows them. -/
structure Ready (q : Track) (t : Text) : Prop where
  clear : q.Clear
  tidy : q ≠ none → Tidy t

namespace Ready

theorem untracked (t : Text) : Ready none t := ⟨Track.clear_none, fun h => absurd rfl h⟩

/-- What stands between two clear places can be read from the first of them. -/
theorem part {q : Track} {a b c : Text} (h : Ready q (a ++ (b ++ c)))
    (ha : (q.scan a).Clear) : Ready (q.scan a) b := by
  cases q with
  | none => exact untracked b
  | some x => exact ⟨ha, fun _ => (h.tidy (by simp)).part⟩

theorem left {q : Track} {a b : Text} (h : Ready q (a ++ b)) : Ready q a := by
  have h' : Ready q ([] ++ (a ++ b)) := h
  simpa using h'.part (by simpa using h.clear)

theorem right {q : Track} {a b : Text} (h : Ready q (a ++ b)) (ha : (q.scan a).Clear) :
    Ready (q.scan a) b := by
  have h' : Ready q (a ++ (b ++ [])) := by simpa using h
  exact h'.part ha

/-- What a parenthesis encloses can be read from the place of the parenthesis. -/
theorem inParens {q : Track} {pre u v : Text} (h : Ready q (pre ++ '(' :: (u ++ ')' :: v)))
    (hpre : (q.scan pre).Clear) : Ready (q.scan pre) u := by
  have hopen : q.scan (pre ++ ['(']) = q.scan pre := by
    rw [Track.scan_append]
    exact hpre.scan_eq (by decide)
  have hsplit : pre ++ '(' :: (u ++ ')' :: v) = (pre ++ ['(']) ++ (u ++ ')' :: v) := by simp
  rw [hsplit] at h
  have hpart := h.part (by rw [hopen]; exact hpre)
  rwa [hopen] at hpart

theorem trim {q : Track} {t : Text} (h : Ready q t) : Ready q t.trim := by
  obtain ⟨a, b, ha, -, ht⟩ := Text.trim_split t
  have hq : q.scan a = q := h.clear.scan_eq ha.isQuoteMark
  rw [ht] at h
  have h' := h.part (by rw [hq]; exact h.clear)
  rwa [hq] at h'

end Ready

/-! ## Pieces -/

/-- The pieces `ps` with separators between them are the text, which is read from `q`. -/
inductive Parted (sep : Text → Prop) : Track → List Text → Text → Prop
  | last {q : Track} {p : Text} : Ready q p → Parted sep q [p] p
  | cons {q : Track} {p s t : Text} {ps : List Text} :
      Ready q p → sep s → (q.scan p).Clear → Parted sep ((q.scan p).scan s) ps t →
      Parted sep q (p :: ps) (p ++ (s ++ t))

theorem Parted.eq_of_singleton {sep : Text → Prop} {q : Track} {p t : Text}
    (h : Parted sep q [p] t) : p = t := by
  generalize hps : [p] = ps at h
  cases h with
  | last _ => simpa using hps
  | cons _ _ _ h' =>
      obtain ⟨-, hnil⟩ : p = _ ∧ [] = _ := by simpa using hps
      rw [← hnil] at h'
      nomatch h'

theorem flatSeparators_ne_nil {sep : Text} (h : sep ∈ flatSeparators) : sep ≠ [] := by
  revert sep
  decide

theorem flatSeparators_unquoted {sep : Text} (h : sep ∈ flatSeparators) :
    Unquoted sep := by
  revert sep
  decide

/-- A text in another case has the same quote marks. -/
theorem unquoted_of_upper_eq {s t : Text} (h : s.upper = t.upper)
    (ht : Unquoted t) : Unquoted s := by
  intro c hc
  have hmem : c.toUpper ∈ t.upper := h ▸ List.mem_map_of_mem hc
  obtain ⟨d, hd, hdc⟩ := List.mem_map.mp hmem
  rw [← isQuoteMark_toUpper c, ← hdc, isQuoteMark_toUpper]
  exact ht d hd

namespace Text

theorem cutAt_skip (sep : Text) (k : Nat) (t : Text) :
    cutAt sep k t = cutAt sep 0 (t.drop k) := by
  induction t generalizing k with
  | nil => cases k <;> rfl
  | cons c cs ih =>
      cases k with
      | zero => rfl
      | succ k => exact ih k

/-- The invariant of the flat cut: `u` is the part of the current piece that has been read. -/
theorem parted_cutAt {sep : Text} (hsep : sep ∈ flatSeparators) (n : Nat) (t : Text)
    (hn : t.length ≤ n) (u : Text) (q : Track) (h : Ready q (u ++ t))
    (hout : Outside sep (q.scan u) t) :
    Parted (fun s => s.upper = sep.upper) q ((u ++ (cutAt sep 0 t).1) :: (cutAt sep 0 t).2)
      (u ++ t) := by
  induction n generalizing t u q with
  | zero =>
      obtain rfl : t = [] := List.length_eq_zero_iff.mp (by omega)
      simp only [cutAt, List.append_nil]
      exact .last (by simpa using h)
  | succ n ih =>
      cases t with
      | nil =>
          simp only [cutAt, List.append_nil]
          exact .last (by simpa using h)
      | cons c cs =>
          rw [cutAt]
          by_cases hc : startsWith (c :: cs) sep = true
          · -- the piece ends here, and the next one is read from behind the separator
            rw [if_pos hc]
            have hclear : (q.scan u).Clear := by simpa using hout [] (c :: cs) rfl hc
            obtain ⟨s, r, hsr, hs⟩ := startsWith_split hc
            have hslen : s.length = sep.length := length_eq_of_upper_eq hs
            have hpos : 0 < sep.length := List.length_pos_of_ne_nil (flatSeparators_ne_nil hsep)
            have hskip : cs.drop (sep.length - 1) = r := by
              have hdrop : (c :: cs).drop sep.length = r := by rw [hsr, ← hslen, List.drop_left]
              rwa [show sep.length = sep.length - 1 + 1 by omega, List.drop_succ_cons] at hdrop
            have hrlen : r.length ≤ n := by
              have := congrArg List.length hsr
              simp only [List.length_cons, List.length_append] at this hn
              omega
            have hscan : (q.scan u).scan s = q.scan u :=
              hclear.scan_eq (unquoted_of_upper_eq hs (flatSeparators_unquoted hsep))
            rw [hsr] at h
            have hr : Ready ((q.scan u).scan s) r := by
              have hright := h.right hclear
              exact hright.right (by rw [hscan]; exact hclear)
            rw [hsr] at hout
            have hrec := ih r hrlen [] ((q.scan u).scan s) hr (by simpa using hout.right)
            rw [cutAt_skip, hskip, hsr]
            have hcons : Parted (fun s => s.upper = sep.upper) q
                (u :: ([] ++ (cutAt sep 0 r).1) :: (cutAt sep 0 r).2) (u ++ (s ++ ([] ++ r))) :=
              .cons h.left hs hclear hrec
            simpa using hcons
          · rw [if_neg hc]
            have hout' : Outside sep (q.scan (u ++ [c])) cs := by
              rw [Track.scan_append]
              exact hout.right (a := [c])
            have hrec := ih cs (by simpa using hn) (u ++ [c]) q (by simpa using h) hout'
            simpa using hrec

/-- The pieces of a flat split. -/
theorem parted_splitOn {sep : Text} (hsep : sep ∈ flatSeparators) {q : Track} {t : Text}
    (h : Ready q t) (hout : q.Followed (splitsOutside sep t)) :
    Parted (fun s => s.upper = sep.upper) q (t.splitOn sep) t := by
  have hne := flatSeparators_ne_nil hsep
  rw [splitOn, show sep.isEmpty = false by simpa using hne]
  exact parted_cutAt hsep t.length t (Nat.le_refl _) [] q h
    (by simpa using outside_of_splitsOutside hne h.clear hout)

/-! ### Columns -/

theorem isQuoted_eq_false_of_isOutermost {n : Nesting} (h : n.isOutermost = true) :
    n.isQuoted = false := by
  simp only [Nesting.isOutermost, Bool.and_eq_true, Bool.not_eq_true'] at h
  exact h.2

end Text

/-- The state `q` is that of the scan `n`, as far as it follows literals. -/
def Track.Agrees (q : Track) (n : Nesting) : Prop := ∀ x ∈ q, x = n.quoting

namespace Track

theorem Agrees.scan {q : Track} {n : Nesting} (h : q.Agrees n) (t : Text) :
    (q.scan t).Agrees (n.scan t) := by
  intro y hy
  cases q with
  | none => cases hy
  | some x =>
      obtain rfl : x = n.quoting := h x rfl
      obtain rfl : n.quoting.scan t = y := by simpa [Track.scan] using hy
      exact (n.quoting_scan t).symm

theorem Agrees.clear {q : Track} {n : Nesting} (h : q.Agrees n) (hn : n.isQuoted = false) :
    q.Clear := by
  intro x hx
  rw [h x hx]
  rw [Nesting.isQuoted_eq] at hn
  exact Quoting.eq_outside_of_not_isQuoted hn

/-- At a clear place a scan can start anew. -/
theorem Clear.agrees_start {q : Track} (h : q.Clear) : q.Agrees .start := h

end Track

namespace Text

/-- One step of the cut into columns. -/
theorem columnsFrom_cons (n : Nesting) (w : Bool) (d : Nat) (c : Char) (cs : Text) :
    columnsFrom n w d (c :: cs) =
      let d' := if !n.isQuoted && isWordChar c && !w then caseDepthAfter d (firstWord (c :: cs))
        else d
      let r := columnsFrom (n.next c) (isWordChar c) d' cs
      if c == ',' && n.isOutermost && d == 0 && !nextIs Keyword.OVER cs then ([], r.1 :: r.2)
      else (c :: r.1, r.2) := rfl

theorem columns_eq (t : Text) :
    t.columns =
      let r := columnsFrom .start false 0 t
      if r.2.isEmpty && r.1.trim.isEmpty then [] else (r.1 :: r.2).map trim := rfl

/-- The invariant of the cut into columns: `u` is the part of the current column that has been
read. -/
theorem parted_columnsFrom (t : Text) (n : Nesting) (w : Bool) (d : Nat) (u : Text) (q : Track)
    (h : Ready q (u ++ t)) (hq : (q.scan u).Agrees n) :
    Parted (· = [',']) q ((u ++ (columnsFrom n w d t).1) :: (columnsFrom n w d t).2) (u ++ t) := by
  induction t generalizing n w d u q with
  | nil =>
      simp only [columnsFrom, List.append_nil]
      exact .last (by simpa using h)
  | cons c cs ih =>
      rw [columnsFrom_cons]
      dsimp only
      generalize (if (!n.isQuoted && isWordChar c && !w) = true then
        caseDepthAfter d (firstWord (c :: cs)) else d) = d'
      split
      · rename_i hcut
        simp only [Bool.and_eq_true, beq_iff_eq] at hcut
        -- a cut: the column ends here, and the next one starts with nothing read
        obtain ⟨⟨⟨rfl, hout⟩, -⟩, -⟩ := hcut
        have hclear : (q.scan u).Clear := hq.clear (isQuoted_eq_false_of_isOutermost hout)
        have hscan : (q.scan u).scan [','] = q.scan u := hclear.scan_eq (by decide)
        have hcs : Ready ((q.scan u).scan [',']) ([] ++ cs) :=
          (h.right hclear).right (a := [',']) (by rw [hscan]; exact hclear)
        have hagrees : (((q.scan u).scan [',']).scan []).Agrees (n.next ',') := by
          rw [Track.scan_nil]
          exact hq.scan [',']
        have hrec := ih (n.next ',') (isWordChar ',') d' [] _ hcs hagrees
        have hcons : Parted (· = [',']) q _ (u ++ ([','] ++ ([] ++ cs))) :=
          .cons h.left rfl hclear hrec
        simpa using hcons
      · have hrec := ih (n.next c) (isWordChar c) d' (u ++ [c]) q (by simpa using h)
          (by rw [Track.scan_append]; exact hq.scan [c])
        simpa using hrec

/-- The columns of a list, before they are trimmed, are its pieces between commas. -/
theorem parted_columns {q : Track} {t : Text} (h : Ready q t) (hne : t.columns ≠ []) :
    ∃ ps, t.columns = ps.map trim ∧ Parted (· = [',']) q ps t := by
  have hparted := parted_columnsFrom t .start false 0 [] q h (by
    simpa using h.clear.agrees_start)
  refine ⟨(columnsFrom .start false 0 t).1 :: (columnsFrom .start false 0 t).2, ?_, hparted⟩
  rw [columns_eq] at hne ⊢
  dsimp only at hne ⊢
  split at hne
  · exact absurd rfl hne
  · rename_i hcond
    rw [if_neg hcond]

/-- A list without columns is blank. -/
theorem marks_of_columns_eq_nil {t : Text} (h : t.columns = []) : AllBlank t := by
  have hparted := parted_columnsFrom t .start false 0 [] none (Ready.untracked _)
    (fun x hx => by cases hx)
  rw [columns_eq] at h
  dsimp only at h
  split at h
  · rename_i hcond
    simp only [Bool.and_eq_true, List.isEmpty_iff] at hcond
    obtain ⟨hps, htrim⟩ := hcond
    rw [hps] at hparted
    have ht : (columnsFrom .start false 0 t).1 = t := by
      simpa using hparted.eq_of_singleton
    obtain ⟨a, b, ha, hb, hab⟩ := trim_split t
    rw [ht] at htrim
    rw [htrim] at hab
    rw [hab]
    intro c hc
    simp only [List.nil_append, List.mem_append] at hc
    exact hc.elim (ha c) (hb c)
  · simp at h

end Text

end SqlLayout
