import Mathlib.Data.List.DropRight
import SqlLayout.Proofs.OneLine

set_option autoImplicit false

/-! # Lines and their text

Rendered lines can be read back, if their texts are neat and an indent has a width: a line ends
at a new line, and its indent where its text starts (`render_injective`). Empty lines at the end
are lost (`trimEnd_render`), so a formatted text tells its lines up to those
(`trimLines_eq_of_statement`).
-/

namespace SqlLayout

open Text

/-- Two lists that each stop at their first element without a property stop at the same one. -/
theorem append_inj_of_head {α : Type} {P : α → Prop} {a a' b b' : List α} (ha : ∀ x ∈ a, P x)
    (ha' : ∀ x ∈ a', P x) (hb : ∀ x, b.head? = some x → ¬P x)
    (hb' : ∀ x, b'.head? = some x → ¬P x) (h : a ++ b = a' ++ b') : a = a' ∧ b = b' := by
  rw [List.append_eq_append_iff] at h
  rcases h with ⟨m, rfl, rfl⟩ | ⟨m, rfl, rfl⟩
  · cases m with
    | nil => exact ⟨by simp, by simp⟩
    | cons x xs => exact absurd (ha' x (by simp)) (hb x rfl)
  · cases m with
    | nil => exact ⟨by simp, by simp⟩
    | cons x xs => exact absurd (ha x (by simp)) (hb' x rfl)

/-! ## Reading lines back -/

/-- A rendered line tells its level and its text, if an indent has a width. -/
theorem Line.render_injective {width : Nat} (hw : 0 < width) {l l' : Line} (hl : Neat l.text)
    (hl' : Neat l'.text) (h : l.render width = l'.render width) : l = l' := by
  obtain ⟨level, text⟩ := l
  obtain ⟨level', text'⟩ := l'
  have hspaces : ∀ n, ∀ c ∈ List.replicate n ' ', isBlank c = true := by
    intro n c hc
    rw [List.eq_of_mem_replicate hc]
    decide
  have hhead : ∀ {t : Text}, Neat t → ∀ c, t.head? = some c → ¬isBlank c = true := by
    intro t ht c hc
    rw [ht.head c hc]
    decide
  obtain ⟨hindent, htext⟩ := append_inj_of_head (P := fun c => isBlank c = true)
    (hspaces (width * level)) (hspaces (width * level')) (hhead hl) (hhead hl') h
  have hlevel : width * level = width * level' := by
    simpa using congrArg List.length hindent
  dsimp only at htext
  rw [Nat.eq_of_mul_eq_mul_left hw hlevel, htext]

theorem newline_not_mem_render {l : Line} (h : Neat l.text) (width : Nat) :
    ∀ c ∈ l.render width, c ≠ '\n' := by
  rintro c hc rfl
  rcases List.mem_append.mp hc with hc | hc
  · exact absurd (List.eq_of_mem_replicate hc) (by decide)
  · obtain ⟨a, b, hsplit⟩ := List.append_of_mem hc
    exact absurd (h.tidy a '\n' b hsplit (by decide)).1 (by decide)

theorem join_eq_intercalate (sep : Text) (ts : List Text) : join sep ts = sep.intercalate ts := by
  induction ts with
  | nil => rfl
  | cons t ts ih =>
      cases ts with
      | nil => simp [join]
      | cons u us => rw [join, ih, List.intercalate_cons_cons]

/-- A rendered text is cut into its rendered lines. -/
theorem splitOn_render {ls : List Line} (hne : ls ≠ []) (hls : ∀ l ∈ ls, Neat l.text)
    (width : Nat) : List.splitOn '\n' (Query.render width ⟨ls⟩) = ls.map (Line.render width) := by
  rw [Query.render, join_eq_intercalate]
  refine List.splitOn_intercalate '\n' (fun t ht hmem => ?_) (by simpa using hne)
  obtain ⟨l, hl, rfl⟩ := List.mem_map.mp ht
  exact newline_not_mem_render (hls l hl) width '\n' hmem rfl

/-- Rendered lines tell the lines: each new line ends one, since no neat text has any. -/
theorem render_injective {width : Nat} (hw : 0 < width) {ls ls' : List Line} (hne : ls ≠ [])
    (hne' : ls' ≠ []) (hls : ∀ l ∈ ls, Neat l.text) (hls' : ∀ l ∈ ls', Neat l.text)
    (h : Query.render width ⟨ls⟩ = Query.render width ⟨ls'⟩) : ls = ls' := by
  have hmap : ls.map (Line.render width) = ls'.map (Line.render width) := by
    rw [← splitOn_render hne hls, ← splitOn_render hne' hls', h]
  refine List.ext_getElem (by simpa using congrArg List.length hmap) fun i hi hi' => ?_
  refine Line.render_injective hw (hls _ (List.getElem_mem hi)) (hls' _ (List.getElem_mem hi')) ?_
  have hat : (ls.map (Line.render width))[i]? = (ls'.map (Line.render width))[i]? := by rw [hmap]
  simpa [hi, hi'] using hat

/-! ## Empty lines at the end -/

/-- The lines without the empty ones at the end. -/
def trimLines (lines : List Line) : List Line := lines.rdropWhile fun l => l.text.isEmpty

theorem trimLines_concat (ls : List Line) (l : Line) :
    trimLines (ls ++ [l]) = if l.text = [] then trimLines ls else ls ++ [l] := by
  rw [trimLines, List.rdropWhile_concat]
  simp only [List.isEmpty_iff]
  rfl

theorem mem_of_mem_trimLines {lines : List Line} {l : Line} (h : l ∈ trimLines lines) :
    l ∈ lines := by
  have hsub : trimLines lines <+: lines := List.rdropWhile_prefix _ _
  exact hsub.subset h

theorem render_concat {ls : List Line} (hne : ls ≠ []) (l : Line) (width : Nat) :
    Query.render width ⟨ls ++ [l]⟩ = Query.render width ⟨ls⟩ ++ '\n' :: l.render width := by
  rw [Query.render, List.map_append, join_append (by simpa using hne) (by simp)]
  simp [Query.render, join]

/-- Trimming a rendered text drops the empty lines at its end, indents included. -/
theorem trimEnd_render {lines : List Line} (h : ∀ l ∈ lines, Neat l.text) (width : Nat) :
    (Query.render width ⟨lines⟩).trimEnd = Query.render width ⟨trimLines lines⟩ := by
  induction lines using List.reverseRecOn with
  | nil => rfl
  | append_singleton init l ih =>
      have hinit := ih (fun x hx => h x (List.mem_append_left _ hx))
      -- what the last line adds, and whether it is blank
      obtain ⟨before, b, hb, hrender⟩ : ∃ before b : Text, AllBlank b ∧
          Query.render width ⟨init ++ [l]⟩ = before ++ b ++ l.text ∧
          trimEnd before = trimEnd (Query.render width ⟨init⟩) := by
        have hindent : AllBlank (List.replicate (width * l.level) ' ') := by
          intro c hc
          rw [List.eq_of_mem_replicate hc]
          decide
        by_cases hne : init = []
        · subst hne
          exact ⟨[], _, hindent, rfl, rfl⟩
        · refine ⟨Query.render width ⟨init⟩, '\n' :: List.replicate (width * l.level) ' ', ?_, ?_,
            rfl⟩
          · intro c hc
            rcases List.mem_cons.mp hc with rfl | hc
            · decide
            · exact hindent c hc
          · rw [render_concat hne, Line.render]
            simp
      obtain ⟨hrender, hbefore⟩ := hrender
      rw [trimLines_concat]
      split
      · rename_i hempty
        rw [hrender, hempty, List.append_nil, trimEnd_append hb, hbefore]
        exact hinit
      · rename_i hempty
        refine trimEnd_of_last fun c hc => (h l (by simp)).last c ?_
        rw [hrender, List.getLast?_append_of_ne_nil _ hempty] at hc
        exact hc

/-- A formatted text tells its lines up to empty ones at the end. -/
theorem trimLines_eq_of_statement {width : Nat} (hw : 0 < width) {query query' : Query}
    (hq : ∀ l ∈ query.lines, Neat l.text) (hq' : ∀ l ∈ query'.lines, Neat l.text)
    (hne : trimLines query.lines ≠ []) (hne' : trimLines query'.lines ≠ [])
    (h : query.statement width = query'.statement width) :
    trimLines query.lines = trimLines query'.lines := by
  have hrender : (query.render width).trimEnd = (query'.render width).trimEnd :=
    List.append_cancel_right h
  have hmem : ∀ {lines : List Line}, (∀ l ∈ lines, Neat l.text) →
      ∀ l ∈ trimLines lines, Neat l.text :=
    fun hall l hl => hall l (mem_of_mem_trimLines hl)
  refine render_injective hw hne hne' (hmem hq) (hmem hq') ?_
  rw [← trimEnd_render hq, ← trimEnd_render hq']
  exact hrender

/-! ## Lines without their empty end -/

theorem trimLines_nil : trimLines [] = [] := rfl

theorem trimLines_idem (ls : List Line) : trimLines (trimLines ls) = trimLines ls :=
  List.rdropWhile_idempotent _ _

theorem trimLines_ne_nil {l : Line} (hl : l.text ≠ []) (ls : List Line) :
    trimLines (l :: ls) ≠ [] := by
  rw [trimLines, Ne, List.rdropWhile_eq_nil_iff]
  intro hall
  have hempty := hall l List.mem_cons_self
  exact hl (by simpa using hempty)

theorem trimLines_append (a : List Line) {b : List Line} (hb : trimLines b ≠ []) :
    trimLines (a ++ b) = a ++ trimLines b := by
  induction b using List.reverseRecOn with
  | nil => exact absurd rfl hb
  | append_singleton init l ih =>
      rw [trimLines_concat] at hb
      rw [← List.append_assoc, trimLines_concat, trimLines_concat]
      split
      · rename_i hempty
        rw [if_pos hempty] at hb
        exact ih hb
      · exact List.append_assoc _ _ _

theorem trimLines_cons {l : Line} (hl : l.text ≠ []) (ls : List Line) :
    trimLines (l :: ls) = l :: trimLines ls := by
  induction ls using List.reverseRecOn with
  | nil =>
      rw [← List.nil_append [l], trimLines_concat, if_neg hl]
      rfl
  | append_singleton init x ih =>
      rw [← List.cons_append, trimLines_concat, trimLines_concat, ih]
      split <;> rfl

/-- Empty lines have no words. -/
theorem flat_trimLines (lines : List Line) : flat (trimLines lines) = flat lines := by
  induction lines using List.reverseRecOn with
  | nil => rfl
  | append_singleton init l ih =>
      rw [trimLines_concat]
      split
      · rename_i hempty
        have hwords : l.text.words = [] := by
          rw [hempty]
          rfl
        rw [ih, flat, flat, List.flatMap_append, List.flatMap_singleton, hwords, List.append_nil]
      · rfl

end SqlLayout
