import SqlLayout.Proofs.SteadyLayouts

set_option autoImplicit false

/-! # Indent widths

How many spaces a level takes is decided when lines are rendered, and nothing else depends on it.
A formatted text is, at every width, the rendering of the same lines (`exists_rendered`), whose
texts start with no space and hold no new line. So the spaces in front of a line tell its level
(`indentOf_render`), and a text formatted at one width is the text formatted at another with its
indents rescaled (`format_rescale`). Read again, the two are one statement (`layout_format_eq`).
-/

namespace SqlLayout

open Text

/-! ## Indents of a text -/

/-- The number of spaces a line starts with. -/
def indentOf (line : Text) : Nat := (line.takeWhile (· == ' ')).length

/-- A line whose levels of `width` spaces become levels of `width'` spaces. -/
def rescaleLine (width width' : Nat) (line : Text) : Text :=
  List.replicate (indentOf line / width * width') ' ' ++ line.drop (indentOf line)

/-- A text with rescaled lines. -/
def rescale (width width' : Nat) (t : Text) : Text :=
  join ['\n'] ((List.splitOn '\n' t).map (rescaleLine width width'))

/-! ## Rendered lines -/

theorem takeWhile_render {l : Line} (h : Neat l.text) (width : Nat) :
    (l.render width).takeWhile (· == ' ') = List.replicate (width * l.level) ' ' := by
  have htext : l.text.takeWhile (· == ' ') = [] := by
    cases htext : l.text with
    | nil => rfl
    | cons c cs =>
        have hc : c ≠ ' ' := by
          rintro rfl
          exact absurd (h.head ' ' (by rw [htext]; rfl)) (by decide)
        simp [hc]
  rw [Line.render, List.takeWhile_append_of_pos, htext, List.append_nil]
  intro c hc
  rw [List.eq_of_mem_replicate hc]
  rfl

/-- The spaces in front of a rendered line are those of its level. -/
theorem indentOf_render {l : Line} (h : Neat l.text) (width : Nat) :
    indentOf (l.render width) = width * l.level := by
  rw [indentOf, takeWhile_render h, List.length_replicate]

theorem rescaleLine_render {width : Nat} (hw : 0 < width) {l : Line} (h : Neat l.text)
    (width' : Nat) : rescaleLine width width' (l.render width) = l.render width' := by
  have hdrop : (l.render width).drop (width * l.level) = l.text := by
    rw [Line.render]
    exact List.drop_left' List.length_replicate
  have hlevel : width * l.level / width * width' = width' * l.level := by
    rw [Nat.mul_div_cancel_left _ hw, Nat.mul_comm]
  rw [rescaleLine, indentOf_render h, hdrop, hlevel]
  rfl

theorem rescale_render {width : Nat} (hw : 0 < width) {lines : List Line} (hne : lines ≠ [])
    (h : ∀ l ∈ lines, Neat l.text) (width' : Nat) :
    rescale width width' (Query.render width ⟨lines⟩) = Query.render width' ⟨lines⟩ := by
  have hlines : (lines.map (Line.render width)).map (rescaleLine width width')
      = lines.map (Line.render width') := by
    rw [List.map_map]
    exact List.map_congr_left fun l hl => rescaleLine_render hw (h l hl) width'
  rw [rescale, splitOn_render hne h, hlines]
  rfl

/-! ## Formatted text -/

/-- The terminator stands at the end of the last line that is not empty: at every width, a
formatted text is the rendering of the same lines. -/
theorem exists_rendered {query : Query} (h : ∀ l ∈ query.lines, Neat l.text)
    (hne : flat query.lines ≠ []) :
    ∃ lines : List Line, lines ≠ [] ∧ (∀ l ∈ lines, Neat l.text) ∧
      ∀ width, query.statement width = Query.render width ⟨lines⟩ := by
  have htrim : trimLines query.lines ≠ [] := by
    intro hnil
    rw [← flat_trimLines, hnil] at hne
    exact hne rfl
  obtain ⟨init, l, hsplit⟩ : ∃ init l, trimLines query.lines = init ++ [l] :=
    ⟨_, _, (List.dropLast_append_getLast htrim).symm⟩
  have hneat : ∀ x ∈ init ++ [l], Neat x.text := by
    intro x hx
    exact h x (mem_of_mem_trimLines (by rw [hsplit]; exact hx))
  -- the terminator goes to the last line that is not empty
  refine ⟨init ++ [⟨l.level, l.text ++ [terminator]⟩], by simp, fun x hx => ?_, fun width => ?_⟩
  · rcases List.mem_append.mp hx with hx | hx
    · exact hneat x (List.mem_append_left _ hx)
    · rw [List.mem_singleton.mp hx]
      exact (hneat l (by simp)).append (Neat.of_unblank (by decide))
  · have hlast : Line.render width ⟨l.level, l.text ++ [terminator]⟩
        = l.render width ++ [terminator] := by
      simp [Line.render]
    calc query.statement width
        = Query.render width ⟨init ++ [l]⟩ ++ [terminator] := by
          rw [Query.statement, trimEnd_render h, hsplit]
      _ = Query.render width ⟨init ++ [⟨l.level, l.text ++ [terminator]⟩]⟩ := by
          cases init with
          | nil => simp [Query.render, join, hlast]
          | cons x xs =>
              rw [render_concat (by simp), render_concat (by simp), hlast]
              simp

/-- A text formatted at two widths is laid out in the same way again. -/
theorem layout_format_eq (width width' : Nat) (query : Query) :
    layout (query.statement width) = layout (query.statement width') :=
  layout_statement_congr (by rw [statement_format, statement_format])

/-- The width scales indents and nothing else. A text can be formatted at two widths or at
neither, with the same fault; the second text is the first with its indents rescaled; and the two
are formatted to the same text, or with the same fault, again. -/
theorem format_rescale (t : Text) (width width' : Nat) (hw : 0 < width) :
    (∃ e, format width t = .error e ∧ format width' t = .error e) ∨
      ∃ o o', format width t = .ok o ∧ format width' t = .ok o' ∧
        (∀ line ∈ List.splitOn '\n' o, width ∣ indentOf line) ∧ o' = rescale width width' o ∧
        ∀ v, format v o = format v o' := by
  cases hlayout : layout t with
  | error e =>
      left
      exact ⟨e, by rw [format, hlayout]; rfl, by rw [format, hlayout]; rfl⟩
  | ok query =>
      right
      obtain ⟨hneat, hflat, -⟩ := layoutWithin_again _ hlayout
      obtain ⟨lines, hne, hlines, hrender⟩ := exists_rendered hneat hflat
      refine ⟨query.statement width, query.statement width', by rw [format, hlayout]; rfl,
        by rw [format, hlayout]; rfl, fun line hline => ?_, ?_, fun v => ?_⟩
      · rw [hrender, splitOn_render hne hlines] at hline
        obtain ⟨l, hl, rfl⟩ := List.mem_map.mp hline
        rw [indentOf_render (hlines l hl)]
        exact Nat.dvd_mul_right _ _
      · rw [hrender, hrender, rescale_render hw hne hlines]
      · rw [format, format, layout_format_eq width width']

/-- A statement with an empty item inside, which takes a line of spaces, and one at its end, which
is lost. -/
def emptyItems : Text :=
  "select a, from t where x in (select b from u) group by a, order by b,".toList

theorem format_rescale_emptyItems : 0 < 4 ∧ ∃ o o', format 4 emptyItems = .ok o ∧
    format 2 emptyItems = .ok o' ∧ (∀ line ∈ List.splitOn '\n' o, 4 ∣ indentOf line) ∧
    o' = rescale 4 2 o ∧ ∀ v, format v o = format v o' := by
  refine ⟨by decide, (format_rescale emptyItems 4 2 (by decide)).resolve_left ?_⟩
  rintro ⟨e, he, -⟩
  have hok : (format 4 emptyItems).isOk = true := by decide +kernel
  rw [he] at hok
  cases hok

end SqlLayout
