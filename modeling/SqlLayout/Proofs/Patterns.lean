import Mathlib.Data.List.Infix
import SqlLayout.Files.Pattern

set_option autoImplicit false

/-! # The names a pattern stands for

`Pattern.covers` passes over a name once for each part of a pattern. What a pattern stands for is
said more plainly by trying every choice for every star (`Pattern.accepts`): `*` leaves any suffix
of the text, and `**` any suffix that dropping whole components leaves. The two agree
(`Pattern.covers_eq_accepts`).

The invariant is that a row of verdicts lists what `accepts` says of the suffixes of the text
(`List.tails`), longest first (`Pattern.verdicts_eq_map`). For each kind of part one lemma says
how the row with that part in front follows from the row without it.
-/

namespace SqlLayout.Pattern

/-! ## Trying every choice -/

/-- What is left of a text after dropping whole components from its front. -/
def componentSuffixes : Text → List Text
  | [] => [[]]
  | c :: cs => if c == '/' then cs :: componentSuffixes cs else componentSuffixes cs

/-- Whether a pattern stands for a text. -/
def accepts : Pattern → Text → Bool
  | [], t => t.isEmpty
  | .anySequence :: ps, t => t.tails.any (accepts ps)
  | .anyComponents :: ps, t => accepts ps t || (componentSuffixes t).any (accepts ps)
  | _ :: _, [] => false
  | p :: ps, c :: cs => p.fits c && accepts ps cs

/-! ## Rows of verdicts -/

/-- The first suffix of a text is the text. -/
theorem head?_map_tails (f : Text → Bool) (t : Text) : (t.tails.map f).head? = some (f t) := by
  cases t <;> rfl

/-- Only the last suffix of a text is empty. -/
theorem replicate_append_eq_map_tails (t : Text) :
    List.replicate t.length false ++ [true] = t.tails.map List.isEmpty := by
  induction t with
  | nil => rfl
  | cons c cs ih =>
    rw [List.tails_cons, List.map_cons, ← ih]
    rfl

/-- A star in front of a pattern: the verdict for a suffix is whether one of its own suffixes
is accepted. -/
theorem orLater_map_tails (f : Text → Bool) (t : Text) :
    orLater (t.tails.map f) = t.tails.map fun s => s.tails.any f := by
  induction t with
  | nil => simp [orLater]
  | cons c cs ih =>
    simp only [List.tails_cons, List.map_cons, orLater, ih, head?_map_tails, Option.getD_some,
      List.any_cons]

/-- The same for the suffixes that whole components leave. -/
theorem orComponents_map_tails (f : Text → Bool) (t : Text) :
    orComponents t (t.tails.map f) = t.tails.map fun s => (componentSuffixes s).any f := by
  induction t with
  | nil => simp [orComponents, componentSuffixes]
  | cons c cs ih =>
    simp only [List.tails_cons, List.map_cons, orComponents, ih, head?_map_tails,
      Option.getD_some, List.cons.injEq, and_true]
    by_cases h : c == '/' <;> simp [componentSuffixes, h]

/-- A part for one character in front of a pattern. -/
theorem zipWith_tail_map_tails (p : PatternPart) (f : Text → Bool) (t : Text) :
    List.zipWith (fun c b => p.fits c && b) t (t.tails.map f).tail ++ [false]
      = t.tails.map fun
        | [] => false
        | c :: cs => p.fits c && f cs := by
  induction t with
  | nil => rfl
  | cons c cs ih =>
    cases cs with
    | nil => rfl
    | cons d ds =>
      simp only [List.tails_cons, List.map_cons, List.tail_cons, List.zipWith_cons_cons,
        List.cons_append] at ih ⊢
      rw [ih]

/-! ## One pass for each part -/

/-- The verdicts are those of `accepts`. -/
theorem verdicts_eq_map (t : Text) (ps : Pattern) :
    verdicts t ps = t.tails.map (accepts ps) := by
  induction ps with
  | nil =>
    have h : accepts [] = List.isEmpty := by
      funext s
      simp [accepts]
    rw [verdicts, h, replicate_append_eq_map_tails]
  | cons p ps ih =>
    -- a part for one character takes the last clause of both definitions
    have single (hv : verdicts t (p :: ps)
          = List.zipWith (fun c b => p.fits c && b) t (verdicts t ps).tail ++ [false])
        (ha : accepts (p :: ps) = fun
          | [] => false
          | c :: cs => p.fits c && accepts ps cs) :
        verdicts t (p :: ps) = t.tails.map (accepts (p :: ps)) := by
      rw [hv, ih, zipWith_tail_map_tails, ha]
      rfl
    cases p with
    | anySequence =>
      rw [verdicts, ih, orLater_map_tails]
      rfl
    | anyComponents =>
      rw [verdicts, ih, orComponents_map_tails, List.zipWith_map_left, List.zipWith_map_right]
      simp [List.zipWith_self, accepts]
    | char d => exact single rfl (by funext s; cases s <;> rfl)
    | anyChar => exact single rfl (by funext s; cases s <;> rfl)
    | within sets => exact single rfl (by funext s; cases s <;> rfl)
    | outside sets => exact single rfl (by funext s; cases s <;> rfl)

/-- A pattern covers exactly the names it accepts. -/
theorem covers_eq_accepts (ps : Pattern) (name : Text) : covers ps name = accepts ps name := by
  rw [covers, verdicts_eq_map, head?_map_tails, Option.getD_some]

end SqlLayout.Pattern
