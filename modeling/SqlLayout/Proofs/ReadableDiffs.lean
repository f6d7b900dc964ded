import Mathlib.Data.List.Basic
import SqlLayout.Text.Diff

set_option autoImplicit false

/-! # Reading a diff back

A diff without color can be read back: `readDiff` gets the name of the file and the diff, and
gives the two texts that were compared. The header is passed over by its length. The rest is cut
into lines, as the two texts were, and each change is the sign and the line behind it.

The one thing to see is where a change ends. A sign ends no line, so a line that ends in `\r` is
not taken together with what follows it, and the lines of the diff are those of its changes
(`Change.lines_flatMap_render`). A line without an end is followed by an end and an empty line.
No change begins with `\n`, so an empty line in the diff can only say that the line before it had
no end (`Change.read_shown`).

Nothing is used of the changes but that they lead from the lines of one text to those of the
other (`Change.Leads`); that the table of scripts gives such changes is `Change.leads_between`.
-/

namespace SqlLayout

namespace Text

/-! ## Lines -/

/-- What a line can end in. -/
def lineEnds : List Text := [['\n'], ['\r', '\n'], ['\r']]

/-- A text in which no line ends. -/
def Unbroken (t : Text) : Prop := ∀ c ∈ t, c ≠ '\n' ∧ c ≠ '\r'

/-- A line: characters that end no line, with an end behind them or, if there are any, without
one. -/
inductive IsLine : Text → Prop
  | ended {t e : Text} (ht : Unbroken t) (he : e ∈ lineEnds) : IsLine (t ++ e)
  | bare {t : Text} (ht : Unbroken t) (hne : t ≠ []) : IsLine t

theorem unbroken_nil : Unbroken [] := fun _ h => absurd h List.not_mem_nil

theorem unbroken_cons {c : Char} {t : Text} :
    Unbroken (c :: t) ↔ (c ≠ '\n' ∧ c ≠ '\r') ∧ Unbroken t := List.forall_mem_cons

theorem IsLine.cons {c : Char} {l : Text} (hc : c ≠ '\n' ∧ c ≠ '\r') (h : IsLine l) :
    IsLine (c :: l) := by
  cases h with
  | ended ht he => exact .ended (unbroken_cons.mpr ⟨hc, ht⟩) he
  | bare ht hne => exact .bare (unbroken_cons.mpr ⟨hc, ht⟩) (List.cons_ne_nil c l)

theorem linesFrom_fst_eq_nil {t : Text} (h : (linesFrom t).1 = []) : t = [] := by
  fun_cases linesFrom t with
  | case1 => rfl
  | case2 cs => simp [linesFrom] at h
  | case3 c cs hcr l ls hrec hend => simp [linesFrom, hrec, hend] at h
  | case4 c cs hcr l ls hrec hend => simp [linesFrom, hrec, hend] at h

theorem lines_return_newline (t : Text) :
    lines ('\r' :: '\n' :: t) = ['\r', '\n'] :: lines t := rfl

theorem lines_newline (t : Text) : lines ('\n' :: t) = ['\n'] :: lines t := rfl

/-- A `\r` ends a line unless it goes with a `\n`. -/
theorem lines_return {t : Text} (h : t.head? ≠ some '\n') :
    lines ('\r' :: t) = ['\r'] :: lines t := by
  cases t with
  | nil => rfl
  | cons c cs =>
      have hc : c ≠ '\n' := by simpa using h
      rw [lines, linesFrom]
      · rfl
      · rintro ds - hds
        exact hc (List.cons.inj hds).1

/-- Any other character goes in front of the first line of what follows. -/
theorem lines_cons {c : Char} (hc : c ≠ '\n' ∧ c ≠ '\r') (t : Text) :
    lines (c :: t) = (c :: (lines t).headD []) :: (lines t).tail := by
  have hfrom : linesFrom (c :: t) = (c :: (linesFrom t).1, (linesFrom t).2) := by
    rw [linesFrom]
    · simp [hc]
    · rintro ds hcr -
      exact hc.2 hcr
  have hlines : lines (c :: t) = (c :: (linesFrom t).1) :: (linesFrom t).2 := by
    rw [lines, hfrom]
    rfl
  rw [hlines, lines]
  cases hfirst : (linesFrom t).1 with
  | nil =>
      obtain rfl := linesFrom_fst_eq_nil hfirst
      rfl
  | cons d ds => simp [hfirst]

/-- What is known of the lines of a text holds if it holds along the four ways to begin one. -/
theorem lines_induction {motive : Text → Prop} (nil : motive [])
    (returnNewline : ∀ t, motive t → motive ('\r' :: '\n' :: t))
    (newline : ∀ t, motive t → motive ('\n' :: t))
    (carriageReturn : ∀ t, t.head? ≠ some '\n' → motive t → motive ('\r' :: t))
    (other : ∀ c t, c ≠ '\n' ∧ c ≠ '\r' → motive t → motive (c :: t)) (t : Text) : motive t := by
  induction t using linesFrom.induct with
  | case1 => exact nil
  | case2 cs _ _ _ ih => exact returnNewline cs ih
  | case3 c cs hcr _ _ _ hend ih =>
      by_cases hnewline : c = '\n'
      · subst hnewline
        exact newline cs ih
      · obtain rfl : c = '\r' := by simpa [hnewline] using hend
        refine carriageReturn cs (fun hhead => ?_) ih
        obtain ⟨ds, rfl⟩ := List.head?_eq_some_iff.mp hhead
        exact hcr ds rfl rfl
  | case4 c cs _ _ _ _ hend ih => exact other c cs (by simpa using hend) ih

theorem flatten_lines (t : Text) : t.lines.flatten = t := by
  induction t using lines_induction with
  | nil => rfl
  | returnNewline t ih => simp [lines_return_newline, ih]
  | newline t ih => simp [lines_newline, ih]
  | carriageReturn t hhead ih => simp [lines_return hhead, ih]
  | other c t hc ih =>
      rw [lines_cons hc]
      cases hlines : t.lines with
      | nil => simpa [hlines] using ih
      | cons l ls => simpa [hlines] using ih

theorem isLine_of_mem_lines {l t : Text} (h : l ∈ t.lines) : IsLine l := by
  have hended : ∀ {l e t : Text}, e ∈ lineEnds → (∀ {l}, l ∈ lines t → IsLine l) →
      l ∈ e :: lines t → IsLine l := by
    intro l e t he ih h
    rcases List.mem_cons.mp h with rfl | h
    · exact .ended unbroken_nil he
    · exact ih h
  induction t using lines_induction generalizing l with
  | nil => cases h
  | returnNewline t ih => exact hended (by simp [lineEnds]) ih (lines_return_newline t ▸ h)
  | newline t ih => exact hended (by simp [lineEnds]) ih (lines_newline t ▸ h)
  | carriageReturn t hhead ih =>
      exact hended (by simp [lineEnds]) ih (lines_return hhead ▸ h)
  | other c t hc ih =>
      rw [lines_cons hc] at h
      cases hlines : t.lines with
      | nil =>
          -- the text ends behind the character, so no end follows
          obtain rfl : l = [c] := by simpa [hlines] using h
          exact .bare (unbroken_cons.mpr ⟨hc, unbroken_nil⟩) (List.cons_ne_nil c [])
      | cons first later =>
          rw [hlines] at h ih
          rcases List.mem_cons.mp h with rfl | h
          · exact (ih List.mem_cons_self).cons hc
          · exact ih (List.mem_cons_of_mem first h)

/-- A line that ends is the first line of any text it begins, if its end goes no further. -/
theorem lines_ended_append {t e rest : Text} (ht : Unbroken t) (he : e ∈ lineEnds)
    (hrest : e = ['\r'] → rest.head? ≠ some '\n') :
    lines (t ++ e ++ rest) = (t ++ e) :: lines rest := by
  induction t with
  | nil =>
      simp only [lineEnds, List.mem_cons, List.not_mem_nil, or_false] at he
      rcases he with rfl | rfl | rfl
      · rfl
      · rfl
      · exact lines_return (hrest rfl)
  | cons c t ih =>
      obtain ⟨hc, ht⟩ := unbroken_cons.mp ht
      rw [List.cons_append, List.cons_append, lines_cons hc, ih ht]
      rfl

end Text

/-! ## Changes -/

namespace Change

/-- The line of the first text that a change is about. -/
def old? : Change → Option Text
  | keep l | delete l => some l
  | insert _ => none

/-- The line of the second text that a change is about. -/
def new? : Change → Option Text
  | keep l | insert l => some l
  | delete _ => none

/-- The changes lead from one list of lines to another: the lines kept and deleted are those of
the first, the lines kept and inserted those of the second, both in order. -/
structure Leads (changes : List Change) (xs ys : List Text) : Prop where
  old : changes.filterMap old? = xs
  new : changes.filterMap new? = ys

theorem Leads.keep {changes : List Change} {xs ys : List Text} (h : Leads changes xs ys)
    (l : Text) : Leads (.keep l :: changes) (l :: xs) (l :: ys) :=
  ⟨congrArg (l :: ·) h.old, congrArg (l :: ·) h.new⟩

theorem Leads.delete {changes : List Change} {xs ys : List Text} (h : Leads changes xs ys)
    (l : Text) : Leads (.delete l :: changes) (l :: xs) ys :=
  ⟨congrArg (l :: ·) h.old, h.new⟩

theorem Leads.insert {changes : List Change} {xs ys : List Text} (h : Leads changes xs ys)
    (l : Text) : Leads (.insert l :: changes) xs (l :: ys) :=
  ⟨h.old, congrArg (l :: ·) h.new⟩

/-- A change is about a line of one of the two texts. -/
theorem Leads.isLine {changes : List Change} {source result : Text}
    (h : Leads changes source.lines result.lines) {c : Change} (hc : c ∈ changes) :
    Text.IsLine c.line := by
  have hold : ∀ l, c.old? = some l → Text.IsLine l := by
    intro l hl
    apply Text.isLine_of_mem_lines (t := source)
    rw [← h.old]
    exact List.mem_filterMap.mpr ⟨c, hc, hl⟩
  have hnew : ∀ l, c.new? = some l → Text.IsLine l := by
    intro l hl
    apply Text.isLine_of_mem_lines (t := result)
    rw [← h.new]
    exact List.mem_filterMap.mpr ⟨c, hc, hl⟩
  cases c with
  | keep l => exact hold l rfl
  | delete l => exact hold l rfl
  | insert l => exact hnew l rfl

end Change

/-! ## The table of scripts -/

namespace Script

/-- The row of `xs`: for each suffix of the other list, a script that leads there from `xs`. -/
inductive IsRow (xs : List Text) : List Text → List Script → Prop
  | last {s : Script} (hs : Change.Leads s.changes xs []) : IsRow xs [] [s]
  | cons {y : Text} {ys : List Text} {s : Script} {row : List Script}
      (hs : Change.Leads s.changes xs (y :: ys)) (hrow : IsRow xs ys row) :
      IsRow xs (y :: ys) (s :: row)

variable {xs ys : List Text} {row : List Script}

theorem IsRow.leads_first (h : IsRow xs ys row) : Change.Leads (first row).changes xs ys := by
  cases h with
  | last hs => exact hs
  | cons hs _ => exact hs

theorem IsRow.tail {y : Text} (h : IsRow xs (y :: ys) row) : IsRow xs ys row.tail := by
  cases h with
  | cons _ hrow => exact hrow

theorem isRow_insertRow (ys : List Text) : IsRow [] ys (insertRow ys) := by
  induction ys with
  | nil => exact .last ⟨rfl, rfl⟩
  | cons y ys ih => exact .cons (ih.leads_first.insert y) ih

theorem isRow_nextRow (x : Text) {below : List Script} (h : IsRow xs ys below) :
    IsRow (x :: xs) ys (nextRow x ys below) := by
  induction ys generalizing below with
  | nil => exact .last (h.leads_first.delete x)
  | cons y ys ih =>
      have hrow := ih h.tail
      rw [nextRow]
      refine .cons ?_ hrow
      split
      · rename_i hsame
        obtain rfl : x = y := by simpa using hsame
        exact h.tail.leads_first.keep x
      · split
        · exact h.leads_first.delete x
        · exact hrow.leads_first.insert y

theorem isRow_row (xs ys : List Text) : IsRow xs ys (Script.row ys xs) := by
  induction xs with
  | nil => exact isRow_insertRow ys
  | cons x xs ih => exact isRow_nextRow x ih

end Script

theorem Change.leads_between (xs ys : List Text) : Leads (between xs ys) xs ys :=
  (Script.isRow_row xs ys).leads_first

/-! ## Reading changes back -/

namespace Change

/-- The change that a sign and a line stand for. -/
def ofSign (sign : Char) (line : Text) : Change :=
  if sign = '-' then delete line else if sign = '+' then insert line else keep line

/-- The change that a line of a diff stands for. -/
def ofLine : Text → Change
  | [] => keep []
  | sign :: line => ofSign sign line

/-- The changes that the lines of a diff stand for. An empty line says that the line before it
has no end. -/
def read : List Text → List Change
  | [] => []
  | [l] => [ofLine l]
  | l :: m :: ls => if m = ['\n'] then ofLine l.dropLast :: read ls else ofLine l :: read (m :: ls)

/-- The lines of a diff that show a change. -/
def shown (c : Change) : List Text :=
  if isEnded c.line then [c.sign :: c.line] else [c.sign :: c.line ++ ['\n'], ['\n']]

theorem ofSign_sign (c : Change) : ofSign c.sign c.line = c := by
  cases c <;> rfl

theorem sign_ends_no_line (c : Change) : c.sign ≠ '\n' ∧ c.sign ≠ '\r' := by
  cases c <;> simp [sign]

theorem isEnded_append {t e : Text} (he : e ∈ Text.lineEnds) : isEnded (t ++ e) = true := by
  simp only [Text.lineEnds, List.mem_cons, List.not_mem_nil, or_false] at he
  rcases he with rfl | rfl | rfl <;> simp [isEnded]

theorem isEnded_of_unbroken {t : Text} (ht : Text.Unbroken t) : isEnded t = false := by
  have hnewline : t.getLast? ≠ some '\n' := fun h => (ht _ (List.mem_of_getLast? h)).1 rfl
  have hreturn : t.getLast? ≠ some '\r' := fun h => (ht _ (List.mem_of_getLast? h)).2 rfl
  simp [isEnded, hnewline, hreturn]

/-- A change is written as the lines that show it, and what follows begins a new line. -/
theorem lines_render_append {c : Change} (hline : Text.IsLine c.line) {rest : Text}
    (hrest : rest.head? ≠ some '\n') :
    Text.lines (c.render ++ rest) = c.shown ++ rest.lines := by
  unfold render shown
  generalize c.line = l at hline ⊢
  cases hline with
  | @ended t e ht he =>
      have hsigned := Text.unbroken_cons.mpr ⟨c.sign_ends_no_line, ht⟩
      rw [isEnded_append he]
      simpa using Text.lines_ended_append hsigned he fun _ => hrest
  | bare ht hne =>
      have hsigned := Text.unbroken_cons.mpr ⟨c.sign_ends_no_line, ht⟩
      -- the line gets an end, and what follows is an empty line
      have hfirst : Text.lines (c.sign :: l ++ ['\n'] ++ '\n' :: rest) =
          (c.sign :: l ++ ['\n']) :: Text.lines ('\n' :: rest) :=
        Text.lines_ended_append hsigned List.mem_cons_self (by simp)
      rw [isEnded_of_unbroken ht]
      simpa [Text.lines_newline] using hfirst

theorem head?_flatMap_render (changes : List Change) :
    (changes.flatMap render).head? ≠ some '\n' := by
  cases changes with
  | nil => simp
  | cons c changes => simpa [render] using c.sign_ends_no_line.1

theorem lines_flatMap_render {changes : List Change}
    (h : ∀ c ∈ changes, Text.IsLine c.line) :
    Text.lines (changes.flatMap render) = changes.flatMap shown := by
  induction changes with
  | nil => rfl
  | cons c changes ih =>
      obtain ⟨hline, hlater⟩ := List.forall_mem_cons.mp h
      rw [List.flatMap_cons, lines_render_append hline (head?_flatMap_render changes), ih hlater]
      rfl

/-- No change is shown by an empty line first. -/
theorem head?_flatMap_shown (changes : List Change) :
    (changes.flatMap shown).head? ≠ some ['\n'] := by
  cases changes with
  | nil => simp
  | cons c changes =>
      have hsign := c.sign_ends_no_line.1
      rw [List.flatMap_cons, shown]
      split <;> simp [hsign]

theorem read_cons {l : Text} {ls : List Text} (h : ls.head? ≠ some ['\n']) :
    read (l :: ls) = ofLine l :: read ls := by
  cases ls with
  | nil => rfl
  | cons m ls =>
      have hm : m ≠ ['\n'] := by simpa using h
      rw [read, if_neg hm]

theorem read_shown (changes : List Change) : read (changes.flatMap shown) = changes := by
  induction changes with
  | nil => rfl
  | cons c changes ih =>
      have hnext := head?_flatMap_shown changes
      rw [List.flatMap_cons, shown]
      split
      · rw [List.singleton_append, read_cons hnext, ih, ofLine, ofSign_sign]
      · rw [List.cons_append, List.singleton_append, read, if_pos rfl, ih, List.dropLast_concat,
          ofLine, ofSign_sign]

end Change

/-! ## Reading a diff back -/

/-- The two lines in front of the changes. -/
def diffHeader (path : Text) : Text :=
  ['-', '-', '-', ' '] ++ path ++ ['\n', '+', '+', '+', ' '] ++ path ++ ['\n']

theorem renderDiff_eq (path source result : Text) : renderDiff false path source result =
    diffHeader path ++ (Change.between source.lines result.lines).flatMap Change.render := rfl

/-- The two texts of a diff, read from the diff and the name of the file. -/
def readDiff (path diff : Text) : Text × Text :=
  let changes := Change.read (Text.lines (diff.drop (diffHeader path).length))
  ((changes.filterMap Change.old?).flatten, (changes.filterMap Change.new?).flatten)

theorem readDiff_of_leads (path : Text) {source result : Text} {changes : List Change}
    (h : Change.Leads changes source.lines result.lines) :
    readDiff path (diffHeader path ++ changes.flatMap Change.render) = (source, result) := by
  have hread : Change.read (Text.lines (changes.flatMap Change.render)) = changes := by
    rw [Change.lines_flatMap_render fun c hc => h.isLine hc, Change.read_shown]
  simp only [readDiff, List.drop_left, hread, h.old, h.new, Text.flatten_lines]

/-- A diff without color determines the two texts it was made of, and whichever changes from the
one to the other it shows, both can be read from it and the name of the file. -/
theorem diff_determines_texts (path : Text) :
    (Function.Injective fun texts : Text × Text => renderDiff false path texts.1 texts.2) ∧
    ∀ (source result : Text) (changes : List Change),
      Change.Leads changes source.lines result.lines →
        readDiff path (diffHeader path ++ changes.flatMap Change.render) = (source, result) := by
  have hinverse : Function.LeftInverse (readDiff path)
      fun texts : Text × Text => renderDiff false path texts.1 texts.2 := by
    rintro ⟨source, result⟩
    dsimp only
    rw [renderDiff_eq]
    exact readDiff_of_leads path (Change.leads_between source.lines result.lines)
  exact ⟨hinverse.injective, fun _ _ _ h => readDiff_of_leads path h⟩

/-- Lines with each kind of end, one that begins with a sign, an empty one, and texts that both
stop within a line; the changes keep one line less than they could. -/
theorem diff_determines_texts_mixedEnds :
    let source : Text := "a\r\n-b\rc\n\nd".toList
    let result : Text := "a\r\n\n d".toList
    let changes : List Change := [.keep "a\r\n".toList, .delete "-b\r".toList,
      .delete "c\n".toList, .delete "\n".toList, .delete "d".toList, .insert "\n".toList,
      .insert " d".toList]
    Change.Leads changes source.lines result.lines ∧
      String.ofList (changes.flatMap Change.render) =
        " a\r\n--b\r-c\n-\n-d\n\n+\n+ d\n\n" ∧
      readDiff "q.sql".toList (diffHeader "q.sql".toList ++ changes.flatMap Change.render) =
        (source, result) := by
  intro source result changes
  have hleads : Change.Leads changes source.lines result.lines :=
    ⟨by decide +kernel, by decide +kernel⟩
  exact ⟨hleads, by decide +kernel,
    (diff_determines_texts "q.sql".toList).2 source result changes hleads⟩

end SqlLayout
