import SqlLayout.Proofs.CaseLines
import SqlLayout.Proofs.Stacks

set_option autoImplicit false

/-! # Writing lines behind others

A layout can also be carried out line by line, on a list of lines that is there already: a
`Writer` puts lines behind those and may stop at a fault, and what it has written by then stays.
There is one writer for each construct and each clause that can stand at any level. Each looks
for faults of its own before it writes its first line, but a clause writes its head before it
comes to its items.

A writer that succeeds adds the lines of its layout, and the level it gives back is that of the
layout; where the layout has a fault, the writer stops at it (`Formatter.follows`). A construct
writes nothing if it stops.
-/

namespace SqlLayout

open Text

/-- Writes lines behind those that are there, and may stop at a fault. What has been written by
then stays. -/
abbrev Writer (α : Type) := ExceptT Fault (StateM (List Line)) α

namespace Writer

variable {α β : Type}

/-- Writes a line. -/
def push (line : Line) : Writer Unit := ExceptT.lift (modify (· ++ [line]))

/-- Writes lines one after another. -/
def pushAll : List Line → Writer Unit
  | [] => pure ()
  | line :: lines => do
    push line
    pushAll lines

/-- Stops if the result is a fault. -/
def ofExcept (r : Except Fault α) : Writer α := ExceptT.mk (pure r)

/-- The result of writing behind the lines `out`, and the lines that are there in the end. -/
def runOn (m : Writer α) (out : List Line) : Except Fault α × List Line := m.run.run out

/-! ## What is added -/

/-- Whatever is there, the result is `r` and exactly the given lines are added. -/
def Adds (m : Writer α) (r : Except Fault α) (lines : List Line) : Prop :=
  ∀ out, m.runOn out = (r, out ++ lines)

theorem adds_push (line : Line) : (push line).Adds (.ok ()) [line] := fun _ => rfl

theorem adds_ofExcept (r : Except Fault α) : (ofExcept r).Adds r [] := by
  intro out
  rw [List.append_nil]
  rfl

theorem adds_pure (a : α) : Adds (pure a) (.ok a) [] := adds_ofExcept (.ok a)

theorem adds_throw (e : Fault) : Adds (throw e : Writer α) (.error e) [] :=
  adds_ofExcept (.error e)

theorem runOn_bind (m : Writer α) (f : α → Writer β) (out : List Line) :
    (m >>= f).runOn out =
      match m.runOn out with
      | (.ok a, out') => (f a).runOn out'
      | (.error e, out') => (.error e, out') := by
  show StateT.run (ExceptT.run m >>= ExceptT.bindCont f) out = _
  rw [StateT.run_bind]
  unfold runOn
  cases StateT.run (ExceptT.run m) out with
  | mk r out' => cases r <;> rfl

theorem Adds.bind {m : Writer α} {f : α → Writer β} {a : α} {r : Except Fault β}
    {lines lines' : List Line} (hm : m.Adds (.ok a) lines) (hf : (f a).Adds r lines') :
    (m >>= f).Adds r (lines ++ lines') := by
  intro out
  rw [runOn_bind, hm out]
  dsimp only
  rw [hf, List.append_assoc]

theorem Adds.bind_error {m : Writer α} {e : Fault} {lines : List Line}
    (hm : m.Adds (.error e) lines) (f : α → Writer β) : (m >>= f).Adds (.error e) lines := by
  intro out
  rw [runOn_bind, hm out]

theorem adds_pushAll (lines : List Line) : (pushAll lines).Adds (.ok ()) lines := by
  induction lines with
  | nil => exact adds_pure ()
  | cons line lines ih => exact (adds_push line).bind ih

/-! ## Constructs -/

/-- Writes a text on one line. -/
def plain (text suffix : Text) (level : Nat) : Writer Nat := do
  push ⟨level, text ++ suffix⟩
  return level

/-- Writes a line that opens a parenthesis, the lines inside, and the line that closes it. -/
def bracket (level : Nat) (before keyword : Text) (inner : List Line) (after suffix : Text) :
    Writer Nat := do
  push ⟨level, Layout.openLine before keyword⟩
  pushAll inner
  push ⟨level, Layout.closeLine after suffix⟩
  return level

/-- Writes a `CASE` expression. -/
def caseExpression (expr suffix : Text) (level : Nat) : Writer Nat :=
  match expr.tokens with
  | [] => return level
  | first :: rest =>
    match Layout.branchLines 0 (Keyword.CASE ++ first.text.dropBytes Keyword.CASE.byteLength)
        rest with
    | none => throw (.unterminated .caseExpression (excerpt expr 0))
    | some (lines, after) => do
      pushAll (Layout.hanging level lines)
      push ⟨level + 1, Layout.endLine after suffix⟩
      return level

/-- Writes a column with a window function. -/
def windowFunction (column suffix : Text) (level : Nat) : Writer Nat :=
  match column.firstOccurrence? Keyword.OVER with
  | none => plain column suffix level
  | some i =>
    let after := Text.trimStart (column.drop (i + Keyword.OVER.length))
    let opening := column.length - after.length
    if after.head? == some '(' then
      match column.enclosed? opening with
      | none => throw (.unterminated .windowSpec (excerpt column opening))
      | some (spec, trailing) =>
        bracket level (Text.trimEnd (column.take i)) Keyword.OVER
          ((Layout.windowLines spec).map fun part => ⟨level + 1, part⟩) trailing suffix
    else plain column suffix level

/-- Writes a condition with a value list. -/
def inList (condition suffix : Text) (level : Nat) : Writer Nat :=
  match Text.find? Layout.inOpening condition with
  | none => plain condition suffix level
  | some i =>
    match condition.enclosed? (i + (Layout.inOpening.length - 1)) with
    | none => throw (.unterminated .inList (excerpt condition (i + 1)))
    | some (list, trailing) =>
      let values :=
        if list.isEmpty then [] else Layout.itemLines [','] (level + 1) list.splitCommas
      bracket level (Text.trim (condition.take i)) Keyword.IN values trailing suffix

/-- Writes a condition with a subquery, whose inner query is laid out by `nested`. -/
def subquery (nested : Text → Except Fault Query) (condition suffix : Text) (level : Nat) :
    Writer Nat :=
  match (condition.firstOccurrence? Keyword.SELECT).bind condition.openAround? with
  | none => plain condition suffix level
  | some opening =>
    match condition.enclosed? opening with
    | none => throw (.unterminated .subquery (excerpt condition opening))
    | some (interior, trailing) => do
      let query ← ofExcept (nested interior)
      bracket level (Text.trim (condition.take opening)) [] (query.shift (level + 1)).lines
        trailing suffix

/-! ## Clauses -/

/-- Writes items one after another, each with the separator that follows it. -/
def each (write : Text → Text → Writer Nat) : List (Text × Text) → Writer Unit
  | [] => pure ()
  | (item, s) :: rest => do
    let _ ← write item s
    each write rest

/-- Writes a column. -/
def column (level : Nat) (text suffix : Text) : Writer Nat :=
  if text.startsKeyword Keyword.CASE then caseExpression text suffix level
  else if text.hasKeyword Keyword.OVER then windowFunction text suffix level
  else plain text suffix level

/-- Writes a condition. -/
def condition (nested : Text → Except Fault Query) (level : Nat) (text suffix : Text) :
    Writer Nat :=
  if text.hasKeyword Keyword.SELECT then subquery nested text suffix level
  else if (Text.find? Layout.inOpening text).isSome then inList text suffix level
  else plain text suffix level

/-- Writes `SELECT` and its columns. -/
def selectClause (body : Text) (level : Nat) : Writer Nat := do
  push ⟨level, Keyword.SELECT⟩
  each (column (level + 1)) (Layout.separated [','] body.columns)
  return level

/-- Writes the head of a join, broken at the given places. -/
def headLines (head : Text) (level : Nat) : Nat → List Nat → Writer Unit
  | start, [] => push (Layout.headLine level start (Text.trim (head.drop start)))
  | start, i :: rest => do
    let piece := Text.trim ((head.take i).drop start)
    if !piece.isEmpty then
      push (Layout.headLine level start piece)
    headLines head level i rest

/-- Writes a join, and `ON` with its condition if it has one. -/
def joinClause (keyword body : Text) (level : Nat) : Writer Nat := do
  let (target, condition) := Layout.joinParts body
  let head := Layout.headed keyword target
  headLines head level 0 (head.occurrences Keyword.SELECT)
  match condition with
  | none => return level
  | some c =>
    push ⟨level, Layout.headed Keyword.ON c⟩
    return level

/-- Writes `WHERE` and its conditions. -/
def whereClause (nested : Text → Except Fault Query) (body : Text) (level : Nat) :
    Writer Nat := do
  push ⟨level, Keyword.WHERE⟩
  if body.isEmpty then
    return level
  let conditions := (body.splitOn Layout.andSeparator).map Text.trim
  each (condition nested (level + 1)) (Layout.separated (' ' :: Keyword.AND) conditions)
  return level

/-- Writes `HAVING` and its condition. -/
def havingClause (body : Text) (level : Nat) : Writer Nat := do
  push ⟨level, Layout.headed Keyword.HAVING body⟩
  return level

/-- Writes `GROUP BY` or `ORDER BY` and its items. -/
def listClause (keyword body : Text) (level : Nat) : Writer Nat := do
  push ⟨level, keyword⟩
  if body.isEmpty then
    return level
  pushAll (Layout.itemLines [','] (level + 1) body.splitCommas)
  return level

/-! ## Writers and layouts -/

/-- A writer does what a layout says, and stops where the layout has a fault. -/
def Follows (m : Writer Nat) : Layout → Prop
  | .ok block => m.Adds (.ok block.level) block.lines
  | .error e => ∃ part, m.Adds (.error e) part

/-- It also writes nothing before it stops. -/
def FollowsWhole (m : Writer Nat) : Layout → Prop
  | .ok block => m.Adds (.ok block.level) block.lines
  | .error e => m.Adds (.error e) []

theorem FollowsWhole.follows {m : Writer Nat} {lay : Layout} (h : m.FollowsWhole lay) :
    m.Follows lay := by
  cases lay with
  | ok block => exact h
  | error e => exact ⟨[], h⟩

theorem plain_follows (text suffix : Text) (level : Nat) :
    (plain text suffix level).FollowsWhole (.ok (Layout.plain text suffix level)) :=
  (adds_push _).bind (adds_pure level)

theorem bracket_follows (level : Nat) (before keyword : Text) (inner : List Line)
    (after suffix : Text) :
    (bracket level before keyword inner after suffix).FollowsWhole
      (.ok (Layout.bracketBlock level before keyword inner after suffix)) := by
  have h : (bracket level before keyword inner after suffix).Adds (.ok level)
      ([⟨level, Layout.openLine before keyword⟩] ++
        (inner ++ ([⟨level, Layout.closeLine after suffix⟩] ++ []))) :=
    (adds_push _).bind ((adds_pushAll inner).bind ((adds_push _).bind (adds_pure level)))
  exact h

theorem caseExpression_follows (expr suffix : Text) (level : Nat) :
    (caseExpression expr suffix level).FollowsWhole
      (Layout.caseExpression expr suffix level) := by
  unfold caseExpression Layout.caseExpression
  cases expr.tokens with
  | nil => exact adds_pure level
  | cons first rest =>
      dsimp only
      cases Layout.branchLines 0
          (Keyword.CASE ++ first.text.dropBytes Keyword.CASE.byteLength) rest with
      | none => exact adds_throw _
      | some found =>
          have h : Adds (pushAll (Layout.hanging level found.1) >>= fun _ =>
              push ⟨level + 1, Layout.endLine found.2 suffix⟩ >>= fun _ => pure level) (.ok level)
              (Layout.hanging level found.1 ++
                ([⟨level + 1, Layout.endLine found.2 suffix⟩] ++ [])) :=
            (adds_pushAll _).bind ((adds_push _).bind (adds_pure level))
          exact h

theorem windowFunction_follows (column suffix : Text) (level : Nat) :
    (windowFunction column suffix level).FollowsWhole
      (Layout.windowFunction column suffix level) := by
  unfold windowFunction Layout.windowFunction
  cases column.firstOccurrence? Keyword.OVER with
  | none => exact plain_follows column suffix level
  | some i =>
      dsimp only
      by_cases hopens : (Text.trimStart (column.drop (i + Keyword.OVER.length))).head? == some '('
      · rw [if_pos hopens, if_pos hopens]
        cases column.enclosed? (column.length -
            (Text.trimStart (column.drop (i + Keyword.OVER.length))).length) with
        | none => exact adds_throw _
        | some found => exact bracket_follows level _ _ _ _ _
      · rw [if_neg hopens, if_neg hopens]
        exact plain_follows column suffix level

theorem inList_follows (condition suffix : Text) (level : Nat) :
    (inList condition suffix level).FollowsWhole (Layout.inList condition suffix level) := by
  unfold inList Layout.inList
  cases Text.find? Layout.inOpening condition with
  | none => exact plain_follows condition suffix level
  | some i =>
      dsimp only
      cases condition.enclosed? (i + (Layout.inOpening.length - 1)) with
      | none => exact adds_throw _
      | some found => exact bracket_follows level _ _ _ _ _

variable (nested : Text → Except Fault Query)

theorem subquery_follows (condition suffix : Text) (level : Nat) :
    (subquery nested condition suffix level).FollowsWhole
      (Layout.subquery nested condition suffix level) := by
  unfold subquery Layout.subquery
  cases (condition.firstOccurrence? Keyword.SELECT).bind condition.openAround? with
  | none => exact plain_follows condition suffix level
  | some opening =>
      dsimp only
      cases condition.enclosed? opening with
      | none => exact adds_throw _
      | some found =>
          dsimp only
          cases nested found.1 with
          | error e => exact (adds_ofExcept (.error e)).bind_error _
          | ok query =>
              have hbracket := bracket_follows level (Text.trim (condition.take opening)) []
                (query.shift (level + 1)).lines found.2 suffix
              exact (adds_ofExcept (.ok query)).bind hbracket

/-! ## Items -/

variable {write : Text → Text → Writer Nat} {lay : Text → Text → Layout}
  {items : List (Text × Text)}

theorem each_ok (h : ∀ item s, (write item s).Follows (lay item s)) {lines : List Line}
    (hstack : Layout.stack lay items = .ok lines) : (each write items).Adds (.ok ()) lines := by
  induction items generalizing lines with
  | nil =>
      obtain rfl : [] = lines := Except.ok.inj hstack
      exact adds_pure ()
  | cons x rest ih =>
      obtain ⟨block, later, hblock, hlater, rfl⟩ := Layout.stack_cons_ok hstack
      have hx := h x.1 x.2
      rw [hblock] at hx
      exact Adds.bind hx (ih hlater)

theorem each_error (h : ∀ item s, (write item s).Follows (lay item s)) {e : Fault}
    (hstack : Layout.stack lay items = .error e) :
    ∃ part, (each write items).Adds (.error e) part := by
  induction items with
  | nil => cases hstack
  | cons x rest ih =>
      have hx := h x.1 x.2
      rw [Layout.stack] at hstack
      cases hblock : lay x.1 x.2 with
      | error f =>
          -- the items behind the one with the fault are not written
          rw [hblock] at hstack hx
          obtain rfl : f = e := Except.error.inj hstack
          obtain ⟨part, hpart⟩ := hx
          exact ⟨part, hpart.bind_error _⟩
      | ok block =>
          rw [hblock] at hstack hx
          cases hrest : Layout.stack lay rest with
          | error f =>
              rw [hrest] at hstack
              obtain rfl : f = e := Except.error.inj hstack
              obtain ⟨part, hpart⟩ := ih hrest
              exact ⟨block.lines ++ part, Adds.bind hx hpart⟩
          | ok lines =>
              rw [hrest] at hstack
              cases hstack

/-- A head, and the items below it. -/
theorem headed_follows (h : ∀ item s, (write item s).Follows (lay item s)) (head : Line)
    (level : Nat) :
    Follows (do push head; each write items; return level)
      (match Layout.stack lay items with
        | .error e => .error e
        | .ok lines => .ok ⟨head :: lines, level⟩) := by
  cases hstack : Layout.stack lay items with
  | error e =>
      obtain ⟨part, hpart⟩ := each_error h hstack
      exact ⟨_, (adds_push head).bind (hpart.bind_error _)⟩
  | ok lines =>
      have hadds : Adds (do push head; each write items; return level) (.ok level)
          ([head] ++ (lines ++ [])) :=
        (adds_push head).bind ((each_ok h hstack).bind (adds_pure level))
      rwa [List.append_nil] at hadds

/-! ## Clauses -/

theorem column_follows (level : Nat) (text suffix : Text) :
    (column level text suffix).Follows (Layout.column level text suffix) := by
  unfold column Layout.column
  split
  · exact (caseExpression_follows text suffix level).follows
  · split
    · exact (windowFunction_follows text suffix level).follows
    · exact (plain_follows text suffix level).follows

theorem condition_follows (level : Nat) (text suffix : Text) :
    (condition nested level text suffix).Follows (Layout.condition nested level text suffix) := by
  unfold condition Layout.condition
  split
  · exact (subquery_follows nested text suffix level).follows
  · split
    · exact (inList_follows text suffix level).follows
    · exact (plain_follows text suffix level).follows

theorem selectClause_follows (body : Text) (level : Nat) :
    (selectClause body level).Follows (Layout.selectClause body level) :=
  headed_follows (column_follows (level + 1)) ⟨level, Keyword.SELECT⟩ level

theorem whereClause_follows (body : Text) (level : Nat) :
    (whereClause nested body level).Follows (Layout.whereClause nested body level) := by
  unfold whereClause Layout.whereClause
  cases body.isEmpty with
  | true => exact (adds_push _).bind (adds_pure level)
  | false => exact headed_follows (condition_follows nested (level + 1)) _ level

theorem havingClause_follows (body : Text) (level : Nat) :
    (havingClause body level).Follows (Layout.havingClause body level) :=
  (adds_push _).bind (adds_pure level)

theorem listClause_follows (keyword body : Text) (level : Nat) :
    (listClause keyword body level).Follows (Layout.listClause keyword body level) := by
  unfold listClause Layout.listClause
  cases body.isEmpty with
  | true => exact (adds_push _).bind (adds_pure level)
  | false =>
      have h : Adds (do
            push ⟨level, keyword⟩
            pushAll (Layout.itemLines [','] (level + 1) body.splitCommas)
            return level) (.ok level)
          ([⟨level, keyword⟩] ++ (Layout.itemLines [','] (level + 1) body.splitCommas ++ [])) :=
        (adds_push _).bind ((adds_pushAll _).bind (adds_pure level))
      rwa [List.append_nil] at h

theorem adds_headLines (head : Text) (level start : Nat) (places : List Nat) :
    (headLines head level start places).Adds (.ok ())
      (Layout.headLines head level start places) := by
  induction places generalizing start with
  | nil => exact adds_push _
  | cons i rest ih =>
      unfold headLines Layout.headLines
      dsimp only
      cases hpiece : (Text.trim ((head.take i).drop start)).isEmpty with
      | true => exact ih i
      | false => exact (adds_push _).bind (ih i)

theorem joinClause_follows (keyword body : Text) (level : Nat) :
    (joinClause keyword body level).Follows (Layout.joinClause keyword body level) := by
  unfold joinClause Layout.joinClause
  obtain ⟨target, condition⟩ := Layout.joinParts body
  have hhead := adds_headLines (Layout.headed keyword target) level 0
    ((Layout.headed keyword target).occurrences Keyword.SELECT)
  cases condition with
  | none =>
      have h := hhead.bind (f := fun _ => pure level) (adds_pure level)
      rwa [List.append_nil] at h
  | some c =>
      exact hhead.bind (f := fun _ => do
        push ⟨level, Layout.headed Keyword.ON c⟩
        return level) ((adds_push _).bind (adds_pure level))

end Writer

end SqlLayout
