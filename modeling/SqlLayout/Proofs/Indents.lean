import SqlLayout.Proofs.ClauseLines
import SqlLayout.Proofs.Writing

set_option autoImplicit false

/-! # Layouts at another level

What a construct or a clause looks like does not depend on where it stands: at a level `k` further
in, its lines are the same and each stands `k` levels further in (`Formatter.lay_add`), and the
level that holds after it is the one it was given (`Formatter.level_lay`). Faults do not depend on
the level either.

A construct on more than one line is framed (`Formatter.framed`): its first line stands at the
given level, its last line too, or one level further in for `CASE`, and all between are further
in than the given level.

With the writers this gives `Formatter.keeps_indent`: writing adds the lines of level zero, moved
in, behind the lines that are there, whatever these are.
-/

namespace SqlLayout

open Text

/-- Every line moved `k` levels in, and the level that holds after them. -/
def Block.shift (k : Nat) (b : Block) : Block := ⟨b.lines.map (Line.shift k), b.level + k⟩

namespace Layout

/-! ## Constructs -/

theorem hanging_add (level k : Nat) (lines : List Text) :
    hanging (level + k) lines = (hanging level lines).map (Line.shift k) := by
  cases lines with
  | nil => rfl
  | cons head rest => simp [hanging, Line.shift, Nat.add_right_comm]

theorem itemLines_add (sep : Text) (level k : Nat) (items : List Text) :
    itemLines sep (level + k) items = (itemLines sep level items).map (Line.shift k) := by
  simp [itemLines, Line.shift]

theorem lines_shift_add (query : Query) (level k : Nat) :
    (query.shift (level + k)).lines = (query.shift level).lines.map (Line.shift k) := by
  simp [Query.shift, Line.shift, Nat.add_assoc]

theorem caseExpression_add (expr suffix : Text) (level k : Nat) :
    caseExpression expr suffix (level + k) =
      (caseExpression expr suffix level).map (Block.shift k) := by
  unfold caseExpression
  cases expr.tokens with
  | nil => rfl
  | cons first rest =>
      dsimp only
      cases branchLines 0 (Keyword.CASE ++ first.text.dropBytes Keyword.CASE.byteLength) rest with
      | none => rfl
      | some found =>
          simp [Except.map, Block.shift, Line.shift, hanging_add, Nat.add_right_comm]

theorem windowFunction_add (column suffix : Text) (level k : Nat) :
    windowFunction column suffix (level + k)
      = (windowFunction column suffix level).map (Block.shift k) := by
  unfold windowFunction
  cases column.firstOccurrence? Keyword.OVER with
  | none => rfl
  | some i =>
      dsimp only
      split
      · cases column.enclosed? (column.length -
            (Text.trimStart (column.drop (i + Keyword.OVER.length))).length) with
        | none => rfl
        | some found =>
            simp [Except.map, Block.shift, Line.shift, Nat.add_right_comm]
      · rfl

theorem inList_add (condition suffix : Text) (level k : Nat) :
    inList condition suffix (level + k) = (inList condition suffix level).map (Block.shift k) := by
  unfold inList
  cases Text.find? inOpening condition with
  | none => rfl
  | some i =>
      dsimp only
      cases condition.enclosed? (i + (inOpening.length - 1)) with
      | none => rfl
      | some found =>
          cases hlist : found.1.isEmpty <;>
            simp [hlist, Except.map, Block.shift, Line.shift, Nat.add_right_comm level k,
              itemLines_add]

variable (nested : Text → Except Fault Query)

theorem subquery_add (condition suffix : Text) (level k : Nat) :
    subquery nested condition suffix (level + k)
      = (subquery nested condition suffix level).map (Block.shift k) := by
  unfold subquery
  cases (condition.firstOccurrence? Keyword.SELECT).bind condition.openAround? with
  | none => rfl
  | some opening =>
      dsimp only
      cases condition.enclosed? opening with
      | none => rfl
      | some found =>
          dsimp only
          cases nested found.1 with
          | error e => rfl
          | ok query =>
              -- the inner query is laid out from level zero and moved in as a whole
              simp [Except.map, Block.shift, Line.shift, Nat.add_right_comm level k,
                lines_shift_add]

/-! ## Clauses -/

theorem column_add (level k : Nat) (text suffix : Text) :
    column (level + k) text suffix = (column level text suffix).map (Block.shift k) := by
  unfold column
  split
  · exact caseExpression_add text suffix level k
  · split
    · exact windowFunction_add text suffix level k
    · rfl

theorem condition_add (level k : Nat) (text suffix : Text) :
    condition nested (level + k) text suffix
      = (condition nested level text suffix).map (Block.shift k) := by
  unfold condition
  split
  · exact subquery_add nested text suffix level k
  · split
    · exact inList_add text suffix level k
    · rfl

theorem stack_add {lay lay' : Text → Text → Layout} {k : Nat}
    (h : ∀ item s, lay' item s = (lay item s).map (Block.shift k)) (items : List (Text × Text)) :
    stack lay' items = (stack lay items).map (List.map (Line.shift k)) := by
  induction items with
  | nil => rfl
  | cons x rest ih =>
      rw [stack, stack, h, ih]
      cases lay x.1 x.2 with
      | error e => rfl
      | ok block =>
          cases stack lay rest with
          | error e => rfl
          | ok lines => simp [Except.map, Block.shift]

theorem selectClause_add (body : Text) (level k : Nat) :
    selectClause body (level + k) = (selectClause body level).map (Block.shift k) := by
  unfold selectClause
  rw [Nat.add_right_comm level k 1, stack_add (column_add (level + 1) k)]
  cases stack (column (level + 1)) (separated [','] body.columns) <;> rfl

theorem headLines_add (head : Text) (level k start : Nat) (places : List Nat) :
    headLines head (level + k) start places
      = (headLines head level start places).map (Line.shift k) := by
  have hline : ∀ start piece, headLine (level + k) start piece
      = (headLine level start piece).shift k := by
    intro start piece
    unfold headLine
    split
    · rfl
    · rw [Nat.add_right_comm]
      rfl
  induction places generalizing start with
  | nil => simp [headLines, hline]
  | cons i rest ih =>
      unfold headLines
      dsimp only
      split
      · exact ih i
      · rw [hline, ih, List.map_cons]

theorem joinClause_add (keyword body : Text) (level k : Nat) :
    joinClause keyword body (level + k) = (joinClause keyword body level).map (Block.shift k) := by
  unfold joinClause
  obtain ⟨target, condition⟩ := joinParts body
  dsimp only
  rw [headLines_add]
  cases condition with
  | none => rfl
  | some c => simp [Except.map, Block.shift, Line.shift]

theorem whereClause_add (body : Text) (level k : Nat) :
    whereClause nested body (level + k)
      = (whereClause nested body level).map (Block.shift k) := by
  unfold whereClause
  cases body.isEmpty with
  | true => rfl
  | false =>
      dsimp only
      rw [if_neg Bool.false_ne_true, if_neg Bool.false_ne_true, Nat.add_right_comm level k 1,
        stack_add (condition_add nested (level + 1) k)]
      cases stack (condition nested (level + 1)) (separated (' ' :: Keyword.AND)
        ((body.splitOn andSeparator).map Text.trim)) <;> rfl

theorem listClause_add (keyword body : Text) (level k : Nat) :
    listClause keyword body (level + k) = (listClause keyword body level).map (Block.shift k) := by
  unfold listClause
  cases body.isEmpty with
  | true => rfl
  | false =>
      simp [Except.map, Block.shift, Line.shift, Nat.add_right_comm level k, itemLines_add]

/-! ## The frame of a construct -/

/-- Lines that, if there is more than one, start at one level and end at another, and are further
in between. -/
def Framed (level last : Nat) (lines : List Line) : Prop :=
  1 < lines.length → ∃ first inner final, lines = first :: (inner ++ [final]) ∧
    first.level = level ∧ final.level = last ∧ ∀ l ∈ inner, level < l.level

theorem framed_plain (text suffix : Text) (level : Nat) :
    Framed level level (plain text suffix level).lines := fun hmany =>
  absurd hmany (by simp [plain])

theorem framed_bracketBlock (level : Nat) (before keyword : Text) {inner : List Line}
    (after suffix : Text) (h : ∀ l ∈ inner, level < l.level) :
    Framed level level (bracketBlock level before keyword inner after suffix).lines := fun _ =>
  ⟨_, inner, _, rfl, rfl, rfl, h⟩

theorem framed_caseBlock (level : Nat) (lines : List Text) (after : List Token) (suffix : Text) :
    Framed level (level + 1) (caseBlock level lines after suffix).lines := by
  intro hmany
  cases lines with
  | nil => simp [caseBlock, hanging] at hmany
  | cons head rest =>
      refine ⟨_, rest.map (⟨level + 1, ·⟩), _, rfl, rfl, rfl, fun l hl => ?_⟩
      obtain ⟨text, -, rfl⟩ := List.mem_map.mp hl
      exact Nat.lt_succ_self level

variable {level : Nat} {block : Block}

theorem framed_caseExpression {expr suffix : Text}
    (h : caseExpression expr suffix level = .ok block) :
    block.level = level ∧ Framed level (level + 1) block.lines := by
  unfold caseExpression at h
  split at h
  · obtain rfl := Except.ok.inj h
    exact ⟨rfl, fun hmany => absurd hmany (by simp)⟩
  · split at h
    · cases h
    · rename_i lines after _
      obtain rfl : caseBlock level lines after suffix = block := Except.ok.inj h
      exact ⟨rfl, framed_caseBlock level lines after suffix⟩

theorem framed_windowFunction {column suffix : Text}
    (h : windowFunction column suffix level = .ok block) :
    block.level = level ∧ Framed level level block.lines := by
  rcases windowFunction_split_ok h with hplain | ⟨i, rest, spec, after, hfirst, hrest, henc⟩
  · rw [hplain] at h
    obtain rfl := Except.ok.inj h
    exact ⟨rfl, framed_plain column suffix level⟩
  · rw [windowFunction_eq_ok hfirst hrest henc] at h
    obtain rfl := Except.ok.inj h
    refine ⟨rfl, framed_bracketBlock level _ _ _ _ fun l hl => ?_⟩
    obtain ⟨part, -, rfl⟩ := List.mem_map.mp hl
    exact Nat.lt_succ_self level

theorem framed_inList {condition suffix : Text} (h : inList condition suffix level = .ok block) :
    block.level = level ∧ Framed level level block.lines := by
  unfold inList at h
  split at h
  · obtain rfl := Except.ok.inj h
    exact ⟨rfl, framed_plain condition suffix level⟩
  · split at h
    · cases h
    · rename_i list after _
      obtain rfl := Except.ok.inj h
      have hinner : ∀ l ∈ listLines (level + 1) list, level < l.level := by
        intro l hl
        rw [level_listLines l hl]
        exact Nat.lt_succ_self level
      exact ⟨rfl, framed_bracketBlock level _ _ after suffix hinner⟩

theorem framed_subquery {nested : Text → Except Fault Query} {condition suffix : Text}
    (h : subquery nested condition suffix level = .ok block) :
    block.level = level ∧ Framed level level block.lines := by
  rcases subquery_cases h with ⟨-, hplain⟩ | ⟨o, inner, after, query, hopen, henc, -, hq⟩
  · rw [hplain] at h
    obtain rfl := Except.ok.inj h
    exact ⟨rfl, framed_plain condition suffix level⟩
  · rw [subquery_eq hopen henc, hq] at h
    obtain rfl := Except.ok.inj h
    refine ⟨rfl, framed_bracketBlock level _ _ _ _ fun l hl => ?_⟩
    -- a line of the inner query stands at least one level in, wherever it stood
    obtain ⟨l', -, rfl⟩ := List.mem_map.mp hl
    exact Nat.lt_of_lt_of_le (Nat.lt_succ_self level) (Nat.le_add_left _ _)

end Layout

/-! ## Any of them -/

/-- A construct, or a clause that can stand at any level, with the text to lay out. -/
inductive Formatter where
  | caseExpression (expr suffix : Text)
  | windowFunction (column suffix : Text)
  | inList (condition suffix : Text)
  | subquery (condition suffix : Text)
  | selectClause (body : Text)
  | joinClause (keyword body : Text)
  | whereClause (body : Text)
  | havingClause (body : Text)
  | listClause (keyword body : Text)

namespace Formatter

/-- Whether it is a construct, which stands inside a clause. -/
def isConstruct : Formatter → Bool
  | caseExpression _ _ | windowFunction _ _ | inList _ _ | subquery _ _ => true
  | _ => false

/-- The level of the last of several lines of a construct. -/
def lastLevel (level : Nat) : Formatter → Nat
  | caseExpression _ _ => level + 1
  | _ => level

variable (nested : Text → Except Fault Query)

/-- The layout at a level; inner queries are laid out by `nested`. -/
def lay (level : Nat) : Formatter → Layout
  | caseExpression expr suffix => Layout.caseExpression expr suffix level
  | windowFunction column suffix => Layout.windowFunction column suffix level
  | inList condition suffix => Layout.inList condition suffix level
  | subquery condition suffix => Layout.subquery nested condition suffix level
  | selectClause body => Layout.selectClause body level
  | joinClause keyword body => Layout.joinClause keyword body level
  | whereClause body => Layout.whereClause nested body level
  | havingClause body => Layout.havingClause body level
  | listClause keyword body => Layout.listClause keyword body level

/-- The writer that carries out the layout. -/
def write (level : Nat) : Formatter → Writer Nat
  | caseExpression expr suffix => Writer.caseExpression expr suffix level
  | windowFunction column suffix => Writer.windowFunction column suffix level
  | inList condition suffix => Writer.inList condition suffix level
  | subquery condition suffix => Writer.subquery nested condition suffix level
  | selectClause body => Writer.selectClause body level
  | joinClause keyword body => Writer.joinClause keyword body level
  | whereClause body => Writer.whereClause nested body level
  | havingClause body => Writer.havingClause body level
  | listClause keyword body => Writer.listClause keyword body level

/-- A layout further in has the same lines, further in. -/
theorem lay_add (f : Formatter) (level k : Nat) :
    f.lay nested (level + k) = (f.lay nested level).map (Block.shift k) := by
  cases f with
  | caseExpression expr suffix => exact Layout.caseExpression_add expr suffix level k
  | windowFunction column suffix => exact Layout.windowFunction_add column suffix level k
  | inList condition suffix => exact Layout.inList_add condition suffix level k
  | subquery condition suffix => exact Layout.subquery_add nested condition suffix level k
  | selectClause body => exact Layout.selectClause_add body level k
  | joinClause keyword body => exact Layout.joinClause_add keyword body level k
  | whereClause body => exact Layout.whereClause_add nested body level k
  | havingClause body => rfl
  | listClause keyword body => exact Layout.listClause_add keyword body level k

theorem follows (f : Formatter) (level : Nat) :
    (f.write nested level).Follows (f.lay nested level) := by
  cases f with
  | caseExpression expr suffix => exact (Writer.caseExpression_follows expr suffix level).follows
  | windowFunction column suffix =>
      exact (Writer.windowFunction_follows column suffix level).follows
  | inList condition suffix => exact (Writer.inList_follows condition suffix level).follows
  | subquery condition suffix =>
      exact (Writer.subquery_follows nested condition suffix level).follows
  | selectClause body => exact Writer.selectClause_follows body level
  | joinClause keyword body => exact Writer.joinClause_follows keyword body level
  | whereClause body => exact Writer.whereClause_follows nested body level
  | havingClause body => exact Writer.havingClause_follows body level
  | listClause keyword body => exact Writer.listClause_follows keyword body level

theorem followsWhole {f : Formatter} (hf : f.isConstruct = true) (level : Nat) :
    (f.write nested level).FollowsWhole (f.lay nested level) := by
  cases f with
  | caseExpression expr suffix => exact Writer.caseExpression_follows expr suffix level
  | windowFunction column suffix => exact Writer.windowFunction_follows column suffix level
  | inList condition suffix => exact Writer.inList_follows condition suffix level
  | subquery condition suffix => exact Writer.subquery_follows nested condition suffix level
  | _ => cases hf

variable {nested} {f : Formatter} {level : Nat} {block : Block}

theorem framed (hf : f.isConstruct = true) (h : f.lay nested level = .ok block) :
    Layout.Framed level (f.lastLevel level) block.lines := by
  cases f with
  | caseExpression expr suffix => exact (Layout.framed_caseExpression h).2
  | windowFunction column suffix => exact (Layout.framed_windowFunction h).2
  | inList condition suffix => exact (Layout.framed_inList h).2
  | subquery condition suffix => exact (Layout.framed_subquery h).2
  | _ => cases hf

/-- The level that holds afterwards is the one that was given. -/
theorem level_lay (h : f.lay nested level = .ok block) : block.level = level := by
  cases f with
  | caseExpression expr suffix => exact (Layout.framed_caseExpression h).1
  | windowFunction column suffix => exact (Layout.framed_windowFunction h).1
  | inList condition suffix => exact (Layout.framed_inList h).1
  | subquery condition suffix => exact (Layout.framed_subquery h).1
  | selectClause body =>
      change Layout.selectClause body level = .ok block at h
      unfold Layout.selectClause at h
      split at h
      · cases h
      · rw [← Except.ok.inj h]
  | joinClause keyword body =>
      change Layout.joinClause keyword body level = .ok block at h
      unfold Layout.joinClause at h
      dsimp only at h
      split at h <;> rw [← Except.ok.inj h]
  | whereClause body =>
      change Layout.whereClause nested body level = .ok block at h
      unfold Layout.whereClause at h
      split at h
      · rw [← Except.ok.inj h]
      · dsimp only at h
        split at h
        · cases h
        · rw [← Except.ok.inj h]
  | havingClause body => rw [← Except.ok.inj h]
  | listClause keyword body => rw [← Except.ok.inj h]

/-- The indent discipline: what is laid out at level zero tells everything about level `n` and any
lines `out` that are there already. The level given back is `n`, the lines that are added are
those of level zero moved `n` levels in, faults are the same, and a construct that stops has
written nothing. -/
theorem keeps_indent (nested : Text → Except Fault Query) (f : Formatter) (n : Nat)
    (out : List Line) :
    match f.lay nested 0 with
    | .ok block =>
      f.lay nested n = .ok ⟨block.lines.map (Line.shift n), n⟩ ∧
      (f.write nested n).runOn out = (.ok n, out ++ block.lines.map (Line.shift n)) ∧
      (f.isConstruct = true → Layout.Framed n (f.lastLevel n) (block.lines.map (Line.shift n)))
    | .error e =>
      f.lay nested n = .error e ∧
      (∃ part, (f.write nested n).runOn out = (.error e, out ++ part)) ∧
      (f.isConstruct = true → (f.write nested n).runOn out = (.error e, out)) := by
  have hadd := f.lay_add nested 0 n
  rw [Nat.zero_add] at hadd
  have hfollows := f.follows nested n
  cases hzero : f.lay nested 0 with
  | ok block =>
      have hlay : f.lay nested n = .ok ⟨block.lines.map (Line.shift n), n⟩ := by
        rw [hadd, hzero, Except.map, Block.shift, level_lay hzero, Nat.zero_add]
      rw [hlay] at hfollows
      exact ⟨hlay, hfollows out, fun hf => framed hf hlay⟩
  | error e =>
      have hlay : f.lay nested n = .error e := by
        rw [hadd, hzero]
        rfl
      refine ⟨hlay, ?_, fun hf => ?_⟩
      · -- a clause may have written its head and some items
        rw [hlay] at hfollows
        obtain ⟨part, hpart⟩ := hfollows
        exact ⟨part, hpart out⟩
      · have hwhole := followsWhole nested hf n
        rw [hlay] at hwhole
        simpa using hwhole out

end Formatter

end SqlLayout
