import SqlLayout.Proofs.Verdicts

set_option autoImplicit false

/-! # Words by their places

A word outside literals is known by the index of its first character: a word character that no
word character precedes, read while no literal is open. `wordsBefore` lists the words in front of
an index, and `caseDepth` is the number of `CASE` words among them that no `END` has closed.

A scan of a text does not look at indices. When it has read `a` and the next character is `c`, it
knows whether a word starts there from the nesting after `a` and the last character of `a`
(`startsWord_append`), and so it can keep the count of open `CASE`s up to date
(`caseDepth_append`).
-/

namespace SqlLayout.Text

/-- The character at an index starts a word outside literals. -/
def startsWord (x : Text) (i : Nat) : Bool :=
  x[i]?.any isWordChar && !(x.take i).getLast?.any isWordChar &&
    !(Nesting.after (x.take i)).isQuoted

/-- The words outside literals that start before an index, each with its own index. -/
def wordsBefore (x : Text) (i : Nat) : List (Nat × Text) :=
  ((List.range i).filter x.startsWord).map fun j => (j, firstWord (x.drop j))

/-- The number of `CASE` words before an index that no `END` has closed. An `END` without a
`CASE` does not count. -/
def caseDepth (x : Text) (i : Nat) : Nat := openCases 0 ((x.wordsBefore i).map Prod.snd)

theorem wordsBefore_succ (x : Text) (i : Nat) :
    x.wordsBefore (i + 1) =
      x.wordsBefore i ++ if x.startsWord i then [(i, firstWord (x.drop i))] else [] := by
  unfold wordsBefore
  rw [List.range_succ, List.filter_append, List.map_append]
  cases hword : x.startsWord i <;> simp [hword]

theorem caseDepth_succ (x : Text) (i : Nat) :
    x.caseDepth (i + 1) =
      if x.startsWord i then caseDepthAfter (x.caseDepth i) (firstWord (x.drop i))
      else x.caseDepth i := by
  unfold caseDepth
  rw [wordsBefore_succ]
  split
  · rw [List.map_append, openCases, List.foldl_append]
    rfl
  · rw [List.append_nil]

/-- Whether a word starts where a scan stands. -/
theorem startsWord_append (a : Text) (c : Char) (cs : Text) :
    startsWord (a ++ c :: cs) a.length =
      (!(Nesting.after a).isQuoted && isWordChar c && !a.getLast?.any isWordChar) := by
  unfold startsWord
  rw [List.take_left, List.getElem?_append_right (Nat.le_refl _), Nat.sub_self,
    List.getElem?_cons_zero, Option.any_some]
  cases (Nesting.after a).isQuoted <;> simp

theorem caseDepth_append (a : Text) (c : Char) (cs : Text) :
    caseDepth (a ++ c :: cs) (a.length + 1) =
      if !(Nesting.after a).isQuoted && isWordChar c && !a.getLast?.any isWordChar then
        caseDepthAfter (caseDepth (a ++ c :: cs) a.length) (firstWord (c :: cs))
      else caseDepth (a ++ c :: cs) a.length := by
  rw [caseDepth_succ, startsWord_append, List.drop_left]

end SqlLayout.Text
