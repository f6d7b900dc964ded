import SqlLayout.Proofs.ByteLayouts

set_option autoImplicit false

/-! # How deeply layouts are nested

The layout of a statement calls itself on the queries in the conditions of the statement, without
their parentheses. Such a query has fewer bytes and fewer opening parentheses than the statement
(`smaller_of_mem_innerQueries`), and the pass over the statement asks for the layout of no other
text (`pass?_onlySmaller`). So the first call has at most as many calls nested in it as the text has
opening parentheses (`IsCallChain.length_le`), and the equation of the recursion has one solution
(`eq_layout`).
-/

namespace SqlLayout

open Text

/-! ## What is handed to an inner call -/

namespace Text

theorem byteLength_le_of_isPart {a b : Text} (h : a <:+: b) : a.byteLength ≤ b.byteLength := by
  obtain ⟨x, y, rfl⟩ := h
  rw [byteLength_append, byteLength_append]
  omega

/-- A text with fewer bytes than a statement, and fewer opening parentheses among them. -/
def Smaller (u statement : Text) : Prop :=
  u.byteLength < statement.byteLength ∧ u.octets.count '(' < statement.octets.count '('

instance (u statement : Text) : Decidable (Smaller u statement) := instDecidableAnd

end Text

theorem Layout.byteLength_lt_of_queryIn? {condition u : Text} (h : queryIn? condition = some u) :
    u.byteLength < condition.byteLength := by
  obtain ⟨before, w, after, rfl, rfl, -, -⟩ := queryIn?_split h
  have hinner : byteLength (trim w) ≤ byteLength w := byteLength_le_of_isPart (trim_isPart w)
  have hopening : byteLength ('(' :: (w ++ ')' :: after)) = 1 + byteLength (w ++ ')' :: after) :=
    rfl
  rw [byteLength_append, hopening, byteLength_append]
  omega

theorem smaller_of_mem_innerQueries {t u : Text} (h : u ∈ t.innerQueries) :
    u.Smaller t.normalize.withoutTerminator := by
  constructor
  · obtain ⟨condition, hpart, hin⟩ := exists_condition_of_mem_innerQueries h
    calc u.byteLength < byteLength condition := Layout.byteLength_lt_of_queryIn? hin
      _ ≤ t.normalize.withoutTerminator.byteLength := byteLength_le_of_isPart hpart
  · rw [count_octets (by decide), count_octets (by decide)]
    exact count_lt_statement h

namespace Bytewise

/-- Lays out what is smaller than the statement, and has no result for any other text. -/
def onlySmaller (nested : Text → Except Fault Query) (statement u : Text) :
    Option (Except Fault Query) :=
  if u.Smaller statement then some (nested u) else none

/-- A pass asks for the layout of smaller texts only: it has its result if there is none for other
texts. -/
theorem pass?_onlySmaller (nested : Text → Except Fault Query) (t : Text) :
    pass? (onlySmaller nested t.normalize.withoutTerminator) t = some (pass nested t) := by
  apply pass?_eq
  intro u hu
  rw [onlySmaller, if_pos (smaller_of_mem_innerQueries hu)]

end Bytewise

/-! ## Chains of calls -/

/-- A text and the queries that are handed on from it, each inside the one before. -/
def IsCallChain (texts : List Text) : Prop := texts.IsChain fun t u => u ∈ t.innerQueries

/-- Each call of a chain leaves one opening parenthesis behind. -/
theorem IsCallChain.length_le {t : Text} {us : List Text} (h : IsCallChain (t :: us)) :
    us.length ≤ t.count '(' := by
  induction us generalizing t with
  | nil => exact Nat.zero_le _
  | cons u us ih =>
      obtain ⟨hcall, hlater⟩ := List.isChain_cons_cons.mp h
      have hlt := count_lt_of_mem_innerQueries hcall
      have hle := ih hlater
      rw [List.length_cons]
      omega

/-- Nothing but the layout calls itself on the inner queries and is otherwise one pass. -/
theorem eq_layout {f : Text → Except Fault Query} (h : ∀ t, f t = pass f t) (t : Text) :
    f t = layout t := by
  -- the number of opening parentheses falls from a text to the queries in it
  induction hcount : t.count '(' using Nat.strong_induction_on generalizing t with
  | _ n ih =>
      rw [h, layout_eq]
      apply pass_congr
      intro u hu
      exact ih (u.count '(') (by rw [← hcount]; exact count_lt_of_mem_innerQueries hu) u rfl

/-- The recursion of the layout comes to an end on every text. Each query that is handed to an inner
call has fewer bytes and fewer opening parentheses than the statement that holds it, and no other
text is handed on. So at most one call more than the text has opening parentheses is open at any
time; that many are enough for the result; and the recursion determines the layout of every text. -/
theorem calls_bounded (t : Text) :
    (∀ u ∈ t.innerQueries, u.Smaller t.normalize.withoutTerminator) ∧
    (∀ nested, Bytewise.pass? (Bytewise.onlySmaller nested t.normalize.withoutTerminator) t =
      some (pass nested t)) ∧
    (∀ us, IsCallChain (t :: us) → (t :: us).length ≤ 1 + t.octets.count '(') ∧
    Bytewise.layoutWithin? (1 + t.octets.count '(') t = some (layout t) ∧
    layout t = pass layout t ∧
    (∀ f, (∀ u, f u = pass f u) → f t = layout t) := by
  have hcount : t.octets.count '(' = t.count '(' := count_octets (by decide) t
  refine ⟨fun u hu => smaller_of_mem_innerQueries hu,
    fun nested => Bytewise.pass?_onlySmaller nested t, fun us hus => ?_,
    Bytewise.layoutWithin?_eq (by omega), layout_eq t, fun f hf => eq_layout hf t⟩
  have hle := hus.length_le
  rw [List.length_cons]
  omega

/-- A query. -/
def innermost : Text := "select (d)".toList

/-- A query with a query inside. -/
def nestedOnce : Text := "select b where c in (select (d))".toList

/-- A statement with a query in a query, and a character of two bytes in front of them. -/
def nestedTwice : Text := "select a from t where é in (select b where c in (select (d)));".toList

theorem calls_bounded_nestedTwice :
    IsCallChain [nestedTwice, nestedOnce, innermost] ∧
    [nestedTwice, nestedOnce, innermost].length ≤ 1 + nestedTwice.octets.count '(' ∧
    nestedOnce.Smaller nestedTwice.normalize.withoutTerminator := by
  obtain ⟨hsmaller, -, hlength, -⟩ := calls_bounded nestedTwice
  have hfirst : nestedOnce ∈ nestedTwice.innerQueries := by decide +kernel
  have hsecond : innermost ∈ nestedOnce.innerQueries := by decide +kernel
  have hchain : IsCallChain [nestedTwice, nestedOnce, innermost] :=
    List.isChain_cons_cons.mpr ⟨hfirst, List.isChain_cons_cons.mpr ⟨hsecond, .singleton _⟩⟩
  exact ⟨hchain, hlength _ hchain, hsmaller _ hfirst⟩

end SqlLayout
