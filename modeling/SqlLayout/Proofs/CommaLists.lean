import SqlLayout.Proofs.OneLine

set_option autoImplicit false

/-! # Lists of items

A list that is cut at its commas and laid out item by item, put on one line, is cut into the same
items again (`splitCommas_flat`). The cut looks at commas only, so all that has to be known of an
item is that it has none, and that it has no blanks at its ends, which would be trimmed.
-/

namespace SqlLayout

open Text

/-- The pieces of a tidy text are tidy. -/
theorem Parted.tidy {sep : Text → Prop} {q : Track} {ps : List Text} {t : Text}
    (h : Parted sep q ps t) (ht : Tidy t) : ∀ p ∈ ps, Tidy p := by
  induction h with
  | last _ =>
      intro p hp
      rwa [List.mem_singleton.mp hp]
  | @cons q p s t ps _ _ _ _ ih =>
      have hp : Tidy p := ht.part (a := []) (c := s ++ t)
      have hrest : Tidy t := by
        have hall : Tidy ((p ++ s) ++ (t ++ [])) := by simpa using ht
        exact hall.part
      intro x hx
      rcases List.mem_cons.mp hx with rfl | hx
      · exact hp
      · exact ih hrest x hx

/-! ## Cutting at commas

The separator is a single character that is no letter, so the cut goes character by character:
a comma starts a new item, and anything else goes to the first item of what follows. -/

@[simp] theorem splitOn_comma_nil : splitOn [] [','] = [[]] := rfl

theorem splitOn_comma_cons (c : Char) (cs : Text) :
    splitOn (c :: cs) [','] =
      if c = ',' then [] :: splitOn cs [',']
      else (splitOn cs [',']).modifyHead (c :: ·) :=
  splitOn_mark_cons (by decide) c cs

theorem splitOn_comma_ne_nil (t : Text) : splitOn t [','] ≠ [] := by
  simp [splitOn]

/-- The items of a list hold no commas. -/
theorem comma_not_mem_splitOn {t p : Text} (h : p ∈ splitOn t [',']) : ',' ∉ p := by
  induction t generalizing p with
  | nil =>
      obtain rfl : p = [] := by simpa using h
      simp
  | cons c cs ih =>
      rw [splitOn_comma_cons] at h
      split at h
      · rcases List.mem_cons.mp h with rfl | h
        · simp
        · exact ih h
      · rename_i hc
        cases hs : splitOn cs [','] with
        | nil => exact absurd hs (splitOn_comma_ne_nil cs)
        | cons q qs =>
            rw [hs, List.modifyHead_cons] at h
            rcases List.mem_cons.mp h with rfl | h
            · simp only [List.mem_cons, not_or]
              exact ⟨Ne.symm hc, ih (by rw [hs]; simp)⟩
            · exact ih (by rw [hs]; simp [h])

/-- Behind an item, the rest of the list is cut as a list of its own. -/
theorem splitOn_append_comma {x : Text} (hx : ',' ∉ x) (r : Text) :
    splitOn (x ++ ',' :: r) [','] = x :: splitOn r [','] := by
  induction x with
  | nil => simp [splitOn_comma_cons]
  | cons c cs ih =>
      simp only [List.mem_cons, not_or] at hx
      rw [List.cons_append, splitOn_comma_cons, if_neg (Ne.symm hx.1), ih hx.2,
        List.modifyHead_cons]

theorem splitOn_of_not_mem {x : Text} (hx : ',' ∉ x) : splitOn x [','] = [x] :=
  splitOn_mark_of_not_mem (by decide) hx

/-- A neat item is not trimmed. -/
theorem splitCommas_append {x : Text} (hx : ',' ∉ x) (hn : Neat x) (r : Text) :
    splitCommas (x ++ ',' :: r) = x :: splitCommas r := by
  rw [splitCommas, splitOn_append_comma hx, List.map_cons, hn.trim_eq]
  rfl

/-- A space in front of an item is trimmed. -/
theorem splitCommas_space (r : Text) : splitCommas (' ' :: r) = splitCommas r := by
  rw [splitCommas, splitCommas, splitOn_comma_cons, if_neg (by decide)]
  cases hs : splitOn r [','] with
  | nil => exact absurd hs (splitOn_comma_ne_nil r)
  | cons p ps =>
      have htrim : trim (' ' :: p) = trim p := by
        simp [trim, trimStart, show isBlank ' ' = true by decide]
      simp [htrim]

theorem splitCommas_ne_nil (t : Text) : splitCommas t ≠ [] := by
  simp [splitCommas, splitOn]

/-- Items are neat and without commas. -/
theorem mem_splitCommas {t p : Text} (ht : Tidy t) (h : p ∈ splitCommas t) :
    ',' ∉ p ∧ Neat p := by
  obtain ⟨x, hx, rfl⟩ := List.mem_map.mp h
  have hparted := parted_splitOn (show [','] ∈ flatSeparators by decide) (Ready.untracked t)
    (fun h => absurd rfl h)
  refine ⟨fun hc => ?_, Neat.trim (hparted.tidy ht x hx)⟩
  obtain ⟨a, b, -, -, hab⟩ := trim_split x
  exact comma_not_mem_splitOn hx (by rw [hab]; simp [hc])

/-! ## Items on one line

On one line an item is followed by its comma and a space. The empty list has no lines, and a list
of one empty item has one empty line; the flat text does not tell them apart, but a neat list is
not cut into a single empty item. -/

namespace Layout

theorem itemLines_cons_cons (level : Nat) (x y : Text) (ys : List Text) :
    itemLines [','] level (x :: y :: ys)
      = ⟨level, x ++ [',']⟩ :: itemLines [','] level (y :: ys) := rfl

/-- The lines of neat items are neat. -/
theorem neat_itemLines {items : List Text} (h : ∀ x ∈ items, Neat x) (level : Nat) :
    ∀ l ∈ itemLines [','] level items, Neat l.text := by
  induction items with
  | nil => exact fun l hl => by cases hl
  | cons x xs ih =>
      cases xs with
      | nil =>
          intro l hl
          obtain rfl : l = ⟨level, x ++ []⟩ := by simpa [itemLines, separated] using hl
          simpa using h x (by simp)
      | cons y ys =>
          rw [itemLines_cons_cons]
          intro l hl
          rcases List.mem_cons.mp hl with rfl | hl
          · exact (h x (by simp)).append (Neat.of_unblank (by decide))
          · exact ih (fun z hz => h z (by simp [hz])) l hl

/-- The items are found again. -/
theorem splitCommas_flat {items : List Text} (hne : items ≠ [])
    (h : ∀ x ∈ items, ',' ∉ x ∧ Neat x) (level : Nat) :
    splitCommas (flat (itemLines [','] level items)) = items := by
  induction items with
  | nil => exact absurd rfl hne
  | cons x xs ih =>
      obtain ⟨hcomma, hneat⟩ := h x (by simp)
      cases xs with
      | nil =>
          have hflat : flat (itemLines [','] level [x]) = x := by
            have hl : itemLines [','] level [x] = [⟨level, x⟩] := by
              simp [itemLines, separated]
            rw [hl, flat_singleton, hneat.normalize_eq]
          rw [hflat, splitCommas, splitOn_of_not_mem hcomma, List.map_singleton, hneat.trim_eq]
      | cons y ys =>
          have hrest := ih (by simp) (fun z hz => h z (by simp [hz]))
          have hx : Neat (x ++ [',']) := hneat.append (Neat.of_unblank (by decide))
          rw [itemLines_cons_cons, flat_cons_of_ne hx (by simp), headed]
          generalize hf : flat (itemLines [','] level (y :: ys)) = f at hrest
          split
          · rename_i hnil
            rw [splitCommas_append hcomma hneat, ← hrest, List.isEmpty_iff.mp hnil]
          · rw [List.append_assoc, List.singleton_append, splitCommas_append hcomma hneat,
              splitCommas_space, hrest]

/-- A list on one line is empty only if it has a single empty item. -/
theorem flat_itemLines_eq_nil {items : List Text} (h : ∀ x ∈ items, Neat x) (level : Nat)
    (hf : flat (itemLines [','] level items) = []) : items = [] ∨ items = [[]] := by
  cases items with
  | nil => exact Or.inl rfl
  | cons x xs =>
      cases xs with
      | nil =>
          have hl : itemLines [','] level [x] = [⟨level, x⟩] := by simp [itemLines, separated]
          rw [hl, flat_singleton, (h x (by simp)).normalize_eq] at hf
          exact Or.inr (by rw [show x = [] from hf])
      | cons y ys =>
          have hx : Neat (x ++ [',']) := (h x (by simp)).append (Neat.of_unblank (by decide))
          rw [itemLines_cons_cons, flat_cons_of_ne hx (by simp), headed] at hf
          split at hf <;> simp at hf

/-- The lines of a list. -/
def listLines (level : Nat) (list : Text) : List Line :=
  if list.isEmpty then [] else itemLines [','] level list.splitCommas

/-- The lines of a list are neat. -/
theorem neat_listLines {list : Text} (h : Neat list) (level : Nat) :
    ∀ l ∈ listLines level list, Neat l.text := by
  unfold listLines
  split
  · exact fun l hl => by cases hl
  · exact neat_itemLines (fun x hx => (mem_splitCommas h.tidy hx).2) level

/-- A list on one line has the same lines. -/
theorem listLines_flat {list : Text} (h : Neat list) (level : Nat) :
    listLines level (flat (listLines level list)) = listLines level list := by
  by_cases hne : list = []
  · subst hne
    rfl
  · have hitems : ∀ x ∈ list.splitCommas, ',' ∉ x ∧ Neat x :=
      fun x hx => mem_splitCommas h.tidy hx
    have hlines : listLines level list = itemLines [','] level list.splitCommas := by
      rw [listLines, if_neg (by simpa using hne)]
    have hf : flat (listLines level list) ≠ [] := by
      rw [hlines]
      intro hf
      rcases flat_itemLines_eq_nil (fun x hx => (hitems x hx).2) level hf with h0 | h0
      · exact splitCommas_ne_nil list h0
      · have hparted :=
          parted_splitOn (show [','] ∈ flatSeparators by decide) (Ready.untracked list)
            (fun h => absurd rfl h)
        obtain ⟨p, hp, htrim⟩ := List.map_eq_singleton_iff.mp h0
        rw [hp] at hparted
        obtain rfl := hparted.eq_of_singleton
        rw [h.trim_eq] at htrim
        exact hne htrim
    rw [listLines, if_neg (by simpa using hf), hlines,
      splitCommas_flat (splitCommas_ne_nil list) hitems]

end Layout

end SqlLayout
