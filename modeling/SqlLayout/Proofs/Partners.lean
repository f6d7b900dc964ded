import SqlLayout.Proofs.Octets

set_option autoImplicit false

/-! # Partners of parentheses

Two searches look for the partner of a parenthesis. `closeOf?` starts at an opening parenthesis as
if nothing stood before it, counts, and gives up at a `)` that nothing opened. `openAround?` starts
at the beginning of the text, keeps a stack, and passes over such a `)`. They agree on every text
(`closeOf?_openAround?_consistent`), because both ask for the same thing: the text in between
closes what it opens, and nothing else (`Encloses`, which is reading it without a refusal).

The searches look at characters. Run over the bytes of a text they find the same places
(`closeOf?_octets`, `openAround?_octets`).
-/

namespace SqlLayout

open Text

/-! ## Reading with refusals -/

namespace Nesting

/-- Reads a text, character by character; refuses a `)` that nothing opened. -/
def scan? (n : Nesting) (t : Text) : Option Nesting := t.foldlM next? n

theorem scan?_cons (n : Nesting) (c : Char) (cs : Text) :
    n.scan? (c :: cs) = (n.next? c).bind fun m => m.scan? cs := rfl

theorem next?_eq_none {n : Nesting} (hq : n.isQuoted = false) (hd : n.depth = 0) :
    n.next? ')' = none := by
  rw [eq_of_unquoted hq, hd]
  rfl

/-- A text is read if it closes nothing that is not open. -/
theorem scan?_eq_some_iff {n m : Nesting} (hn : n.quoting.Sound) {e : Option Char}
    (he : n.Rests e) {t : Text} :
    n.scan? t = some m ↔ Guarded 0 (lexemes n (t.marks e)) ∧ n.scan t = m := by
  induction t generalizing n e with
  | nil =>
      have hnil : Guarded 0 (lexemes n (marks e [])) := fun x hx => (by cases hx)
      have hscan : n.scan? [] = some n := rfl
      rw [hscan, Option.some.injEq]
      exact ⟨fun h => ⟨hnil, h⟩, fun h => h.2⟩
  | cons c cs ih =>
      have hscan : n.scan (c :: cs) = (n.next c).scan cs := rfl
      rw [scan?_cons, hscan]
      by_cases hb : isBlank c = true
      · have hclose : c ≠ ')' := by
          rintro rfl
          exact absurd hb (by decide)
        rw [next?_eq_some (fun h => absurd h hclose), Option.bind_some, lexemes_blank hn hb]
        exact ih (sound_next hn c) (rests_next hn hb)
      · rw [lexemes_cons (by simpa using hb) he, Guarded.cons_iff]
        have hupper : c.toUpper = ')' ↔ c = ')' := toUpper_eq_iff_of_not_word (by decide) c
        dsimp only
        rw [hupper]
        by_cases hguard : c = ')' → n.isQuoted = false → 0 < n.depth
        · rw [next?_eq_some hguard, Option.bind_some, ih (sound_next hn c) (rests_some _ c)]
          exact ⟨fun h => ⟨⟨hguard, h.1⟩, h.2⟩, fun h => ⟨h.1.2, h.2⟩⟩
        · -- a `)` with nothing open
          obtain ⟨rfl, hq, hd⟩ : c = ')' ∧ n.isQuoted = false ∧ n.depth = 0 := by
            simpa using hguard
          rw [next?_eq_none hq hd]
          simp [hq, hd]

end Nesting

theorem closed_iff_scan? {t : Text} : Closed t ↔ Nesting.start.scan? t = some .start := by
  rw [Nesting.scan?_eq_some_iff sound_start (Nesting.rests_of_unquoted rfl none)]
  exact ⟨fun h => ⟨h.guarded, h.after⟩, fun h => ⟨h.1, h.2⟩⟩

/-- What is guarded stays so when more is open around it. -/
theorem Guarded.deeper {v : List Mark} {d k : Nat} {q : Quoting}
    (h : Guarded d (lexemes ⟨k, q⟩ v)) (j : Nat) : Guarded (d + j) (lexemes ⟨k + j, q⟩ v) := by
  induction v generalizing k q with
  | nil => exact fun x hx => (by cases hx)
  | cons m v ih =>
      rw [lexemes, Guarded.cons_iff] at h ⊢
      obtain ⟨hclose, hrest⟩ := h
      have hquoted : Nesting.isQuoted ⟨k + j, q⟩ = Nesting.isQuoted ⟨k, q⟩ := rfl
      have hread : Nesting.read ⟨k + j, q⟩ m
          = ⟨(Nesting.read ⟨k, q⟩ m).depth + j, (Nesting.read ⟨k, q⟩ m).quoting⟩ := by
        -- a `)` at depth zero would not lower the depth; the guard excludes it
        simp only [Nesting.read, Nesting.depthAfter, hquoted, Nesting.mk.injEq, and_true]
        split_ifs with hq hopen hmc
        · rfl
        · omega
        · have hlt : d < k := hclose (by rw [hmc]; rfl) (by simpa using hq)
          omega
        · rfl
      refine ⟨fun hmc hq => ?_, ?_⟩
      · have hlt : d < k := hclose hmc hq
        exact Nat.add_lt_add_right hlt j
      · rw [hread]
        exact ih hrest

theorem encloses_iff_closed {t : Text} : Encloses t ↔ Closed t := by
  refine ⟨Encloses.closed, fun h => ⟨h.guarded.deeper 1, ?_⟩⟩
  have hdeep := Nesting.scan_deeper sound_start (Nesting.rests_of_unquoted rfl none) h.guarded 1
  have hafter : Nesting.start.scan t = .start := h.after
  rw [hafter] at hdeep
  exact hdeep

namespace Text

/-! ## From an opening parenthesis to its partner -/

/-- The parentheses at two places belong together: the text between them is read from nothing open
to nothing open, without a refusal. -/
structure Closes (t : Text) (o c : Nat) : Prop where
  opening : t[o]? = some '('
  closing : t[c]? = some ')'
  order : o < c
  between : Nesting.start.scan? ((t.take c).drop (o + 1)) = some .start

variable {t : Text} {o c p : Nat}

/-- A text around one of its characters. -/
theorem split_at_index {d : Char} (h : t[o]? = some d) :
    t = t.take o ++ d :: t.drop (o + 1) ∧ (t.take o).length = o := by
  obtain ⟨ho, hget⟩ := List.getElem?_eq_some_iff.mp h
  constructor
  · rw [← hget, ← List.drop_eq_getElem_cons ho, List.take_append_drop]
  · rw [List.length_take]
    omega

theorem closes_append (a v : Text) {u : Text} (h : Encloses u) :
    (a ++ '(' :: (u ++ ')' :: v)).Closes a.length (a.length + 1 + u.length) := by
  have hsplit : a ++ '(' :: (u ++ ')' :: v) = (a ++ '(' :: u) ++ ')' :: v := by simp
  have hlen : (a ++ '(' :: u).length = a.length + 1 + u.length := by
    rw [List.length_append, List.length_cons]
    omega
  have hdrop : (a ++ '(' :: u).drop (a.length + 1) = u := by
    rw [← List.drop_drop, List.drop_left]
    rfl
  refine ⟨by simp, ?_, by omega, ?_⟩
  · rw [hsplit, ← hlen, List.getElem?_append_right (Nat.le_refl _), Nat.sub_self]
    rfl
  · rw [hsplit, ← hlen, List.take_left, hdrop]
    exact closed_iff_scan?.mp h.closed

theorem Closes.split (h : t.Closes o c) :
    ∃ a u v, t = a ++ '(' :: (u ++ ')' :: v) ∧ a.length = o ∧ c = o + 1 + u.length ∧
      Encloses u := by
  have horder := h.order
  obtain ⟨htail, hc⟩ := split_at_index h.closing
  have hopening : (t.take c)[o]? = some '(' := by
    rw [List.getElem?_take_of_lt horder, h.opening]
  obtain ⟨hhead, ho⟩ := split_at_index hopening
  refine ⟨(t.take c).take o, (t.take c).drop (o + 1), t.drop (c + 1), ?_, ho, ?_,
    encloses_iff_closed.mpr (closed_iff_scan?.mpr h.between)⟩
  · conv_lhs => rw [htail, hhead]
    simp
  · rw [List.length_drop, hc]
    omega

/-- The search for the partner finds it, and nothing else. -/
theorem closeOf?_eq_some_iff : t.closeOf? o = some c ↔ t.Closes o c := by
  have hrests : Nesting.Rests ⟨1, .outside⟩ none := Nesting.rests_of_unquoted rfl none
  constructor
  · intro h
    have hopen : t[o]? = some '(' := by
      by_contra hne
      rw [closeOf?, if_neg (by simpa using hne)] at h
      cases h
    obtain ⟨ht, hlen⟩ := split_at_index hopen
    have hfrom := closeOf?_append (t.take o) (t.drop (o + 1))
    rw [← ht, hlen, h] at hfrom
    obtain ⟨u, v, huv, rfl, hguarded, hscan⟩ :=
      closeFrom_eq_some (n := ⟨1, .outside⟩) trivial (by decide) hrests hfrom.symm
    rw [huv] at ht
    have hcloses := closes_append (t.take o) v ⟨hguarded, hscan⟩
    rwa [← ht, hlen] at hcloses
  · intro h
    obtain ⟨a, u, v, rfl, rfl, rfl, hu⟩ := h.split
    rw [closeOf?_append]
    exact closeFrom_of_guarded (n := ⟨1, .outside⟩) trivial hrests hu.guarded hu.scan v _

/-- A parenthesis has one partner. -/
theorem Closes.unique {c' : Nat} (h : t.Closes o c) (h' : t.Closes o c') : c = c' :=
  Option.some.inj ((closeOf?_eq_some_iff.mpr h).symm.trans (closeOf?_eq_some_iff.mpr h'))

/-! ## From a place to the parenthesis around it -/

theorem opens_of_openAround? (h : t.openAround? p = some o) :
    o < p ∧ t[o]? = some '(' ∧ (Nesting.after (t.take o)).isQuoted = false := by
  obtain ⟨hlt, hquoted⟩ := openAround?_spec h
  obtain ⟨a, s, d, htake, rfl, -⟩ := openAround?_split h
  refine ⟨hlt, ?_, hquoted⟩
  have hget : (t.take p)[a.length]? = some '(' := by
    rw [htake]
    simp
  rwa [List.getElem?_take_of_lt hlt] at hget

/-- The parenthesis around a place is not closed before that place. -/
theorem le_of_openAround? (h : t.openAround? p = some o) (hc : t.Closes o c) : p ≤ c := by
  obtain ⟨a, s, d, htake, rfl, -, hguarded, -⟩ := openAround?_split h
  obtain ⟨a', u, v, rfl, hlen, rfl, hu⟩ := hc.split
  by_contra hlt
  -- then the text up to the place holds the partner
  have hsplit : a' ++ '(' :: (u ++ ')' :: v) = (a' ++ '(' :: (u ++ [')'])) ++ v := by simp
  have hwidth : (a' ++ '(' :: (u ++ [')'])).length = a.length + 1 + u.length + 1 := by
    simp only [List.length_append, List.length_cons, List.length_nil, hlen]
    omega
  rw [hsplit, List.take_append, List.take_of_length_le (by omega), List.append_assoc] at htake
  obtain ⟨-, hrest⟩ := List.append_inj htake hlen
  have hs : u ++ ')' :: v.take (p - (a' ++ '(' :: (u ++ [')'])).length) = s := by
    simpa using (List.cons.inj hrest).2
  rw [← hs] at hguarded
  exact not_guarded_of_close hu hguarded

/-- A parenthesis outside literals is the innermost one that is open at its partner. -/
theorem Closes.openAround? (h : t.Closes o c)
    (hq : (Nesting.after (t.take o)).isQuoted = false) : t.openAround? c = some o := by
  obtain ⟨a, u, v, rfl, rfl, rfl, hu⟩ := h.split
  rw [List.take_left] at hq
  have hguarded : Guarded ((Nesting.after a).depth + 1)
      (lexemes ⟨(Nesting.after a).depth + 1, .outside⟩ (marks none u)) := by
    have hdeeper := hu.guarded.deeper (Nesting.after a).depth
    rwa [Nat.add_comm 1] at hdeeper
  exact openAround?_of_guarded (Nesting.eq_of_unquoted hq) hguarded
    (by rw [hu.scan_deeper]) (')' :: v)

/-! ## Searching the bytes -/

theorem indexAt?_eq_some {b i : Nat} (h : indexAt? b t = some i) : byteOffset t i = b := by
  induction t generalizing b i with
  | nil =>
      cases b with
      | zero => simp [byteOffset, byteLength]
      | succ b => cases h
  | cons x xs ih =>
      cases b with
      | zero =>
          obtain rfl : 0 = i := by simpa [indexAt?] using h
          rfl
      | succ b =>
          rw [indexAt?] at h
          split at h
          · rename_i hfits
            obtain ⟨j, hj, rfl⟩ := Option.map_eq_some_iff.mp h
            have hoffset : byteOffset (x :: xs) (j + 1) = x.utf8Size + byteOffset xs j := rfl
            rw [hoffset, ih hj]
            omega
          · cases h

/-- A character of ASCII among the bytes is that character of the text. -/
theorem octets_split {d : Char} (hd : ¬ IsHigh d) {a r : Text} (h : t.octets = a ++ d :: r) :
    ∃ x y : Text, t = x ++ d :: y ∧ x.octets = a ∧ y.octets = r := by
  induction t generalizing a with
  | nil => simp [octets, bytes] at h
  | cons c cs ih =>
      rw [octets_cons] at h
      rcases List.append_eq_append_iff.mp h with ⟨a', rfl, hrest⟩ | ⟨b', hc, hrest⟩
      · -- it stands behind the bytes of `c`
        obtain ⟨x, y, rfl, rfl, rfl⟩ := ih hrest
        exact ⟨c :: x, y, rfl, octets_cons c x, rfl⟩
      · cases b' with
        | nil =>
            obtain ⟨x, y, rfl, hx, rfl⟩ := ih (a := []) hrest.symm
            refine ⟨c :: x, y, rfl, ?_, rfl⟩
            rw [octets_cons, hx, hc, List.append_nil, List.append_nil]
        | cons e b' =>
            -- the character stands in the bytes of `c`, so `c` is ASCII and is that character
            obtain ⟨rfl, rfl⟩ := List.cons.inj hrest
            have hlow : ¬ IsHigh c := by
              intro hc'
              exact hd (isHigh_of_mem_octets hc' d (by rw [hc]; simp))
            rw [octets_of_ascii hlow] at hc
            have hlen := congrArg List.length hc
            simp only [List.length_append, List.length_cons, List.length_nil] at hlen
            obtain rfl : a = [] := List.eq_nil_of_length_eq_zero (by omega)
            obtain rfl : b' = [] := List.eq_nil_of_length_eq_zero (by omega)
            obtain ⟨rfl, -⟩ := List.cons.inj hc
            exact ⟨[], cs, rfl, rfl, rfl⟩

theorem scan?_high {n : Nesting} (hn : n.quoting.Sound) {x : Text} (hx : ∀ d ∈ x, IsHigh d) :
    n.scan? x = some (n.scan x) := by
  induction x generalizing n with
  | nil => rfl
  | cons d ds ih =>
      have hd : d ≠ ')' := (hx d List.mem_cons_self).ne (by decide)
      rw [Nesting.scan?_cons, Nesting.next?_eq_some (fun h => absurd h hd), Option.bind_some,
        ih (Nesting.sound_next hn d) fun e he => hx e (List.mem_cons_of_mem d he)]
      rfl

theorem scan?_append (n : Nesting) (x y : Text) :
    n.scan? (x ++ y) = (n.scan? x).bind fun m => m.scan? y := List.foldlM_append

/-- Reading the bytes of a text. -/
theorem scan?_octets {n : Nesting} (hn : n.quoting.Sound) (t : Text) :
    n.scan? t.octets = n.scan? t := by
  induction t generalizing n with
  | nil => rfl
  | cons c cs ih =>
      rw [octets_cons, scan?_append, Nesting.scan?_cons]
      by_cases hc : IsHigh c
      · have hclose : c ≠ ')' := hc.ne (by decide)
        rw [scan?_high hn (isHigh_of_mem_octets hc), Nesting.scan_octets hn,
          Nesting.next?_eq_some (fun h => absurd h hclose), Option.bind_some, Option.bind_some,
          ih (Nesting.sound_next hn c)]
      · have hone : n.scan? (octets [c]) = n.next? c := by
          rw [octets_of_ascii hc, Nesting.scan?_cons]
          exact Option.bind_fun_some _
        rw [hone]
        cases hnext : n.next? c with
        | none => rfl
        | some m =>
            obtain rfl : n.next c = m := by rw [Nesting.next, hnext, Option.getD_some]
            exact ih (Nesting.sound_next hn c)

theorem encloses_octets {u : Text} : Encloses u.octets ↔ Encloses u := by
  rw [encloses_iff_closed, encloses_iff_closed, closed_iff_scan?, closed_iff_scan?,
    scan?_octets sound_start]

/-- Parentheses that belong together among the bytes do so in the text. -/
theorem closes_octets_iff {b b' : Nat} :
    t.octets.Closes b b' ↔ ∃ o c, t.Closes o c ∧ t.byteOffset o = b ∧ t.byteOffset c = b' := by
  have hopen : octets ['('] = ['('] := octets_of_ascii (by unfold IsHigh; decide)
  have hclose : octets [')'] = [')'] := octets_of_ascii (by unfold IsHigh; decide)
  -- the bytes of a parenthesis, of its partner and of what stands around them
  have hbytes : ∀ a u v : Text, octets (a ++ '(' :: (u ++ ')' :: v))
      = a.octets ++ '(' :: (u.octets ++ ')' :: v.octets) := by
    intro a u v
    rw [octets_append, octets_cons, hopen, octets_append, octets_cons ')' v, hclose]
    rfl
  have hoffsets : ∀ a u v : Text,
      byteOffset (a ++ '(' :: (u ++ ')' :: v)) a.length = a.octets.length ∧
        byteOffset (a ++ '(' :: (u ++ ')' :: v)) (a.length + 1 + u.length)
          = a.octets.length + 1 + u.octets.length := by
    intro a u v
    have hsplit : a ++ '(' :: (u ++ ')' :: v) = (a ++ '(' :: u) ++ ')' :: v := by simp
    have hlen : a.length + 1 + u.length = (a ++ '(' :: u).length := by
      rw [List.length_append, List.length_cons]
      omega
    refine ⟨byteOffset_append a _, ?_⟩
    rw [hsplit, hlen, byteOffset_append, octets_append, octets_cons, hopen]
    simp only [List.length_append, List.length_cons, List.length_nil]
    omega
  constructor
  · intro h
    obtain ⟨a', u', v', ht, rfl, rfl, hu⟩ := h.split
    obtain ⟨a, r, rfl, rfl, hr⟩ := octets_split (by unfold IsHigh; decide) ht
    obtain ⟨u, v, rfl, rfl, rfl⟩ := octets_split (by unfold IsHigh; decide) hr
    obtain ⟨ho, hc⟩ := hoffsets a u v
    exact ⟨_, _, closes_append a v (encloses_octets.mp hu), ho, hc⟩
  · rintro ⟨o, c, h, rfl, rfl⟩
    obtain ⟨a, u, v, rfl, rfl, rfl, hu⟩ := h.split
    obtain ⟨ho, hc⟩ := hoffsets a u v
    rw [ho, hc, hbytes]
    exact closes_append _ _ (encloses_octets.mpr hu)

theorem Closes.lt_length (h : t.Closes o c) : o < t.length :=
  (List.getElem?_eq_some_iff.mp h.opening).1

/-- The search from a byte finds the byte of the partner. -/
theorem closeOf?_octets (t : Text) (b : Nat) :
    t.octets.closeOf? b = ((indexAt? b t).bind t.closeOf?).map t.byteOffset := by
  apply Option.ext
  intro b'
  rw [closeOf?_eq_some_iff, closes_octets_iff, Option.map_eq_some_iff]
  constructor
  · rintro ⟨o, c, h, rfl, rfl⟩
    refine ⟨c, ?_, rfl⟩
    rw [indexAt?_byteOffset, Nat.min_eq_left (Nat.le_of_lt h.lt_length), Option.bind_some]
    exact closeOf?_eq_some_iff.mpr h
  · rintro ⟨c, hc, rfl⟩
    obtain ⟨o, ho, hclose⟩ := Option.bind_eq_some_iff.mp hc
    exact ⟨o, c, closeOf?_eq_some_iff.mp hclose, indexAt?_eq_some ho, rfl⟩

theorem openParens_cons_other (i : Nat) (n : Nesting) (opened : List Nat) {d : Char}
    (hopen : d ≠ '(') (hclose : d ≠ ')') (ds : Text) :
    openParens i n opened (d :: ds) = openParens (i + 1) (n.next d) opened ds := by
  simp [openParens, hopen, hclose]

theorem openParens_high {n : Nesting} {x : Text} (hx : ∀ d ∈ x, IsHigh d) (i : Nat)
    (opened : List Nat) (rest : Text) :
    openParens i n opened (x ++ rest) = openParens (i + x.length) (n.scan x) opened rest := by
  induction x generalizing n i with
  | nil => rfl
  | cons d ds ih =>
      have hd := hx d List.mem_cons_self
      rw [List.cons_append,
        openParens_cons_other i n opened (hd.ne (by decide)) (hd.ne (by decide)),
        ih fun e he => hx e (List.mem_cons_of_mem d he), List.length_cons, Nat.add_assoc,
        Nat.add_comm 1]
      rfl

/-- The stack of the parentheses open among the first bytes: a character of which only some bytes
are read counts, as it opens and closes nothing. -/
theorem openParens_octets {n : Nesting} (hn : n.quoting.Sound) (a t : Text) (opened : List Nat)
    (b : Nat) :
    openParens a.octets.length n (opened.map (byteOffset (a ++ t))) (t.octets.take b)
      = (openParens a.length n opened (t.take (indexBefore b t))).map (byteOffset (a ++ t)) := by
  induction t generalizing n a opened b with
  | nil => cases b <;> rfl
  | cons c cs ih =>
      cases b with
      | zero => rfl
      | succ b =>
          have hsplit : a ++ c :: cs = (a ++ [c]) ++ cs := by simp
          have hlen : (a ++ [c]).octets.length = a.octets.length + (octets [c]).length := by
            rw [octets_append, List.length_append]
          have hsize : (octets [c]).length = c.utf8Size := by
            rw [length_octets, byteLength, byteLength, Nat.add_zero]
          have hrest := ih (n := n.next c) (Nesting.sound_next hn c) (a ++ [c])
          rw [← hsplit, hlen, List.length_append, List.length_singleton] at hrest
          rw [octets_cons, List.take_append, indexBefore, List.take_succ_cons, ← hsize]
          by_cases hc : IsHigh c
          · have hhigh : ∀ d ∈ (octets [c]).take (b + 1), IsHigh d :=
              fun d hd => isHigh_of_mem_octets hc d (List.mem_of_mem_take hd)
            have hne : (octets [c]).take (b + 1) ≠ [] := by
              obtain ⟨d, ds, hds⟩ := List.exists_cons_of_ne_nil (octets_ne_nil c)
              rw [hds]
              exact List.cons_ne_nil _ _
            rw [openParens_cons_other _ _ _ (hc.ne (by decide)) (hc.ne (by decide)),
              ← hrest opened (b + 1 - (octets [c]).length), openParens_high hhigh,
              Nesting.scan_high hn hhigh hne, Nesting.next_high hn hc, List.length_take]
            rcases Nat.lt_or_ge (b + 1) (octets [c]).length with hlt | hge
            · -- the rest is not reached
              rw [Nat.sub_eq_zero_of_le (Nat.le_of_lt hlt)]
              rfl
            · rw [Nat.min_eq_right hge]
          · have hindex : byteOffset (a ++ c :: cs) a.length = a.octets.length :=
              byteOffset_append a _
            rw [octets_of_ascii hc] at hrest ⊢
            simp only [List.length_singleton, Nat.add_sub_cancel, List.take_succ_cons,
              List.take_nil, List.singleton_append] at hrest ⊢
            rw [openParens, openParens, ← hrest]
            simp only [apply_ite (List.map (byteOffset (a ++ c :: cs))), List.map_cons,
              List.map_tail, hindex]

/-- The search from a byte finds the byte of the parenthesis around it. -/
theorem openAround?_octets (t : Text) (b : Nat) :
    t.octets.openAround? b = (t.openAround? (indexBefore b t)).map t.byteOffset := by
  have hstack := openParens_octets (n := .start) sound_start [] t [] b
  rw [openAround?, openAround?, ← List.head?_map]
  exact congrArg List.head? hstack

/-- The two searches for the partner of a parenthesis agree, on every text. A partner that is
found belongs to the parenthesis and is the first that does; the parenthesis around a place stands
before it and is not closed before it; and from the partner of a parenthesis outside literals the
way back leads to that parenthesis. Among the bytes of a text, both searches find the same. -/
theorem closeOf?_openAround?_consistent (t : Text) :
    (∀ o c, t.closeOf? o = some c → t.Closes o c ∧ ∀ c' < c, ¬ t.Closes o c') ∧
      (∀ p o, t.openAround? p = some o →
        o < p ∧ t[o]? = some '(' ∧ (Nesting.after (t.take o)).isQuoted = false ∧
          ∀ c, t.closeOf? o = some c → p ≤ c) ∧
      (∀ o c, (Nesting.after (t.take o)).isQuoted = false → t.closeOf? o = some c →
        t.openAround? c = some o) ∧
      (∀ b, t.octets.closeOf? b = ((indexAt? b t).bind t.closeOf?).map t.byteOffset) ∧
      ∀ b, t.octets.openAround? b = (t.openAround? (indexBefore b t)).map t.byteOffset := by
  refine ⟨fun o c h => ?_, fun p o h => ?_, fun o c hq h => ?_, closeOf?_octets t,
    openAround?_octets t⟩
  · have hcloses := closeOf?_eq_some_iff.mp h
    refine ⟨hcloses, fun c' hlt hcloses' => ?_⟩
    exact absurd (hcloses'.unique hcloses) (Nat.ne_of_lt hlt)
  · obtain ⟨hlt, hopens, hquoted⟩ := opens_of_openAround? h
    exact ⟨hlt, hopens, hquoted, fun c hc => le_of_openAround? h (closeOf?_eq_some_iff.mp hc)⟩
  · exact (closeOf?_eq_some_iff.mp h).openAround? hq

/-- A text with a `)` that nothing opened, and one in a literal. -/
def strayAndQuoted : Text := "é) (a ')' (b)) c".toList

theorem closeOf?_openAround?_consistent_strayAndQuoted :
    (strayAndQuoted.closeOf? 3 = some 13 ∧ strayAndQuoted.Closes 3 13 ∧
      ∀ c' < 13, ¬ strayAndQuoted.Closes 3 c') ∧
    (strayAndQuoted.openAround? 12 = some 10 ∧ 10 < 12 ∧ strayAndQuoted[10]? = some '(' ∧
      (Nesting.after (strayAndQuoted.take 10)).isQuoted = false ∧
      ∀ c, strayAndQuoted.closeOf? 10 = some c → 12 ≤ c) ∧
    (Nesting.after (strayAndQuoted.take 3)).isQuoted = false ∧
    strayAndQuoted.openAround? 13 = some 3 := by
  obtain ⟨hclose, hopen, hback, -⟩ := closeOf?_openAround?_consistent strayAndQuoted
  have hpartner : strayAndQuoted.closeOf? 3 = some 13 := by decide
  have haround : strayAndQuoted.openAround? 12 = some 10 := by decide
  have hquoted : (Nesting.after (strayAndQuoted.take 3)).isQuoted = false := by decide
  exact ⟨⟨hpartner, hclose 3 13 hpartner⟩, ⟨haround, hopen 12 10 haround⟩, hquoted,
    hback 3 13 hquoted hpartner⟩

end Text

end SqlLayout
