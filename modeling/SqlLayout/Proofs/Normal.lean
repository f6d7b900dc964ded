import SqlLayout.Proofs.Scan
import SqlLayout.Statement.Basic

set_option autoImplicit false

/-! # Normal texts

`normalize` leaves single spaces between words and nothing at the two ends. It is the identity
on texts that are like that already (`normalize_eq_self`), and it keeps the glyphs of every text
(`glyphs_normalize`), also those inside literals: there a run of blanks can follow a backslash,
but one blank or many, the next character is not escaped.

`normalize` is read here one character at a time, with a second function `continued` for the
text behind a character that is not blank.
-/

namespace SqlLayout

theorem Tidy.tail {c : Char} {cs : Text} (h : Tidy (c :: cs)) : Tidy cs := by
  have h' : Tidy ([c] ++ (cs ++ [])) := by simpa using h
  exact h'.part

namespace Text

/-! ## One character at a time -/

/-- The normal form of a text that follows a character that is not blank. -/
def continued (t : Text) : Text :=
  t.takeWhile (fun c => !isBlank c) ++
    match runsFrom (fun c => !isBlank c) true t with
    | [] => []
    | w :: ws => ' ' :: join [' '] (w :: ws)

theorem join_cons (w : Text) (ws : List Text) :
    join [' '] (w :: ws) = w ++ match ws with
      | [] => []
      | v :: vs => ' ' :: join [' '] (v :: vs) := by
  cases ws with
  | nil => simp [join]
  | cons v vs => simp [join]

@[simp] theorem normalize_nil : normalize [] = [] := rfl

@[simp] theorem continued_nil : continued [] = [] := rfl

theorem normalize_cons_blank {c : Char} (hc : isBlank c = true) (cs : Text) :
    normalize (c :: cs) = normalize cs := by
  simp [normalize, words, runs, runsFrom, hc]

theorem normalize_cons {c : Char} (hc : isBlank c = false) (cs : Text) :
    normalize (c :: cs) = c :: continued cs := by
  have hruns : runs (fun c => !isBlank c) (c :: cs)
      = (c :: cs.takeWhile fun c => !isBlank c) :: runsFrom (fun c => !isBlank c) true cs := by
    simp [runs, runsFrom, hc]
  rw [normalize, words, hruns, join_cons]
  rfl

theorem continued_cons {c : Char} (hc : isBlank c = false) (cs : Text) :
    continued (c :: cs) = c :: continued cs := by
  simp [continued, runsFrom, hc]

theorem runsFrom_ne_nil_iff {cs : Text} :
    join [' '] (runsFrom (fun c => !isBlank c) false cs) = [] ↔
      runsFrom (fun c => !isBlank c) false cs = [] := by
  induction cs with
  | nil => simp [runsFrom, join]
  | cons c cs ih =>
      by_cases hc : isBlank c = true
      · simpa [runsFrom, hc] using ih
      · have hc' : isBlank c = false := by simpa using hc
        have hruns : runsFrom (fun c => !isBlank c) false (c :: cs)
            = (c :: cs.takeWhile fun c => !isBlank c) ::
                runsFrom (fun c => !isBlank c) true cs := by
          simp [runsFrom, hc']
        rw [hruns, join_cons]
        simp

theorem continued_cons_blank {c : Char} (hc : isBlank c = true) (cs : Text) :
    continued (c :: cs) = if normalize cs = [] then [] else ' ' :: normalize cs := by
  have hruns : runsFrom (fun c => !isBlank c) true (c :: cs)
      = runsFrom (fun c => !isBlank c) false cs := by simp [runsFrom, hc]
  have hnorm : normalize cs = join [' '] (runsFrom (fun c => !isBlank c) false cs) := rfl
  rw [continued, hruns, hnorm]
  simp only [runsFrom_ne_nil_iff, List.takeWhile_cons, hc, Bool.not_true, Bool.false_eq_true,
    if_false, List.nil_append]
  cases runsFrom (fun c => !isBlank c) false cs <;> simp

/-! ## Shape -/

theorem tidy_nil : Tidy [] := by
  intro a c b h
  simp at h

theorem tidy_cons {c : Char} {cs : Text} (hcs : Tidy cs)
    (hc : isBlank c = true → c = ' ' ∧ ∀ d, cs.head? = some d → isBlank d = false) :
    Tidy (c :: cs) := by
  intro a x b h hx
  cases a with
  | nil =>
      obtain ⟨rfl, rfl⟩ : c = x ∧ cs = b := by simpa using h
      exact hc hx
  | cons y ys =>
      obtain ⟨rfl, rfl⟩ : c = y ∧ cs = ys ++ x :: b := by simpa using h
      exact hcs ys x b rfl hx

/-- A normal text starts with no blank. -/
theorem head_normalize {t : Text} {c : Char} (h : t.normalize.head? = some c) :
    isBlank c = false := by
  induction t with
  | nil => cases h
  | cons d ds ih =>
      by_cases hd : isBlank d = true
      · rw [normalize_cons_blank hd] at h
        exact ih h
      · have hd' : isBlank d = false := by simpa using hd
        rw [normalize_cons hd'] at h
        obtain rfl : d = c := by simpa using h
        exact hd'

theorem tidy_normalize (t : Text) : Tidy t.normalize := by
  suffices h : Tidy t.normalize ∧ Tidy t.continued from h.1
  induction t with
  | nil => exact ⟨tidy_nil, tidy_nil⟩
  | cons c cs ih =>
      by_cases hc : isBlank c = true
      · rw [normalize_cons_blank hc, continued_cons_blank hc]
        refine ⟨ih.1, ?_⟩
        split
        · exact tidy_nil
        · exact tidy_cons ih.1 (fun _ => ⟨rfl, fun d hd => head_normalize hd⟩)
      · have hc' : isBlank c = false := by simpa using hc
        rw [normalize_cons hc', continued_cons hc']
        have h : Tidy (c :: continued cs) :=
          tidy_cons ih.2 (fun hb => absurd hb hc)
        exact ⟨h, h⟩

/-- A normal text ends with no blank. -/
theorem last_normalize {t : Text} {c : Char} (h : t.normalize.getLast? = some c) :
    isBlank c = false := by
  suffices hboth : (t.normalize.getLast? = some c → isBlank c = false) ∧
      ∀ d, isBlank d = false → (d :: t.continued).getLast? = some c → isBlank c = false from
    hboth.1 h
  clear h
  induction t with
  | nil =>
      refine ⟨fun h => (by cases h), ?_⟩
      intro d hd h
      obtain rfl : d = c := by simpa using h
      exact hd
  | cons x xs ih =>
      by_cases hx : isBlank x = true
      · rw [normalize_cons_blank hx, continued_cons_blank hx]
        refine ⟨ih.1, fun d hd h => ?_⟩
        split at h
        · obtain rfl : d = c := by simpa using h
          exact hd
        · rename_i hne
          obtain ⟨y, ys, hy⟩ := List.exists_cons_of_ne_nil hne
          rw [hy, List.getLast?_cons_cons, List.getLast?_cons_cons, ← hy] at h
          exact ih.1 h
      · have hx' : isBlank x = false := by simpa using hx
        rw [normalize_cons hx', continued_cons hx']
        refine ⟨ih.2 x hx', fun d _ h => ih.2 x hx' ?_⟩
        rwa [List.getLast?_cons_cons] at h

/-- A tidy text without blanks at its ends is normal. -/
theorem normalize_eq_self {t : Text} (ht : Tidy t)
    (hhead : ∀ c, t.head? = some c → isBlank c = false)
    (hlast : ∀ c, t.getLast? = some c → isBlank c = false) : t.normalize = t := by
  suffices h : ((∀ c, t.head? = some c → isBlank c = false) → t.normalize = t) ∧
      t.continued = t from h.1 hhead
  clear hhead
  induction t with
  | nil => exact ⟨fun _ => rfl, rfl⟩
  | cons c cs ih =>
      have hlast' : ∀ d, cs.getLast? = some d → isBlank d = false :=
        fun d hd => hlast d (by rw [List.getLast?_cons, hd]; rfl)
      obtain ⟨ih1, ih2⟩ := ih (Tidy.tail ht) hlast'
      by_cases hc : isBlank c = true
      · obtain ⟨rfl, hnext⟩ := ht [] c cs rfl hc
        refine ⟨fun hhead => absurd (hhead ' ' rfl) (by decide), ?_⟩
        rw [continued_cons_blank hc, ih1 hnext, if_neg]
        rintro rfl
        exact absurd (hlast ' ' rfl) (by decide)
      · have hc' : isBlank c = false := by simpa using hc
        rw [normalize_cons hc', continued_cons hc', ih2]
        exact ⟨fun _ => rfl, rfl⟩

/-! ### Trimmed texts -/

theorem head_trimStart {t : Text} {c : Char} (h : t.trimStart.head? = some c) :
    isBlank c = false := by
  have hd := List.head?_dropWhile_not isBlank t
  rw [show t.dropWhile isBlank = t.trimStart from rfl, h] at hd
  simpa using hd

theorem last_trimEnd {t : Text} {c : Char} (h : t.trimEnd.getLast? = some c) :
    isBlank c = false := by
  have hd := List.head?_dropWhile_not isBlank t.reverse
  rw [trimEnd, List.getLast?_reverse] at h
  rw [h] at hd
  simpa using hd

theorem head_trimEnd {t : Text} (hhead : ∀ c, t.head? = some c → isBlank c = false) {c : Char}
    (h : t.trimEnd.head? = some c) : isBlank c = false := by
  obtain ⟨b, -, ht⟩ := trimEnd_split t
  refine hhead c ?_
  rw [ht, List.head?_append, h]
  rfl

/-- Trimming a tidy text makes it normal. -/
theorem normalize_trim {t : Text} (h : Tidy t) : t.trim.normalize = t.trim := by
  refine normalize_eq_self ?_ (fun c hc => head_trimEnd (fun d hd => head_trimStart hd) hc)
    (fun c hc => last_trimEnd hc)
  obtain ⟨a, b, -, -, ht⟩ := trim_split t
  rw [ht] at h
  exact h.part

end Text

theorem Ready.normalize_trim {q : Track} {t : Text} (h : Ready q t) :
    Ready q t.trim.normalize := by
  by_cases hq : q = none
  · subst hq
    exact Ready.untracked _
  · rw [Text.normalize_trim (h.tidy hq)]
    exact h.trim

/-! ## Glyphs -/

namespace Track

/-- Blanks make no difference. -/
def Settled (q : Track) : Prop := ∀ c, isBlank c = true → q.scan [c] = q

theorem Clear.settled {q : Track} (h : q.Clear) : q.Settled := by
  intro c hc
  refine h.scan_eq ?_
  have hblank : Text.AllBlank [c] := by simpa [Text.AllBlank] using hc
  exact hblank.isQuoteMark

/-- Only quote marks have opened literals. -/
def Sound (q : Track) : Prop := ∀ x ∈ q, x.Sound

theorem Clear.sound {q : Track} (h : q.Clear) : q.Sound := by
  intro x hx
  rw [h x hx]
  trivial

theorem Sound.scan {q : Track} (h : q.Sound) (t : Text) : (q.scan t).Sound := by
  intro y hy
  cases q with
  | none => cases hy
  | some x =>
      obtain rfl : x.scan t = y := by simpa [Track.scan] using hy
      have hx : x.Sound := h x rfl
      clear h hy
      induction t generalizing x with
      | nil => exact hx
      | cons c cs ih => exact ih (x.next c) (hx.next c)

/-- A blank closes no literal, and one blank is like another. -/
theorem Sound.scan_blank {q : Track} (h : q.Sound) {c : Char} (hc : isBlank c = true) :
    q.scan [c] = q.scan [' '] ∧ (q.scan [c]).Settled := by
  cases q with
  | none => exact ⟨rfl, fun _ _ => rfl⟩
  | some x =>
      have hx : x.Sound := h x rfl
      have hinside : ∀ m, isQuoteMark m = true → ∀ d, isBlank d = true →
          Quoting.next (.inside m) d = .inside m := by
        intro m hm d hd
        have hm' : isBlank m = false := not_isBlank_of (Or.inl hm)
        have h1 : d ≠ '\x5c' := by
          rintro rfl
          exact absurd hd (by decide)
        have h2 : d ≠ m := by
          rintro rfl
          rw [hd] at hm'
          cases hm'
        simp [Quoting.next, h1, h2]
      have houtside : ∀ d, isBlank d = true → Quoting.next .outside d = .outside := by
        intro d hd
        have hd' : isQuoteMark d = false := by
          by_contra hq
          have := not_isBlank_of (Or.inl (show isQuoteMark d = true by simpa using hq))
          rw [hd] at this
          cases this
        simp [Quoting.next, hd']
      have hspace : isBlank ' ' = true := by decide
      have hscan : ∀ (y : Quoting) (d : Char), Track.scan (some y) [d] = some (y.next d) :=
        fun _ _ => rfl
      -- outside and inside, a blank leaves the state; behind an escape it goes back inside
      cases x with
      | outside =>
          rw [hscan, hscan, houtside c hc, houtside ' ' hspace]
          exact ⟨rfl, clear_outside.settled⟩
      | inside m =>
          rw [hscan, hscan, hinside m hx c hc, hinside m hx ' ' hspace]
          exact ⟨rfl, fun d hd => by rw [hscan, hinside m hx d hd]⟩
      | escaped m =>
          refine ⟨rfl, fun d hd => ?_⟩
          rw [hscan, show Quoting.next (.escaped m) c = .inside m from rfl, hscan,
            hinside m hx d hd]

end Track

namespace Text

/-- A text and its normal form have the same glyphs, up to what the first of them touches. -/
theorem glyphs_normalize {q : Track} (hq : q.Clear) (e : Option Char) (t : Text) :
    ∃ e', (e' = e ∨ e' = none) ∧ t.glyphs e q = t.normalize.glyphs e' q := by
  -- the two forms of the text, at its start and behind a character, need each other
  suffices h : (∀ (q : Track) e, q.Sound → q.Settled → ∃ e', (e' = e ∨ e' = none) ∧
        t.glyphs e q = t.normalize.glyphs e' q) ∧
      ∀ (q : Track) e, q.Sound → t.glyphs e q = t.continued.glyphs e q from
    h.1 q e hq.sound hq.settled
  clear hq q e
  induction t with
  | nil => exact ⟨fun q e _ _ => ⟨e, Or.inl rfl, rfl⟩, fun q e _ => rfl⟩
  | cons c cs ih =>
      obtain ⟨ih1, ih2⟩ := ih
      by_cases hc : isBlank c = true
      · rw [normalize_cons_blank hc, continued_cons_blank hc]
        constructor
        · intro q e hs hset
          obtain ⟨e', he', hg⟩ := ih1 q none hs hset
          refine ⟨e', Or.inr (he'.elim id id), ?_⟩
          rw [glyphs, if_pos hc, hset c hc, hg]
        · intro q e hs
          obtain ⟨hspace, hset⟩ := hs.scan_blank hc
          obtain ⟨e', he', hg⟩ := ih1 (q.scan [c]) none (hs.scan [c]) hset
          obtain rfl : e' = none := he'.elim id id
          rw [glyphs, if_pos hc, hg]
          split
          · rename_i hnil
            rw [hnil]
            rfl
          · rw [glyphs, if_pos (by decide), hspace]
      · have hc' : isBlank c = false := by simpa using hc
        rw [normalize_cons hc', continued_cons hc']
        have h : ∀ (q : Track) e, q.Sound →
            Text.glyphs e q (c :: cs) = Text.glyphs e q (c :: continued cs) := by
          intro q e hs
          rw [glyphs, glyphs, if_neg hc, if_neg hc, ih2 _ _ (hs.scan [c])]
        exact ⟨fun q e hs _ => ⟨e, Or.inl rfl, h q e hs⟩, h⟩

theorem marks_normalize (t : Text) : t.normalize.marks none = t.marks none := by
  obtain ⟨e', he', hg⟩ := glyphs_normalize Track.clear_none none t
  obtain rfl : e' = none := he'.elim id id
  rw [← toMark_glyphs none none t, ← toMark_glyphs none none t.normalize, hg]

/-- The last mark of a text that ends with no blank is its last character. -/
theorem last_marks {t : Text} (h : ∀ c, t.getLast? = some c → isBlank c = false)
    (e : Option Char) : (t.marks e).getLast?.map Mark.char = t.getLast? := by
  rcases List.eq_nil_or_concat t with rfl | ⟨init, c, rfl⟩
  · rfl
  · rw [List.concat_eq_append] at h ⊢
    have hc : isBlank c = false := h c (by simp)
    rw [marks_append, marks, hc]
    simp [marks]

theorem marks_ne_nil {t : Text} (hne : t ≠ [])
    (hlast : ∀ c, t.getLast? = some c → isBlank c = false) : t.marks none ≠ [] := by
  intro hnil
  have h := last_marks hlast none
  rw [hnil] at h
  exact hne (List.getLast?_eq_none_iff.mp h.symm)

theorem getLast?_normalize_trim (t : Text) : t.trim.normalize.getLast? = t.trim.getLast? := by
  have htrim : ∀ c, t.trim.getLast? = some c → isBlank c = false := fun c hc => last_trimEnd hc
  rw [← last_marks (fun c hc => last_normalize hc) none, marks_normalize, last_marks htrim]

/-! ## The terminator -/

/-- A text is what is left without its terminator, and the terminator if it has one. -/
theorem withoutTerminator_split (t : Text) :
    (t.getLast? ≠ some terminator ∧ t.withoutTerminator = t) ∨
      (t.getLast? = some terminator ∧ ∃ b, AllBlank b ∧
        t = t.withoutTerminator ++ (b ++ [terminator])) := by
  unfold withoutTerminator
  split
  · rename_i h
    have hlast : t.getLast? = some terminator := by simpa using h
    refine Or.inr ⟨hlast, ?_⟩
    obtain ⟨b, hb, htrim⟩ := trimEnd_split t.dropLast
    refine ⟨b, hb, ?_⟩
    rw [← List.append_assoc, ← htrim]
    exact (List.dropLast_append_getLast? terminator hlast).symm
  · rename_i h
    exact Or.inl ⟨by simpa using h, rfl⟩

/-- A normal text is normal without its terminator. -/
theorem normalize_withoutTerminator (t : Text) :
    t.normalize.withoutTerminator.normalize = t.normalize.withoutTerminator := by
  unfold withoutTerminator
  split
  · obtain ⟨b, -, hb⟩ := trimEnd_split t.normalize.dropLast
    obtain ⟨c, hc⟩ : ∃ c, t.normalize = t.normalize.dropLast ++ c := by
      rw [List.dropLast_eq_take]
      exact ⟨_, (List.take_append_drop _ _).symm⟩
    have hsplit : t.normalize = trimEnd t.normalize.dropLast ++ (b ++ c) := by
      rw [← List.append_assoc, ← hb, ← hc]
    refine normalize_eq_self ?_ (fun d hd => ?_) (fun d hd => last_trimEnd hd)
    · have htidy := tidy_normalize t
      rw [hsplit] at htidy
      exact htidy.part (a := [])
    · refine head_normalize (t := t) ?_
      rw [hsplit, List.head?_append, hd]
      rfl
  · exact normalize_eq_self (tidy_normalize t) (fun d hd => head_normalize hd)
      (fun d hd => last_normalize hd)

end Text

/-! ## What a checked statement is like -/

theorem Check.nesting_read {whole : Text} {k k' : Check} {c : Char} {cs : Text}
    (h : k.read whole c cs = .ok k') : k'.nesting = k.nesting.next c := by
  unfold Check.read at h
  dsimp only at h
  split_ifs at h
  all_goals first
    | (cases h; rfl)
    | (split at h <;> cases h; rfl)

theorem Check.unquoted_of_run {whole : Text} {k : Check} {t : Text}
    (h : k.run whole t = .ok ()) : (k.nesting.scan t).isQuoted = false := by
  induction t generalizing k with
  | nil =>
      simp only [Check.run, Check.verdict] at h
      by_contra hq
      rw [if_pos (by simpa [Nesting.scan] using hq)] at h
      cases h
  | cons c cs ih =>
      rw [Check.run] at h
      split at h
      · rename_i k' hread
        have hrest := ih h
        rw [Check.nesting_read hread] at hrest
        exact hrest
      · cases h

/-- The literals of a checked statement are closed. -/
theorem clear_of_validate {s : Text} (h : validate s = .ok ()) {q : Track} (hq : q.Clear) :
    (q.scan s).Clear :=
  (hq.agrees_start.scan s).clear (Check.unquoted_of_run h)

end SqlLayout
