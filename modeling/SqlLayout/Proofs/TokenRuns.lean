import SqlLayout.Proofs.CharacterBounds
import SqlLayout.Proofs.ClausePartition

set_option autoImplicit false

/-! # Tokens as runs of bytes

The tokens of a text are the maximal runs of bytes other than the space (`tokens_exact`). The scan
by characters (`Text.tokens`) takes a token as soon as it starts. The loop over the bytes
(`Bytewise.tokens?`) remembers where the last space was, and the nesting behind it, and cuts a token
out of the text when the next space comes; the cut is refused unless characters start at its two
ends.

Both are compared with the scan of `octets`, where a token is a list of bytes. What is pending in
the loop is a part of the text that a scan would still have to read, so the loop is the scan started
at the last space (`Bytewise.tokensFrom_eq`).
-/

namespace SqlLayout

open Text

/-! ## The tokens of a scan -/

namespace Token

theorem scan_cons (i : Nat) (n : Nesting) (inside : Bool) (c : Char) (cs : Text) :
    scan i n inside (c :: cs) =
      (if c != ' ' && !inside then [⟨(c :: cs).takeWhile (· != ' '), i, n⟩] else []) ++
        scan (i + 1) (n.next c) (c != ' ') cs := by
  rw [scan]
  by_cases hc : c = ' '
  · simp [hc]
  · have hc' : (c != ' ') = true := bne_iff_ne.mpr hc
    cases inside <;> simp [hc, hc']

/-- Whether a token goes on behind `a`, where `inside` says whether one goes on before it. -/
def goesOn (inside : Bool) (a : Text) : Bool := (a.getLast?.map (· != ' ')).getD inside

theorem goesOn_cons (inside : Bool) (c : Char) (a : Text) :
    goesOn inside (c :: a) = goesOn (c != ' ') a := by
  cases a with
  | nil => rfl
  | cons x xs => rw [goesOn, List.getLast?_cons_cons, goesOn, List.getLast?_cons]; rfl

theorem goesOn_false_iff {a : Text} :
    goesOn false a = false ↔ ∀ c, a.getLast? = some c → c = ' ' := by
  unfold goesOn
  cases a.getLast? <;> simp

/-- A token starts at each character other than the space behind which no token goes on. -/
theorem mem_scan_iff {i : Nat} {n : Nesting} {inside : Bool} {t : Text} {k : Token} :
    k ∈ scan i n inside t ↔ ∃ a c b, t = a ++ c :: b ∧ c ≠ ' ' ∧ goesOn inside a = false ∧
      k = ⟨(c :: b).takeWhile (· != ' '), i + a.length, n.scan a⟩ := by
  induction t generalizing i n inside with
  | nil => simp [scan]
  | cons d ds ih =>
      have hfirst : k ∈ (if d != ' ' && !inside then
            [(⟨(d :: ds).takeWhile (· != ' '), i, n⟩ : Token)] else []) ↔
          d ≠ ' ' ∧ inside = false ∧ k = ⟨(d :: ds).takeWhile (· != ' '), i, n⟩ := by
        split <;> simp_all
      rw [scan_cons, List.mem_append, hfirst, ih]
      constructor
      · rintro (⟨hd, hinside, hk⟩ | ⟨a, c, b, rfl, hc, hgoes, rfl⟩)
        · exact ⟨[], d, ds, rfl, hd, hinside, hk⟩
        · refine ⟨d :: a, c, b, rfl, hc, by rwa [goesOn_cons], ?_⟩
          rw [List.length_cons, Nat.add_assoc, Nat.add_comm 1]
          rfl
      · rintro ⟨a, c, b, hsplit, hc, hgoes, rfl⟩
        cases a with
        | nil =>
            obtain ⟨rfl, rfl⟩ := List.cons.inj hsplit
            exact Or.inl ⟨hc, hgoes, rfl⟩
        | cons x xs =>
            obtain ⟨rfl, rfl⟩ := List.cons.inj hsplit
            refine Or.inr ⟨xs, c, b, rfl, hc, by rwa [goesOn_cons] at hgoes, ?_⟩
            rw [List.length_cons, Nat.add_assoc, Nat.add_comm 1]
            rfl

theorem pairwise_scan (i : Nat) (n : Nesting) (inside : Bool) (t : Text) :
    ((scan i n inside t).map Token.index).Pairwise (· < ·) := by
  induction t generalizing i n inside with
  | nil => exact List.Pairwise.nil
  | cons c cs ih =>
      have hlater : ∀ j ∈ (scan (i + 1) (n.next c) (c != ' ') cs).map Token.index, i < j := by
        intro j hj
        obtain ⟨k, hk, rfl⟩ := List.mem_map.mp hj
        obtain ⟨a, d, b, -, -, -, rfl⟩ := mem_scan_iff.mp hk
        show i < i + 1 + a.length
        omega
      rw [scan_cons]
      split
      · exact List.pairwise_cons.mpr ⟨hlater, ih _ _ _⟩
      · exact ih _ _ _

theorem takeWhile_word {w rest : Text} (hw : ' ' ∉ w) (hrest : Layout.Resumes rest) :
    (w ++ rest).takeWhile (· != ' ') = w := by
  have hfree : ∀ c ∈ w, (c != ' ') = true := by
    intro c hc
    rw [bne_iff_ne]
    rintro rfl
    exact hw hc
  have hstop : rest.takeWhile (· != ' ') = [] := by
    rcases hrest with rfl | ⟨r, rfl⟩ <;> rfl
  rw [List.takeWhile_append_of_pos hfree, hstop, List.append_nil]

/-- The text of a token and what follows it. -/
theorem exists_rest (t : Text) :
    ∃ rest, t = t.takeWhile (· != ' ') ++ rest ∧ ' ' ∉ t.takeWhile (· != ' ') ∧
      Layout.Resumes rest := by
  refine ⟨t.dropWhile (· != ' '), List.takeWhile_append_dropWhile.symm, ?_, ?_⟩
  · intro hspace
    have hother := List.mem_takeWhile_imp hspace
    simp at hother
  · have hhead := List.head?_dropWhile_not (· != ' ') t
    cases hrest : t.dropWhile (· != ' ') with
    | nil => exact Or.inl rfl
    | cons x xs =>
        rw [hrest] at hhead
        obtain rfl : x = ' ' := by simpa using hhead
        exact Or.inr ⟨xs, rfl⟩

end Token

/-! ## Runs -/

namespace Text

/-- From `i` up to `j` there is no space, and a space or an end of the text on both sides. -/
def IsRun (x : Text) (i j : Nat) : Prop :=
  ∃ a w b, x = a ++ (w ++ b) ∧ a.length = i ∧ i + w.length = j ∧ w ≠ [] ∧ ' ' ∉ w ∧
    (∀ c, a.getLast? = some c → c = ' ') ∧ ∀ c, b.head? = some c → c = ' '

theorem resumes_iff {b : Text} : Layout.Resumes b ↔ ∀ c, b.head? = some c → c = ' ' := by
  cases b with
  | nil => simp [Layout.Resumes]
  | cons c cs => simp [Layout.Resumes]

theorem isRun_iff {x : Text} {i j : Nat} :
    x.IsRun i j ↔ ∃ k ∈ x.tokens, k.index = i ∧ i + k.text.length = j := by
  constructor
  · rintro ⟨a, w, b, rfl, rfl, rfl, hne, hw, ha, hb⟩
    obtain ⟨c, cs, rfl⟩ := List.exists_cons_of_ne_nil hne
    have hc : c ≠ ' ' := by
      rintro rfl
      exact hw List.mem_cons_self
    refine ⟨⟨(c :: (cs ++ b)).takeWhile (· != ' '), 0 + a.length, Nesting.start.scan a⟩, ?_,
      Nat.zero_add _, ?_⟩
    · exact Token.mem_scan_iff.mpr
        ⟨a, c, cs ++ b, rfl, hc, Token.goesOn_false_iff.mpr ha, rfl⟩
    · show a.length + ((c :: cs ++ b).takeWhile (· != ' ')).length = _
      rw [Token.takeWhile_word hw (resumes_iff.mpr hb)]
  · rintro ⟨k, hk, rfl, rfl⟩
    obtain ⟨a, c, b, rfl, hc, hgoes, rfl⟩ := Token.mem_scan_iff.mp hk
    obtain ⟨rest, hsplit, hw, hrest⟩ := Token.exists_rest (c :: b)
    refine ⟨a, (c :: b).takeWhile (· != ' '), rest, by rw [← hsplit], (Nat.zero_add _).symm, rfl,
      ?_, hw, Token.goesOn_false_iff.mp hgoes, resumes_iff.mp hrest⟩
    simp [hc]

end Text

/-! ## Characters and bytes -/

/-- The token with its place counted in bytes of the text. -/
def Token.inBytes (whole : Text) (k : Token) : Token := { k with index := whole.byteOffset k.index }

namespace Text

theorem space_mem_octets {t : Text} : ' ' ∈ t.octets ↔ ' ' ∈ t := by
  induction t with
  | nil => rfl
  | cons c cs ih =>
      have hc : ' ' ∈ octets [c] ↔ ' ' = c := by
        by_cases hhigh : IsHigh c
        · constructor
          · intro hmem
            exact absurd rfl ((isHigh_of_mem_octets hhigh ' ' hmem).ne (by decide))
          · rintro rfl
            exact absurd rfl (hhigh.ne (by decide))
        · rw [octets_of_ascii hhigh, List.mem_singleton]
      rw [octets_cons, List.mem_append, ih, hc, List.mem_cons]

theorem resumes_octets {r : Text} (h : Layout.Resumes r) : Layout.Resumes r.octets := by
  rcases h with rfl | ⟨r, rfl⟩
  · exact Or.inl rfl
  · exact Or.inr ⟨octets r, octets_cons ' ' r⟩

theorem takeWhile_octets (t : Text) :
    t.octets.takeWhile (· != ' ') = octets (t.takeWhile (· != ' ')) := by
  obtain ⟨rest, hsplit, hw, hrest⟩ := Token.exists_rest t
  conv_lhs => rw [hsplit]
  rw [octets_append]
  exact Token.takeWhile_word (by rwa [space_mem_octets]) (resumes_octets hrest)

end Text

theorem Token.scan_true_append {w : Text} (hw : ' ' ∉ w) (i : Nat) (n : Nesting) (r : Text) :
    scan i n true (w ++ r) = scan (i + w.length) (n.scan w) true r := by
  induction w generalizing i n with
  | nil => rfl
  | cons c cs ih =>
      have hc : c ≠ ' ' := by
        rintro rfl
        exact hw List.mem_cons_self
      have hcs : ' ' ∉ cs := fun h => hw (List.mem_cons_of_mem c h)
      rw [List.cons_append, scan_cons, bne_iff_ne.mpr hc]
      simp only [Bool.not_true, Bool.and_false, Bool.false_eq_true, if_false, List.nil_append]
      rw [ih hcs, List.length_cons, Nat.add_assoc, Nat.add_comm 1]
      rfl

theorem Token.scan_word {w rest : Text} (hne : w ≠ []) (hw : ' ' ∉ w)
    (hrest : Layout.Resumes rest) (i : Nat) (n : Nesting) :
    scan i n false (w ++ rest) = ⟨w, i, n⟩ :: scan (i + w.length) (n.scan w) false rest := by
  have hflag : ∀ (j : Nat) (m : Nesting), scan j m true rest = scan j m false rest := by
    intro j m
    rcases hrest with rfl | ⟨r, rfl⟩ <;> rfl
  obtain ⟨c, cs, rfl⟩ := List.exists_cons_of_ne_nil hne
  have hc : (c != ' ') = true := by
    rw [bne_iff_ne]
    rintro rfl
    exact hw List.mem_cons_self
  have hcs : ' ' ∉ cs := fun h => hw (List.mem_cons_of_mem c h)
  calc scan i n false (c :: (cs ++ rest))
      = ⟨(c :: cs ++ rest).takeWhile (· != ' '), i, n⟩
          :: scan (i + 1) (n.next c) true (cs ++ rest) := by
        rw [scan_cons, hc]
        rfl
    _ = ⟨c :: cs, i, n⟩ :: scan (i + 1 + cs.length) ((n.next c).scan cs) false rest := by
        rw [takeWhile_word hw hrest, scan_true_append hcs, hflag]
    _ = ⟨c :: cs, i, n⟩ :: scan (i + (c :: cs).length) (n.scan (c :: cs)) false rest := by
        rw [List.length_cons, Nat.add_assoc, Nat.add_comm 1]
        rfl

/-- The scan of the bytes behind `a` finds the tokens of the text behind `a`. -/
theorem Token.scan_octets {n : Nesting} (hn : n.quoting.Sound) (inside : Bool) (a t : Text) :
    scan a.octets.length n inside t.octets = (scan a.length n inside t).map
      fun k => { k.inBytes (a ++ t) with text := k.text.octets } := by
  induction t generalizing a n inside with
  | nil => rfl
  | cons c cs ih =>
      have hlater := ih (Nesting.sound_next hn c) (c != ' ') (a ++ [c])
      rw [List.append_assoc, List.singleton_append, octets_append, List.length_append,
        List.length_append, List.length_singleton] at hlater
      have hplace : byteOffset (a ++ c :: cs) a.length = a.octets.length := byteOffset_append _ _
      obtain ⟨d, ds, hd⟩ := List.exists_cons_of_ne_nil (octets_ne_nil c)
      have hspaces : ∀ e ∈ octets [c], (e != ' ') = (c != ' ') := by
        intro e he
        by_cases hhigh : IsHigh c
        · rw [bne_iff_ne.mpr ((isHigh_of_mem_octets hhigh e he).ne (by decide)),
            bne_iff_ne.mpr (hhigh.ne (by decide))]
        · rw [octets_of_ascii hhigh, List.mem_singleton] at he
          rw [he]
      -- the bytes of `c` behind the first one belong to no other token
      have hpassed : scan (a.octets.length + 1) (n.next d) (d != ' ') (ds ++ octets cs)
          = scan (a.octets.length + (octets [c]).length) (n.next c) (c != ' ') (octets cs) := by
        have hstate : n.next c = (n.next d).scan ds := by
          calc n.next c = n.scan (octets [c]) := (Nesting.scan_octets hn c).symm
            _ = (n.next d).scan ds := by rw [hd]; rfl
        rw [hspaces d (by rw [hd]; exact List.mem_cons_self), hd, hstate, List.length_cons]
        by_cases hc : c = ' '
        · subst hc
          obtain ⟨-, rfl⟩ : ' ' = d ∧ [] = ds := List.cons.inj hd
          rfl
        · have hfree : ' ' ∉ ds := by
            intro hmem
            have hother := hspaces ' ' (by rw [hd]; exact List.mem_cons_of_mem d hmem)
            simp [hc] at hother
          rw [bne_iff_ne.mpr hc, scan_true_append hfree, Nat.add_assoc, Nat.add_comm 1]
      rw [scan_cons, List.map_append, ← hlater, ← hpassed, octets_cons, hd, List.cons_append,
        scan_cons]
      congr 1
      rw [hspaces d (by rw [hd]; exact List.mem_cons_self)]
      split
      · have htext : (d :: (ds ++ octets cs)).takeWhile (· != ' ')
            = octets ((c :: cs).takeWhile (· != ' ')) := by
          rw [← takeWhile_octets, octets_cons c, hd, List.cons_append]
        rw [htext, List.map_singleton, Token.inBytes]
        show [_] = [_]
        rw [hplace]
      · rfl

theorem Text.tokens_octets (t : Text) :
    t.octets.tokens = t.tokens.map fun k => { k.inBytes t with text := k.text.octets } :=
  Token.scan_octets sound_start false [] t

/-! ## The tokens put together again -/

namespace Text

/-- Each space stands between two characters other than the space. -/
def SingleSpaced (t : Text) : Prop :=
  ∀ a b, t = a ++ ' ' :: b →
    (∃ c, a.getLast? = some c ∧ c ≠ ' ') ∧ ∃ c, b.head? = some c ∧ c ≠ ' '

theorem SingleSpaced.after {w r : Text} (h : SingleSpaced (w ++ ' ' :: r)) : SingleSpaced r := by
  intro a b hsplit
  obtain ⟨⟨c, hlast, hc⟩, hnext⟩ := h (w ++ ' ' :: a) b (by rw [hsplit, List.append_assoc]; rfl)
  obtain ⟨-, d, hhead, hd⟩ := h w r rfl
  refine ⟨?_, hnext⟩
  cases a with
  | nil =>
      rw [hsplit] at hhead
      exact absurd (Option.some.inj hhead).symm hd
  | cons x xs =>
      refine ⟨c, ?_, hc⟩
      rwa [List.getLast?_append_of_ne_nil _ (by simp), List.getLast?_cons_cons] at hlast

theorem singleSpaced_of_free {w : Text} (hw : ' ' ∉ w) : SingleSpaced w := by
  rintro a b rfl
  exact absurd (List.mem_append_right a List.mem_cons_self) hw

theorem SingleSpaced.cons {w r : Text} (hne : w ≠ []) (hw : ' ' ∉ w) (hr : SingleSpaced r)
    (hhead : ∃ c, r.head? = some c ∧ c ≠ ' ') : SingleSpaced (w ++ ' ' :: r) := by
  intro a b hsplit
  rcases List.append_eq_append_iff.mp hsplit with ⟨a', rfl, hr'⟩ | ⟨b', rfl, hb⟩
  · -- the space stands behind `w`
    cases a' with
    | nil =>
        obtain ⟨-, rfl⟩ := List.cons.inj hr'
        refine ⟨⟨w.getLast hne, ?_, ?_⟩, hhead⟩
        · rw [List.append_nil, List.getLast?_eq_getLast_of_ne_nil hne]
        · intro hspace
          exact hw (hspace ▸ List.getLast_mem hne)
    | cons x xs =>
        obtain ⟨rfl, rfl⟩ := List.cons.inj hr'
        obtain ⟨⟨c, hlast, hc⟩, hnext⟩ := hr xs b rfl
        refine ⟨⟨c, ?_, hc⟩, hnext⟩
        cases xs with
        | nil => cases hlast
        | cons y ys =>
            rw [List.getLast?_append_of_ne_nil _ (by simp), List.getLast?_cons_cons, hlast]
  · cases b' with
    | nil =>
        obtain ⟨-, rfl⟩ := List.cons.inj hb
        rw [List.append_nil] at hne hw
        refine ⟨⟨a.getLast hne, List.getLast?_eq_getLast_of_ne_nil hne, ?_⟩, hhead⟩
        intro hspace
        exact hw (hspace ▸ List.getLast_mem hne)
    | cons x xs =>
        obtain ⟨rfl, -⟩ := List.cons.inj hb
        exact absurd (List.mem_append_right a List.mem_cons_self) hw

theorem singleSpaced_join {ws : List Text} (h : ∀ w ∈ ws, w ≠ [] ∧ ' ' ∉ w) :
    SingleSpaced (join [' '] ws) := by
  induction ws with
  | nil => exact singleSpaced_of_free (by simp [join])
  | cons w ws ih =>
      obtain ⟨hne, hw⟩ := h w List.mem_cons_self
      cases ws with
      | nil => exact singleSpaced_of_free hw
      | cons v vs =>
          obtain ⟨hvne, hv⟩ := h v (by simp)
          obtain ⟨c, cs, rfl⟩ := List.exists_cons_of_ne_nil hvne
          have hhead : (join [' '] ((c :: cs) :: vs)).head? = some c := by
            cases vs <;> rfl
          have hc : c ≠ ' ' := by
            rintro rfl
            exact hv List.mem_cons_self
          rw [join, List.append_assoc]
          exact SingleSpaced.cons hne hw (ih fun u hu => h u (List.mem_cons_of_mem w hu))
            ⟨c, hhead, hc⟩

theorem join_scan {i : Nat} {n : Nesting} {t : Text} {ks : List Token}
    (hks : Token.scan i n false t = ks) (h : SingleSpaced t) :
    join [' '] (ks.map Token.text) = t := by
  induction ks generalizing i n t with
  | nil =>
      cases t with
      | nil => rfl
      | cons c cs =>
          obtain rfl := Token.eq_space_of_scan_eq_nil hks c List.mem_cons_self
          obtain ⟨⟨d, hd, -⟩, -⟩ := h [] cs rfl
          cases hd
  | cons k ks ih =>
      obtain ⟨lead, rest, rfl, hlead, hne, htext, hrest, -, -, hlater⟩ := Token.scan_split hks
      obtain rfl : lead = [] := by
        cases lead with
        | nil => rfl
        | cons c cs =>
            obtain rfl := hlead c List.mem_cons_self
            obtain ⟨⟨d, hd, -⟩, -⟩ := h [] _ rfl
            cases hd
      rw [List.nil_append] at h ⊢
      rcases hrest with rfl | ⟨r, rfl⟩
      · rw [hlater, List.append_nil]
        rfl
      · -- a space behind the token is not the last character, so a token follows it
        obtain ⟨-, c, hhead, hc⟩ := h k.text r rfl
        have hjoin : join [' '] (ks.map Token.text) = r := ih hlater.symm (t := r) h.after
        cases ks with
        | nil =>
            rw [← hjoin] at hhead
            cases hhead
        | cons k' ks =>
            rw [List.map_cons, List.map_cons, join, ← List.map_cons, hjoin, List.append_assoc]
            rfl

/-- The tokens with single spaces between them are the text exactly if it is single-spaced. -/
theorem join_tokens_iff (t : Text) :
    join [' '] (t.tokens.map Token.text) = t ↔ SingleSpaced t := by
  constructor
  · intro h
    rw [← h]
    apply singleSpaced_join
    intro w hw
    obtain ⟨k, hk, rfl⟩ := List.mem_map.mp hw
    obtain ⟨a, c, b, -, hc, -, rfl⟩ := Token.mem_scan_iff.mp hk
    obtain ⟨-, -, hfree, -⟩ := Token.exists_rest (c :: b)
    refine ⟨?_, hfree⟩
    simp [hc]
  · exact join_scan rfl

end Text

/-! ## The loop over the bytes -/

namespace Bytewise

/-- The token between two byte offsets of a text. -/
def token? (t : Text) (start stop : Nat) (n : Nesting) : Option Token :=
  (t.slice? start stop).map fun w => ⟨w, start, n⟩

/-- The tokens of a text, where the byte at offset `i` comes next and the nesting there is `n`; the
byte behind the last space is at `start`, and `atStart` is the nesting there. -/
def tokensFrom (t : Text) : Nat → Nat → Nesting → Nesting → Text → Option (List Token)
  | _, start, _, atStart, [] =>
    if start < t.byteLength then do
      let k ← token? t start t.byteLength atStart
      some [k]
    else some []
  | i, start, n, atStart, c :: cs =>
    if c == ' ' then
      if start < i then do
        let k ← token? t start i atStart
        let ks ← tokensFrom t (i + 1) (i + 1) (n.next c) (n.next c) cs
        some (k :: ks)
      else tokensFrom t (i + 1) (i + 1) (n.next c) (n.next c) cs
    else tokensFrom t (i + 1) start (n.next c) atStart cs

/-- The tokens of a text, with byte offsets for places. -/
def tokens? (t : Text) : Option (List Token) := tokensFrom t 0 0 .start .start t.octets

/-- A token that is a list of bytes, cut out of the text it comes from. -/
def recut? (t : Text) (k : Token) : Option Token :=
  token? t k.index (k.index + k.text.length) k.nesting

/-- What has been read since the last space is `w`, so the loop does what a scan does that starts
at the last space. -/
theorem tokensFrom_eq {t rest : Text} (w : Text) (start : Nat) (hw : ' ' ∉ w)
    (hlength : start + w.length + rest.length = t.byteLength) (n : Nesting) :
    tokensFrom t (start + w.length) start (n.scan w) n rest
      = (Token.scan start n false (w ++ rest)).mapM (recut? t) := by
  induction rest generalizing w start n with
  | nil =>
      rw [List.length_nil, Nat.add_zero] at hlength
      rw [tokensFrom, ← hlength]
      cases w with
      | nil => simp [Token.scan]
      | cons c cs =>
          rw [Token.scan_word (List.cons_ne_nil c cs) hw (Or.inl rfl)]
          simp [Token.scan, recut?]
  | cons c cs ih =>
      rw [tokensFrom]
      by_cases hc : c = ' '
      · subst hc
        -- the space ends `w`, and the next token starts behind it
        have hlater := ih [] (start + w.length + 1) (by simp)
          (by simp only [List.length_nil, List.length_cons] at hlength ⊢; omega)
          ((n.scan w).next ' ')
        rw [List.length_nil, Nat.add_zero, List.nil_append] at hlater
        have hlater' : tokensFrom t (start + w.length + 1) (start + w.length + 1)
            ((n.scan w).next ' ') ((n.scan w).next ' ') cs
              = (Token.scan (start + w.length) (n.scan w) false (' ' :: cs)).mapM (recut? t) :=
            hlater
        rw [if_pos (by rfl), hlater']
        cases w with
        | nil => simp [Nesting.scan]
        | cons d ds =>
            rw [Token.scan_word (List.cons_ne_nil d ds) hw (Or.inr ⟨cs, rfl⟩), List.mapM_cons,
              if_pos (by simp)]
            rfl
      · -- `c` goes on with the token
        have hnext := ih (w ++ [c]) start (by simp [hw, Ne.symm hc])
          (by
            simp only [List.length_append, List.length_cons, List.length_nil] at hlength ⊢
            omega) n
        rw [List.length_append, List.append_assoc, Nesting.scan_append] at hnext
        rw [if_neg (by simpa using hc)]
        exact hnext

theorem mapM_eq_some {α β : Type} {f : α → Option β} {g : α → β} {l : List α}
    (h : ∀ a ∈ l, f a = some (g a)) : l.mapM f = some (l.map g) := by
  induction l with
  | nil => rfl
  | cons a l ih =>
      rw [List.mapM_cons, h a List.mem_cons_self, ih fun b hb => h b (List.mem_cons_of_mem a hb)]
      rfl

end Bytewise

theorem Text.slice?_of_mem_tokens {t : Text} {k : Token} (h : k ∈ t.tokens) :
    t.slice? (t.byteOffset k.index) (t.byteOffset k.index + k.text.byteLength) = some k.text := by
  obtain ⟨a, c, b, rfl, -, -, rfl⟩ := Token.mem_scan_iff.mp h
  obtain ⟨rest, hsplit, -⟩ := Token.exists_rest (c :: b)
  have hcut := slice?_append a ((c :: b).takeWhile (· != ' ')) rest
  rw [← hsplit] at hcut
  rwa [Nat.zero_add, byteOffset_append, ← length_octets]

/-- No cut of the loop is refused, and it finds the tokens of the text. -/
theorem Bytewise.tokens?_eq (t : Text) : tokens? t = some (t.tokens.map (Token.inBytes t)) := by
  have hscan : tokens? t = t.octets.tokens.mapM (recut? t) :=
    tokensFrom_eq [] 0 (by simp) (by rw [length_octets]; simp) .start
  rw [hscan, tokens_octets, List.mapM_map]
  apply mapM_eq_some
  intro k hk
  have hcut := slice?_of_mem_tokens hk
  rw [← length_octets] at hcut
  simp only [Function.comp_apply, recut?, token?, Token.inBytes, hcut, Option.map_some]

/-- The tokens of a text are its maximal runs of bytes other than the space, from left to right.
Each is the part of the text at its offset, with the nesting after the bytes before it. The loop
over the bytes finds them. Single spaces between them give the text back exactly if each space of
the text stands between two other characters. -/
theorem tokens_exact (t : Text) :
    (t.tokens.map fun k => t.byteOffset k.index).Pairwise (· < ·) ∧
    (∀ i j, t.octets.IsRun i j ↔
      ∃ k ∈ t.tokens, t.byteOffset k.index = i ∧ i + k.text.byteLength = j) ∧
    (∀ k ∈ t.tokens,
      t.slice? (t.byteOffset k.index) (t.byteOffset k.index + k.text.byteLength) = some k.text ∧
      k.nesting = Nesting.after (t.octets.take (t.byteOffset k.index))) ∧
    Bytewise.tokens? t = some (t.tokens.map (Token.inBytes t)) ∧
    (join [' '] (t.tokens.map Token.text) = t ↔ SingleSpaced t) := by
  refine ⟨?_, ?_, ?_, Bytewise.tokens?_eq t, join_tokens_iff t⟩
  · have hbytes := Token.pairwise_scan 0 .start false t.octets
    rw [← Text.tokens, tokens_octets, List.map_map] at hbytes
    exact hbytes
  · intro i j
    rw [isRun_iff, tokens_octets]
    simp [Token.inBytes, length_octets]
  · intro k hk
    refine ⟨slice?_of_mem_tokens hk, ?_⟩
    rw [take_octets, Nesting.after_octets]
    exact nesting_of_mem_tokens hk

/-- Spaces in front, twice in a row and in a literal, and a character of two bytes. -/
def spacedOut : Text := " é  'a \x5c' (b' (c".toList

theorem tokens_exact_spacedOut :
    spacedOut.tokens.map (fun k => (k.text, spacedOut.byteOffset k.index)) =
      [("é".toList, 1), ("'a".toList, 5), ("\x5c'".toList, 8), ("(b'".toList, 11),
        ("(c".toList, 15)] ∧
    spacedOut.octets.IsRun 1 3 ∧ ¬ spacedOut.octets.IsRun 6 7 ∧ ¬ SingleSpaced spacedOut ∧
    (∀ k ∈ spacedOut.tokens,
      k.nesting = Nesting.after (spacedOut.octets.take (spacedOut.byteOffset k.index))) := by
  obtain ⟨-, hruns, hplaces, -, hjoin⟩ := tokens_exact spacedOut
  refine ⟨by decide +kernel, (hruns 1 3).mpr ?_, ?_, ?_, fun k hk => (hplaces k hk).2⟩
  · exact ⟨⟨['é'], 1, .start⟩, by decide +kernel, by decide +kernel, by decide +kernel⟩
  · rw [hruns]
    decide +kernel
  · rw [← hjoin]
    decide +kernel

end SqlLayout
