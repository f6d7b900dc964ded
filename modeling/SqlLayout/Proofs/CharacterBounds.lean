import SqlLayout.Proofs.LetterCase
import SqlLayout.Proofs.Partners

set_option autoImplicit false

/-! # Where characters start among the bytes

A text may be cut at a byte offset only where a character starts or the text ends
(`Text.IsBoundary`). `Text.slice?` cuts by bytes and refuses every other offset.

Nothing has to be known about the text in front of an offset to see whether a character starts
there: the first byte of a character differs from the other ones (`octets_split_first`), and no
character begins with all the bytes of another one (`octets_isPrefix_iff`). So where a search
through the bytes of a text comes upon the bytes of another text, that text stands there
(`startsWith_octets`, `find?_octets`).
-/

namespace SqlLayout

namespace Text

/-! ## Lengths and offsets -/

theorem byteLength_append (a b : Text) : byteLength (a ++ b) = byteLength a + byteLength b := by
  rw [← length_octets, ← length_octets, ← length_octets, octets_append, List.length_append]

theorem byteOffset_add (t : Text) (i k : Nat) :
    t.byteOffset (i + k) = t.byteOffset i + byteLength ((t.drop i).take k) := by
  rw [byteOffset, List.take_add, byteLength_append, byteOffset]

/-- A word takes as many bytes in one spelling as in another. -/
theorem byteOffset_spelled {t k : Text} {i : Nat}
    (h : upper ((t.drop i).take k.length) = k.upper) :
    t.byteOffset (i + k.length) = t.byteOffset i + k.byteLength := by
  rw [byteOffset_add, ← byteLength_upper, h, byteLength_upper]

/-- An offset inside an occurrence. -/
theorem byteOffset_within {t k : Text} {i : Nat} (m : Nat)
    (h : upper ((t.drop i).take k.length) = k.upper) (hm : m ≤ k.length) :
    t.byteOffset (i + m) = t.byteOffset i + byteLength (k.take m) := by
  have hlength : (k.take m).length = m := by rw [List.length_take, Nat.min_eq_left hm]
  have hspelled : upper ((t.drop i).take (k.take m).length) = upper (k.take m) := by
    calc upper ((t.drop i).take (k.take m).length)
        = upper (((t.drop i).take k.length).take m) := by
          rw [List.take_take, Nat.min_eq_left hm, hlength]
      _ = upper (k.take m) := by rw [← take_upper, h, take_upper]
  have hoffset := byteOffset_spelled hspelled
  rwa [hlength] at hoffset

theorem le_length_of_spelled {t k : Text} {i : Nat} (hk : k ≠ [])
    (h : upper ((t.drop i).take k.length) = k.upper) : i + k.length ≤ t.length := by
  have hlength := length_eq_of_upper_eq h
  have hpos := List.length_pos_of_ne_nil hk
  rw [List.length_take, List.length_drop] at hlength
  omega

theorem byteOffset_mono (t : Text) {i j : Nat} (h : i ≤ j) : t.byteOffset i ≤ t.byteOffset j := by
  obtain ⟨k, rfl⟩ := Nat.exists_eq_add_of_le h
  rw [byteOffset_add]
  exact Nat.le_add_right _ _

theorem byteOffset_lt {t : Text} {i j : Nat} (hij : i < j) (hi : i < t.length) :
    t.byteOffset i < t.byteOffset j := by
  have hnext : t.byteOffset (i + 1) = t.byteOffset i + (t[i]).utf8Size := by
    rw [byteOffset_add, List.drop_eq_getElem_cons hi]
    rfl
  have hpos := (t[i]).utf8Size_pos
  have hmono : t.byteOffset (i + 1) ≤ t.byteOffset j := t.byteOffset_mono hij
  omega

theorem byteOffset_next {t : Text} {i : Nat} {d : Char} (h : t[i]? = some d)
    (hd : d.utf8Size = 1) : t.byteOffset (i + 1) = t.byteOffset i + 1 := by
  obtain ⟨hi, rfl⟩ := List.getElem?_eq_some_iff.mp h
  rw [byteOffset_add, List.drop_eq_getElem_cons hi]
  show _ + (t[i].utf8Size + 0) = _
  rw [hd]

theorem indexBefore_byteOffset (t : Text) (i : Nat) :
    indexBefore (t.byteOffset i) t = min i t.length := by
  induction t generalizing i with
  | nil => cases i <;> simp [byteOffset, byteLength, indexBefore]
  | cons c cs ih =>
      cases i with
      | zero => simp [byteOffset, byteLength, indexBefore]
      | succ i =>
          have hsplit : byteOffset (c :: cs) (i + 1) = c.utf8Size + byteOffset cs i := rfl
          have hpos : 0 < c.utf8Size + byteOffset cs i := Nat.add_pos_left c.utf8Size_pos _
          obtain ⟨m, hm⟩ := Nat.exists_eq_succ_of_ne_zero (Nat.ne_of_gt hpos)
          have hrest : m + 1 - c.utf8Size = byteOffset cs i := by omega
          rw [hsplit, hm, indexBefore, hrest, ih, List.length_cons, Nat.add_min_add_right]

theorem take_octets (t : Text) (i : Nat) : t.octets.take (t.byteOffset i) = octets (t.take i) := by
  have hlength : t.byteOffset i = (octets (t.take i)).length := by rw [length_octets, byteOffset]
  calc t.octets.take (t.byteOffset i)
      = (octets (t.take i) ++ octets (t.drop i)).take (t.byteOffset i) := by
        rw [← octets_append, List.take_append_drop]
    _ = octets (t.take i) := by rw [hlength, List.take_left]

theorem drop_octets (t : Text) (i : Nat) : t.octets.drop (t.byteOffset i) = octets (t.drop i) := by
  have hlength : t.byteOffset i = (octets (t.take i)).length := by rw [length_octets, byteOffset]
  calc t.octets.drop (t.byteOffset i)
      = (octets (t.take i) ++ octets (t.drop i)).drop (t.byteOffset i) := by
        rw [← octets_append, List.take_append_drop]
    _ = octets (t.drop i) := by rw [hlength, List.drop_left]

/-- An ASCII character occurs as often among the bytes as among the characters. -/
theorem count_octets {d : Char} (hd : d.toNat < 0x80) (t : Text) :
    t.octets.count d = t.count d := by
  induction t with
  | nil => rfl
  | cons c cs ih =>
      rw [octets_cons, List.count_append, ih]
      by_cases hc : IsHigh c
      · have hnone : (octets [c]).count d = 0 :=
          List.count_eq_zero_of_not_mem fun hmem => (isHigh_of_mem_octets hc d hmem).ne hd rfl
        rw [hnone, List.count_cons_of_ne (hc.ne hd), Nat.zero_add]
      · rw [octets_of_ascii hc, ← List.count_append]
        rfl

/-! ## Boundaries -/

/-- A character starts at the offset, or the text ends there. -/
def IsBoundary (t : Text) (b : Nat) : Prop := ∃ x y, t = x ++ y ∧ x.byteLength = b

theorem isBoundary_byteOffset (t : Text) (i : Nat) : t.IsBoundary (t.byteOffset i) :=
  ⟨t.take i, t.drop i, (List.take_append_drop i t).symm, rfl⟩

theorem isBoundary_next {t : Text} {i : Nat} {d : Char} (h : t[i]? = some d)
    (hd : d.utf8Size = 1) : t.IsBoundary (t.byteOffset i + 1) := by
  rw [← byteOffset_next h hd]
  exact isBoundary_byteOffset t (i + 1)

theorem isBoundary_behind {t k : Text} {i : Nat}
    (h : upper ((t.drop i).take k.length) = k.upper) :
    t.IsBoundary (t.byteOffset i + k.byteLength) := by
  rw [← byteOffset_spelled h]
  exact isBoundary_byteOffset t (i + k.length)

theorem isBoundary_iff {t : Text} {b : Nat} : t.IsBoundary b ↔ (indexAt? b t).isSome = true := by
  constructor
  · rintro ⟨x, y, rfl, rfl⟩
    rw [← length_octets, ← byteOffset_append x y, indexAt?_byteOffset]
    rfl
  · intro h
    obtain ⟨i, hi⟩ := Option.isSome_iff_exists.mp h
    rw [← indexAt?_eq_some hi]
    exact isBoundary_byteOffset t i

instance (t : Text) (b : Nat) : Decidable (t.IsBoundary b) := decidable_of_iff _ isBoundary_iff.symm

/-! ## Cuts by bytes -/

/-- The part of a text between two byte offsets. The cut is refused if one of them is no boundary
of the text, or if they come in the wrong order. -/
def slice? (t : Text) (i j : Nat) : Option Text :=
  match indexAt? i t, indexAt? j t with
  | some a, some b => if a ≤ b then some ((t.take b).drop a) else none
  | _, _ => none

theorem slice?_byteOffset (t : Text) {i j : Nat} (h : i ≤ j) :
    t.slice? (t.byteOffset i) (t.byteOffset j) = some ((t.take j).drop i) := by
  have htake : t.take (min j t.length) = t.take j := by
    rcases Nat.le_total j t.length with hle | hle
    · rw [Nat.min_eq_left hle]
    · rw [Nat.min_eq_right hle, List.take_length, List.take_of_length_le hle]
  have hdrop : (t.take j).drop (min i t.length) = (t.take j).drop i := by
    rcases Nat.le_total i t.length with hle | hle
    · rw [Nat.min_eq_left hle]
    · have hlength := List.length_take_le j t
      have hlength' := List.length_take_le' j t
      rw [Nat.min_eq_right hle, List.drop_of_length_le hlength', List.drop_of_length_le (by omega)]
  rw [slice?, indexAt?_byteOffset, indexAt?_byteOffset]
  dsimp only
  rw [if_pos (by omega), htake, hdrop]

theorem slice?_zero (t : Text) (j : Nat) : t.slice? 0 (t.byteOffset j) = some (t.take j) :=
  slice?_byteOffset t (Nat.zero_le j)

theorem slice?_end (t : Text) (i : Nat) :
    t.slice? (t.byteOffset i) t.byteLength = some (t.drop i) := by
  have hall : t.take (i + t.length) = t := List.take_of_length_le (Nat.le_add_left _ _)
  have hend : t.byteLength = t.byteOffset (i + t.length) := by rw [byteOffset, hall]
  rw [hend, slice?_byteOffset t (Nat.le_add_right _ _), hall]

/-- The bytes from the end of an occurrence on. -/
theorem slice?_behind {t k : Text} {i : Nat} (h : upper ((t.drop i).take k.length) = k.upper) :
    t.slice? (t.byteOffset i + k.byteLength) t.byteLength = some (t.drop (i + k.length)) := by
  rw [← byteOffset_spelled h, slice?_end]

theorem slice?_suffix (a b : Text) :
    (a ++ b).slice? a.octets.length (a ++ b).byteLength = some b := by
  rw [← byteOffset_append a b, slice?_end, List.drop_left]

theorem slice?_append (a b c : Text) :
    (a ++ (b ++ c)).slice? a.octets.length (a.octets.length + b.octets.length) = some b := by
  have hmiddle : a.octets.length + b.octets.length
      = (a ++ (b ++ c)).byteOffset (a ++ b).length := by
    rw [← List.append_assoc, byteOffset_append, octets_append, List.length_append]
  have hfirst : a.octets.length = (a ++ (b ++ c)).byteOffset a.length :=
    (byteOffset_append a (b ++ c)).symm
  rw [hmiddle, hfirst, slice?_byteOffset _ (by rw [List.length_append]; omega),
    ← List.append_assoc, List.take_left, List.drop_left]

theorem slice?_eq_some {t w : Text} {i j : Nat} (h : t.slice? i j = some w) :
    ∃ x y, t = x ++ (w ++ y) ∧ x.byteLength = i ∧ i + w.byteLength = j := by
  unfold slice? at h
  split at h
  · rename_i a b ha hb
    split at h
    · rename_i hab
      obtain rfl := Option.some.inj h
      have hwhole : t.take a ++ (t.take b).drop a = t.take b := by
        calc t.take a ++ (t.take b).drop a = (t.take b).take a ++ (t.take b).drop a := by
              rw [List.take_take, Nat.min_eq_left hab]
          _ = t.take b := List.take_append_drop a _
      refine ⟨t.take a, t.drop b, ?_, indexAt?_eq_some ha, ?_⟩
      · rw [← List.append_assoc, hwhole, List.take_append_drop]
      · rw [← indexAt?_eq_some ha, ← indexAt?_eq_some hb, byteOffset, ← byteLength_append, hwhole,
          byteOffset]
    · cases h
  · cases h

/-- A cut is refused exactly where the offsets are no boundaries or come in the wrong order. -/
theorem isSome_slice?_iff {t : Text} {i j : Nat} :
    (t.slice? i j).isSome = true ↔ t.IsBoundary i ∧ t.IsBoundary j ∧ i ≤ j := by
  constructor
  · intro h
    obtain ⟨w, hw⟩ := Option.isSome_iff_exists.mp h
    obtain ⟨x, y, rfl, rfl, rfl⟩ := slice?_eq_some hw
    refine ⟨⟨x, w ++ y, rfl, rfl⟩, ⟨x ++ w, y, ?_, byteLength_append x w⟩, Nat.le_add_right _ _⟩
    rw [List.append_assoc]
  · rintro ⟨⟨x, y, hx, hi⟩, ⟨x', y', hx', hj⟩, hle⟩
    have hoffset : t.byteOffset x.length = i := by rw [hx, byteOffset_append, length_octets, hi]
    have hoffset' : t.byteOffset x'.length = j := by rw [hx', byteOffset_append, length_octets, hj]
    have hlength : x.length ≤ t.length := by rw [hx, List.length_append]; omega
    have horder : x.length ≤ x'.length := by
      by_contra hlt
      have hback : t.byteOffset x'.length < t.byteOffset x.length :=
        byteOffset_lt (by omega) (by omega)
      omega
    rw [← hoffset, ← hoffset', slice?_byteOffset t horder]
    rfl

/-! ## Letter case -/

theorem IsHigh.toUpper_eq {c : Char} (h : IsHigh c) : c.toUpper = c := by
  rcases toUpper_cases c with heq | ⟨n, rfl, -⟩
  · exact heq
  · have hsmall : ∀ n : Fin 26, (Char.ofNat (97 + n)).toNat < 0x80 := by decide
    exact absurd (hsmall n) (Nat.not_lt_of_le h)

theorem isHigh_toUpper (c : Char) : IsHigh c.toUpper ↔ IsHigh c := by
  rcases toUpper_cases c with heq | ⟨n, rfl, hupper⟩
  · rw [heq]
  · have hsmall : ∀ n : Fin 26, (Char.ofNat (97 + n)).toNat < 0x80 ∧
        (Char.ofNat (65 + n)).toNat < 0x80 := by decide
    rw [hupper]
    exact iff_of_false (Nat.not_le_of_lt (hsmall n).2) (Nat.not_le_of_lt (hsmall n).1)

theorem octets_upper (t : Text) : t.upper.octets = t.octets.upper := by
  induction t with
  | nil => rfl
  | cons c cs ih =>
      rw [upper_cons, octets_cons, octets_cons c, upper_append, ih]
      by_cases hc : IsHigh c
      · have hkept : upper (octets [c]) = octets [c] := by
          calc upper (octets [c]) = (octets [c]).map id := List.map_congr_left
                (fun d hd => (isHigh_of_mem_octets hc d hd).toUpper_eq)
            _ = octets [c] := List.map_id _
        rw [hc.toUpper_eq, hkept]
      · have hc' : ¬ IsHigh c.toUpper := by rwa [isHigh_toUpper]
        rw [octets_of_ascii hc, octets_of_ascii hc']
        rfl

/-! ## First bytes -/

/-- A byte with which a character starts. -/
def StartsCharacter (d : Char) : Prop := d.toUInt8.IsUTF8FirstByte

theorem toUInt8_ofUInt8 (b : UInt8) : (Char.ofUInt8 b).toUInt8 = b := by
  have hval : (Char.ofUInt8 b).val.toNat = b.toNat := rfl
  apply UInt8.toNat_inj.mp
  calc (Char.ofUInt8 b).toUInt8.toNat = (Char.ofUInt8 b).val.toNat % 256 := rfl
    _ = b.toNat := by rw [hval, Nat.mod_eq_of_lt b.toNat_lt]

theorem startsCharacter_of_ascii {d : Char} (h : ¬ IsHigh d) : StartsCharacter d := by
  have hbits : ∀ n : Fin 128, UInt8.ofNat n &&& 128 = 0 := by decide
  have hbyte : d.toUInt8 = UInt8.ofNat d.toNat := rfl
  unfold StartsCharacter UInt8.IsUTF8FirstByte
  rw [hbyte]
  exact Or.inl (hbits ⟨d.toNat, Nat.lt_of_not_le h⟩)

/-- Of the bytes of a character, the first one starts it and no other one does. -/
theorem startsCharacter_iff {c d : Char} {a r : Text} (h : octets [c] = a ++ d :: r) :
    StartsCharacter d ↔ a = [] := by
  have hencoded : octets [c] = (String.utf8EncodeChar c).map Char.ofUInt8 := by
    rw [octets, bytes, List.flatMap_singleton]
  have hlength : a.length < (String.utf8EncodeChar c).length := by
    have hlen := congrArg List.length h
    rw [hencoded, List.length_map, List.length_append, List.length_cons] at hlen
    omega
  have hd : d = Char.ofUInt8 (String.utf8EncodeChar c)[a.length] := by
    have hget : (octets [c])[a.length]? = some d := by rw [h]; simp
    rw [hencoded, List.getElem?_map, List.getElem?_eq_getElem hlength] at hget
    exact (Option.some.inj hget).symm
  rw [StartsCharacter, hd, toUInt8_ofUInt8, UInt8.isUTF8FirstByte_getElem_utf8EncodeChar,
    List.length_eq_zero_iff]

/-- Where the first byte of a character is, a character starts. -/
theorem octets_split_first {d : Char} (hd : StartsCharacter d) {t a r : Text}
    (h : t.octets = a ++ d :: r) : ∃ x y, t = x ++ y ∧ x.octets = a ∧ y.octets = d :: r := by
  induction t generalizing a with
  | nil => simp [octets, bytes] at h
  | cons c cs ih =>
      rw [octets_cons] at h
      rcases List.append_eq_append_iff.mp h with ⟨a', rfl, hrest⟩ | ⟨b', hc, hrest⟩
      · -- it stands behind the bytes of `c`
        obtain ⟨x, y, rfl, rfl, hy⟩ := ih hrest
        exact ⟨c :: x, y, rfl, octets_cons c x, hy⟩
      · cases b' with
        | nil =>
            obtain ⟨x, y, rfl, hx, hy⟩ := ih (a := []) hrest.symm
            refine ⟨c :: x, y, rfl, ?_, hy⟩
            rw [octets_cons, hx, hc, List.append_nil, List.append_nil]
        | cons e b' =>
            -- it is one of the bytes of `c`, so it is the first of them
            obtain ⟨rfl, rfl⟩ := List.cons.inj hrest
            obtain rfl := (startsCharacter_iff hc).mp hd
            refine ⟨[], c :: cs, rfl, rfl, ?_⟩
            rw [octets_cons, hc]
            rfl

/-! ## Texts that begin with the bytes of another -/

theorem octets_append_inj {c d : Char} {r s : Text} (h : octets [c] ++ r = octets [d] ++ s) :
    c = d ∧ r = s := by
  have hbytes : ∀ (e : Char) (x : Text), (octets [e] ++ x).map Char.toUInt8
      = String.utf8EncodeChar e ++ x.map Char.toUInt8 := by
    intro e x
    have hid : (Char.toUInt8 ∘ Char.ofUInt8) = id := funext toUInt8_ofUInt8
    rw [List.map_append, octets, bytes, List.flatMap_singleton, List.map_map, hid, List.map_id]
  -- the first character can be decoded without what follows it
  have hdecode : ∀ (e : Char) (x : List UInt8),
      (String.utf8EncodeChar e ++ x).toByteArray.utf8DecodeChar? 0 = some e := by
    intro e x
    rw [List.toByteArray_append]
    exact ByteArray.utf8DecodeChar?_utf8EncodeChar_append
  have hsame : c = d := by
    have hmap := congrArg (List.map Char.toUInt8) h
    rw [hbytes, hbytes] at hmap
    have hfirst := hdecode c (r.map Char.toUInt8)
    rw [hmap, hdecode] at hfirst
    exact (Option.some.inj hfirst).symm
  subst hsame
  exact ⟨rfl, List.append_cancel_left h⟩

theorem octets_isPrefix_iff {s t : Text} : s.octets <+: t.octets ↔ s <+: t := by
  constructor
  · intro h
    induction s generalizing t with
    | nil => exact List.nil_prefix
    | cons c cs ih =>
        obtain ⟨r, hr⟩ := h
        rw [octets_cons, List.append_assoc] at hr
        cases t with
        | nil =>
            have hnil := (List.append_eq_nil_iff.mp hr).1
            exact absurd hnil (octets_ne_nil c)
        | cons d ds =>
            rw [octets_cons d] at hr
            obtain ⟨rfl, hrest⟩ := octets_append_inj hr
            exact List.cons_prefix_cons.mpr ⟨rfl, ih ⟨r, hrest⟩⟩
  · rintro ⟨r, rfl⟩
    rw [octets_append]
    exact List.prefix_append _ _

theorem startsWith_iff_isPrefix {t k : Text} : t.startsWith k = true ↔ k.upper <+: t.upper := by
  rw [startsWith, same_iff, List.prefix_iff_eq_take, length_upper, ← take_upper]
  exact eq_comm

/-- Comparing bytes is comparing characters. -/
theorem startsWith_octets (t k : Text) : startsWith t.octets k.octets = startsWith t k := by
  rw [Bool.eq_iff_iff, startsWith_iff_isPrefix, startsWith_iff_isPrefix, ← octets_upper,
    ← octets_upper, octets_isPrefix_iff]

theorem startsCharacter_of_toUpper {d e : Char} (h : d.toUpper = e.toUpper)
    (he : StartsCharacter e) : StartsCharacter d := by
  by_cases hd : IsHigh d
  · have hhigh : IsHigh e := by rwa [← isHigh_toUpper, ← h, isHigh_toUpper]
    rw [hd.toUpper_eq, hhigh.toUpper_eq] at h
    rwa [h]
  · exact startsCharacter_of_ascii hd

theorem octets_ne_nil_of_ne_nil {t : Text} (h : t ≠ []) : t.octets ≠ [] := by
  obtain ⟨c, cs, rfl⟩ := List.exists_cons_of_ne_nil h
  rw [octets_cons]
  exact List.append_ne_nil_of_left_ne_nil (octets_ne_nil c) _

/-- The bytes of a text are only met where a character starts. -/
theorem exists_index_of_startsWith {t k : Text} (hk : k ≠ []) {b : Nat}
    (h : startsWith (t.octets.drop b) k.octets = true) : ∃ i < t.length, t.byteOffset i = b := by
  obtain ⟨c, cs, rfl⟩ := List.exists_cons_of_ne_nil hk
  obtain ⟨e, es, hes⟩ := List.exists_cons_of_ne_nil (octets_ne_nil c)
  have he : StartsCharacter e := (startsCharacter_iff (a := []) hes).mpr rfl
  have hprefix := startsWith_iff_isPrefix.mp h
  rw [octets_cons, hes] at hprefix
  cases hdrop : t.octets.drop b with
  | nil =>
      rw [hdrop] at hprefix
      exact absurd (List.prefix_nil.mp hprefix) (List.cons_ne_nil _ _)
  | cons d r =>
      rw [hdrop] at hprefix
      have hsame : e.toUpper = d.toUpper := (List.cons_prefix_cons.mp hprefix).1
      -- up to case, the byte met is the first byte of `k`, so a character starts there
      have hd : StartsCharacter d := startsCharacter_of_toUpper hsame.symm he
      have hsplit : t.octets = t.octets.take b ++ d :: r := by
        rw [← hdrop, List.take_append_drop]
      have hb : (t.octets.take b).length = b := by
        have hlen := congrArg List.length hdrop
        rw [List.length_drop, List.length_cons] at hlen
        rw [List.length_take]
        omega
      obtain ⟨x, y, rfl, hx, hy⟩ := octets_split_first hd hsplit
      refine ⟨x.length, ?_, ?_⟩
      · have hne : y ≠ [] := by
          rintro rfl
          cases hy
        rw [List.length_append]
        exact Nat.lt_add_of_pos_right (List.length_pos_of_ne_nil hne)
      · rw [byteOffset_append, hx, hb]

/-- The search through the bytes finds the first byte of what the search finds. -/
theorem find?_octets {k : Text} (hk : k ≠ []) (t : Text) :
    find? k.octets t.octets = (find? k t).map t.byteOffset := by
  have hoctets := octets_ne_nil_of_ne_nil hk
  have hstarts : ∀ i, startsWith (t.octets.drop (t.byteOffset i)) k.octets
      = startsWith (t.drop i) k := by
    intro i
    rw [drop_octets, startsWith_octets]
  apply Option.ext
  intro b
  rw [find?_eq_some_iff hoctets, Option.map_eq_some_iff]
  simp only [find?_eq_some_iff hk]
  constructor
  · rintro ⟨hhere, hbefore⟩
    obtain ⟨i, hi, rfl⟩ := exists_index_of_startsWith hk hhere
    refine ⟨i, ⟨by rwa [hstarts] at hhere, fun j hj => ?_⟩, rfl⟩
    rw [← hstarts]
    exact hbefore _ (byteOffset_lt hj (by omega))
  · rintro ⟨i, ⟨hhere, hbefore⟩, rfl⟩
    refine ⟨by rwa [hstarts], fun b hb => ?_⟩
    rw [← Bool.not_eq_true]
    intro hearlier
    obtain ⟨j, -, rfl⟩ := exists_index_of_startsWith hk hearlier
    -- an earlier place would be at an earlier character
    have hj : j < i := by
      by_contra hge
      exact absurd (t.byteOffset_mono (Nat.le_of_not_lt hge)) (Nat.not_le_of_lt hb)
    rw [hstarts, hbefore j hj] at hearlier
    cases hearlier

end Text

/-! ## Nesting -/

/-- Reading the bytes of a text comes to the same nesting as reading the text. -/
theorem Nesting.scan_octets_text {n : Nesting} (hn : n.quoting.Sound) (t : Text) :
    n.scan t.octets = n.scan t := by
  induction t generalizing n with
  | nil => rfl
  | cons c cs ih =>
      rw [Text.octets_cons, scan_append, scan_octets hn, ih (sound_next hn c)]
      rfl

theorem Nesting.after_octets (t : Text) : after t.octets = after t :=
  scan_octets_text sound_start t

end SqlLayout
