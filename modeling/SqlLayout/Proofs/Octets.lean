import SqlLayout.Proofs.Faults

set_option autoImplicit false

/-! # Texts byte by byte

A scan that reads the bytes of a text, and not its characters, sees the text as `octets`. The
bytes of a character that is not ASCII are *high*: they are no word characters, no quote marks and
no parentheses, and so is the character itself. So a scan by bytes comes to the same nesting
(`Nesting.scan_octets`) and finds the same words (`Text.firstWord_octets`).
-/

namespace SqlLayout

namespace Text

/-! ## Bytes as characters -/

/-- The bytes of a text, each as the character with that code. -/
def octets (t : Text) : Text := t.bytes.map Char.ofUInt8

/-- A character outside ASCII, or a byte of one. -/
def IsHigh (c : Char) : Prop := 0x80 ≤ c.toNat

theorem octets_cons (c : Char) (cs : Text) : octets (c :: cs) = octets [c] ++ octets cs := by
  simp [octets, bytes]

theorem octets_append (a b : Text) : octets (a ++ b) = octets a ++ octets b := by
  simp [octets, bytes]

theorem length_octets (t : Text) : t.octets.length = t.byteLength := by
  rw [octets, List.length_map, length_bytes]

theorem toNat_ofUInt8 (n : Nat) (h : n < 256) : (Char.ofUInt8 (UInt8.ofNat n)).toNat = n := by
  have hval : (Char.ofUInt8 (UInt8.ofNat n)).toNat = (UInt8.ofNat n).toNat := rfl
  rw [hval, UInt8.toNat_ofNat', Nat.mod_eq_of_lt h]

theorem octets_of_ascii {c : Char} (h : ¬ IsHigh c) : octets [c] = [c] := by
  have hsmall : c.val.toNat < 0x80 := Nat.lt_of_not_le h
  have hsize : c.utf8Size = 1 := by
    rw [Char.utf8Size_eq_one_iff, UInt32.le_iff_toNat_le]
    exact Nat.le_of_lt_succ hsmall
  have hone : octets [c] = [Char.ofUInt8 c.val.toUInt8] := by
    rw [octets, bytes, List.flatMap_cons, List.flatMap_nil, List.append_nil,
      String.utf8EncodeChar_eq_singleton hsize, List.map_singleton]
  have hcode : (Char.ofUInt8 c.val.toUInt8).toNat = c.toNat := by
    calc (Char.ofUInt8 c.val.toUInt8).toNat = c.val.toNat % 256 := rfl
      _ = c.val.toNat := Nat.mod_eq_of_lt (by omega)
  rw [hone, Char.toNat_inj.mp hcode]

theorem isHigh_of_mem_octets {c : Char} (h : IsHigh c) : ∀ d ∈ octets [c], IsHigh d := by
  have hlarge : ¬ c.val.toNat ≤ 127 := by
    have : 0x80 ≤ c.val.toNat := h
    omega
  intro d hd
  obtain ⟨b, hb, rfl⟩ := List.mem_map.mp hd
  -- each byte of a longer form has its first bit set
  have hbyte : ∃ n, b = UInt8.ofNat n ∧ 0x80 ≤ n ∧ n < 256 := by
    simp only [bytes, List.flatMap_cons, List.flatMap_nil, List.append_nil,
      String.utf8EncodeChar, hlarge, if_false] at hb
    split_ifs at hb
    · rcases List.mem_pair.mp hb with rfl | rfl
      · exact ⟨_, rfl, by omega, by omega⟩
      · exact ⟨_, rfl, by omega, by omega⟩
    · simp only [List.mem_cons, List.not_mem_nil, or_false] at hb
      rcases hb with rfl | rfl | rfl
      · exact ⟨_, rfl, by omega, by omega⟩
      · exact ⟨_, rfl, by omega, by omega⟩
      · exact ⟨_, rfl, by omega, by omega⟩
    · simp only [List.mem_cons, List.not_mem_nil, or_false] at hb
      rcases hb with rfl | rfl | rfl | rfl
      · exact ⟨_, rfl, by omega, by omega⟩
      · exact ⟨_, rfl, by omega, by omega⟩
      · exact ⟨_, rfl, by omega, by omega⟩
      · exact ⟨_, rfl, by omega, by omega⟩
  obtain ⟨n, rfl, hn, hlt⟩ := hbyte
  show 0x80 ≤ (Char.ofUInt8 (UInt8.ofNat n)).toNat
  rw [toNat_ofUInt8 n hlt]
  exact hn

theorem octets_ne_nil (c : Char) : octets [c] ≠ [] := by
  apply List.ne_nil_of_length_pos
  rw [length_octets, byteLength]
  have := c.utf8Size_pos
  omega

/-! ## High characters -/

theorem IsHigh.ne {c d : Char} (hc : IsHigh c) (hd : d.toNat < 0x80) : c ≠ d := by
  rintro rfl
  exact Nat.not_le_of_lt hd hc

theorem IsHigh.isWordChar_eq {c : Char} (h : IsHigh c) : isWordChar c = false := by
  rw [← Bool.not_eq_true, isWordChar_iff]
  have hhigh : 0x80 ≤ c.toNat := h
  rintro (hdigit | hupper | hlower | rfl)
  · omega
  · omega
  · omega
  · exact absurd h (by unfold IsHigh; decide)

theorem IsHigh.isQuoteMark_eq {c : Char} (h : IsHigh c) : isQuoteMark c = false := by
  have h1 : c ≠ '\x27' := h.ne (by decide)
  have h2 : c ≠ '\x22' := h.ne (by decide)
  have h3 : c ≠ '\x60' := h.ne (by decide)
  simp [isQuoteMark, h1, h2, h3]

theorem firstWord_octets (t : Text) : firstWord t.octets = firstWord t := by
  induction t with
  | nil => rfl
  | cons c cs ih =>
      rw [octets_cons]
      by_cases hc : IsHigh c
      · obtain ⟨d, ds, hds⟩ := List.exists_cons_of_ne_nil (octets_ne_nil c)
        have hd : IsHigh d := isHigh_of_mem_octets hc d (by rw [hds]; exact List.mem_cons_self)
        rw [hds]
        simp [firstWord, hd.isWordChar_eq, hc.isWordChar_eq]
      · rw [octets_of_ascii hc]
        unfold firstWord at ih ⊢
        cases hw : isWordChar c <;> simp [hw, ih]

/-! ## Offsets -/

theorem byteOffset_append (a b : Text) : byteOffset (a ++ b) a.length = a.octets.length := by
  rw [byteOffset, List.take_left, length_octets]

theorem byteOffset_succ (a : Text) (c : Char) (cs : Text) :
    byteOffset (a ++ c :: cs) (a.length + 1) =
      byteOffset (a ++ c :: cs) a.length + (octets [c]).length := by
  have hsplit : a ++ c :: cs = (a ++ [c]) ++ cs := by simp
  calc byteOffset (a ++ c :: cs) (a.length + 1)
      = byteOffset ((a ++ [c]) ++ cs) (a ++ [c]).length := by
        rw [hsplit, List.length_append, List.length_singleton]
    _ = a.octets.length + (octets [c]).length := by
        rw [byteOffset_append, octets_append, List.length_append]
    _ = byteOffset (a ++ c :: cs) a.length + (octets [c]).length := by rw [byteOffset_append]

theorem indexAt?_byteOffset (t : Text) (i : Nat) :
    indexAt? (byteOffset t i) t = some (min i t.length) := by
  induction t generalizing i with
  | nil => simp [byteOffset, byteLength, indexAt?]
  | cons c cs ih =>
      cases i with
      | zero => simp [byteOffset, byteLength, indexAt?]
      | succ i =>
          have hoffset : byteOffset (c :: cs) (i + 1) = c.utf8Size + byteOffset cs i := rfl
          have hpos := c.utf8Size_pos
          obtain ⟨n, hn⟩ : ∃ n, c.utf8Size + byteOffset cs i = n + 1 :=
            ⟨c.utf8Size + byteOffset cs i - 1, by omega⟩
          rw [hoffset, hn, indexAt?, if_pos (by omega),
            show n + 1 - c.utf8Size = byteOffset cs i by omega, ih, Option.map_some,
            List.length_cons, Nat.add_min_add_right]

/-- What follows the offset of a character. -/
theorem dropBytes_byteOffset (t : Text) (i : Nat) : dropBytes (byteOffset t i) t = t.drop i := by
  rw [dropBytes, indexAt?_byteOffset, Option.map_some, Option.getD_some]
  rcases Nat.le_total i t.length with hle | hle
  · rw [Nat.min_eq_left hle]
  · rw [Nat.min_eq_right hle, List.drop_length, List.drop_of_length_le hle]

end Text

/-! ## Nesting -/

namespace Nesting

open Text

/-- The nesting behind a character without a meaning of its own. -/
def unescaped (n : Nesting) : Nesting :=
  match n.quoting with
  | .escaped m => ⟨n.depth, .inside m⟩
  | _ => n

theorem unescaped_unescaped (n : Nesting) : n.unescaped.unescaped = n.unescaped := by
  obtain ⟨depth, quoting⟩ := n
  cases quoting <;> rfl

theorem next_high {n : Nesting} (hn : n.quoting.Sound) {c : Char} (hc : IsHigh c) :
    n.next c = n.unescaped := by
  have hopen : c ≠ '(' := hc.ne (by decide)
  have hclose : c ≠ ')' := hc.ne (by decide)
  have hslash : c ≠ '\x5c' := hc.ne (by decide)
  obtain ⟨depth, quoting⟩ := n
  rw [next_eq, depthAfter]
  cases quoting with
  | outside => simp [hopen, hclose, unescaped, Quoting.next, hc.isQuoteMark_eq]
  | inside m =>
      have hmark : c ≠ m := by
        rintro rfl
        have hquote : isQuoteMark c = true := hn
        rw [hc.isQuoteMark_eq] at hquote
        cases hquote
      simp [hopen, hclose, unescaped, Quoting.next, hslash, hmark]
  | escaped m => simp [hopen, hclose, unescaped, Quoting.next]

theorem scan_high {n : Nesting} (hn : n.quoting.Sound) {t : Text} (ht : ∀ c ∈ t, IsHigh c)
    (hne : t ≠ []) : n.scan t = n.unescaped := by
  induction t generalizing n with
  | nil => exact absurd rfl hne
  | cons c cs ih =>
      have hc := ht c List.mem_cons_self
      have hstep : n.scan (c :: cs) = (n.next c).scan cs := rfl
      by_cases hnil : cs = []
      · rw [hstep, hnil]
        exact next_high hn hc
      · rw [hstep, ih (sound_next hn c) (fun d hd => ht d (List.mem_cons_of_mem c hd)) hnil,
          next_high hn hc, unescaped_unescaped]

/-- Reading the bytes of a character comes to the same nesting as reading the character. -/
theorem scan_octets {n : Nesting} (hn : n.quoting.Sound) (c : Char) :
    n.scan (octets [c]) = n.next c := by
  by_cases hc : IsHigh c
  · rw [scan_high hn (isHigh_of_mem_octets hc) (octets_ne_nil c), next_high hn hc]
  · rw [octets_of_ascii hc]
    rfl

end Nesting

end SqlLayout
