import Mathlib.Data.List.Basic
import ResponsiveImage.Text.Utf8

/-!
# Reading back UTF-8

A text that is stored in UTF-8 is read back as it is: the first byte of a character tells how many
bytes it has, and the others are the rest of its digits in base 64.
-/

namespace ResponsiveImage.Text.Utf8

variable {a b : UInt8} {bs : List UInt8} {n v : Nat}

theorem isContinuation_iff : isContinuation b = true ↔ 0x80 ≤ b.toNat ∧ b.toNat < 0xc0 := by
  simp [isContinuation, UInt8.le_iff_toNat_le, UInt8.lt_iff_toNat_lt]

theorem mayFollow_iff : mayFollow a b = true ↔ (0x80 ≤ b.toNat ∧ b.toNat < 0xc0) ∧
    ¬(a.toNat = 0xe0 ∧ b.toNat < 0xa0) ∧ ¬(a.toNat = 0xed ∧ 0xa0 ≤ b.toNat) ∧
    ¬(a.toNat = 0xf0 ∧ b.toNat < 0x90) ∧ ¬(a.toNat = 0xf4 ∧ 0x90 ≤ b.toNat) := by
  have hbyte : ∀ k : UInt8, a = k ↔ a.toNat = k.toNat := fun k ↦ UInt8.toNat_inj.symm
  simp only [mayFollow, Bool.and_eq_true, Bool.not_eq_true', Bool.and_eq_false_imp, beq_iff_eq,
    isContinuation_iff, decide_eq_false_iff_not, hbyte, UInt8.lt_iff_toNat_lt,
    UInt8.le_iff_toNat_le, and_assoc, not_and]
  rfl

/-- A character whose bytes are all there is read, and then the rest. -/
theorem decode_cons (hwidth : width a = some n) (hgood : n - 1 ≤ goodBytes a bs) :
    decode (a :: bs) =
      (decode (bs.drop (n - 1))).map (Char.ofNat (codePoint n a (bs.take (n - 1))) :: ·) := by
  rw [decode, hwidth]
  simp only [Nat.min_eq_right hgood, if_true]

theorem le_goodBytes (hfirst : mayFollow a b = true) {rest : List UInt8} (cs : List UInt8)
    (hrest : ∀ c ∈ rest, isContinuation c = true) :
    1 + rest.length ≤ goodBytes a (b :: (rest ++ cs)) := by
  rw [goodBytes, if_pos hfirst, List.takeWhile_append_of_pos hrest, List.length_append]
  omega

/-- A character of several bytes is read back. -/
theorem decode_multibyte {k : Nat} {rest cs : List UInt8} (hwidth : width a = some k)
    (hlength : k = rest.length + 2) (hfirst : mayFollow a b = true)
    (hrest : ∀ c ∈ rest, isContinuation c = true) (hpoint : codePoint k a (b :: rest) = v) :
    decode (a :: b :: rest ++ cs) = (decode cs).map (Char.ofNat v :: ·) := by
  have hgood : k - 1 ≤ goodBytes a (b :: (rest ++ cs)) := by
    have := le_goodBytes hfirst cs hrest
    omega
  have hbytes : k - 1 = (b :: rest).length := by simp [hlength]
  rw [List.cons_append, List.cons_append, decode_cons hwidth hgood, hbytes, ← List.cons_append,
    List.drop_left, List.take_left, hpoint]

/-! ## The bytes of a character -/

theorem width_eq (b : UInt8) : width b =
    if b.toNat < 0x80 then some 1 else if b.toNat < 0xc2 then none
    else if b.toNat < 0xe0 then some 2 else if b.toNat < 0xf0 then some 3
    else if b.toNat < 0xf5 then some 4 else none := by
  simp [width, UInt8.lt_iff_toNat_lt]

theorem toNat_ofNat {x : Nat} (h : x < 256) : (UInt8.ofNat x).toNat = x :=
  UInt8.toNat_ofNat_of_lt' h

/-- A digit in base 64, as a byte that continues a character. -/
def digit (v : Nat) : UInt8 := UInt8.ofNat (v % 0x40 + 0x80)

@[simp] theorem toNat_digit (v : Nat) : (digit v).toNat = v % 0x40 + 0x80 :=
  toNat_ofNat (by omega)

theorem isContinuation_digit (v : Nat) : isContinuation (digit v) = true := by
  rw [isContinuation_iff, toNat_digit]
  omega

theorem decode_one (h : v ≤ 0x7f) : decode (UInt8.ofNat v :: bs) =
    (decode bs).map (Char.ofNat v :: ·) := by
  have hfirst : (UInt8.ofNat v).toNat = v := toNat_ofNat (by omega)
  have hwidth : width (UInt8.ofNat v) = some 1 := by rw [width_eq, hfirst, if_pos (by omega)]
  rw [decode_cons hwidth (Nat.zero_le _)]
  simp [codePoint, hfirst]

theorem decode_two (h₁ : ¬ v ≤ 0x7f) (h₂ : v ≤ 0x7ff) :
    decode (UInt8.ofNat (v / 64 % 0x20 + 0xc0) :: digit v :: bs) =
      (decode bs).map (Char.ofNat v :: ·) := by
  generalize ha : UInt8.ofNat (v / 64 % 0x20 + 0xc0) = a
  have hfirst : a.toNat = v / 64 % 0x20 + 0xc0 := by rw [← ha, toNat_ofNat (by omega)]
  have hwidth : width a = some 2 := by
    rw [width_eq, if_neg (by omega), if_neg (by omega), if_pos (by omega)]
  have hfollow : mayFollow a (digit v) = true := by
    rw [mayFollow_iff, toNat_digit]
    omega
  have hpoint : codePoint 2 a [digit v] = v := by
    simp only [codePoint, List.foldl_cons, List.foldl_nil, toNat_digit, hfirst]
    omega
  exact decode_multibyte hwidth rfl hfollow (by simp) hpoint

theorem decode_three (h₁ : ¬ v ≤ 0x7ff) (h₂ : v ≤ 0xffff) (h₃ : v < 0xd800 ∨ 0xdfff < v) :
    decode (UInt8.ofNat (v / 4096 % 0x10 + 0xe0) :: digit (v / 64) :: digit v :: bs) =
      (decode bs).map (Char.ofNat v :: ·) := by
  generalize ha : UInt8.ofNat (v / 4096 % 0x10 + 0xe0) = a
  have hfirst : a.toNat = v / 4096 % 0x10 + 0xe0 := by rw [← ha, toNat_ofNat (by omega)]
  have hwidth : width a = some 3 := by
    rw [width_eq, if_neg (by omega), if_neg (by omega), if_neg (by omega), if_pos (by omega)]
  have hfollow : mayFollow a (digit (v / 64)) = true := by
    rw [mayFollow_iff, toNat_digit]
    omega
  have hpoint : codePoint 3 a [digit (v / 64), digit v] = v := by
    simp only [codePoint, List.foldl_cons, List.foldl_nil, toNat_digit, hfirst]
    omega
  exact decode_multibyte hwidth rfl hfollow (by simp [isContinuation_digit]) hpoint

theorem decode_four (h₁ : ¬ v ≤ 0xffff) (h₂ : v < 0x110000) :
    decode (UInt8.ofNat (v / 262144 % 0x08 + 0xf0) :: digit (v / 4096) :: digit (v / 64) ::
        digit v :: bs) = (decode bs).map (Char.ofNat v :: ·) := by
  generalize ha : UInt8.ofNat (v / 262144 % 0x08 + 0xf0) = a
  have hfirst : a.toNat = v / 262144 % 0x08 + 0xf0 := by rw [← ha, toNat_ofNat (by omega)]
  have hwidth : width a = some 4 := by
    rw [width_eq, if_neg (by omega), if_neg (by omega), if_neg (by omega), if_neg (by omega),
      if_pos (by omega)]
  have hfollow : mayFollow a (digit (v / 4096)) = true := by
    rw [mayFollow_iff, toNat_digit]
    omega
  have hpoint : codePoint 4 a [digit (v / 4096), digit (v / 64), digit v] = v := by
    simp only [codePoint, List.foldl_cons, List.foldl_nil, toNat_digit, hfirst]
    omega
  exact decode_multibyte hwidth rfl hfollow (by simp [isContinuation_digit]) hpoint

/-- A character is read back, whatever stands behind it. -/
theorem decode_encodeChar_append (c : Char) (bs : List UInt8) :
    decode (String.utf8EncodeChar c ++ bs) = (decode bs).map (c :: ·) := by
  have hvalid : c.toNat < 0xd800 ∨ 0xdfff < c.toNat ∧ c.toNat < 0x110000 := c.valid
  obtain ⟨v, hv⟩ : ∃ v, c.val.toNat = v := ⟨_, rfl⟩
  have hc : Char.ofNat v = c := hv ▸ Char.ofNat_toNat c
  rw [show c.toNat = v from hv] at hvalid
  simp only [String.utf8EncodeChar, hv]
  rw [← hc]
  split
  · exact decode_one ‹_›
  · split
    · exact decode_two ‹_› ‹_›
    · split
      · exact decode_three ‹_› ‹_› (by omega)
      · exact decode_four ‹_› (by omega)

/-! ## Texts -/

/-- A text is read back. -/
theorem decode_encode (cs : List Char) : decode (encode cs) = .ok cs := by
  induction cs with
  | nil => rw [encode_nil, decode]
  | cons c cs ih =>
    rw [encode, List.flatMap_cons, decode_encodeChar_append]
    rw [encode] at ih
    rw [ih]
    rfl

theorem encode_injective {cs ds : List Char} (h : encode cs = encode ds) : cs = ds :=
  Except.ok.inj ((decode_encode cs).symm.trans ((congrArg decode h).trans (decode_encode ds)))

end ResponsiveImage.Text.Utf8
