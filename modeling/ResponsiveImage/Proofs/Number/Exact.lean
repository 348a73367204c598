import Mathlib.Tactic.Ring
import ResponsiveImage.Picture.Size

/-!
# Exact results

Naturals of at most 53 bits are floating-point numbers, and the operations on these are exact where
the result is one of them again.  So a picture that is scaled to its own width keeps its height.
-/

namespace ResponsiveImage

theorem roundDiv_mul_right (n : Nat) {k : Nat} (hk : 0 < k) : roundDiv (n * k) k = n := by
  rw [roundDiv]
  simp [Nat.mul_div_cancel n hk, hk]

theorem powerOfTwo_neg (n : Nat) : powerOfTwo (-n) = (1, 2 ^ n) := by
  simp [powerOfTwo]

theorem log2_mul_two_pow {n : Nat} (hn : n ≠ 0) (j : Nat) : (n * 2 ^ j).log2 = n.log2 + j := by
  have hpos : 0 < 2 ^ j := Nat.two_pow_pos j
  refine (Nat.log2_eq_iff (Nat.mul_ne_zero hn hpos.ne')).mpr ⟨?_, ?_⟩
  · rw [Nat.pow_add]
    exact Nat.mul_le_mul_right _ (Nat.log2_self_le hn)
  · rw [Nat.add_right_comm, Nat.pow_add]
    exact Nat.mul_lt_mul_of_pos_right Nat.lt_log2_self hpos

namespace Binary64

variable {n m : Nat}

/-- How many places a natural of at most 53 bits has to be shifted to have as many. -/
def room (n : Nat) : Nat := 52 - n.log2

/-- A natural of at most 53 bits. -/
def ofNat (n : Nat) : Binary64 := .finite false (n * 2 ^ room n) (-room n)

theorem mul_two_pow_room_lt (hn : n ≠ 0) (hlt : n < 2 ^ 53) : n * 2 ^ room n < 2 ^ 53 := by
  have hlog : n.log2 < 53 := (Nat.log2_lt hn).mpr hlt
  have hsum : n.log2 + 1 + room n = 53 := by
    rw [room]
    omega
  calc n * 2 ^ room n < 2 ^ (n.log2 + 1) * 2 ^ room n :=
        Nat.mul_lt_mul_of_pos_right Nat.lt_log2_self (Nat.two_pow_pos _)
    _ = 2 ^ 53 := by rw [← Nat.pow_add, hsum]

/-- A quotient that is a natural is found, if the exponent is. -/
theorem ofRatio_mul (hn : n ≠ 0) (hlt : n < 2 ^ 53) (hm : 0 < m)
    (hexponent : exponentOf (n * m) m = -(room n : Int)) : ofRatio false (n * m) m = ofNat n := by
  have hmantissa : roundDiv (n * m * 2 ^ room n) (m * 1) = n * 2 ^ room n := by
    rw [Nat.mul_one, Nat.mul_right_comm]
    exact roundDiv_mul_right _ hm
  have hsmall : n * 2 ^ room n ≠ Nat.pow 2 53 := (mul_two_pow_room_lt hn hlt).ne
  have hrange : ¬ maxExponent < -(room n : Int) := by
    rw [maxExponent]
    omega
  simp only [ofRatio, if_neg (Nat.mul_ne_zero hn hm.ne'), hexponent, powerOfTwo_neg, hmantissa,
    if_neg hsmall, if_neg hrange, ofNat]

/-- A natural is found whatever power of two it is written over. -/
theorem ofRatio_mul_two_pow (hn : n ≠ 0) (hlt : n < 2 ^ 53) (j : Nat) :
    ofRatio false (n * 2 ^ j) (2 ^ j) = ofNat n := by
  have hlog : n.log2 < 53 := (Nat.log2_lt hn).mpr hlt
  have hle : 2 ^ j * 2 ^ n.log2 ≤ n * 2 ^ j := by
    rw [Nat.mul_comm]
    exact Nat.mul_le_mul_right _ (Nat.log2_self_le hn)
  refine ofRatio_mul hn hlt (Nat.two_pow_pos j) ?_
  rw [exponentOf, log2_mul_two_pow hn, Nat.log2_two_pow]
  simp only [Int.natCast_add, Int.add_sub_cancel, powerOfTwo, Int.toNat_natCast,
    Int.toNat_neg_natCast, Nat.pow_eq, Nat.pow_zero, Nat.mul_one, if_pos hle, room, minExponent]
  omega

/-- A number over itself is one. -/
theorem ofRatio_self (hm : m ≠ 0) : ofRatio false m m = ofNat 1 := by
  have hone := ofRatio_mul Nat.one_ne_zero (Nat.one_lt_two_pow (by decide)) (Nat.pos_of_ne_zero hm)
  rw [Nat.one_mul] at hone
  refine hone ?_
  have hroom : room 1 = 52 := by simp [room, Nat.log2_def]
  rw [exponentOf, hroom]
  simp [powerOfTwo, minExponent]

theorem ofInt_natCast (hn : n ≠ 0) (hlt : n < 2 ^ 53) : ofInt n = ofNat n := by
  have hratio := ofRatio_mul_two_pow hn hlt 0
  rw [Nat.pow_zero, Nat.mul_one] at hratio
  have hnonneg : decide ((n : Int) < 0) = false := decide_eq_false (by omega)
  rw [ofInt, Int.natAbs_natCast, hnonneg, hratio]

theorem mul_two_pow_ne_zero (hn : n ≠ 0) (j : Nat) : n * 2 ^ j ≠ 0 :=
  Nat.mul_ne_zero hn (Nat.two_pow_pos j).ne'

theorem div_self (hn : n ≠ 0) : (ofNat n).div (ofNat n) = ofNat 1 := by
  have hm := mul_two_pow_ne_zero hn (room n)
  simp only [ofNat, div, if_neg hm, Int.sub_self]
  exact ofRatio_self (Nat.mul_ne_zero hm Nat.one_ne_zero)

theorem mul_one (hn : n ≠ 0) (hlt : n < 2 ^ 53) : (ofNat n).mul (ofNat 1) = ofNat n := by
  have hexponent : (-(room n : Int)) + -(room 1 : Int) = -((room n + room 1 : Nat) : Int) := by
    push_cast
    ring
  have hmantissa : n * 2 ^ room n * (1 * 2 ^ room 1) * 1 = n * 2 ^ (room n + room 1) := by
    rw [Nat.pow_add]
    ring
  rw [ofNat, ofNat, mul]
  simp only [ratio, hexponent, powerOfTwo_neg, hmantissa, bne_self_eq_false]
  exact ofRatio_mul_two_pow hn hlt _

theorem divide_self (hn : n ≠ 0) : (ofNat n).divide (ofNat n) = .ok (ofNat 1) := by
  have hzero : (ofNat n).isZero = false := by
    rw [← Bool.not_eq_true]
    simp [ofNat, isZero, hn]
  rw [divide, hzero, if_neg Bool.false_ne_true, div_self hn]

theorem round?_ofNat (n : Nat) : (ofNat n).round? = some (n : Int) := by
  simp [ofNat, round?, ratio, powerOfTwo_neg, roundDiv_mul_right n (Nat.two_pow_pos _)]

theorem round_ofNat (n : Nat) : (ofNat n).round = .ok (n : Int) := by
  unfold round
  split
  · rename_i hsome
    rw [round?_ofNat] at hsome
    rw [Option.some_inj.mp hsome]
  · rename_i hnan _
    cases hnan
  · rename_i hnone _
    rw [round?_ofNat] at hnone
    cases hnone

end Binary64

theorem Number.toFloat_natCast {n : Nat} (hn : n ≠ 0) (hlt : n < 2 ^ 53) :
    (Number.int n).toFloat = .ok (.ofNat n) := by
  rw [toFloat, Binary64.ofInt_natCast hn hlt]
  rfl

theorem scaledSize_eq {width height k : Number} {x y z scale : Binary64} {m n : Int}
    (hx : k.toFloat = .ok x) (hy : width.toFloat = .ok y) (hscale : x.divide y = .ok scale)
    (hm : k.toInt = .ok m) (hz : height.toFloat = .ok z) (hn : (z.mul scale).round = .ok n) :
    scaledSize width height k = .ok (max 1 m, max 1 n) := by
  simp only [scaledSize, hx, hy, hscale, hm, hz, hn, bind, Except.bind, pure, Except.pure]

/-- A picture scaled to its own width keeps its dimensions. -/
theorem scaledSize_self {width height : Nat} (hwidth : width ≠ 0) (hwidth' : width < 2 ^ 53)
    (hheight : height ≠ 0) (hheight' : height < 2 ^ 53) :
    scaledSize (.int width) (.int height) (.int width) = .ok ((width : Int), (height : Int)) := by
  have hfloat := Number.toFloat_natCast hwidth hwidth'
  have hround : ((Binary64.ofNat height).mul (.ofNat 1)).round = .ok (height : Int) := by
    rw [Binary64.mul_one hheight hheight', Binary64.round_ofNat]
  have hmax : ∀ {n : Nat}, n ≠ 0 → max 1 (n : Int) = n := by
    intro n hn
    omega
  rw [scaledSize_eq hfloat hfloat (Binary64.divide_self hwidth) rfl
    (Number.toFloat_natCast hheight hheight') hround, hmax hwidth, hmax hheight]

end ResponsiveImage
