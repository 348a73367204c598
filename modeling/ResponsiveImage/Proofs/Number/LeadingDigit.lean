import ResponsiveImage.Proofs.Number.Comparison
import ResponsiveImage.Proofs.Number.Text

/-!
# The leading digit of a number

A number that is one or more has its leading digit before the point, also in the shortest decimal
that reads back as that number.  So it is written without a dash: it has no sign, and its exponent, if
it has one, is not negative.
-/

namespace ResponsiveImage

theorem div_le_roundDiv (num den : Nat) : num / den ≤ roundDiv num den := by
  unfold roundDiv
  dsimp only
  split
  · exact Nat.le_refl _
  · split
    · exact Nat.le_succ _
    · split
      · exact Nat.le_refl _
      · exact Nat.le_succ _

theorem powerOfTwo_pos (e : Int) : 0 < (powerOfTwo e).1 ∧ 0 < (powerOfTwo e).2 :=
  ⟨Nat.pow_pos (by decide), Nat.pow_pos (by decide)⟩

namespace Decimal

variable {num den count : Nat} {lead : Int} {d : Decimal}

/-- A decimal with at least that many digits behind its leading one. -/
theorem lead_nonneg (h : Nat.pow 10 (-d.exponent).toNat ≤ d.digits) : 0 ≤ d.lead := by
  have hlength : (-d.exponent).toNat < (Nat.toDigits 10 d.digits).length := by
    refine Nat.lt_of_not_le fun hle ↦ ?_
    rcases Nat.eq_zero_or_pos (-d.exponent).toNat with hzero | hpos
    · exact absurd hle (by simp [hzero])
    · exact absurd ((Nat.length_toDigits_le_iff (by decide) hpos).mp hle) (Nat.not_lt.mpr h)
  unfold lead
  omega

theorem lead_of_ofCount? {i : Interval} (h : den ≤ num) (hden : 0 < den)
    (hd : ofCount? num den i lead count = some d) : 0 ≤ d.lead := by
  unfold ofCount? at hd
  dsimp only at hd
  generalize lead - count + 1 = place at hd
  have hnearest := div_le_roundDiv (num * (powerOfTen place).2) (den * (powerOfTen place).1)
  generalize hbelow : num * (powerOfTen place).2 / (den * (powerOfTen place).1) = below at hd hnearest
  generalize roundDiv _ _ = nearest at hd hnearest
  have hother : below ≤ if nearest = below then below + 1 else below := by
    split
    · exact Nat.le_succ _
    · exact Nat.le_refl _
  generalize (if nearest = below then below + 1 else below) = other at hd hother
  obtain ⟨hexponent, hdigits⟩ : d.exponent = place ∧ below ≤ d.digits := by
    split at hd
    · cases hd
      exact ⟨rfl, hnearest⟩
    · split at hd
      · cases hd
        exact ⟨rfl, hother⟩
      · cases hd
  rcases Int.lt_or_le place 0 with hneg | hnonneg
  · refine lead_nonneg (Nat.le_trans ?_ hdigits)
    have hup : (powerOfTen place).1 = 1 := by
      rw [powerOfTen, Int.toNat_of_nonpos (Int.le_of_lt hneg)]
    rw [hexponent, ← hbelow, hup, Nat.mul_one, Nat.le_div_iff_mul_le hden, Nat.mul_comm]
    exact Nat.mul_le_mul_right _ h
  · have hlength : 0 < (Nat.toDigits 10 d.digits).length := Nat.length_toDigits_pos
    unfold Decimal.lead
    omega

/-- Taking a zero away from the end leaves the leading digit where it is. -/
theorem lead_trimZeros (fuel : Nat) (d : Decimal) : (trimZeros fuel d).lead = d.lead := by
  induction fuel generalizing d with
  | zero => rfl
  | succ fuel ih =>
    rw [trimZeros]
    split
    · rename_i h
      obtain ⟨hmod, hne⟩ : d.digits % 10 = 0 ∧ d.digits ≠ 0 := by simpa using h
      have hdigits := congrArg List.length
        (Nat.toDigits_of_base_le (b := 10) (n := d.digits) (by decide) (by omega))
      rw [List.length_append, List.length_singleton] at hdigits
      rw [ih, lead, lead, hdigits]
      push_cast
      omega
    · rfl

theorem lead_shortest {m : Nat} {e : Int} (h : (Binary64.ratio m e).2 ≤ (Binary64.ratio m e).1) :
    0 ≤ (shortest m e).lead := by
  unfold shortest
  dsimp only
  rw [lead_trimZeros]
  cases hfound : (List.range 17).findSome? _ with
  | none => decide
  | some d =>
    obtain ⟨n, -, hn⟩ := List.exists_of_findSome?_eq_some hfound
    exact lead_of_ofCount? h (powerOfTwo_pos e).2 hn

end Decimal

namespace Number

theorem one_le_finite {negative : Bool} {m : Nat} {e : Int}
    (h : Number.le 1 (.float (.finite negative m e)) = true) :
    negative = false ∧ (Binary64.ratio m e).2 ≤ (Binary64.ratio m e).1 := by
  have hden : 0 < (Binary64.ratio m e).2 := (powerOfTwo_pos e).2
  rw [le_iff, compare?] at h
  simp only [extended, Binary64.extended, Extended.compare?, Option.some_inj, Int.compare_eq_lt,
    Int.compare_eq_eq] at h
  cases negative with
  | false =>
    simp only [Bool.false_eq_true, if_false] at h
    exact ⟨rfl, by omega⟩
  | true =>
    simp only [if_true] at h
    omega

/-- A number that is one or more is written without a dash. -/
theorem dash_not_mem_text {n : Number} (h : Number.le 1 n = true) : '-' ∉ n.text.toList := by
  cases n with
  | int n =>
    obtain ⟨k, rfl⟩ := Int.eq_ofNat_of_zero_le (Int.le_trans (by decide) (int_le_int.mp h))
    have hdigits : ∀ c ∈ Nat.toDigits 10 k, c ≠ '-' := by
      rintro c hc rfl
      exact absurd (isDigit_of_mem_toDigits _ hc) (by decide)
    simpa [text, Int.toString_eq_repr, Int.repr, Nat.repr] using fun hc ↦ hdigits _ hc rfl
  | float x =>
    rw [text, Binary64.text, String.toList_ofList]
    cases x with
    | nan => decide
    | infinite negative =>
      cases negative with
      | false => decide
      | true => cases h
    | finite negative m e =>
      obtain ⟨rfl, hle⟩ := one_le_finite h
      rw [NumberLayout.render]
      simp only [Bool.false_eq_true, if_false]
      split
      · decide
      · have hsign : (if (Decimal.shortest m e).lead < 0 then '-' else '+') ≠ '-' := by
          rw [if_neg (Int.not_lt.mpr (Decimal.lead_shortest hle))]
          decide
        intro hdash
        refine NumberLayout.forall_mem_decimal (P := (· ≠ '-')) ?_ (by decide) (by decide) hsign _ _
          hdash rfl
        rintro c hc rfl
        exact absurd hc (by decide)
  | flag b => cases b <;> decide

end Number

end ResponsiveImage
