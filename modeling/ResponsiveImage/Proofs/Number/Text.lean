import ResponsiveImage.Number.Basic

/-!
# The characters of numbers

Numbers are written with digits, letters, dots and signs, and with nothing else.
-/

namespace ResponsiveImage

/-- The characters that numbers are written with. -/
def isNumeral (c : Char) : Bool := c.isAlphanum || c == '.' || c == '-' || c == '+'

theorem isDigit_of_mem_toDigits {n : Nat} : ∀ c ∈ Nat.toDigits 10 n, c.isDigit = true :=
  fun _ hc ↦ Nat.isDigit_of_mem_toDigits (by decide) (by decide) hc

theorem isNumeral_of_isDigit {c : Char} (h : c.isDigit = true) : isNumeral c = true := by
  simp [isNumeral, Char.isAlphanum, h]

/-- The exponent of the leading digit. -/
def Decimal.lead (d : Decimal) : Int := d.exponent + (Nat.toDigits 10 d.digits).length - 1

namespace NumberLayout

variable {P : Char → Prop} {digits : List Char}

theorem forall_mem_replicate_zero (hzero : P '0') (n : Nat) : ∀ c ∈ List.replicate n '0', P c := by
  intro c hc
  rwa [List.eq_of_mem_replicate hc]

theorem forall_mem_positional (hdot : P '.') (hzero : P '0') (h : ∀ c ∈ digits, P c) (lead : Int) :
    ∀ c ∈ positional digits lead, P c := by
  rw [positional]
  split
  · simp only [List.forall_mem_cons, List.forall_mem_append]
    exact ⟨hzero, hdot, forall_mem_replicate_zero hzero _, h⟩
  · have hpadded : ∀ n, ∀ c ∈ digits ++ List.replicate n '0', P c := fun n ↦
      List.forall_mem_append.mpr ⟨h, forall_mem_replicate_zero hzero n⟩
    refine List.forall_mem_append.mpr ⟨fun c hc ↦ hpadded _ c (List.mem_of_mem_take hc), ?_⟩
    refine List.forall_mem_cons.mpr ⟨hdot, ?_⟩
    split
    · exact List.forall_mem_singleton.mpr hzero
    · exact fun c hc ↦ hpadded _ c (List.mem_of_mem_drop hc)

theorem forall_mem_scientific (hdigit : ∀ c : Char, c.isDigit = true → P c) (hdot : P '.')
    (he : P 'e') {lead : Int} (hsign : P (if lead < 0 then '-' else '+'))
    (h : ∀ c ∈ digits, P c) (l : NumberLayout) : ∀ c ∈ l.scientific digits lead, P c := by
  unfold scientific
  refine List.forall_mem_append.mpr ⟨?_, List.forall_mem_cons.mpr ⟨he,
    List.forall_mem_cons.mpr ⟨hsign, List.forall_mem_append.mpr
      ⟨forall_mem_replicate_zero (hdigit '0' (by decide)) _,
        fun c hc ↦ hdigit c (isDigit_of_mem_toDigits c hc)⟩⟩⟩⟩
  split
  · exact fun c hc ↦ by cases hc
  · exact h
  · obtain ⟨hd, hds⟩ := List.forall_mem_cons.mp h
    exact List.forall_mem_cons.mpr ⟨hd, List.forall_mem_cons.mpr ⟨hdot, hds⟩⟩

/-- A decimal is written with digits, a dot, and an exponent with its sign. -/
theorem forall_mem_decimal (hdigit : ∀ c : Char, c.isDigit = true → P c) (hdot : P '.')
    (he : P 'e') {d : Decimal} (hsign : P (if d.lead < 0 then '-' else '+')) (l : NumberLayout) :
    ∀ c ∈ l.decimal d, P c := by
  have hdigits : ∀ c ∈ Nat.toDigits 10 d.digits, P c := fun c hc ↦
    hdigit c (isDigit_of_mem_toDigits c hc)
  rw [decimal]
  split
  · exact forall_mem_positional hdot (hdigit '0' (by decide)) hdigits _
  · exact forall_mem_scientific hdigit hdot he hsign hdigits l

end NumberLayout

theorem Binary64.isNumeral_of_mem_text (x : Binary64) : ∀ c ∈ x.text.toList, isNumeral c = true := by
  rw [text, String.toList_ofList]
  cases x with
  | nan => exact List.all_eq_true.mp (by decide)
  | infinite negative => cases negative <;> exact List.all_eq_true.mp (by decide)
  | finite negative m e =>
    have htext : ∀ c ∈ (if m = 0 then "0.0".toList else numberLayout.decimal (.shortest m e)),
        isNumeral c = true := by
      split
      · exact List.all_eq_true.mp (by decide)
      · refine NumberLayout.forall_mem_decimal (fun _ ↦ isNumeral_of_isDigit) (by decide)
          (by decide) ?_ _
        split <;> decide
    rw [NumberLayout.render]
    split
    · exact List.forall_mem_cons.mpr ⟨by decide, htext⟩
    · exact htext

theorem Number.isNumeral_of_mem_text (n : Number) : ∀ c ∈ n.text.toList, isNumeral c = true := by
  cases n with
  | int n =>
    rw [text, Int.toString_eq_repr]
    cases n with
    | ofNat n =>
      have hdigits : ∀ c ∈ Nat.toDigits 10 n, isNumeral c = true := fun c hc ↦
        isNumeral_of_isDigit (isDigit_of_mem_toDigits c hc)
      simpa [Int.repr, Nat.repr] using hdigits
    | negSucc n =>
      have hdigits : ∀ c ∈ Nat.toDigits 10 (n + 1), isNumeral c = true := fun c hc ↦
        isNumeral_of_isDigit (isDigit_of_mem_toDigits c hc)
      have hminus : isNumeral '-' = true := by decide
      simpa [Int.repr, Nat.repr, hminus] using hdigits
  | float x => exact x.isNumeral_of_mem_text
  | flag b => cases b <;> exact List.all_eq_true.mp (by decide)

end ResponsiveImage
