import ResponsiveImage.Number.Basic

/-!
# Comparing numbers

Numbers compare by their exact values.  A NaN has none and compares with nothing; of any two other
numbers one is below the other, or they are equal.
-/

namespace ResponsiveImage

namespace Extended

theorem compare?_swap (a b : Extended) : b.compare? a = (a.compare? b).map Ordering.swap := by
  cases a <;> cases b
  case ratio.ratio m d n e => exact congrArg some (Int.compare_swap (m * e) (n * d)).symm
  all_goals rfl

theorem compare?_eq_none_iff {a b : Extended} :
    a.compare? b = none ↔ a = .undefined ∨ b = .undefined := by
  cases a <;> cases b <;> simp [compare?]

end Extended

theorem Binary64.extended_eq_undefined_iff {x : Binary64} : x.extended = .undefined ↔ x = .nan := by
  cases x with
  | finite negative m e => simp [extended]
  | infinite negative => cases negative <;> simp [extended]
  | nan => simp [extended]

namespace Number

variable {a b n : Number} {ns : List Number}

theorem extended_eq_undefined_iff : a.extended = .undefined ↔ a = .float .nan := by
  cases a with
  | int n => simp [extended]
  | float x => simp [extended, Binary64.extended_eq_undefined_iff]
  | flag b => simp [extended]

theorem compare?_swap (a b : Number) : b.compare? a = (a.compare? b).map Ordering.swap :=
  Extended.compare?_swap _ _

theorem compare?_int (m n : Int) : (int m).compare? (int n) = some (compare m n) := by
  simp [compare?, extended, Extended.compare?]

theorem lt_iff : a.lt b = true ↔ a.compare? b = some .lt := by
  simp [lt]

theorem le_iff : a.le b = true ↔ a.compare? b = some .lt ∨ a.compare? b = some .eq := by
  simp [le]

theorem int_lt_int {m n : Int} : (int m).lt (int n) = true ↔ m < n := by
  rw [lt_iff, compare?_int, Option.some_inj, Int.compare_eq_lt]

theorem int_le_int {m n : Int} : (int m).le (int n) = true ↔ m ≤ n := by
  rw [le_iff, compare?_int, Option.some_inj, Option.some_inj, Int.compare_eq_lt, Int.compare_eq_eq]
  omega

theorem compare?_eq_none_iff : a.compare? b = none ↔ a = .float .nan ∨ b = .float .nan := by
  rw [compare?, Extended.compare?_eq_none_iff, extended_eq_undefined_iff, extended_eq_undefined_iff]

theorem ne_nan_of_le (h : a.le b = true) : a ≠ .float .nan ∧ b ≠ .float .nan := by
  have hsome : a.compare? b ≠ none := by
    rcases le_iff.mp h with h | h <;> simp [h]
  rwa [ne_eq, compare?_eq_none_iff, not_or] at hsome

theorem ne_nan_of_lt (h : a.lt b = true) : a ≠ .float .nan ∧ b ≠ .float .nan :=
  ne_nan_of_le (le_iff.mpr (.inl (lt_iff.mp h)))

/-- Of two numbers, neither of them a NaN, the one is at most the other or above it. -/
theorem le_or_lt (ha : a ≠ .float .nan) (hb : b ≠ .float .nan) :
    a.le b = true ∨ b.lt a = true := by
  have hsome : a.compare? b ≠ none := by
    rw [ne_eq, compare?_eq_none_iff, not_or]
    exact ⟨ha, hb⟩
  rw [le_iff, lt_iff, compare?_swap a b]
  cases h : a.compare? b with
  | none => exact absurd h hsome
  | some order =>
    cases order with
    | lt => exact .inl (.inl rfl)
    | eq => exact .inl (.inr rfl)
    | gt => exact .inr rfl

theorem not_lt_of_le (h : a.le b = true) : b.lt a = false := by
  rw [← Bool.not_eq_true, lt_iff, compare?_swap a b]
  rcases le_iff.mp h with h | h <;> rw [h] <;> decide

/-! ## The least of some numbers -/

theorem least_cons (n m : Number) (ns : List Number) :
    least n (m :: ns) = least (if m.lt n then m else n) ns := rfl

theorem least_mem (n : Number) (ns : List Number) : least n ns ∈ n :: ns := by
  induction ns generalizing n with
  | nil => exact List.mem_singleton_self n
  | cons m ns ih =>
    rw [least_cons]
    have hfirst : (if m.lt n then m else n) = m ∨ (if m.lt n then m else n) = n := by
      split
      · exact .inl rfl
      · exact .inr rfl
    rcases List.mem_cons.mp (ih (if m.lt n then m else n)) with h | h
    · rw [h]
      rcases hfirst with h | h <;> simp [h]
    · exact List.mem_cons_of_mem _ (List.mem_cons_of_mem _ h)

/-- A NaN is the least of some numbers exactly if it comes first. -/
theorem least_eq_nan_iff : least n ns = .float .nan ↔ n = .float .nan := by
  induction ns generalizing n with
  | nil => rfl
  | cons m ns ih =>
    rw [least_cons, ih]
    split
    · rename_i h
      simp [ne_nan_of_lt h]
    · rfl

end Number

end ResponsiveImage
