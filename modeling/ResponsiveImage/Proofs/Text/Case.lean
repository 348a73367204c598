import ResponsiveImage.Text.Case

/-!
# What capital and small letters leave alone

A character without another form stays where it stands, and no other character turns into a slash.
Of the Latin letters in one word it is shown that nothing but their own capitals turns into them, so
that it does not matter for this word that small forms depend on what stands around them.
-/

namespace ResponsiveImage.Text

theorem mem_upperChars {c : Char} (hc : capitalForm c = [c]) {cs : List Char} (h : c ∈ cs) :
    c ∈ upperChars cs :=
  List.mem_flatMap.mpr ⟨c, h, by rw [hc]; exact List.mem_singleton_self c⟩

theorem mem_lowerAfter {c : Char} (hc : smallForm c = [c]) (hsigma : c ≠ 'Σ') {before : Bool}
    {cs : List Char} (h : c ∈ cs) : c ∈ lowerAfter before cs := by
  induction cs generalizing before with
  | nil => cases h
  | cons d cs ih =>
    rw [lowerAfter, List.mem_append]
    rcases List.mem_cons.mp h with rfl | h
    · rw [if_neg hsigma, hc]
      exact .inl (List.mem_singleton_self c)
    · exact .inr (ih h)

/-- Whether a code point lies outside all runs that are shifted to. -/
def Shift.avoids (k : Nat) (ss : List Shift) : Bool :=
  ss.all fun s ↦ (k : Int) < s.run.first + s.offset || (s.run.last + s.offset).toNat < k

/-- A code point that nothing is shifted to is that of no other character. -/
theorem Shift.eq_of_apply_eq {n k : Nat} {ss : List Shift} (hss : avoids k ss = true)
    (h : apply n ss = k) : n = k := by
  induction ss with
  | nil => exact h
  | cons s ss ih =>
    rw [avoids, List.all_cons, Bool.and_eq_true] at hss
    obtain ⟨hs, hss⟩ := hss
    simp only [Bool.or_eq_true, decide_eq_true_eq] at hs
    rw [apply] at h
    split at h
    · rename_i hholds
      simp only [Run.holds, Bool.and_eq_true, decide_eq_true_eq] at hholds
      omega
    · exact ih hss h

theorem toNat_eq_of_ofNat {n : Nat} {c : Char} (hc : c ≠ '\x00') (h : Char.ofNat n = c) :
    n = c.toNat := by
  by_cases hn : n.isValidChar
  · rw [← h, Char.ofNat, dif_pos hn]
    rfl
  · refine absurd ?_ hc
    rw [← h, Char.ofNat, dif_neg hn]
    rfl

theorem eq_slash_of_mem_smallForm {c : Char} (h : '/' ∈ smallForm c) : c = '/' := by
  rw [smallForm] at h
  split at h
  · exact absurd h (by decide)
  · have hofNat := toNat_eq_of_ofNat (by decide) (List.mem_singleton.mp h).symm
    have havoids : Shift.avoids '/'.toNat toSmall = true := by decide +kernel
    exact Char.toNat_inj.mp (Shift.eq_of_apply_eq havoids hofNat)

theorem slash_mem_of_mem_lowerAfter {before : Bool} {cs : List Char}
    (h : '/' ∈ lowerAfter before cs) : '/' ∈ cs := by
  induction cs generalizing before with
  | nil => cases h
  | cons c cs ih =>
    rw [lowerAfter, List.mem_append] at h
    rcases h with h | h
    · split at h
      · split at h
        · exact absurd h (by decide)
        · exact absurd h (by decide)
      · rw [eq_slash_of_mem_smallForm h]
        exact List.mem_cons_self
    · exact List.mem_cons_of_mem _ (ih h)

/-! ## A word in any letter case -/

theorem toNat_toLower (c : Char) :
    c.toLower.toNat = if 65 ≤ c.toNat ∧ c.toNat ≤ 90 then c.toNat + 32 else c.toNat := by
  have hiff : (c.val ≥ 'A'.val ∧ c.val ≤ 'Z'.val) ↔ (65 ≤ c.toNat ∧ c.toNat ≤ 90) := by
    rw [ge_iff_le, UInt32.le_iff_toNat_le, UInt32.le_iff_toNat_le]
    rfl
  delta Char.toLower
  split
  · rename_i h
    rw [if_pos (hiff.mp h)]
    have hle : c.val.toNat ≤ 90 := (hiff.mp h).2
    have hsum : (c.val + 32).toNat = c.val.toNat + 32 := by
      rw [UInt32.toNat_add]
      exact Nat.mod_eq_of_lt (show c.val.toNat + 32 < 2 ^ 32 by omega)
    exact hsum
  · rename_i h
    rw [if_neg fun h' ↦ h (hiff.mpr h')]

/-- The letters of this word are the small forms of themselves and of their Latin capitals only. -/
theorem mem_smallForm_iff {c d : Char} (hd : d ∈ "data:".toList) :
    d ∈ smallForm c ↔ c.toLower = d := by
  have hword : ("data:".toList.all fun d ↦ Shift.avoids d.toNat toSmall.tail &&
      Shift.apply d.toNat toSmall.tail == d.toNat && d != 'i' && d != '\u0307' && d != '\x00') =
      true := by decide +kernel
  have hletter := List.all_eq_true.mp hword d hd
  simp only [Bool.and_eq_true, bne_iff_ne, ne_eq, beq_iff_eq] at hletter
  obtain ⟨⟨⟨⟨havoids, happly⟩, hi⟩, hdot⟩, hzero⟩ := hletter
  have hshift : Shift.apply c.toNat toSmall = d.toNat ↔ c.toLower.toNat = d.toNat := by
    have hcons : toSmall = ⟨⟨0x41, 0x5a, 1⟩, 32⟩ :: toSmall.tail := rfl
    rw [toNat_toLower, hcons, Shift.apply]
    by_cases hc : 65 ≤ c.toNat ∧ c.toNat ≤ 90
    · have hholds : (⟨0x41, 0x5a, 1⟩ : Run).holds c.toNat = true := by
        simp [Run.holds, hc, Nat.mod_one]
      rw [if_pos hholds, if_pos hc]
      rfl
    · have hholds : ¬ (⟨0x41, 0x5a, 1⟩ : Run).holds c.toNat = true := by
        simp only [Run.holds, Bool.and_eq_true, decide_eq_true_eq]
        exact fun h ↦ hc h.1
      rw [if_neg hholds, if_neg hc]
      exact ⟨Shift.eq_of_apply_eq havoids, fun h ↦ by rw [h, happly]⟩
  rw [smallForm]
  split
  · rename_i hc
    subst hc
    have hlower : 'İ'.toLower ≠ d := by
      rintro rfl
      exact absurd hd (by decide)
    exact iff_of_false (by simp [hi, hdot]) hlower
  · rw [List.mem_singleton, ← Char.toNat_inj (c := c.toLower), ← hshift]
    refine ⟨fun h ↦ toNat_eq_of_ofNat hzero h.symm, fun h ↦ ?_⟩
    rw [h, Char.ofNat_toNat]

/-- What stands for a character in small letters, `final` telling which of the two small sigmas is
used. -/
theorem exists_small_eq_cons {d : Char} (hd : d ∈ "data:".toList) (c : Char) (final : Bool) :
    ∃ x rest, (if c = 'Σ' then [if final then 'ς' else 'σ'] else smallForm c) = x :: rest ∧
      (x = d ↔ c.toLower = d) ∧ (x = d → rest = []) := by
  have hnot {x : Char} (hx : x ∉ "data:".toList) : x ≠ d := fun h ↦ hx (h ▸ hd)
  split
  · rename_i hc
    subst hc
    refine ⟨_, [], rfl, iff_of_false ?_ (hnot (by decide)), fun _ ↦ rfl⟩
    split
    · exact hnot (by decide)
    · exact hnot (by decide)
  · have hmem := mem_smallForm_iff (c := c) hd
    rw [smallForm] at hmem ⊢
    split
    · rename_i hc
      subst hc
      exact ⟨_, _, rfl, iff_of_false (hnot (by decide)) (hnot (by decide)),
        fun h ↦ absurd h (hnot (by decide))⟩
    · rename_i hc
      rw [if_neg hc, List.mem_singleton] at hmem
      exact ⟨_, [], rfl, eq_comm.trans hmem, fun _ ↦ rfl⟩

/-- A text begins with this word in some letter case if it does so in small letters. -/
theorem isPrefixOf_lowerAfter {word : List Char} (hword : ∀ d ∈ word, d ∈ "data:".toList)
    (before : Bool) (cs : List Char) :
    word.isPrefixOf (lowerAfter before cs) = word.isPrefixOf (cs.map Char.toLower) := by
  induction word generalizing before cs with
  | nil => rfl
  | cons d word ih =>
    obtain ⟨hd, hrest⟩ := List.forall_mem_cons.mp hword
    cases cs with
    | nil => rfl
    | cons c cs =>
      -- what stands for `c` begins with `d` only if it is `d` alone
      obtain ⟨x, more, hsmall, hx, hmore⟩ := exists_small_eq_cons hd c (before && !casedNext cs)
      rw [lowerAfter, hsmall, List.map_cons, List.cons_append]
      by_cases hc : c.toLower = d
      · obtain rfl := hx.mpr hc
        simp only [hmore rfl, List.nil_append, List.isPrefixOf_cons_cons, hc, ih hrest]
      · have hx' : (d == x) = false := by simpa using fun h ↦ hc (hx.mp h.symm)
        have hc' : (d == c.toLower) = false := by simpa using Ne.symm hc
        rw [List.isPrefixOf_cons_cons, List.isPrefixOf_cons_cons, hx', hc', Bool.false_and,
          Bool.false_and]

end ResponsiveImage.Text
