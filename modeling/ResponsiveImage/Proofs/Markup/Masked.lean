import Mathlib.Data.List.Forall2
import ResponsiveImage.Markup.Mask
import ResponsiveImage.Text.Line

/-!
# What masking keeps

Masking goes over a text in steps, each of which passes at least one character: an expression, which
is blanked, or a piece that stays as it is.  So every character is left as it is or gives way to a space
(`forall₂_mask`).  The ends of lines stay where they are, and so does every offset and every position.
-/

namespace ResponsiveImage.Markup

open Text

/-! ## Steps -/

theorem commentExtent_pos {cs : List Char} (h : cs ≠ []) : 0 < commentExtent cs := by
  rw [commentExtent]
  split
  · exact Nat.succ_pos _
  · exact List.length_pos_iff.mpr h

theorem tagLength_pos (extent : Option Nat) :
    0 < (match extent with
      | some n => n + 1
      | none => 1) := by
  split
  · exact Nat.succ_pos _
  · exact Nat.one_pos

theorem elementExtent_pos {cs : List Char} (h : cs ≠ []) : 0 < elementExtent cs := by
  simp only [elementExtent]
  split
  · exact tagLength_pos _
  · split
    · exact Nat.add_pos_left (tagLength_pos _) _
    · exact List.length_pos_iff.mpr h

theorem untouched_pos {cs : List Char} (h : cs ≠ []) : 0 < untouched cs := by
  unfold untouched
  split
  · exact commentExtent_pos h
  · split
    · split
      · exact elementExtent_pos h
      · exact Nat.one_pos
    · exact Nat.one_pos

theorem drop_pred {c : Char} {cs : List Char} {n : Nat} (h : 0 < n) :
    cs.drop (n - 1) = (c :: cs).drop n := by
  cases n with
  | zero => exact absurd h (Nat.lt_irrefl 0)
  | succ n => rfl

theorem mask_expression {cs : List Char} {n : Nat} (h : Expression.length? cs = some n) :
    mask cs = blankOut (cs.take n) ++ mask (cs.drop n) := by
  cases cs with
  | nil => cases h
  | cons c cs =>
    have hc : c = '{' := by
      rw [Expression.length?] at h
      split at h
      · assumption
      · cases h
    rw [mask, if_pos hc, h, ← drop_pred (Expression.length?_pos h)]

theorem mask_untouched {cs : List Char} (h : cs.head? ≠ some '{') :
    mask cs = cs.take (untouched cs) ++ mask (cs.drop (untouched cs)) := by
  cases cs with
  | nil => simp [mask]
  | cons c cs =>
    have hc : c ≠ '{' := fun hc ↦ h (congrArg some hc)
    rw [mask, if_neg hc, ← drop_pred (untouched_pos (List.cons_ne_nil c cs))]

/-! ## Characters -/

/-- A character that is left as it is, or a space in place of one that ends no line. -/
def IsLeft (c m : Char) : Prop := m = c ∨ c ≠ '\n' ∧ m = ' '

theorem forall₂_blankOut (cs : List Char) : List.Forall₂ IsLeft cs (blankOut cs) := by
  rw [blankOut, List.forall₂_map_right_iff, List.forall₂_same]
  intro c _
  split
  · rename_i hc
    exact .inl hc.symm
  · rename_i hc
    exact .inr ⟨hc, rfl⟩

/-- Masking goes over a text character by character. -/
theorem forall₂_mask (text : List Char) : List.Forall₂ IsLeft text (mask text) := by
  have hsame (cs : List Char) : List.Forall₂ IsLeft cs cs :=
    List.forall₂_same.mpr fun _ _ ↦ .inl rfl
  fun_induction mask text with
  | case1 => exact .nil
  | case2 cs => exact hsame _
  | case3 cs n hn ih =>
    rw [drop_pred (c := '{') (Expression.length?_pos hn)] at ih ⊢
    have happend := List.rel_append (forall₂_blankOut (('{' :: cs).take n)) ih
    simp only [List.take_append_drop] at happend
    exact happend
  | case4 c cs hc n ih =>
    rw [drop_pred (c := c) (untouched_pos (List.cons_ne_nil c cs))] at ih ⊢
    have happend := List.rel_append (hsame ((c :: cs).take n)) ih
    simp only [n, List.take_append_drop] at happend
    exact happend

/-! ## Lines -/

/-- Where the lines of a text end. -/
def lineEnds (cs : List Char) : List Bool := cs.map (· == '\n')

theorem lineEnds_eq_of_forall₂ {cs ms : List Char} (h : List.Forall₂ IsLeft cs ms) :
    lineEnds ms = lineEnds cs := by
  induction h with
  | nil => rfl
  | @cons c m cs ms h _ ih =>
    have hhead : (m == '\n') = (c == '\n') := by
      rcases h with rfl | ⟨hc, rfl⟩
      · rfl
      · rw [beq_eq_false_iff_ne.mpr hc]
        decide
    exact List.cons_eq_cons.mpr ⟨hhead, ih⟩

theorem lineEnds_mask (text : List Char) : lineEnds (mask text) = lineEnds text :=
  lineEnds_eq_of_forall₂ (forall₂_mask text)

theorem length_mask (text : List Char) : (mask text).length = text.length :=
  (forall₂_mask text).length_eq.symm

theorem lineStartsFrom_eq_of_lineEnds {s : Nat} {xs ys : List Char} (h : lineEnds xs = lineEnds ys) :
    lineStartsFrom s xs = lineStartsFrom s ys := by
  induction xs generalizing s ys with
  | nil =>
    obtain rfl : ys = [] := by simpa [lineEnds] using h.symm
    rfl
  | cons x xs ih =>
    cases ys with
    | nil => cases h
    | cons y ys =>
      obtain ⟨hhead, htail⟩ := List.cons_eq_cons.mp h
      have hiff : x = '\n' ↔ y = '\n' := by simpa using congrArg (· = true) hhead
      rw [lineStartsFrom, lineStartsFrom, ih htail]
      simp only [hiff]

/-- **The lines of a masked text begin where those of the text do.** -/
theorem lineStarts_mask (text : List Char) : lineStarts (mask text) = lineStarts text := by
  rw [lineStarts, lineStarts, lineStartsFrom_eq_of_lineEnds (lineEnds_mask text)]

end ResponsiveImage.Markup
