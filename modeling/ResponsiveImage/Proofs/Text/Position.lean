import Mathlib.Data.List.Induction
import Mathlib.Data.List.TakeWhile
import ResponsiveImage.Text.Line

/-!
# Offsets and positions

Every offset of a text has a position, and looking the line up and adding the column gives the offset
back (`offsetAt_advance`).  So no two offsets of a text share a position, and a position stands for
the offset at which it is reached.

A position may be kept up step by step, whatever the steps are: each adds its newlines to the line, and
the column goes on, or begins again behind the last of them (`foldl_pass`).
-/

namespace ResponsiveImage.Text

theorem lineStartsFrom_append (s : Nat) (front rest : List Char) :
    lineStartsFrom s (front ++ rest) =
      lineStartsFrom s front ++ lineStartsFrom (s + front.length) rest := by
  induction front generalizing s with
  | nil => rfl
  | cons c front ih =>
    have hlen : s + (c :: front).length = s + 1 + front.length := by
      rw [List.length_cons, Nat.add_comm front.length, Nat.add_assoc]
    rw [List.cons_append, lineStartsFrom, lineStartsFrom, ih, hlen]
    split
    · rfl
    · rfl

/-- A text that begins in column `p.column` of a line that began at `b` ends on the last of its
lines. -/
theorem advance_from {b s : Nat} {p : Position} (hb : b + p.column = s) (front : List Char) :
    (p.advance front).line = p.line + (lineStartsFrom s front).length ∧
      (lineStartsFrom s front).getLastD b + (p.advance front).column = s + front.length := by
  induction front generalizing b s p with
  | nil => exact ⟨rfl, hb⟩
  | cons c front ih =>
    rw [Position.advance_cons, Position.step, lineStartsFrom]
    split
    · obtain ⟨hline, hcolumn⟩ := ih (p := ⟨p.line + 1, 0⟩) (b := s + 1) (s := s + 1) rfl
      rw [List.getLastD_cons, List.length_cons, List.length_cons]
      refine ⟨?_, ?_⟩
      · rw [hline, Nat.add_right_comm, Nat.add_assoc]
      · rw [hcolumn]
        omega
    · obtain ⟨hline, hcolumn⟩ :=
        ih (p := ⟨p.line, p.column + 1⟩) (b := b) (s := s + 1) (by rw [← hb]; rfl)
      rw [List.length_cons]
      refine ⟨hline, ?_⟩
      rw [hcolumn]
      omega

theorem getElem?_length_eq_getLastD (x : Nat) (front rest : List Nat) :
    (x :: (front ++ rest))[front.length]? = some (front.getLastD x) := by
  induction front generalizing x with
  | nil => rfl
  | cons y front ih =>
    rw [List.getLastD_cons, ← ih y]
    rfl

/-- The line of a position begins as far back as the column says. -/
theorem exists_lineStart (front rest : List Char) :
    ∃ start, (lineStarts (front ++ rest))[(Position.advance {} front).line - 1]? = some start ∧
      start + (Position.advance {} front).column = front.length := by
  obtain ⟨hline, hcolumn⟩ := advance_from (b := 0) (s := 0) (p := {}) rfl front
  refine ⟨(lineStartsFrom 0 front).getLastD 0, ?_, by rw [hcolumn, Nat.zero_add]⟩
  rw [hline, lineStarts, lineStartsFrom_append, Nat.add_sub_cancel_left,
    getElem?_length_eq_getLastD]

/-- **The position of an offset is looked up as that offset.** -/
theorem offsetAt_advance (front rest : List Char) :
    offsetAt (lineStarts (front ++ rest)) (Position.advance {} front) = front.length := by
  obtain ⟨start, hstart, hcolumn⟩ := exists_lineStart front rest
  obtain ⟨hlt, -⟩ := List.getElem?_eq_some_iff.mp hstart
  rw [offsetAt, Nat.min_eq_left (Nat.le_sub_one_of_lt hlt), List.getD_eq_getElem?_getD, hstart,
    Option.getD_some, hcolumn]

theorem offsetAt_advance_take {text : List Char} {k : Nat} (hk : k ≤ text.length) :
    offsetAt (lineStarts text) (Position.advance {} (text.take k)) = k := by
  have h := offsetAt_advance (text.take k) (text.drop k)
  rw [List.take_append_drop, List.length_take_of_le hk] at h
  exact h

theorem advance_take_inj {text : List Char} {j k : Nat} (hj : j ≤ text.length)
    (hk : k ≤ text.length)
    (h : Position.advance {} (text.take j) = Position.advance {} (text.take k)) : j = k := by
  rw [← offsetAt_advance_take hj, h, offsetAt_advance_take hk]

/-! ## Positions kept up step by step -/

/-- How far the last newline of a text lies back, the length of the text if it has none. -/
def columnBehind (cs : List Char) : Nat := (cs.reverse.takeWhile (· ≠ '\n')).length

/-- The place just past a text that is passed in one step. -/
def Position.pass (p : Position) (cs : List Char) : Position :=
  if '\n' ∈ cs then ⟨p.line + cs.count '\n', columnBehind cs⟩ else ⟨p.line, p.column + cs.length⟩

theorem columnBehind_of_not_mem {cs : List Char} (h : '\n' ∉ cs) : columnBehind cs = cs.length := by
  have hall : ∀ c ∈ cs.reverse, decide (c ≠ '\n') = true := fun c hc ↦
    decide_eq_true fun he ↦ h (he ▸ List.mem_reverse.mp hc)
  rw [columnBehind, List.takeWhile_eq_self_iff.mpr hall, List.length_reverse]

theorem pass_eq_advance (p : Position) (cs : List Char) : p.pass cs = p.advance cs := by
  -- from the end: the last character decides whether the column begins again or goes on
  induction cs using List.reverseRecOn with
  | nil => rfl
  | append_singleton cs c ih =>
    rw [Position.advance_append, ← ih, Position.advance_cons, Position.advance_nil, Position.step,
      Position.pass, Position.pass]
    by_cases hc : c = '\n'
    · subst hc
      by_cases hcs : '\n' ∈ cs
      · simp [hcs, columnBehind, Nat.add_assoc]
      · simp [hcs, columnBehind, List.count_eq_zero_of_not_mem hcs]
    · have hmem : '\n' ∈ cs ++ [c] ↔ '\n' ∈ cs := by simp [Ne.symm hc]
      simp only [hmem, if_neg hc]
      split
      · simp [columnBehind, hc]
      · simp [Nat.add_assoc]

/-- From the beginning on, a line is passed for each newline. -/
theorem advance_eq (cs : List Char) :
    Position.advance {} cs = ⟨1 + cs.count '\n', columnBehind cs⟩ := by
  rw [← pass_eq_advance, Position.pass]
  split
  · rfl
  · rename_i h
    rw [List.count_eq_zero_of_not_mem h, columnBehind_of_not_mem h, Nat.zero_add]

/-- However a text is cut into steps, passing them one after the other passes the text. -/
theorem foldl_pass (p : Position) (steps : List (List Char)) :
    steps.foldl Position.pass p = p.advance steps.flatten := by
  induction steps generalizing p with
  | nil => rfl
  | cons step steps ih =>
    rw [List.foldl_cons, ih, pass_eq_advance, List.flatten_cons, Position.advance_append]

/-! ## The line of an offset -/

theorem mem_lineStartsFrom {s k : Nat} {cs : List Char} (h : k ∈ lineStartsFrom s cs) :
    s < k ∧ k ≤ s + cs.length := by
  induction cs generalizing s with
  | nil => cases h
  | cons c cs ih =>
    have htail : k ∈ lineStartsFrom (s + 1) cs → s < k ∧ k ≤ s + (c :: cs).length := by
      intro hk
      obtain ⟨hlt, hle⟩ := ih hk
      rw [List.length_cons]
      omega
    rw [lineStartsFrom] at h
    split at h
    · rcases List.mem_cons.mp h with rfl | hk
      · rw [List.length_cons]
        omega
      · exact htail hk
    · exact htail h

/-- **The line of an offset is the one on which it is reached.** -/
theorem lineOf_eq_line (front rest : List Char) :
    lineOf (front ++ rest) front.length = (Position.advance {} front).line := by
  have hfront : ∀ k ∈ 0 :: lineStartsFrom 0 front,
      decide ((k : Int) ≤ (front.length : Nat)) = true := by
    intro k hk
    refine decide_eq_true (Int.ofNat_le.mpr ?_)
    rcases List.mem_cons.mp hk with rfl | hk
    · exact Nat.zero_le _
    · simpa using (mem_lineStartsFrom hk).2
  have hrest : (lineStartsFrom front.length rest).takeWhile
      (fun k : Nat ↦ decide ((k : Int) ≤ (front.length : Nat))) = [] := by
    rw [List.takeWhile_eq_nil_iff]
    intro hpos
    have hlt := (mem_lineStartsFrom (List.getElem_mem hpos)).1
    simpa using hlt
  rw [lineOf, lineStarts, lineStartsFrom_append, Nat.zero_add, ← List.cons_append,
    List.takeWhile_append_of_pos hfront, hrest, List.append_nil, List.length_cons,
    (advance_from (b := 0) (s := 0) (p := {}) rfl front).1, Nat.add_comm]

/-! ## The offset of a position -/

/-- The offset at which a position is reached, the end of the text if it never is. -/
def Position.offsetIn (p : Position) (text : List Char) : Nat :=
  ((List.range (text.length + 1)).find? fun k ↦ Position.advance {} (text.take k) = p).getD
    text.length

theorem offsetIn_advance_take {text : List Char} {k : Nat} (hk : k ≤ text.length) :
    (Position.advance {} (text.take k)).offsetIn text = k := by
  have hmem : k ∈ List.range (text.length + 1) := List.mem_range.mpr (Nat.lt_succ_of_le hk)
  rw [Position.offsetIn]
  cases hfind : (List.range (text.length + 1)).find? fun j ↦
      Position.advance {} (text.take j) = Position.advance {} (text.take k) with
  | none => exact absurd (decide_eq_true rfl) (List.find?_eq_none.mp hfind k hmem)
  | some j =>
    have hj := List.mem_range.mp (List.mem_of_find?_eq_some hfind)
    have heq := (List.find?_eq_some_iff_append.mp hfind).1
    exact advance_take_inj (Nat.le_of_lt_succ hj) hk (by simpa using heq)

end ResponsiveImage.Text
