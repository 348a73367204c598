import Mathlib.Data.List.Basic
import ResponsiveImage.Proofs.Edit.WriteOut
import ResponsiveImage.Text.Utf8

/-!
# Line ends

A text is read with all its line ends turned to newlines, and edits are found in what is read.  Each
of them has a place in the text itself (`Edit.placedIn`).  Making the edits in what is read comes to
the same as making them in the text exactly if no carriage return is left outside of them
(`writeOut_placedIn_eq_iff`).
-/

namespace ResponsiveImage.Text.Utf8

variable {cs : List Char} {c : Char} {k : Nat}

/-- Where a character begins in a text that is known by its number in the text as it is read. -/
def origin : List Char → Nat → Nat
  | _, 0 => 0
  | [], _ + 1 => 0
  | '\r' :: '\n' :: cs, k + 1 => origin cs k + 2
  | _ :: cs, k + 1 => origin cs k + 1

@[simp] theorem origin_zero (cs : List Char) : origin cs 0 = 0 := by
  rw [origin]

theorem universalNewlines_cr (h : cs.head? ≠ some '\n') :
    universalNewlines ('\r' :: cs) = '\n' :: universalNewlines cs := by
  cases cs with
  | nil => rfl
  | cons c cs =>
    rw [universalNewlines]
    rintro ds ⟨⟩
    exact h rfl

theorem universalNewlines_plain (h : c ≠ '\r') :
    universalNewlines (c :: cs) = c :: universalNewlines cs := by
  rw [universalNewlines]
  · rintro ds rfl
    exact absurd rfl h
  · exact h

theorem origin_cr (h : cs.head? ≠ some '\n') : origin ('\r' :: cs) (k + 1) = origin cs k + 1 := by
  cases cs with
  | nil => rfl
  | cons c cs =>
    rw [origin]
    rintro ds - ⟨⟩
    exact h rfl

theorem origin_plain (h : c ≠ '\r') : origin (c :: cs) (k + 1) = origin cs k + 1 := by
  rw [origin]
  rintro ds rfl
  exact absurd rfl h

/-- Texts are built of line ends of both halves, of carriage returns alone and of other characters. -/
@[elab_as_elim]
theorem newlineInduction {motive : List Char → Prop} (nil : motive [])
    (crlf : ∀ cs, motive cs → motive ('\r' :: '\n' :: cs))
    (cr : ∀ cs, cs.head? ≠ some '\n' → motive cs → motive ('\r' :: cs))
    (plain : ∀ c cs, c ≠ '\r' → motive cs → motive (c :: cs)) (cs : List Char) : motive cs := by
  induction hn : cs.length using Nat.strongRecOn generalizing cs with
  | ind n ih =>
    subst hn
    cases cs with
    | nil => exact nil
    | cons c cs =>
      by_cases hc : c = '\r'
      · subst hc
        by_cases hcs : cs.head? = some '\n'
        · obtain ⟨ds, rfl⟩ := List.head?_eq_some_iff.mp hcs
          exact crlf ds (ih ds.length (Nat.lt_succ_of_lt (Nat.lt_succ_self _)) ds rfl)
        · exact cr cs hcs (ih cs.length (Nat.lt_succ_self _) cs rfl)
      · exact plain c cs hc (ih cs.length (Nat.lt_succ_self _) cs rfl)

theorem not_mem_universalNewlines (cs : List Char) : '\r' ∉ universalNewlines cs := by
  induction cs using newlineInduction with
  | nil => exact List.not_mem_nil
  | crlf cs ih => exact List.not_mem_cons_of_ne_of_not_mem (by decide) ih
  | cr cs h ih =>
    rw [universalNewlines_cr h]
    exact List.not_mem_cons_of_ne_of_not_mem (by decide) ih
  | plain c cs h ih =>
    rw [universalNewlines_plain h]
    exact List.not_mem_cons_of_ne_of_not_mem h.symm ih

theorem length_universalNewlines_le (cs : List Char) :
    (universalNewlines cs).length ≤ cs.length := by
  induction cs using newlineInduction with
  | nil => exact Nat.le_refl _
  | crlf cs ih =>
    rw [universalNewlines, List.length_cons, List.length_cons, List.length_cons]
    omega
  | cr cs h ih =>
    rw [universalNewlines_cr h, List.length_cons, List.length_cons]
    omega
  | plain c cs h ih =>
    rw [universalNewlines_plain h, List.length_cons, List.length_cons]
    omega

/-- A text is read as it is exactly if it has no carriage returns. -/
theorem universalNewlines_eq_self_iff : universalNewlines cs = cs ↔ '\r' ∉ cs := by
  constructor
  · intro h
    rw [← h]
    exact not_mem_universalNewlines cs
  · intro h
    induction cs with
    | nil => rfl
    | cons c cs ih =>
      rw [List.mem_cons, not_or] at h
      obtain ⟨hc, hcs⟩ := h
      rw [universalNewlines_plain (Ne.symm hc), ih hcs]

theorem universalNewlines_take_origin (cs : List Char) (k : Nat) :
    universalNewlines (cs.take (origin cs k)) = (universalNewlines cs).take k := by
  induction cs using newlineInduction generalizing k with
  | nil => simp [universalNewlines]
  | crlf cs ih =>
    cases k with
    | zero => simp [universalNewlines]
    | succ k =>
      rw [origin, List.take_succ_cons, List.take_succ_cons, universalNewlines, universalNewlines,
        List.take_succ_cons, ih]
  | cr cs h ih =>
    cases k with
    | zero => simp [universalNewlines]
    | succ k =>
      have hhead : (cs.take (origin cs k)).head? ≠ some '\n' := by
        rw [List.head?_take]
        split
        · exact Option.some_ne_none _ ∘ Eq.symm
        · exact h
      rw [origin_cr h, List.take_succ_cons, universalNewlines_cr hhead, universalNewlines_cr h,
        List.take_succ_cons, ih]
  | plain c cs h ih =>
    cases k with
    | zero => simp [universalNewlines]
    | succ k =>
      rw [origin_plain h, List.take_succ_cons, universalNewlines_plain h, universalNewlines_plain h,
        List.take_succ_cons, ih]

theorem universalNewlines_drop_origin (cs : List Char) (k : Nat) :
    universalNewlines (cs.drop (origin cs k)) = (universalNewlines cs).drop k := by
  induction cs using newlineInduction generalizing k with
  | nil => simp [universalNewlines]
  | crlf cs ih =>
    cases k with
    | zero => simp
    | succ k =>
      rw [origin, List.drop_succ_cons, List.drop_succ_cons, universalNewlines, List.drop_succ_cons,
        ih]
  | cr cs h ih =>
    cases k with
    | zero => simp
    | succ k =>
      rw [origin_cr h, List.drop_succ_cons, universalNewlines_cr h, List.drop_succ_cons, ih]
  | plain c cs h ih =>
    cases k with
    | zero => simp
    | succ k =>
      rw [origin_plain h, List.drop_succ_cons, universalNewlines_plain h, List.drop_succ_cons, ih]

theorem origin_add (cs : List Char) (j k : Nat) :
    origin cs (j + k) = origin cs j + origin (cs.drop (origin cs j)) k := by
  induction cs using newlineInduction generalizing j with
  | nil => cases j <;> cases k <;> simp [origin]
  | crlf cs ih =>
    cases j with
    | zero => simp
    | succ j =>
      rw [Nat.succ_add, origin, origin, List.drop_succ_cons, List.drop_succ_cons, ih]
      omega
  | cr cs h ih =>
    cases j with
    | zero => simp
    | succ j =>
      rw [Nat.succ_add, origin_cr h, origin_cr h, List.drop_succ_cons, ih]
      omega
  | plain c cs h ih =>
    cases j with
    | zero => simp
    | succ j =>
      rw [Nat.succ_add, origin_plain h, origin_plain h, List.drop_succ_cons, ih]
      omega

end ResponsiveImage.Text.Utf8

namespace ResponsiveImage.Edit

open Text.Utf8

variable {cs : List Char} {pos start stop : Int} {es : List Edit}

/-- An edit of what is read, at the place where the text itself has what it replaces. -/
def placedIn (cs : List Char) (e : Edit) : Edit :=
  ⟨origin cs e.start.toNat, origin cs e.stop.toNat, e.replacement⟩

/-- An edit that cuts out its span. -/
def erased (e : Edit) : Edit := { e with replacement := [] }

/-- What is left of a text outside of some edits. -/
def leftover (text : List Char) (es : List Edit) : List Char := writeOut text (es.map erased)

/-- What is written out for some edits from `pos` up to the end of the text. -/
def rest (text : List Char) (pos : Int) (es : List Edit) : List Char :=
  written text pos es ++ text.drop (lastStop pos es).toNat

theorem rest_cons (text : List Char) (pos : Int) (e : Edit) (es : List Edit) :
    rest text pos (e :: es) = span text pos e.start ++ e.replacement ++ rest text e.stop es :=
  List.append_assoc _ _ _

/-- What stands between two places is read between the places at which they are read. -/
theorem universalNewlines_span (cs : List Char) (h : start ≤ stop) :
    universalNewlines (span cs (origin cs start.toNat) (origin cs stop.toNat)) =
      span (universalNewlines cs) start stop := by
  obtain ⟨k, hk⟩ : ∃ k, stop.toNat = start.toNat + k := ⟨stop.toNat - start.toNat, by omega⟩
  rw [span, span, hk, Int.toNat_natCast, Int.toNat_natCast, origin_add, List.drop_take,
    Nat.add_sub_cancel_left, universalNewlines_take_origin, universalNewlines_drop_origin,
    List.drop_take, Nat.add_sub_cancel_left]

/-- Some edits made in what is read and at their places in the text itself: the former comes out no
longer, and the same exactly if there are no carriage returns outside of the edits. -/
theorem rest_placedIn (h : InOrder (universalNewlines cs).length pos es) :
    (rest (universalNewlines cs) pos es).length ≤
        (rest cs (origin cs pos.toNat) (es.map (placedIn cs))).length ∧
      (rest cs (origin cs pos.toNat) (es.map (placedIn cs)) = rest (universalNewlines cs) pos es ↔
        '\r' ∉ rest cs (origin cs pos.toNat) ((es.map (placedIn cs)).map erased)) := by
  induction es generalizing pos with
  | nil =>
    have hread := universalNewlines_drop_origin cs pos.toNat
    have hlength := length_universalNewlines_le (cs.drop (origin cs pos.toNat))
    simp only [rest, List.map_nil, written, lastStop, List.nil_append, Int.toNat_natCast]
    rw [← hread, eq_comm, universalNewlines_eq_self_iff]
    exact ⟨hlength, Iff.rfl⟩
  | cons e es ih =>
    obtain ⟨-, -, -, hstart, hes⟩ := h
    obtain ⟨hlength, hiff⟩ := ih hes
    have hgap := universalNewlines_span cs hstart
    have hshort := length_universalNewlines_le (span cs (origin cs pos.toNat) (origin cs e.start.toNat))
    rw [List.map_cons, List.map_cons, rest_cons, rest_cons, rest_cons, ← hgap]
    change _ ∧ (span cs (origin cs pos.toNat) (origin cs e.start.toNat) ++ e.replacement ++
        rest cs (origin cs e.stop.toNat) (es.map (placedIn cs)) = _ ↔
      '\r' ∉ span cs (origin cs pos.toNat) (origin cs e.start.toNat) ++ [] ++
        rest cs (origin cs e.stop.toNat) ((es.map (placedIn cs)).map erased))
    refine ⟨by simp only [List.length_append, placedIn] at hlength ⊢; omega, ?_⟩
    rw [List.append_nil, List.mem_append, not_or, ← hiff, ← universalNewlines_eq_self_iff]
    constructor
    · intro heq
      -- neither part comes out longer when it is read, so that both keep their lengths
      have hlengths := congrArg List.length heq
      simp only [List.length_append] at hlengths
      obtain ⟨hbefore, hafter⟩ := List.append_inj heq (by simp only [List.length_append]; omega)
      exact ⟨(List.append_inj_left hbefore (by omega)).symm, hafter⟩
    · rintro ⟨hread, hafter⟩
      rw [hread, hafter]

/-- **Edits made in what is read** come to the same as those made in the text itself exactly if no
carriage return is left outside of them. -/
theorem writeOut_placedIn_eq_iff (h : InOrder (universalNewlines cs).length 0 es) :
    writeOut cs (es.map (placedIn cs)) = writeOut (universalNewlines cs) es ↔
      '\r' ∉ leftover cs (es.map (placedIn cs)) := by
  have hrest := (rest_placedIn h).2
  rw [Int.toNat_zero, origin_zero] at hrest
  exact hrest

end ResponsiveImage.Edit
