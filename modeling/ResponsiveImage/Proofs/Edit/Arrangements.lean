import ResponsiveImage.Proofs.Edit.Collisions

/-!
# The order in which edits are gathered

Edits are sorted before they are made, and sorting keeps the edits of one span in the order in which
they were gathered.  A sorted list is therefore known by what it holds of each span, in order
(`eq_of_ofSpan_eq`).  Two edits of one span that is not empty collide, so of two arrangements of the
same edits that can be made only the insertions at one place can tell (`applyAll_sort`); and edits that
cannot be made are refused for the same reason in every arrangement, since the check looks at the spans
alone.
-/

namespace ResponsiveImage.Edit

variable {xs ys es fs gs : List Edit}

/-- The span that an edit replaces. -/
def bounds (e : Edit) : Int × Int := (e.start, e.stop)

/-- The edits of one span, in the order in which they were gathered. -/
def ofSpan (b : Int × Int) (es : List Edit) : List Edit := es.filter fun e ↦ e.bounds = b

theorem mem_ofSpan {b : Int × Int} {e : Edit} : e ∈ ofSpan b es ↔ e ∈ es ∧ e.bounds = b := by
  simp [ofSpan]

theorem ofSpan_cons_self (e : Edit) (es : List Edit) :
    ofSpan e.bounds (e :: es) = e :: ofSpan e.bounds es := by
  simp [ofSpan]

theorem ofSpan_cons_of_ne {b : Int × Int} {e : Edit} (h : e.bounds ≠ b) (es : List Edit) :
    ofSpan b (e :: es) = ofSpan b es := by
  simp [ofSpan, h]

theorem bounds_eq_iff {e f : Edit} : e.bounds = f.bounds ↔ e.start = f.start ∧ e.stop = f.stop := by
  simp [bounds]

/-! ## Sorted lists -/

theorem le_of_bounds_eq {a b : Edit} (h : a.bounds = b.bounds) : le a b = true := by
  rw [bounds_eq_iff] at h
  rw [le_iff]
  omega

theorem bounds_eq_of_le {a b : Edit} (hab : le a b = true) (hba : le b a = true) :
    a.bounds = b.bounds := by
  rw [le_iff] at hab hba
  rw [bounds_eq_iff]
  omega

/-- Sorting leaves the edits of one span in their order. -/
theorem ofSpan_sort (b : Int × Int) (es : List Edit) : ofSpan b (sort es) = ofSpan b es := by
  have hsorted : (ofSpan b es).Pairwise fun e f ↦ le e f = true := by
    refine List.pairwise_of_forall_mem_list fun e he f hf ↦ le_of_bounds_eq ?_
    rw [(mem_ofSpan.mp he).2, (mem_ofSpan.mp hf).2]
  have hsub : (ofSpan b es).Sublist (es.mergeSort le) :=
    List.sublist_mergeSort le_trans le_total hsorted List.filter_sublist
  -- what is left of the sorted list at that span is all of it
  have hspan : (ofSpan b es).Sublist (ofSpan b (sort es)) := by
    have hfilter := hsub.filter fun e ↦ decide (e.bounds = b)
    simp only [ofSpan, List.filter_filter, Bool.and_self] at hfilter
    exact hfilter
  have hperm : (ofSpan b (sort es)).Perm (ofSpan b es) := (List.mergeSort_perm es le).filter _
  exact (hspan.eq_of_length hperm.length_eq.symm).symm

/-- A sorted list is known by what it holds of each span. -/
theorem eq_of_ofSpan_eq (hxs : xs.Pairwise fun e f ↦ le e f = true)
    (hys : ys.Pairwise fun e f ↦ le e f = true) (h : ∀ b, ofSpan b xs = ofSpan b ys) : xs = ys := by
  induction xs generalizing ys with
  | nil =>
    cases ys with
    | nil => rfl
    | cons y ys =>
      have hy := h y.bounds
      rw [ofSpan_cons_self] at hy
      cases hy
  | cons x xs ih =>
    have hx := h x.bounds
    rw [ofSpan_cons_self] at hx
    obtain ⟨hxy, -⟩ := mem_ofSpan.mp (hx ▸ List.mem_cons_self : x ∈ ofSpan x.bounds ys)
    cases ys with
    | nil => cases hxy
    | cons y ys =>
      have hy := h y.bounds
      rw [ofSpan_cons_self] at hy
      obtain ⟨hyx, -⟩ := mem_ofSpan.mp (hy ▸ List.mem_cons_self : y ∈ ofSpan y.bounds (x :: xs))
      obtain ⟨hxle, hxrest⟩ := List.pairwise_cons.mp hxs
      obtain ⟨hyle, hyrest⟩ := List.pairwise_cons.mp hys
      -- each of the two heads is the least of its list, so they have one span
      have hbounds : x.bounds = y.bounds := by
        rcases List.mem_cons.mp hyx with rfl | hyx
        · rfl
        · rcases List.mem_cons.mp hxy with rfl | hxy
          · rfl
          · exact bounds_eq_of_le (hxle y hyx) (hyle x hxy)
      rw [hbounds, ofSpan_cons_self] at hx
      obtain ⟨rfl, -⟩ := List.cons_eq_cons.mp hx
      refine congrArg (x :: ·) (ih hxrest hyrest fun b ↦ ?_)
      have hb := h b
      by_cases he : x.bounds = b
      · subst he
        rw [ofSpan_cons_self, ofSpan_cons_self] at hb
        exact (List.cons_eq_cons.mp hb).2
      · rwa [ofSpan_cons_of_ne he, ofSpan_cons_of_ne he] at hb

/-- Two arrangements that hold the edits of each span in one order are sorted alike. -/
theorem sort_eq_of_ofSpan_eq (h : ∀ b, ofSpan b fs = ofSpan b gs) : sort fs = sort gs :=
  eq_of_ofSpan_eq (pairwise_sort fs) (pairwise_sort gs) fun b ↦ by
    rw [ofSpan_sort, ofSpan_sort, h]

/-! ## The check -/

/-- The check looks at spans alone. -/
theorem conflictFrom_eq_of_bounds {length index : Nat} {pos : Int}
    (h : xs.map bounds = ys.map bounds) :
    conflictFrom length index pos xs = conflictFrom length index pos ys := by
  induction xs generalizing ys index pos with
  | nil =>
    obtain rfl : ys = [] := by simpa using h.symm
    rfl
  | cons x xs ih =>
    cases ys with
    | nil => cases h
    | cons y ys =>
      obtain ⟨hhead, htail⟩ := List.cons_eq_cons.mp h
      obtain ⟨hstart, hstop⟩ := bounds_eq_iff.mp hhead
      simp only [conflictFrom, hstart, hstop, ih htail]

/-- The spans of the same edits are sorted alike, however they were gathered. -/
theorem map_bounds_sort_eq_of_perm (h : fs.Perm gs) :
    (sort fs).map bounds = (sort gs).map bounds := by
  have hperm : (sort fs).Perm (sort gs) :=
    (List.mergeSort_perm fs le).trans (h.trans (List.mergeSort_perm gs le).symm)
  have hsorted (es : List Edit) : ((sort es).map bounds).Pairwise fun b c ↦
      b.1 < c.1 ∨ b.1 = c.1 ∧ b.2 ≤ c.2 :=
    List.pairwise_map.mpr ((pairwise_sort es).imp le_iff.mp)
  refine List.Perm.eq_of_pairwise (fun b c _ _ hbc hcb ↦ ?_) (hsorted fs) (hsorted gs)
    (hperm.map bounds)
  rw [Prod.ext_iff]
  omega

theorem conflict?_sort_eq_of_perm (text : List Char) (h : fs.Perm gs) :
    conflict? text (sort fs) = conflict? text (sort gs) :=
  conflictFrom_eq_of_bounds (map_bounds_sort_eq_of_perm h)

/-- Of edits that do not collide, at most one replaces a span that is not empty. -/
theorem ofSpan_eq_of_perm {b : Int × Int} (hb : b.1 < b.2) (h : fs.Perm gs)
    (hapart : gs.Pairwise fun e f ↦ ¬ e.Collides f) : ofSpan b fs = ofSpan b gs := by
  have hperm : (ofSpan b fs).Perm (ofSpan b gs) := h.filter _
  have hpairwise : (ofSpan b gs).Pairwise fun e f ↦ ¬ e.Collides f := hapart.filter _
  match hgs : ofSpan b gs with
  | [] => rwa [hgs, List.perm_nil] at hperm
  | [e] => rwa [hgs, List.perm_singleton] at hperm
  | e :: f :: rest =>
    have he : e.bounds = b := (mem_ofSpan.mp (hgs ▸ List.mem_cons_self : e ∈ ofSpan b gs)).2
    have hf : f.bounds = b :=
      (mem_ofSpan.mp (hgs ▸ List.mem_cons_of_mem e List.mem_cons_self : f ∈ ofSpan b gs)).2
    rw [hgs] at hpairwise
    subst he
    obtain ⟨hstart, hstop⟩ := bounds_eq_iff.mp hf
    refine absurd ⟨?_, ?_⟩ (List.rel_of_pairwise_cons hpairwise List.mem_cons_self)
    · exact hstop ▸ hb
    · exact hstart ▸ hb

/-! ## Sorting and making -/

theorem not_collides_iff {e f : Edit} : ¬ e.Collides f ↔ e.stop ≤ f.start ∨ f.stop ≤ e.start := by
  rw [Collides]
  omega

/-- **Sorted edits of a text can be made exactly if of any two one ends before the other starts, and
the order in which they were gathered matters only for insertions at one place.**  Two arrangements of
the edits that have these in one order come to the same text, or are refused for the same reason. -/
theorem applyAll_sort {text : List Char} (hfits : ∀ e ∈ es, e.Fits text.length) :
    ((∃ result, applyAll text (sort es) = .ok result) ↔
      es.Pairwise fun e f ↦ e.stop ≤ f.start ∨ f.stop ≤ e.start) ∧
    ∀ fs gs, fs.Perm es → gs.Perm es → (∀ p, ofSpan (p, p) fs = ofSpan (p, p) gs) →
      applyAll text (sort fs) = applyAll text (sort gs) := by
  have hiff := conflict?_sort_eq_none_iff hfits
  constructor
  · simp only [← not_collides_iff, ← hiff, applyAll]
    cases conflict? text (sort es) with
    | none => simp
    | some c => simp
  · intro fs gs hfs hgs hinsertions
    have hconflict := conflict?_sort_eq_of_perm text (hfs.trans hgs.symm)
    cases hc : conflict? text (sort gs) with
    | some c => simp only [applyAll, hconflict, hc]
    | none =>
      rw [conflict?_sort_eq_of_perm text hgs, hiff] at hc
      have hsymm : ∀ {e f : Edit}, ¬ e.Collides f → ¬ f.Collides e := fun h hfe ↦ h hfe.symm
      have hapart := (hgs.pairwise_iff hsymm).mpr hc
      refine congrArg (applyAll text) (sort_eq_of_ofSpan_eq fun b ↦ ?_)
      rcases Int.lt_trichotomy b.1 b.2 with hlt | heq | hgt
      · exact ofSpan_eq_of_perm hlt (hfs.trans hgs.symm) hapart
      · have hb := hinsertions b.1
        rwa [show (b.1, b.1) = b from Prod.ext rfl heq] at hb
      · -- no edit of the text ends before it starts
        have hnone (hs : List Edit) (hperm : hs.Perm es) : ofSpan b hs = [] := by
          refine List.eq_nil_iff_forall_not_mem.mpr fun e he ↦ ?_
          obtain ⟨hmem, rfl⟩ := mem_ofSpan.mp he
          have hle := (hfits e (hperm.mem_iff.mp hmem)).start_le_stop
          exact absurd hle (Int.not_le.mpr hgt)
        rw [hnone fs hfs, hnone gs hgs]

/-- Two insertions before a replacement, and a deletion. -/
def gathered : List Edit :=
  [⟨4, 6, "x".toList⟩, ⟨4, 4, "a".toList⟩, ⟨1, 3, []⟩, ⟨4, 4, "b".toList⟩]

/-- The same edits from last to first, the insertions excepted. -/
def regathered : List Edit :=
  [⟨4, 4, "a".toList⟩, ⟨1, 3, []⟩, ⟨4, 4, "b".toList⟩, ⟨4, 6, "x".toList⟩]

theorem applyAll_sort_gathered :
    (∃ result, applyAll "0123456789".toList (sort gathered) = .ok result) ∧
      applyAll "0123456789".toList (sort regathered) =
        applyAll "0123456789".toList (sort gathered) := by
  have hfits : ∀ e ∈ gathered, e.Fits "0123456789".toList.length := by
    intro e he
    simp only [gathered, List.mem_cons, List.not_mem_nil, or_false] at he
    rcases he with rfl | rfl | rfl | rfl
    all_goals exact ⟨by decide, by decide, by decide⟩
  obtain ⟨hmade, hsame⟩ := applyAll_sort hfits
  refine ⟨hmade.mpr (by decide), hsame regathered gathered (by decide) (List.Perm.refl _) fun p ↦ ?_⟩
  by_cases hp : 4 = p
  · subst hp
    decide
  · have hdeletion : ¬ ((1 : Int) = p ∧ (3 : Int) = p) := by omega
    simp [ofSpan, bounds, regathered, gathered, hp, hdeletion]

/-- Of two insertions at one place the one that was gathered first is made first. -/
example : applyAll "01".toList (sort [⟨1, 1, "a".toList⟩, ⟨1, 1, "b".toList⟩]) = .ok "0ab1".toList ∧
    applyAll "01".toList (sort [⟨1, 1, "b".toList⟩, ⟨1, 1, "a".toList⟩]) = .ok "0ba1".toList := by
  cbv

end ResponsiveImage.Edit
