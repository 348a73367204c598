import ResponsiveImage.Proofs.Edit.WriteOut

/-!
# Collisions of edits

Edits that lie in a text, once they are sorted, can be made unless two of them collide: the span of
one and that of the other have a character in common, or an insertion falls inside a span.  In which
order they were gathered does not matter.
-/

namespace ResponsiveImage.Edit

/-- Two edits that cannot both be made: each starts before the other ends. -/
def Collides (e f : Edit) : Prop := e.start < f.stop ∧ f.start < e.stop

instance (e f : Edit) : Decidable (e.Collides f) :=
  inferInstanceAs (Decidable (e.start < f.stop ∧ f.start < e.stop))

theorem Collides.symm {e f : Edit} (h : e.Collides f) : f.Collides e := And.symm h

/-- An edit of a span of a text of some length. -/
structure Fits (length : Nat) (e : Edit) : Prop where
  nonneg : 0 ≤ e.start
  start_le_stop : e.start ≤ e.stop
  stop_le : e.stop ≤ length

theorem le_iff {e f : Edit} :
    le e f = true ↔ e.start < f.start ∨ e.start = f.start ∧ e.stop ≤ f.stop := by
  simp [le]

theorem le_trans (e f g : Edit) (hef : le e f = true) (hfg : le f g = true) : le e g = true := by
  rw [le_iff] at hef hfg ⊢
  omega

theorem le_total (e f : Edit) : (le e f || le f e) = true := by
  rw [Bool.or_eq_true, le_iff, le_iff]
  omega

theorem pairwise_sort (es : List Edit) : (sort es).Pairwise fun e f ↦ le e f = true :=
  List.pairwise_mergeSort le_trans le_total es

/-- Edits that fit a text are in order exactly if each ends before the next ones start. -/
theorem inOrder_iff_pairwise {length : Nat} {pos : Int} {es : List Edit}
    (hfits : ∀ e ∈ es, e.Fits length) (hpos : ∀ e ∈ es, pos ≤ e.start) :
    InOrder length pos es ↔ es.Pairwise fun e f ↦ e.stop ≤ f.start := by
  induction es generalizing pos with
  | nil => simp [InOrder]
  | cons e es ih =>
    obtain ⟨he, hes⟩ := List.forall_mem_cons.mp hfits
    obtain ⟨hpe, hpes⟩ := List.forall_mem_cons.mp hpos
    rw [InOrder, List.pairwise_cons]
    constructor
    · rintro ⟨-, -, -, -, hrest⟩
      have hstart : ∀ f ∈ es, e.stop ≤ f.start := by
        intro f hf
        obtain ⟨done, rest, rfl⟩ := List.append_of_mem hf
        obtain ⟨hdone, -, -, -, hle, -⟩ := inOrder_append.mp hrest
        exact Int.le_trans (hdone.lastStop_bounds he.stop_le).1 hle
      exact ⟨hstart, (ih hes hstart).mp hrest⟩
    · rintro ⟨hstart, hrest⟩
      exact ⟨he.nonneg, he.start_le_stop, he.stop_le, hpe, (ih hes hstart).mpr hrest⟩

/-- **Sorted edits conflict exactly if two of them collide.** -/
theorem conflict?_sort_eq_none_iff {text : List Char} {es : List Edit}
    (hfits : ∀ e ∈ es, e.Fits text.length) :
    conflict? text (sort es) = none ↔ es.Pairwise fun e f ↦ ¬ e.Collides f := by
  have hperm : (sort es).Perm es := List.mergeSort_perm es le
  have hsorted : ∀ e ∈ sort es, e.Fits text.length := fun e he ↦ hfits e (hperm.mem_iff.mp he)
  have hsymm : ∀ {e f : Edit}, ¬ e.Collides f → ¬ f.Collides e := fun h hfe ↦ h hfe.symm
  rw [conflict?, conflictFrom_eq_none_iff,
    inOrder_iff_pairwise hsorted fun e he ↦ (hsorted e he).nonneg,
    ← hperm.pairwise_iff hsymm]
  constructor
  · intro h
    refine h.imp fun {e f} hle hcollides ↦ ?_
    exact absurd hcollides.2 (Int.not_lt.mpr hle)
  · intro h
    refine ((pairwise_sort es).and h).imp_of_mem fun {e f} he hf ⟨hle, hapart⟩ ↦ ?_
    have hef := (hsorted e he).start_le_stop
    have hff := (hsorted f hf).start_le_stop
    rw [le_iff] at hle
    -- of two edits that start together the one that ends first comes first
    refine Int.not_lt.mp fun hlt ↦ hapart ⟨?_, hlt⟩
    omega

end ResponsiveImage.Edit
