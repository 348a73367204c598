import ResponsiveImage.Picture.HeaderCodec
import ResponsiveImage.Proofs.Number.Comparison
import ResponsiveImage.Proofs.Options.Checks
import ResponsiveImage.Proofs.Picture.SourceSet

/-!
# The sizes that accepted options give

Options are accepted if all their sizes are positive, as far as they compare with zero at all, and if
there are as many breakpoints.  Of such options a picture gets sizes that are positive and do not
exceed it.  They can be offered but in two cases (`candidateSizes_of_accepted`): without any sizes
nor breakpoints, where the width of the picture itself is the only size and has no breakpoint; and
with a NaN before sizes that all exceed the picture, where nothing is left.
-/

namespace ResponsiveImage

/-! ## Picking sizes -/

section Candidates

variable {ns : List Number} {k : Number} {width : Nat}

theorem mem_candidateSizes (h : k ∈ candidateSizes ns (.int width)) :
    k = .int width ∨ k ∈ ns ∧ k.le (.int width) = true := by
  unfold candidateSizes at h
  split at h
  · exact .inl (List.mem_singleton.mp h)
  · split at h
    · exact .inl (List.mem_singleton.mp h)
    · exact .inr (List.mem_filter.mp h)

/-- No picture is made larger than it is. -/
theorem le_of_mem_candidateSizes (h : k ∈ candidateSizes ns (.int width)) :
    k.le (.int width) = true := by
  rcases mem_candidateSizes h with rfl | ⟨-, hle⟩
  · exact Number.int_le_int.mpr le_rfl
  · exact hle

theorem pos_of_mem_candidateSizes (hns : ∀ n ∈ ns, n.le 0 = false) (hwidth : 1 ≤ width)
    (h : k ∈ candidateSizes ns (.int width)) : Number.lt 0 k = true := by
  have hzero : (0 : Number) = .int 0 := rfl
  have hnan : (0 : Number) ≠ .float .nan := by simp [hzero]
  rcases mem_candidateSizes h with rfl | ⟨hmem, hle⟩
  · exact hzero ▸ Number.int_lt_int.mpr (by omega)
  · refine (Number.le_or_lt (Number.ne_nan_of_le hle).1 hnan).resolve_left fun hle ↦ ?_
    rw [hns k hmem] at hle
    cases hle

/-- Sizes are left but where a NaN stands before sizes that are all too large: the first of the
others, being the least, would be small enough. -/
theorem candidateSizes_eq_nil_iff :
    candidateSizes ns (.int width) = [] ↔
      ∃ ks, ns = .float .nan :: ks ∧ ∀ k ∈ ks, k.le (.int width) = false := by
  cases ns with
  | nil => simp [candidateSizes]
  | cons n ns =>
    have hwidth : (Number.int width) ≠ .float .nan := nofun
    have hnan : ∀ k : Number, k = .float .nan → k.le (.int width) = false := by
      intro k hk
      rw [← Bool.not_eq_true]
      exact fun hle ↦ (Number.ne_nan_of_le hle).1 hk
    rw [candidateSizes]
    split
    · rename_i hlt
      have hne : n ≠ .float .nan := fun hn ↦
        (Number.ne_nan_of_lt hlt).2 (Number.least_eq_nan_iff.mpr hn)
      simp [hne]
    · rename_i hnot
      simp only [List.filter_eq_nil_iff, Bool.not_eq_true, List.forall_mem_cons, List.cons.injEq]
      constructor
      · rintro ⟨hn, hns⟩
        refine ⟨ns, ⟨?_, rfl⟩, hns⟩
        by_contra hne
        -- The least of the sizes compares with the width, and is at most as great.
        have hleast : (Number.least n ns).le (.int width) = true :=
          (Number.le_or_lt (mt Number.least_eq_nan_iff.mp hne) hwidth).resolve_right hnot
        have hall : ∀ k ∈ n :: ns, k.le (.int width) = false := List.forall_mem_cons.mpr ⟨hn, hns⟩
        have hfalse := hall _ (Number.least_mem n ns)
        rw [hleast] at hfalse
        cases hfalse
      · rintro ⟨ks, ⟨hn, rfl⟩, hks⟩
        exact ⟨hnan n hn, hks⟩

/-- There are no more sizes than are configured, unless none is. -/
theorem length_candidateSizes_le (hne : ns ≠ []) :
    (candidateSizes ns (.int width)).length ≤ ns.length := by
  unfold candidateSizes
  split
  · exact absurd rfl hne
  · split
    · simp
    · exact List.length_filter_le _ _

end Candidates

/-! ## Making and offering variants -/

namespace Variant

open Job

variable {p : OutputPlan} {o : Options} {h : Header} {sizes : List Number} {variants : List Variant}
  {w w' : Workspace}

/-- If no size exceeds the picture, there is a variant of each. -/
theorem sizes_of_ofSizes [Codec] (hsizes : ∀ k ∈ sizes, k.le (.int h.width) = true)
    (hrun : (ofSizes p sizes h o).run w = (.ok variants, w')) :
    variants.map (·.size) = sizes := by
  obtain ⟨found, rfl, hall⟩ := ofSizes_eq_ok hrun
  clear hrun
  induction hall with
  | nil => rfl
  | cons hsize _ ih =>
    rename_i size r sizes found _
    obtain ⟨hle, hrest⟩ := List.forall_mem_cons.mp hsizes
    obtain ⟨w₁, w₂, hsize⟩ := hsize
    cases r with
    | none =>
      rw [ofSize, if_neg (by simp [Number.not_lt_of_le hle])] at hsize
      obtain ⟨available, w₃, -, hsize⟩ := run_bind_eq_ok.mp hsize
      obtain ⟨produced, w₄, -, hsize⟩ := run_bind_eq_ok.mp hsize
      cases hsize
    | some v =>
      obtain ⟨rfl, -⟩ := ofSize_eq_some hsize
      exact congrArg (v.size :: ·) (ih hrest)

theorem sizes_of_generate [Codec] (hheader : ((Picture.header p.source).run w).1 = .ok h)
    (hok : ((generate p o).run w).1 = .ok variants) :
    variants.map (·.size) = candidateSizes o.sizes (.int h.width) := by
  have hrun : (generate p o).run w = (.ok variants, ((generate p o).run w).2) := Prod.ext hok rfl
  rw [generate] at hrun
  obtain ⟨h', w₁, hh', hrun⟩ := run_bind_eq_ok.mp hrun
  rw [hh'] at hheader
  cases hheader
  obtain ⟨⟨⟩, w₂, -, hrun⟩ := run_bind_eq_ok.mp hrun
  exact sizes_of_ofSizes (fun _ ↦ le_of_mem_candidateSizes) hrun

end Variant

namespace Srcset

variable {variants : List Variant} {breakpoints : List Json.Value} {extension : String}

/-- Variants cannot be offered for lack of breakpoints or because there are none; else at most the
ratio cannot be told. -/
theorem attributes_cases (variants : List Variant) (breakpoints : List Json.Value)
    (extension : String) :
    (breakpoints.length < variants.length ∧ attributes variants breakpoints extension =
        .error (.tooFewBreakpoints variants.length breakpoints.length)) ∨
      (variants = [] ∧ attributes variants breakpoints extension = .error .noFirstVariant) ∨
      (variants ≠ [] ∧ variants.length ≤ breakpoints.length ∧
        ((∃ e, attributes variants breakpoints extension = .error (.arithmetic e)) ∨
          ∃ s, attributes variants breakpoints extension = .ok s)) := by
  by_cases hlt : breakpoints.length < variants.length
  · refine .inl ⟨hlt, ?_⟩
    rw [attributes, text, withUrls, if_pos hlt]
    rfl
  · have hok : ∀ link, ∃ s, withUrls link variants breakpoints = .ok s := fun link ↦
      ⟨_, if_neg hlt⟩
    obtain ⟨srcset, hsrcset⟩ := hok urlOf
    cases variants with
    | nil =>
      refine .inr (.inl ⟨rfl, ?_⟩)
      rw [attributes, text, hsrcset]
      rfl
    | cons v vs =>
      refine .inr (.inr ⟨List.cons_ne_nil _ _, Nat.not_lt.mp hlt, ?_⟩)
      obtain ⟨second, hsecond⟩ := hok fun v ↦ Url.swapExtension (urlOf v) extension.toList
      rw [attributes, text, alternate, hsrcset, hsecond]
      dsimp only
      generalize aspectRatio (.int v.width) (.int v.height) >>= _ = ratio
      cases ratio with
      | error e => exact .inl ⟨e, rfl⟩
      | ok ratio =>
        dsimp only [bind, Except.bind, pure, Except.pure]
        split
        · exact .inr ⟨_, rfl⟩
        · exact .inr ⟨_, rfl⟩

theorem attributes_eq_noFirstVariant_iff :
    attributes variants breakpoints extension = .error .noFirstVariant ↔ variants = [] := by
  rcases attributes_cases variants breakpoints extension with
    ⟨hlt, hattributes⟩ | ⟨hnil, hattributes⟩ | ⟨hne, -, ⟨e, hattributes⟩ | ⟨s, hattributes⟩⟩
  · have hne : variants ≠ [] := by
      rintro rfl
      cases hlt
    simp [hattributes, hne]
  · exact iff_of_true hattributes hnil
  · simp [hattributes, hne]
  · simp [hattributes, hne]

theorem attributes_eq_tooFewBreakpoints_iff {m n : Nat} :
    attributes variants breakpoints extension = .error (.tooFewBreakpoints m n) ↔
      breakpoints.length < variants.length ∧ m = variants.length ∧ n = breakpoints.length := by
  rcases attributes_cases variants breakpoints extension with
    ⟨hlt, hattributes⟩ | ⟨rfl, hattributes⟩ | ⟨-, hle, ⟨e, hattributes⟩ | ⟨s, hattributes⟩⟩
  · simp [hattributes, hlt, eq_comm]
  · simp [hattributes]
  · simp [hattributes, Nat.not_lt.mpr hle]
  · simp [hattributes, Nat.not_lt.mpr hle]

end Srcset

/-! ## Accepted options -/

namespace Options

open Json (Value)

theorem isAccepted_of_ofMapping {o : Options} {members : List (String × Value)}
    (h : ofMapping members = .ok o) : o.IsAccepted := by
  obtain ⟨d, -, h⟩ := exists_of_bind_eq_ok h
  exact isAccepted_of_ofDraft h

theorem isAccepted_of_withOverrides {o o' : Options} {overrides : List (String × Value)}
    (h : withOverrides o' overrides = .ok o) : o.IsAccepted := by
  obtain ⟨d, -, h⟩ := exists_of_bind_eq_ok h
  exact isAccepted_of_ofDraft h

theorem isAccepted_of_ofMapping_or_withOverrides {o : Options}
    (h : (∃ members, ofMapping members = .ok o) ∨
      ∃ o' overrides, withOverrides o' overrides = .ok o) : o.IsAccepted := by
  rcases h with ⟨members, h⟩ | ⟨o', overrides, h⟩
  · exact isAccepted_of_ofMapping h
  · exact isAccepted_of_withOverrides h

theorem IsAccepted.breakpoints_lt_iff {o : Options} (h : o.IsAccepted) (width : Nat) :
    o.breakpoints.length < (candidateSizes o.sizes (.int width)).length ↔
      o.sizes = [] ∧ o.breakpoints = [] := by
  by_cases hsizes : o.sizes = []
  · simp [hsizes, candidateSizes]
  · have hle : (candidateSizes o.sizes (.int width)).length ≤ o.breakpoints.length :=
      (length_candidateSizes_le hsizes).trans h.breakpoints
    simp [hsizes, hle]

end Options

/-- **Of accepted options every picture gets positive sizes that do not exceed it, and its variants
are of these sizes.  They lack a breakpoint exactly if neither sizes nor breakpoints are configured,
and there are none exactly if a NaN is configured before nothing but larger sizes.** -/
theorem candidateSizes_of_accepted [Codec] {o : Options}
    (ho : (∃ members, Options.ofMapping members = .ok o) ∨
      ∃ o' overrides, Options.withOverrides o' overrides = .ok o) {width : Nat} (hwidth : 1 ≤ width) :
    (∀ k ∈ candidateSizes o.sizes (.int width), Number.lt 0 k = true ∧ k.le (.int width) = true) ∧
      (candidateSizes o.sizes (.int width) = [] ↔
        ∃ ks, o.sizes = .float .nan :: ks ∧ ∀ k ∈ ks, k.le (.int width) = false) ∧
      (o.breakpoints.length < (candidateSizes o.sizes (.int width)).length ↔
        o.sizes = [] ∧ o.breakpoints = []) ∧
      ∀ (p : OutputPlan) (w : Workspace) (h : Header) (variants : List Variant),
        ((Picture.header p.source).run w).1 = .ok h → h.width = width →
        ((Variant.generate p o).run w).1 = .ok variants →
        variants.map (·.size) = candidateSizes o.sizes (.int width) ∧
          ∀ extension,
            (Srcset.attributes variants o.breakpoints extension = .error .noFirstVariant ↔
              candidateSizes o.sizes (.int width) = []) ∧
            ∀ m n, Srcset.attributes variants o.breakpoints extension =
                .error (.tooFewBreakpoints m n) ↔
              o.sizes = [] ∧ o.breakpoints = [] ∧ m = 1 ∧ n = 0 := by
  have haccepted : o.IsAccepted := by
    rcases ho with ⟨members, ho⟩ | ⟨o', overrides, ho⟩
    · exact Options.isAccepted_of_ofMapping ho
    · exact Options.isAccepted_of_withOverrides ho
  refine ⟨fun k hk ↦ ⟨pos_of_mem_candidateSizes haccepted.sizes hwidth hk,
    le_of_mem_candidateSizes hk⟩, candidateSizes_eq_nil_iff, haccepted.breakpoints_lt_iff width, ?_⟩
  rintro p w h variants hheader rfl hvariants
  have hsizes := Variant.sizes_of_generate hheader hvariants
  have hlength : variants.length = (candidateSizes o.sizes (.int h.width)).length := by
    rw [← hsizes, List.length_map]
  refine ⟨hsizes, fun extension ↦ ⟨?_, fun m n ↦ ?_⟩⟩
  · rw [Srcset.attributes_eq_noFirstVariant_iff, ← List.length_eq_zero_iff, hlength,
      List.length_eq_zero_iff]
  · rw [Srcset.attributes_eq_tooFewBreakpoints_iff, hlength, haccepted.breakpoints_lt_iff, and_assoc]
    refine and_congr_right fun hsizes ↦ and_congr_right fun hbreakpoints ↦ ?_
    simp [hsizes, hbreakpoints, candidateSizes]

open scoped HeaderCodec

/-- A tree with one picture. -/
def onePicture : Workspace where
  cwd := []
  files := ⟨[(["src"], .directory), (["src", "x.png"], .file (HeaderCodec.file ⟨"PNG", 8, 4⟩))]⟩

/-- The plan for that picture. -/
def onePlan : OutputPlan :=
  ⟨.ofParts ["src", "x.png"], .ofParts ["static", "g"], "g", "webp"⟩

/-- Without sizes and breakpoints, the width of a picture is a size that has no breakpoint. -/
theorem candidateSizes_of_accepted_nil :
    ∃ o variants, Options.ofMapping [("sizes", .array []), ("breakpoints", .array [])] = .ok o ∧
      ((Variant.generate onePlan o).run onePicture).1 = .ok variants ∧
      variants.map (·.size) = [8] ∧
      Srcset.attributes variants o.breakpoints "webp" = .error (.tooFewBreakpoints 1 0) := by
  have hwidth : 1 ≤ 8 := by decide
  refine ⟨_, [⟨8, 8, 4, "g/x-8.png", true⟩], rfl, eq_ok_of_toOption (by decide +kernel), ?_⟩
  obtain ⟨-, -, -, hall⟩ := candidateSizes_of_accepted
    (.inl ⟨[("sizes", .array []), ("breakpoints", .array [])], rfl⟩) hwidth
  obtain ⟨hsizes, hattributes⟩ := hall onePlan onePicture ⟨"PNG", 8, 4⟩
    [⟨8, 8, 4, "g/x-8.png", true⟩] (eq_ok_of_toOption (by decide +kernel)) rfl
    (eq_ok_of_toOption (by decide +kernel))
  exact ⟨hsizes, ((hattributes "webp").2 1 0).mpr ⟨rfl, rfl, rfl, rfl⟩⟩

end ResponsiveImage
