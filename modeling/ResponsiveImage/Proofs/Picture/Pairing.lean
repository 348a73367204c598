import ResponsiveImage.Proofs.Picture.CandidateSizes

/-!
# Sizes and their breakpoints

Sizes and breakpoints are configured side by side.  The sizes that exceed a picture are left out, but
the breakpoints are then counted from the first on, so that a size is listed with its own breakpoint
only if that stands where the size comes among those that are left (`pairs_listed_iff`).  For sizes in
ascending order nothing is left out before a size that stays.  In any other order there is a picture
for which some size has the breakpoint of another, unless two breakpoints are one.
-/

namespace ResponsiveImage

open Json (Value)

/-! ## Leaving out pairs -/

section Zip

variable {α β : Type} {p : α → Bool} {as : List α} {bs cs : List β}

/-- Items that are left and then paired with others one by one, instead of the pairs that are left:
that is the same if each item finds its own partner again at its place among those that are left. -/
theorem zip_filter_eq_iff (hbs : as.length ≤ bs.length) (hcs : (as.filter p).length ≤ cs.length) :
    (as.filter p).zip cs = (as.zip bs).filter (p ·.1) ↔
      ∀ i a, as[i]? = some a → p a = true → cs[(as.take i).countP p]? = bs[i]? := by
  induction as generalizing bs cs with
  | nil => simp
  | cons a as ih =>
    cases bs with
    | nil => simp at hbs
    | cons b bs =>
      have hbs' : as.length ≤ bs.length := Nat.le_of_succ_le_succ hbs
      rw [List.zip_cons_cons]
      by_cases ha : p a = true
      · have hpair : ((a, b) :: as.zip bs).filter (p ·.1) = (a, b) :: (as.zip bs).filter (p ·.1) :=
          List.filter_cons_of_pos ha
        rw [List.filter_cons_of_pos ha] at hcs
        rw [List.filter_cons_of_pos ha, hpair]
        cases cs with
        | nil => simp at hcs
        | cons c cs =>
          rw [List.zip_cons_cons, List.cons_eq_cons, ih hbs' (Nat.le_of_succ_le_succ hcs),
            Prod.mk.injEq, and_iff_right rfl]
          constructor
          · rintro ⟨rfl, hrest⟩ i a' ha' hp
            cases i with
            | zero => rfl
            | succ i =>
              rw [List.take_succ_cons, List.countP_cons_of_pos ha]
              exact hrest i a' ha' hp
          · intro h
            refine ⟨Option.some_inj.mp (h 0 a rfl ha), fun i a' ha' hp ↦ ?_⟩
            have hi := h (i + 1) a' ha' hp
            rwa [List.take_succ_cons, List.countP_cons_of_pos ha] at hi
      · have hpair : ((a, b) :: as.zip bs).filter (p ·.1) = (as.zip bs).filter (p ·.1) :=
          List.filter_cons_of_neg ha
        rw [List.filter_cons_of_neg ha] at hcs
        rw [List.filter_cons_of_neg ha, hpair, ih hbs' hcs]
        constructor
        · intro h i a' ha' hp
          cases i with
          | zero =>
            cases ha'
            exact absurd hp ha
          | succ i =>
            rw [List.take_succ_cons, List.countP_cons_of_neg ha]
            exact h i a' ha' hp
        · intro h i a' ha' hp
          have hi := h (i + 1) a' ha' hp
          rwa [List.take_succ_cons, List.countP_cons_of_neg ha] at hi

theorem countP_take_eq_iff {i : Nat} (hi : i ≤ as.length) :
    (as.take i).countP p = i ↔ ∀ j (hj : j < i), p as[j] = true := by
  have hlength : (as.take i).length = i := List.length_take_of_le hi
  constructor
  · intro h j hj
    exact List.countP_eq_length.mp (h.trans hlength.symm) as[j]
      (List.mem_take_iff_getElem.mpr ⟨j, by omega, rfl⟩)
  · intro h
    rw [List.countP_eq_length.mpr, hlength]
    intro a ha
    obtain ⟨j, hj, rfl⟩ := List.mem_take_iff_getElem.mp ha
    exact h j (by omega)

end Zip

/-! ## What is listed -/

namespace Options

/-- The sizes that a picture of some width gets, each with the breakpoint at its place among them. -/
def shown (o : Options) (width : Nat) : List (Number × Value) :=
  (o.sizes.filter (·.le (.int width))).zip o.breakpoints

/-- The sizes that a picture of some width gets, each with the breakpoint configured for it. -/
def offers (o : Options) (width : Nat) : List (Number × Value) :=
  (o.sizes.zip o.breakpoints).filter (·.1.le (.int width))

end Options

/-- The list of the renditions of an image in some sizes, each with a breakpoint. -/
def OutputPlan.listing (p : OutputPlan) (pairs : List (Number × Value)) : String :=
  ",".intercalate (pairs.map fun x ↦
    Srcset.entry (Url.forwardSlashes (p.sizedUrl x.1).toList) x.2)

theorem text_eq_listing {p : OutputPlan} {variants : List Variant} {ks : List Number}
    {breakpoints : List Value} (hsizes : variants.map (·.size) = ks)
    (hurl : ∀ v ∈ variants, v.url = p.sizedUrl v.size) (hle : ks.length ≤ breakpoints.length) :
    Srcset.text variants breakpoints = .ok (p.listing (ks.zip breakpoints)) := by
  have hlength : variants.length = ks.length := by rw [← hsizes, List.length_map]
  have hurls : variants.map Srcset.urlOf =
      ks.map fun k ↦ Url.forwardSlashes (p.sizedUrl k).toList := by
    rw [← hsizes, List.map_map]
    refine List.map_congr_left fun v hv ↦ ?_
    rw [Function.comp_apply, Srcset.urlOf, hurl v hv]
  rw [Srcset.text, Srcset.withUrls, if_neg (by omega), OutputPlan.listing,
    ← List.zipWith_map_left, hurls, List.zipWith_map_left, List.zip, List.map_zipWith]

/-! ## Integer sizes -/

section Candidates

variable {ns : List Int} {n : Int} {width : Nat}

theorem Number.exists_least_eq (n : Int) (ns : List Int) :
    ∃ m, Number.least (.int n) (ns.map .int) = .int m ∧ ∀ k ∈ n :: ns, m ≤ k := by
  induction ns generalizing n with
  | nil => exact ⟨n, rfl, by simp⟩
  | cons k ns ih =>
    rw [List.map_cons, Number.least_cons]
    have hfirst : (if (Number.int k).lt (.int n) then Number.int k else .int n) =
        .int (min k n) := by
      split
      · rename_i hlt
        rw [min_eq_left (Number.int_lt_int.mp hlt).le]
      · rename_i hlt
        rw [Number.int_lt_int] at hlt
        rw [min_eq_right (not_lt.mp hlt)]
    obtain ⟨m, hm, hall⟩ := ih (min k n)
    rw [List.forall_mem_cons] at hall
    refine ⟨m, by rw [hfirst, hm], ?_⟩
    rw [List.forall_mem_cons, List.forall_mem_cons]
    exact ⟨hall.1.trans (min_le_right k n), hall.1.trans (min_le_left k n), hall.2⟩

/-- If some size does not exceed the picture, those that do are left out. -/
theorem candidateSizes_of_le (hn : n ∈ ns) (hle : n ≤ width) :
    candidateSizes (ns.map .int) (.int width) = (ns.map .int).filter (·.le (.int width)) := by
  cases ns with
  | nil => cases hn
  | cons k ns =>
    obtain ⟨m, hm, hall⟩ := Number.exists_least_eq k ns
    rw [List.map_cons, candidateSizes, if_neg]
    rw [hm, Number.int_lt_int]
    exact not_lt.mpr ((hall n hn).trans hle)

end Candidates

namespace Options

variable {o : Options} {ns : List Int}

theorem shown_eq_offers_iff (hle : o.sizes.length ≤ o.breakpoints.length)
    (hns : o.sizes = ns.map .int) (width : Nat) :
    o.shown width = o.offers width ↔ ∀ i n, ns[i]? = some n → n ≤ (width : Int) →
      o.breakpoints[(ns.take i).countP (· ≤ (width : Int))]? = o.breakpoints[i]? := by
  have hcount : ∀ i, ((ns.map Number.int).take i).countP (·.le (.int width)) =
      (ns.take i).countP (· ≤ (width : Int)) := by
    intro i
    rw [← List.map_take, List.countP_map]
    refine List.countP_congr fun n _ ↦ ?_
    rw [Function.comp_apply, Number.int_le_int, decide_eq_true_iff]
  rw [shown, offers, zip_filter_eq_iff hle ((List.length_filter_le _ _).trans hle)]
  simp only [hns, hcount, List.getElem?_map, Option.map_eq_some_iff]
  constructor
  · intro h i n hn hnle
    exact h i (.int n) ⟨n, hn, rfl⟩ (Number.int_le_int.mpr hnle)
  · rintro h i _ ⟨n, hn, rfl⟩ hnle
    exact h i n hn (Number.int_le_int.mp hnle)

/-- In ascending order all sizes before one that stays do so too; out of order a picture as wide as
the lesser size loses the greater one before it. -/
theorem forall_shown_eq_offers_iff (ho : o.IsAccepted) (hns : o.sizes = ns.map .int)
    (hnodup : o.breakpoints.Nodup) :
    (∀ width, o.shown width = o.offers width) ↔ ns.Pairwise (· ≤ ·) := by
  have hle : ns.length ≤ o.breakpoints.length := by
    have hbreakpoints := ho.breakpoints
    rwa [hns, List.length_map] at hbreakpoints
  simp only [shown_eq_offers_iff ho.breakpoints hns]
  rw [List.pairwise_iff_getElem]
  constructor
  · intro h i j hi hj hij
    have hpos : 0 < ns[j] := by
      have hmem : Number.int ns[j] ∈ o.sizes := by
        rw [hns]
        exact List.mem_map_of_mem (List.getElem_mem hj)
      have hsize := ho.sizes (.int ns[j]) hmem
      rw [← Bool.not_eq_true, show (0 : Number) = .int 0 from rfl, Number.int_le_int] at hsize
      omega
    have hwidth : ((ns[j].toNat : Nat) : Int) = ns[j] := Int.toNat_of_nonneg hpos.le
    have hat := h ns[j].toNat j ns[j] (List.getElem?_eq_getElem hj) hwidth.ge
    rw [hwidth] at hat
    by_contra hlt
    -- One of the sizes before is left out.
    have hcount : (ns.take j).countP (· ≤ ns[j]) < j := by
      refine lt_of_le_of_ne (List.countP_le_length.trans (List.length_take_le _ _)) fun heq ↦ hlt ?_
      exact of_decide_eq_true ((countP_take_eq_iff hj.le).mp heq i hij)
    rw [List.getElem?_eq_getElem (by omega), List.getElem?_eq_getElem (by omega), Option.some_inj,
      hnodup.getElem_inj_iff] at hat
    omega
  · intro h width i n hn hnle
    obtain ⟨hi, rfl⟩ := List.getElem?_eq_some_iff.mp hn
    have hcount : (ns.take i).countP (· ≤ (width : Int)) = i :=
      (countP_take_eq_iff hi.le).mpr fun j hj ↦
        decide_eq_true ((h j i (by omega) hi hj).trans hnle)
    rw [hcount]

end Options

/-- **With accepted options of integer sizes, a picture is listed in the sizes that do not exceed it, if
there are any, each with the breakpoint at its place among these.  That is its own breakpoint for all of
them exactly if each has the same breakpoint at this place and at its place among all sizes; and so for
every picture, if the breakpoints differ, exactly if the sizes ascend.** -/
theorem pairs_listed_iff [Codec] {o : Options}
    (ho : (∃ members, Options.ofMapping members = .ok o) ∨
      ∃ o' overrides, Options.withOverrides o' overrides = .ok o) {ns : List Int}
    (hns : o.sizes = ns.map .int) :
    (∀ (p : OutputPlan) (w : Workspace) (h : Header) (variants : List Variant),
        ((Picture.header p.source).run w).1 = .ok h →
        ((Variant.generate p o).run w).1 = .ok variants → (∃ n ∈ ns, n ≤ h.width) →
        variants.map (·.size) = (o.shown h.width).map (·.1) ∧
          Srcset.text variants o.breakpoints = .ok (p.listing (o.shown h.width))) ∧
      (∀ width : Nat, o.shown width = o.offers width ↔
        ∀ i n, ns[i]? = some n → n ≤ (width : Int) →
          o.breakpoints[(ns.take i).countP (· ≤ (width : Int))]? = o.breakpoints[i]?) ∧
      (o.breakpoints.Nodup →
        ((∀ width, o.shown width = o.offers width) ↔ ns.Pairwise (· ≤ ·))) := by
  have haccepted := Options.isAccepted_of_ofMapping_or_withOverrides ho
  refine ⟨?_, Options.shown_eq_offers_iff haccepted.breakpoints hns,
    Options.forall_shown_eq_offers_iff haccepted hns⟩
  rintro p w h variants hheader hvariants ⟨n, hn, hle⟩
  have hsizes := Variant.sizes_of_generate hheader hvariants
  rw [hns, candidateSizes_of_le hn hle, ← hns] at hsizes
  have hlength : (o.sizes.filter (·.le (.int h.width))).length ≤ o.breakpoints.length :=
    (List.length_filter_le _ _).trans haccepted.breakpoints
  refine ⟨?_, text_eq_listing hsizes (fun v hv ↦ Variant.generate_url hvariants hv) hlength⟩
  rw [hsizes, Options.shown, List.map_fst_zip hlength]

/-- Options whose greatest size comes first. -/
def descendingOptions : Options :=
  { Options.defaults with
    sizes := [12, 4, 8], breakpoints := [.int 1024, .int 375, .int 768] }

open scoped HeaderCodec in
/-- A picture without the greatest size has the others listed with breakpoints before their own. -/
theorem pairs_listed_descending :
    ∃ variants, Options.ofMapping [("sizes", .array [.int 12, .int 4, .int 8]),
        ("breakpoints", .array [.int 1024, .int 375, .int 768])] = .ok descendingOptions ∧
      ((Variant.generate onePlan descendingOptions).run onePicture).1 = .ok variants ∧
      descendingOptions.offers 8 = [(4, .int 375), (8, .int 768)] ∧
      Srcset.text variants descendingOptions.breakpoints =
        .ok "g/x-4.png 1024w,g/x-8.png 375w" ∧
      descendingOptions.shown 8 ≠ descendingOptions.offers 8 := by
  have haccepted : Options.ofMapping [("sizes", .array [.int 12, .int 4, .int 8]),
      ("breakpoints", .array [.int 1024, .int 375, .int 768])] = .ok descendingOptions := rfl
  have hns : descendingOptions.sizes = [12, 4, 8].map .int := rfl
  have hvariants : ((Variant.generate onePlan descendingOptions).run onePicture).1 =
      .ok [⟨4, 4, 2, "g/x-4.png", true⟩, ⟨8, 8, 4, "g/x-8.png", true⟩] :=
    eq_ok_of_toOption (by decide +kernel)
  obtain ⟨hlisted, hiff, -⟩ := pairs_listed_iff (.inl ⟨_, haccepted⟩) hns
  obtain ⟨-, htext⟩ := hlisted onePlan onePicture ⟨"PNG", 8, 4⟩ _
    (eq_ok_of_toOption (by decide +kernel)) hvariants ⟨4, by simp, by decide⟩
  refine ⟨_, haccepted, hvariants, rfl, htext.trans (congrArg Except.ok (by decide +kernel)), ?_⟩
  intro heq
  have hfour := (hiff 8).mp heq 1 4 rfl (by decide)
  cases hfour

end ResponsiveImage
