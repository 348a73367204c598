import ResponsiveImage.Proofs.Number.Exact
import ResponsiveImage.Proofs.Picture.Again
import ResponsiveImage.Proofs.Picture.CandidateSizes
import ResponsiveImage.Proofs.Picture.NameClashes

/-!
# Whole sizes

Sizes that are integers are written with digits only, each in its own way, and a picture gets its own
width or a positive one of them.  So a rendition of an image never has the place of another one of a
different size, and its width is its size.
-/

namespace ResponsiveImage

/-! ## Names -/

namespace Number

theorem isDigit_of_mem_text {n : Nat} {c : Char} (h : c ∈ (int n).text.toList) :
    c.isDigit = true := by
  have htext : (int n).text = n.repr := rfl
  rw [htext, Nat.repr, String.toList_ofList] at h
  exact isDigit_of_mem_toDigits c h

theorem text_int_inj {m n : Int} : (int m).text = (int n).text ↔ m = n := Int.repr_inj

end Number

namespace FileName

variable {m k l e : String}

theorem eq_of_sized_eq_sized (h : sized m k = sized m l) : k = l := by
  rw [← String.toList_inj, toList_sized, toList_sized, List.append_cancel_left_eq,
    List.cons_eq_cons, List.append_cancel_right_eq] at h
  exact String.toList_inj.mp h.2

theorem eq_of_sizedAlternate_eq_sizedAlternate (h : sizedAlternate m k e = sizedAlternate m l e) :
    k = l := by
  rw [← String.toList_inj, toList_sizedAlternate, toList_sizedAlternate,
    List.append_cancel_left_eq, List.cons_eq_cons, List.append_cancel_right_eq] at h
  exact String.toList_inj.mp h.2

/-- A sized rendition that has the name of an alternate one is of its size, which ends at the first
dot behind the stem. -/
theorem eq_of_sized_eq_sizedAlternate (hk : '.' ∉ k.toList) (hl : '.' ∉ l.toList)
    (h : sized m k = sizedAlternate m l e) : k = l := by
  rw [← String.toList_inj, toList_sized, toList_sizedAlternate, List.append_cancel_left_eq,
    List.cons_eq_cons] at h
  rcases suffix_cases m.toList with hnil | ⟨x, hx, -, -⟩
  · rw [hnil, List.append_nil] at h
    exact absurd (h.2 ▸ List.mem_append_right _ List.mem_cons_self) hk
  · have hcut : ∀ {size : String} (rest : List Char), '.' ∉ size.toList →
        (size.toList ++ '.' :: rest).takeWhile (· ≠ '.') = size.toList := by
      intro size rest hsize
      have hpass : ∀ c ∈ size.toList, decide (c ≠ '.') = true := fun c hc ↦
        decide_eq_true fun hdot ↦ hsize (hdot ▸ hc)
      rw [List.takeWhile_append_of_pos hpass]
      simp
    rw [hx] at h
    rw [← String.toList_inj, ← hcut x hk, h.2, hcut _ hl]

end FileName

/-! ## Places -/

/-- The renditions that options call for in a size: the sized one and, if there is to be one, the
alternate one. -/
inductive Options.Wants (o : Options) (k : Number) : Output → Prop
  | sized : Wants o k (.sized k)
  | alternate (htruthy : o.altFormat.truthy = true) : Wants o k (.alternate k)

namespace Output

/-- The size that a rendition is made for. -/
def size? : Output → Option Number
  | copy => none
  | sized k | alternate k => some k

/-- Renditions of one image that have one place are of one size, if the sizes are whole. -/
theorem size_eq_of_names_eq {i j : Output} {file extension : String} {m n : Nat}
    (hi : i.size? = some (.int m)) (hj : j.size? = some (.int n))
    (h : i.names file extension = j.names file extension) : m = n := by
  have hdot : ∀ n : Nat, '.' ∉ (Number.int n).text.toList := fun n hmem ↦
    absurd (Number.isDigit_of_mem_text hmem) (by decide)
  have hsize : (Number.int m).text = (Number.int n).text := by
    cases i with
    | copy => cases hi
    | sized k =>
      obtain rfl := Option.some_inj.mp hi
      cases j with
      | copy => cases hj
      | sized l =>
        obtain rfl := Option.some_inj.mp hj
        exact FileName.eq_of_sized_eq_sized (List.singleton_inj.mp h)
      | alternate l =>
        obtain rfl := Option.some_inj.mp hj
        exact FileName.eq_of_sized_eq_sizedAlternate (hdot m) (hdot n) (List.cons_eq_cons.mp h).1
    | alternate k =>
      obtain rfl := Option.some_inj.mp hi
      cases j with
      | copy => cases hj
      | sized l =>
        obtain rfl := Option.some_inj.mp hj
        have hname := (List.cons_eq_cons.mp h).1
        exact (FileName.eq_of_sized_eq_sizedAlternate (hdot n) (hdot m) hname.symm).symm
      | alternate l =>
        obtain rfl := Option.some_inj.mp hj
        exact FileName.eq_of_sizedAlternate_eq_sizedAlternate (List.cons_eq_cons.mp h).1
  exact Int.ofNat_inj.mp (Number.text_int_inj.mp hsize)

end Output

theorem Options.Wants.size?_eq {o : Options} {k : Number} {i : Output} (h : o.Wants k i) :
    i.size? = some k := by
  cases h with
  | sized => rfl
  | alternate _ => rfl

namespace OutputPlan

variable {p : OutputPlan} {o : Options} {sizes : List Number} {k : Number} {q : List String}

theorem parts_placeOf (hname : IsName p.name) (i : Output) :
    (p.placeOf i).parts = p.directory.parts ++ i.names p.name p.altExtension := by
  rw [placeOf_eq hname]

theorem place_iff : p.Place o k q ↔ ∃ i, o.Wants k i ∧ q = (p.placeOf i).parts := by
  constructor
  · rintro (h | ⟨htruthy, h⟩)
    · exact ⟨.sized k, .sized, h⟩
    · exact ⟨.alternate k, .alternate htruthy, h⟩
  · rintro ⟨i, ⟨-⟩ | htruthy, h⟩
    · exact .inl h
    · exact .inr ⟨htruthy, h⟩

theorem eq_of_parts_placeOf_eq (hname : IsName p.name) (hsizes : ∀ k ∈ sizes, ∃ n : Nat, k = .int n)
    {i j : Output} {k l : Number} (hk : k ∈ sizes) (hl : l ∈ sizes) (hi : i.size? = some k)
    (hj : j.size? = some l) (h : (p.placeOf i).parts = (p.placeOf j).parts) : k = l := by
  obtain ⟨m, rfl⟩ := hsizes k hk
  obtain ⟨n, rfl⟩ := hsizes l hl
  rw [parts_placeOf hname, parts_placeOf hname, List.append_cancel_left_eq] at h
  rw [Output.size_eq_of_names_eq hi hj h]

/-- The renditions of an image in whole sizes spare each other's places. -/
theorem spares_of_whole (hname : IsName p.name) (hsizes : ∀ k ∈ sizes, ∃ n : Nat, k = .int n)
    (hk : k ∈ sizes) : p.Spares o sizes p k := by
  intro l hl r hr hr'
  obtain ⟨i, hi, rfl⟩ := place_iff.mp hr
  obtain ⟨j, hj, h⟩ := place_iff.mp hr'
  exact ⟨rfl, eq_of_parts_placeOf_eq hname hsizes hk hl hi.size?_eq hj.size?_eq h⟩

theorem avoids_of_whole (hname : IsName p.name) (hsizes : ∀ k ∈ sizes, ∃ n : Nat, k = .int n)
    (hk : k ∈ sizes) : p.Avoids sizes p k := by
  have hsized : ∀ l, (p.sizedPath l).parts = (p.placeOf (.sized l)).parts := fun _ ↦ rfl
  have halternate : (p.sizedAlternatePath k).parts = (p.placeOf (.alternate k)).parts := rfl
  intro l hl h
  refine ⟨rfl, ?_⟩
  rw [hsized, hsized, halternate] at h
  rcases h with h | h
  · exact eq_of_parts_placeOf_eq hname hsizes hk hl rfl rfl h
  · exact eq_of_parts_placeOf_eq hname hsizes hk hl rfl rfl h

end OutputPlan

/-! ## Candidates and their dimensions -/

section Candidates

variable {sizes : List Int} {k : Number} {width : Nat}

theorem exists_nat_of_mem_candidateSizes (hsizes : ∀ n ∈ sizes, 0 < n)
    (hk : k ∈ candidateSizes (sizes.map .int) (.int width)) :
    ∃ n : Nat, k = .int n ∧ (n = width ∨ 0 < n) := by
  rcases mem_candidateSizes hk with rfl | ⟨hmem, -⟩
  · exact ⟨width, rfl, .inl rfl⟩
  · obtain ⟨n, hn, rfl⟩ := List.mem_map.mp hmem
    obtain ⟨m, rfl⟩ := Int.eq_ofNat_of_zero_le (Int.le_of_lt (hsizes n hn))
    exact ⟨m, rfl, .inr (Int.natCast_pos.mp (hsizes _ hn))⟩

theorem candidateSizes_ne_nil (sizes : List Int) (width : Nat) :
    candidateSizes (sizes.map .int) (.int width) ≠ [] := by
  rw [ne_eq, candidateSizes_eq_nil_iff]
  rintro ⟨ks, hks, -⟩
  cases sizes with
  | nil => cases hks
  | cons n ns => cases hks

end Candidates

theorem Options.IsAccepted.pos {o : Options} (h : o.IsAccepted) {sizes : List Int}
    (hsizes : o.sizes = sizes.map .int) : ∀ n ∈ sizes, 0 < n := by
  intro n hn
  have hle := h.sizes (.int n) (hsizes ▸ List.mem_map_of_mem hn)
  rw [← Bool.not_eq_true, show (0 : Number) = .int 0 from rfl, Number.int_le_int] at hle
  exact Int.not_le.mp hle

section Dimensions

variable {h : Header} {n width height : Nat}

theorem int_eq_int {m n : Int} : (Number.int m).eq (.int n) = true ↔ m = n := by
  simp [Number.eq, Number.compare?_int]

theorem resizedSize_self (h : Header) : resizedSize h (.int h.width) = .ok (h.width, h.height) := by
  rw [resizedSize, if_pos (int_eq_int.mpr rfl)]

theorem scaledSize_int_eq_ok {a b : Number} {n w h : Int}
    (hok : scaledSize a b (.int n) = .ok (w, h)) : w = max 1 n ∧ 1 ≤ h := by
  obtain ⟨x, -, hok⟩ := Options.exists_of_bind_eq_ok hok
  obtain ⟨y, -, hok⟩ := Options.exists_of_bind_eq_ok hok
  obtain ⟨scale, -, hok⟩ := Options.exists_of_bind_eq_ok hok
  obtain ⟨m, hm, hok⟩ := Options.exists_of_bind_eq_ok hok
  obtain ⟨z, -, hok⟩ := Options.exists_of_bind_eq_ok hok
  obtain ⟨r, -, hok⟩ := Options.exists_of_bind_eq_ok hok
  cases hm
  cases hok
  exact ⟨rfl, Int.le_max_left 1 r⟩

/-- A picture that is resized to another whole width is scaled to it. -/
theorem scaledSize_of_resizedSize (hne : n ≠ h.width) (hpos : 0 < n)
    (hok : resizedSize h (.int n) = .ok (width, height)) :
    width = n ∧
      scaledSize (.int h.width) (.int h.height) (.int n) = .ok ((n : Int), (height : Int)) := by
  have hnot : (Number.int n).eq (.int h.width) = false := by
    rw [← Bool.not_eq_true, int_eq_int, Int.ofNat_inj]
    exact hne
  rw [resizedSize, hnot, if_neg Bool.false_ne_true] at hok
  split at hok
  · rename_i w r hscaled
    obtain ⟨hw, hr⟩ := scaledSize_int_eq_ok hscaled
    cases hok
    have hwidth : w = n := by omega
    have hheight : r = r.toNat := by omega
    refine ⟨by omega, ?_⟩
    rw [hscaled, hwidth, ← hheight]
  · cases hok

/-- A picture that has pixels, and sides that are exact as floating-point numbers. -/
structure Header.IsExact (h : Header) : Prop where
  width_ne_zero : h.width ≠ 0
  width_lt : h.width < 2 ^ 53
  height_ne_zero : h.height ≠ 0
  height_lt : h.height < 2 ^ 53

/-- A picture that is resized to a whole width gets that width and the height that scaling gives,
also if it is its own width. -/
theorem dimensions_of_resizedSize (hn : n = h.width ∨ 0 < n)
    (hok : resizedSize h (.int n) = .ok (width, height)) :
    width = n ∧ (h.IsExact ∨ n ≠ h.width →
      scaledSize (.int h.width) (.int h.height) (.int n) = .ok ((n : Int), (height : Int))) := by
  by_cases hne : n = h.width
  · subst hne
    rw [resizedSize_self] at hok
    cases hok
    refine ⟨rfl, fun hor ↦ ?_⟩
    have hexact := hor.resolve_right fun h ↦ h rfl
    exact scaledSize_self hexact.width_ne_zero hexact.width_lt hexact.height_ne_zero
      hexact.height_lt
  · obtain ⟨hwidth, hscaled⟩ := scaledSize_of_resizedSize hne (hn.resolve_left hne) hok
    exact ⟨hwidth, fun _ ↦ hscaled⟩

end Dimensions

end ResponsiveImage
