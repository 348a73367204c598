import ResponsiveImage.Proofs.Sources
import ResponsiveImage.Srcset

/-!
# The URLs of alternate renditions

The list of the alternate renditions is made from the URLs of the others: their backslashes are turned
and the last segment is given another extension.  What comes out is mostly the URL of the file that is
made, but not always (`alternate_lists_urls`): a name that ends in a dot loses its size with that dot,
and so does a size with a fraction behind a name without a suffix; a backslash in the name becomes a
slash; an extension with a slash leads below the file; and the slashes of the base may change.
-/

namespace ResponsiveImage

open Text

namespace Url

variable {head base file last last' extension : List Char}

/-! ## Weights -/

/-- How many characters of a text are no slashes, of either kind.  No step of the way changes it. -/
def weight (cs : List Char) : Nat := cs.countP fun c ↦ c ≠ '/' && c ≠ '\\'

@[simp] theorem weight_append (cs ds : List Char) : weight (cs ++ ds) = weight cs + weight ds :=
  List.countP_append

@[simp] theorem weight_dot_cons (cs : List Char) : weight ('.' :: cs) = weight cs + 1 :=
  List.countP_cons_of_pos (by decide)

theorem weight_forwardSlashes (cs : List Char) : weight (forwardSlashes cs) = weight cs := by
  rw [weight, weight, forwardSlashes, List.countP_map]
  refine List.countP_congr fun c _ ↦ ?_
  by_cases hc : c = '\\'
  · simp [hc]
  · simp [hc]

theorem weight_tidy (cs : List Char) : weight (tidy cs) = weight cs := by
  have hslashes : ∀ n, weight (List.replicate n '/') = 0 := fun n ↦ by
    simp [weight, List.countP_replicate]
  rw [tidy]
  split
  · rfl
  · obtain ⟨n, hn⟩ := exists_eq_trimRight_append '/' cs
    conv_rhs => rw [hn]
    rw [weight_append, weight_append, hslashes]
    rfl

theorem slash_of_weight_eq_zero {c : Char} {cs : List Char} (h : weight cs = 0) (hc : c ∈ cs) :
    c = '/' ∨ c = '\\' := by
  have hall := List.countP_eq_zero.mp h c hc
  simpa [Classical.or_iff_not_imp_left] using hall

/-! ## Another extension -/

theorem IsHead.tidy (h : IsHead head) : IsHead (tidy head) := by
  rw [Url.tidy]
  split
  · exact h
  · exact .inr ⟨_, rfl⟩

theorem IsHead.append {head' : List Char} (h : IsHead head) (h' : IsHead head') :
    IsHead (head ++ head') := by
  rcases h' with rfl | ⟨before, rfl⟩
  · rwa [List.append_nil]
  · exact .inr ⟨head ++ before, (List.append_assoc ..).symm⟩

/-- The URL of a file with its backslashes turned and with another extension. -/
theorem swapExtension_file (base file extension : List Char) :
    ∃ head last, forwardSlashes file = head ++ last ∧ IsHead head ∧ '/' ∉ last ∧
      swapExtension (forwardSlashes (headOf base ++ file)) extension =
        tidy (forwardSlashes (headOf base) ++ head) ++
          (withoutExtension last ++ '.' :: extension) := by
  obtain ⟨head, last, hfile, hhead, hlast⟩ := exists_head_append (forwardSlashes file)
  refine ⟨head, last, hfile, hhead, hlast, ?_⟩
  rw [forwardSlashes_append, hfile, ← List.append_assoc]
  exact swapExtension_eq ((isHead_headOf base).forwardSlashes.append hhead) hlast extension

/-- An extension with a slash is not that of a file in the same directory: what stands before its last
slash is too much for the URL of the directory. -/
theorem slash_not_mem_of_swapExtension (hlast : '/' ∉ last)
    (h : swapExtension (forwardSlashes (headOf base ++ file)) extension = headOf base ++ last) :
    '/' ∉ extension := by
  obtain ⟨head, stem, -, hhead, hstem, hswap⟩ := swapExtension_file base file extension
  obtain ⟨before, rest, rfl, hbefore, hrest⟩ := exists_head_append extension
  rcases hbefore with rfl | ⟨before, rfl⟩
  · exact hrest
  · exfalso
    have hcut : tidy (forwardSlashes (headOf base) ++ head) ++
        (withoutExtension stem ++ '.' :: before) ++ ['/'] ++ rest = headOf base ++ last := by
      rw [← h, hswap]
      simp
    obtain ⟨hbase, -⟩ := IsHead.append_inj (.inr ⟨_, rfl⟩) (isHead_headOf base) hrest hlast hcut
    have hweight := congrArg weight hbase
    simp only [weight_append, weight_tidy, weight_forwardSlashes, weight_dot_cons] at hweight
    omega

/-- A URL is that of a file in the same directory only if the name of the file has no backslash: what
stands before the last one would belong to the URL of the directory. -/
theorem backslash_not_mem_of_swapExtension {stem rest : List Char} (hfile : '/' ∉ file)
    (hstem : file = stem ++ '-' :: rest) (hlast : '/' ∉ stem ++ '-' :: last)
    (hextension : '/' ∉ extension)
    (h : swapExtension (forwardSlashes (headOf base ++ file)) extension =
      headOf base ++ (stem ++ '-' :: last ++ '.' :: extension)) :
    '\\' ∉ file := by
  obtain ⟨head, tail, hcut, hhead, htail, hswap⟩ := swapExtension_file base file extension
  rw [hswap] at h
  have hsegment : '/' ∉ withoutExtension tail ++ '.' :: extension := by
    have hkept := mt (@withoutExtension_subset tail '/') htail
    simp [hkept, hextension]
  have hsegment' : '/' ∉ stem ++ '-' :: last ++ '.' :: extension := by
    rw [List.mem_append, not_or]
    exact ⟨hlast, by simp [hextension]⟩
  obtain ⟨hbase, hname⟩ := IsHead.append_inj
    ((isHead_headOf base).forwardSlashes.append hhead).tidy (isHead_headOf base) hsegment hsegment' h
  have hkept : withoutExtension tail = stem ++ '-' :: last := List.append_cancel_right hname
  have hzero : weight head = 0 := by
    have hweight := congrArg weight hbase
    rw [weight_tidy, weight_append, weight_forwardSlashes] at hweight
    omega
  have hforward : '\\' ∉ head ++ tail := by
    rw [← hcut]
    exact backslash_not_mem_forwardSlashes file
  have hnot : '\\' ∉ stem := by
    intro hmem
    refine hforward (List.mem_append_right _ (withoutExtension_subset tail ?_))
    rw [hkept]
    exact List.mem_append_left _ hmem
  intro hmem
  cases head with
  | nil =>
    -- All that is turned is a slash of the last segment, which has none.
    refine htail ?_
    rw [List.nil_append] at hcut
    rw [← hcut, forwardSlashes, List.mem_map]
    exact ⟨_, hmem, if_pos rfl⟩
  | cons c cs =>
    -- The head is slashes only, so that the name begins with one that was turned.
    obtain rfl : c = '/' := (slash_of_weight_eq_zero hzero List.mem_cons_self).resolve_right
      fun hc ↦ hforward (hc ▸ List.mem_cons_self)
    cases stem with
    | nil =>
      rw [hstem] at hcut
      cases hcut
    | cons d ds =>
      rw [hstem] at hcut
      have hturned : (if d = '\\' then '/' else d) = '/' := (List.cons_eq_cons.mp hcut).1
      split at hturned
      · rename_i hd
        exact hnot (hd ▸ List.mem_cons_self)
      · rw [hturned] at hstem
        exact hfile (hstem ▸ List.mem_cons_self)

end Url

namespace FileName

/-- A name of more than a dot does not end in a dot if it has none behind its first character. -/
theorem getLast?_ne_dot {c : Char} {cs : List Char} (hne : c :: cs ≠ ['.']) (hcs : '.' ∉ cs) :
    (c :: cs).getLast? ≠ some '.' := by
  intro h
  cases cs with
  | nil => exact hne (congrArg (· :: []) (Option.some_inj.mp h))
  | cons d ds =>
    rw [List.getLast?_cons_cons] at h
    exact hcs (List.mem_of_getLast? h)

/-- The name of a rendition loses what stands behind its size, and nothing else, unless the name of
the image ends in a dot, or it has no suffix and the size has a fraction. -/
theorem withoutExtension_sized_iff {name size : List Char} (hne : name ≠ []) (hdot : name ≠ ['.']) :
    Url.withoutExtension ((split name).1 ++ '-' :: (size ++ (split name).2)) =
        (split name).1 ++ '-' :: size ↔
      name.getLast? ≠ some '.' ∧ ((split name).2 = [] → '.' ∉ size) := by
  rcases split_cases name with ⟨hsplit, hname⟩ | ⟨stem, extension, -, hext, hdots, rfl, hsplit⟩
  · rw [hsplit, List.append_nil, Url.withoutExtension_eq_self_iff]
    obtain ⟨c, cs, rfl⟩ := List.exists_cons_of_ne_nil hne
    have htail : '.' ∉ cs ↔ (c :: cs).getLast? ≠ some '.' := by
      refine ⟨getLast?_ne_dot hdot, fun hlast ↦ ?_⟩
      rcases hname with hnone | ⟨extension, hext, hname⟩ | ⟨stem, hname⟩
      · exact mt (List.mem_cons_of_mem _) hnone
      · rwa [(List.cons_eq_cons.mp hname).2]
      · rw [hname, List.getLast?_concat] at hlast
        exact absurd rfl hlast
    simp [htail]
  · rw [hsplit]
    have hkept : Url.withoutExtension (stem ++ '-' :: (size ++ '.' :: extension)) =
        stem ++ '-' :: size := by
      have hname : stem ++ '-' :: size ≠ [] := by simp
      rw [← Url.withoutExtension_of_dot hname hdots]
      simp
    have hlast : ('.' :: extension).getLast? ≠ some '.' := by
      refine getLast?_ne_dot ?_ hdots
      simpa using hext
    simp [hkept, hlast]

theorem swapExtension_sized_iff {base name size extension : List Char} (hne : name ≠ [])
    (hdot : name ≠ ['.']) (hname : '/' ∉ name) (hsize : '/' ∉ size) (hbackslash : '\\' ∉ size)
    (hextension : '/' ∉ extension) :
    Url.swapExtension (Url.forwardSlashes
        (Url.headOf base ++ ((split name).1 ++ '-' :: (size ++ (split name).2)))) extension =
        Url.headOf base ++ ((split name).1 ++ '-' :: (size ++ '.' :: extension)) ↔
      '\\' ∉ name ∧ name.getLast? ≠ some '.' ∧ ((split name).2 = [] → '.' ∉ size) ∧
        Url.IsBase base := by
  obtain ⟨hstem, hsuffix⟩ : '/' ∉ (split name).1 ∧ '/' ∉ (split name).2 := by
    rwa [← split_append name, List.mem_append, not_or] at hname
  have hfile : '/' ∉ (split name).1 ++ '-' :: (size ++ (split name).2) := by
    simp [hstem, hsuffix, hsize]
  have hmem : '\\' ∈ (split name).1 ++ '-' :: (size ++ (split name).2) ↔ '\\' ∈ name := by
    conv_rhs => rw [← split_append name]
    simp [hbackslash]
  by_cases hturned : '\\' ∈ name
  · refine iff_of_false (fun h ↦ ?_) fun hall ↦ hall.1 hturned
    have hlast : '/' ∉ (split name).1 ++ '-' :: size := by simp [hstem, hsize]
    have hswap : Url.swapExtension (Url.forwardSlashes
        (Url.headOf base ++ ((split name).1 ++ '-' :: (size ++ (split name).2)))) extension =
        Url.headOf base ++ ((split name).1 ++ '-' :: size ++ '.' :: extension) := by
      simpa using h
    exact Url.backslash_not_mem_of_swapExtension hfile rfl hlast hextension hswap
      (hmem.mpr hturned)
  · have hhead := (Url.isHead_headOf base).forwardSlashes
    have hkept := mt (@Url.withoutExtension_subset _ '/') hfile
    rw [Url.forwardSlashes_append, Url.forwardSlashes_eq_self_iff.mpr (mt hmem.mp hturned),
      Url.swapExtension_eq hhead hfile, ← Url.tidy_forwardSlashes_headOf_eq_iff,
      and_iff_right hturned, ← and_assoc, ← withoutExtension_sized_iff hne hdot]
    constructor
    · intro h
      obtain ⟨hbase, hlast⟩ := Url.IsHead.append_inj hhead.tidy (Url.isHead_headOf base)
        (by simp [hkept, hextension]) (by simp [hstem, hsize, hextension]) h
      refine ⟨List.append_cancel_right (hlast.trans ?_), hbase⟩
      simp
    · rintro ⟨hlast, hbase⟩
      rw [hbase, hlast]
      simp

end FileName

theorem Number.backslash_not_mem_text (n : Number) : '\\' ∉ n.text.toList := fun h ↦
  absurd (n.isNumeral_of_mem_text _ h) (by decide)

namespace OutputPlan

variable {p : OutputPlan} {k : Number}

/-- The URL in the list of the alternate renditions that is made from the variant of a size. -/
def alternateUrl (p : OutputPlan) (size : Number) : String :=
  String.ofList
    (Url.swapExtension (Url.forwardSlashes (p.sizedUrl size).toList) p.altExtension.toList)

theorem slash_not_mem_sizedAlternatePath (p : OutputPlan) (k : Number) (h : IsName p.name) :
    '/' ∉ (p.sizedAlternatePath k).name.toList := by
  have hmem : (p.sizedAlternatePath k).name ∈ (Path.ofString (p.sizedAlternateName k)).parts := by
    rw [sizedAlternatePath, sizedAlternateName,
      FileName.ofString_sizedAlternate h k.slash_not_mem_text]
    exact Path.name_mem_of_relative _ (List.cons_ne_nil _ _)
  rcases Path.mem_parts_ofString hmem with hname | hdots
  · exact hname.no_slash
  · rw [hdots]
    decide

theorem alternateUrl_eq_iff (h : IsName p.name) :
    p.alternateUrl k = p.urlOf (p.sizedAlternatePath k).name ↔
      '\\' ∉ p.name.toList ∧ p.name.toList.getLast? ≠ some '.' ∧
        (FileName.suffix p.name = "" → '.' ∉ k.text.toList) ∧
        '/' ∉ p.altExtension.toList ∧ Url.IsBase p.urlBase.toList := by
  have hsized := (isName_sizedName h k).no_slash
  have hlast := slash_not_mem_sizedAlternatePath p k h
  rw [← String.toList_inj, alternateUrl, String.toList_ofList, toList_urlOf hlast, sizedUrl,
    toList_urlOf hsized]
  by_cases hext : '/' ∈ p.altExtension.toList
  · refine iff_of_false (fun heq ↦ ?_) fun hall ↦ hall.2.2.2.1 hext
    exact Url.slash_not_mem_of_swapExtension hlast heq hext
  · have hne : p.name.toList ≠ [] := by simpa using h.ne_empty
    have hdot : p.name.toList ≠ ['.'] := fun hd ↦ h.ne_dot (String.toList_inj.mp hd)
    rw [sizedAlternatePath_eq h hext, Path.name_child, sizedName, sizedAlternateName,
      FileName.toList_sized, FileName.toList_sizedAlternate,
      FileName.swapExtension_sized_iff hne hdot h.no_slash k.slash_not_mem_text
        k.backslash_not_mem_text hext, FileName.suffix_eq_empty_iff]
    simp [hext]

end OutputPlan

/-- The output directory of some options is a base: its slashes are turned, and dropped at the end. -/
theorem Options.isBase_of_urlBase {o : Options} {base : String} (h : o.urlBase = .ok base) :
    Url.IsBase base.toList := by
  obtain ⟨dir, -, hbase⟩ := urlBase_eq_ok h
  rw [hbase]
  refine ⟨fun hmem ↦ ?_, .inr ?_⟩
  · exact Url.backslash_not_mem_forwardSlashes dir.toList (trimRight_subset _ _ hmem)
  · rintro ⟨before, hbefore⟩
    refine getLast?_trimRight_ne '/' (Url.forwardSlashes dir.toList) ?_
    rw [List.getLast?_eq_some_iff]
    exact ⟨before ++ ['/'], by simpa using hbefore.symm⟩

/-- A list only depends on the URLs of its variants. -/
theorem Srcset.withUrls_congr {link link' : Variant → List Char} {variants : List Variant}
    (h : ∀ v ∈ variants, link v = link' v) (breakpoints : List Json.Value) :
    withUrls link variants breakpoints = withUrls link' variants breakpoints := by
  have hmap : ∀ link : Variant → List Char,
      List.zipWith (fun v b ↦ entry (link v) b) variants breakpoints =
        List.zipWith entry (variants.map link) breakpoints := fun link ↦
    (List.zipWith_map_left ..).symm
  rw [withUrls, withUrls, hmap, hmap, List.map_congr_left h]

namespace OutputPlan

/-- **The list of the alternate renditions has the URLs of the files that are made exactly if the name
of the image holds no backslash and does not end in a dot, sizes behind a name without a suffix have
no fraction, and the extension holds no slash; given that the URL of the directory is a base, as it
is in every plan that options give.** -/
theorem alternate_lists_urls {p : OutputPlan} (h : IsName p.name) :
    (∀ (variants : List Variant) (breakpoints : List Json.Value),
        (∀ v ∈ variants, v.url = p.sizedUrl v.size) → variants.length ≤ breakpoints.length →
        Srcset.alternate variants breakpoints p.altExtension =
          .ok (",".intercalate (List.zipWith
            (fun v b ↦ Srcset.entry (p.alternateUrl v.size).toList b) variants breakpoints))) ∧
      (∀ k, p.alternateUrl k = p.urlOf (p.sizedAlternatePath k).name ↔
        '\\' ∉ p.name.toList ∧ p.name.toList.getLast? ≠ some '.' ∧
          (FileName.suffix p.name = "" → '.' ∉ k.text.toList) ∧
          '/' ∉ p.altExtension.toList ∧ Url.IsBase p.urlBase.toList) ∧
      ∀ (source : Path) (o : Options) (w : Workspace),
        ((ofImage source o).run w).1 = .ok p → Url.IsBase p.urlBase.toList := by
  refine ⟨fun variants breakpoints hurl hlength ↦ ?_, fun k ↦ alternateUrl_eq_iff h,
    fun source o w hp ↦ ?_⟩
  · have hlink : ∀ v ∈ variants, Url.swapExtension (Srcset.urlOf v) p.altExtension.toList =
        (p.alternateUrl v.size).toList := by
      intro v hv
      rw [Srcset.urlOf, hurl v hv, alternateUrl, String.toList_ofList]
    rw [Srcset.alternate, Srcset.withUrls_congr hlink, Srcset.withUrls,
      if_neg (Nat.not_lt.mpr hlength)]
  · obtain ⟨-, -, -, hbase, -⟩ := eq_of_run_ofImage (Prod.ext hp rfl)
    exact Options.isBase_of_urlBase hbase

/-- The plan for a picture whose name ends in a dot. -/
def dottedPlan : OutputPlan := ⟨.ofParts ["src", "a."], .ofParts ["static", "g"], "g", "webp"⟩

/-- Behind that dot the size counts as an extension. -/
theorem alternate_lists_urls_dotted :
    dottedPlan.urlOf (dottedPlan.sizedAlternatePath 400).name = "g/a.-400.webp" ∧
      dottedPlan.alternateUrl 400 = "g/a.webp" ∧
      dottedPlan.alternateUrl 400 ≠ dottedPlan.urlOf (dottedPlan.sizedAlternatePath 400).name := by
  refine ⟨by decide +kernel, by decide +kernel, fun heq ↦ ?_⟩
  obtain ⟨-, hiff, -⟩ := alternate_lists_urls (p := dottedPlan) (by decide)
  exact absurd ((hiff 400).mp heq).2.1 (by decide)

end OutputPlan

end ResponsiveImage
