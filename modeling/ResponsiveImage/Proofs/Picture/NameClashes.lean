import ResponsiveImage.Picture.HeaderCodec
import ResponsiveImage.Proofs.Number.LeadingDigit
import ResponsiveImage.Proofs.Picture.SourceSet
import ResponsiveImage.Proofs.Sources

/-!
# Images whose files have the same place

All that is made from images lies in one directory, under names that are made from their file names.
A file of one image and a file of another, whose file name is different, may still have one name.
This is so in a few cases, each of which can be read off the two file names, the sizes and the
extension of the alternate format (`placeOf_eq_placeOf_iff`): the size of a rendition stands between
dashes and dots that may as well belong to the name of the other image.
-/

namespace ResponsiveImage

/-! ## Names of renditions -/

namespace FileName

open Text

variable {m n k l e : String}

/-- The sized renditions of two images have one name: a fraction of one size is the suffix of the
other image, or the one name has a dot behind a size and the other has a suffix with a dash. -/
inductive SizedClash (m k n l : String) : Prop
  | fraction (hsuffix : suffix m = "") (hstem : m = stem n) (hsize : k = l ++ suffix n)
  | dash (hname : m = stem n ++ "-" ++ l ++ ".") (hsuffix : suffix n = ".-" ++ k)

theorem SizedClash.eq (h : SizedClash m k n l) : sized m k = sized n l := by
  rw [← String.toList_inj, toList_sized, toList_sized]
  cases h with
  | fraction hsuffix hstem hsize =>
    have hnil := suffix_eq_empty_iff.mp hsuffix
    have hname : m.toList = (split n.toList).1 := by
      rw [← toList_stem]
      exact congrArg String.toList hstem
    rw [stem_eq_of_suffix_eq_nil hnil, hnil, hname, hsize]
    simp
  | dash hname hsuffix =>
    have hlist : m.toList = ((split n.toList).1 ++ '-' :: l.toList) ++ ['.'] := by
      rw [hname]
      simp
    have hsuffix' : (split n.toList).2 = '.' :: '-' :: k.toList := by
      rw [← toList_suffix, hsuffix]
      simp
    rw [hlist, split_of_last_dot, hsuffix']
    simp

/-- With one stem, the suffixes make the difference, so that there is only one of them. -/
theorem SizedClash.of_suffix (hstem : (split m.toList).1 = (split n.toList).1)
    (hsize : k.toList ++ (split m.toList).2 = l.toList ++ (split n.toList).2) (hne : m ≠ n) :
    SizedClash m k n l ∨ SizedClash n l m k := by
  have hne' : (split m.toList).2 ≠ (split n.toList).2 := by
    intro hsuffix
    apply hne
    rw [← String.toList_inj, ← split_append m.toList, hstem, hsuffix, split_append]
  have hfraction : ∀ {m n k l : String}, (split m.toList).1 = (split n.toList).1 →
      k.toList ++ (split m.toList).2 = l.toList ++ (split n.toList).2 →
      (split m.toList).2 = [] → SizedClash m k n l := by
    intro m n k l hstem hsize hnil
    rw [hnil, List.append_nil] at hsize
    refine .fraction (suffix_eq_empty_iff.mpr hnil) ?_ ?_
    · rw [← String.toList_inj, toList_stem, ← hstem, stem_eq_of_suffix_eq_nil hnil]
    · rw [← String.toList_inj, hsize, String.toList_append, toList_suffix]
  rcases suffix_cases m.toList with hm | ⟨x, hm, -, hx⟩
  · exact .inl (hfraction hstem hsize hm)
  · rcases suffix_cases n.toList with hn | ⟨y, hn, -, hy⟩
    · exact .inr (hfraction hstem.symm hsize.symm hn)
    · -- Both would begin at the last dot of one text.
      rw [hm, hn] at hsize hne'
      have hlast := splitLast_eq_some_iff.mpr ⟨hsize, hy⟩
      rw [splitLast_eq_some_iff.mpr ⟨rfl, hx⟩, Option.some_inj, Prod.mk.injEq] at hlast
      exact absurd (congrArg ('.' :: ·) hlast.2) hne'

/-- If the stem of a name holds a size of the other, what is left of the other's suffix is a dot. -/
theorem SizedClash.of_stem {c : List Char}
    (hstem : (split m.toList).1 = (split n.toList).1 ++ '-' :: (l.toList ++ c))
    (hsuffix : (split n.toList).2 = c ++ '-' :: (k.toList ++ (split m.toList).2)) :
    SizedClash m k n l := by
  rcases suffix_cases n.toList with hnil | ⟨extension, hextension, -, hdot⟩
  · rw [hsuffix] at hnil
    simp at hnil
  rw [hextension] at hsuffix
  cases c with
  | nil => simp at hsuffix
  | cons d c =>
    rw [List.cons_append, List.cons_eq_cons] at hsuffix
    obtain ⟨rfl, hrest⟩ := hsuffix
    rw [hrest, List.mem_append, List.mem_cons, List.mem_append, not_or, not_or, not_or] at hdot
    obtain ⟨hc, -, -, hsuffix'⟩ := hdot
    have hnil : (split m.toList).2 = [] := by
      rcases suffix_cases m.toList with hnil | ⟨extension, hextension, -, -⟩
      · exact hnil
      · rw [hextension] at hsuffix'
        simp at hsuffix'
    -- So the name is that stem, and its last dot is followed by nothing.
    have hname : m.toList = ((split n.toList).1 ++ '-' :: l.toList) ++ '.' :: c := by
      rw [← stem_eq_of_suffix_eq_nil hnil, hstem]
      simp
    have hne : (split n.toList).1 ++ '-' :: l.toList ≠ [] := by simp
    obtain rfl : c = [] := eq_nil_of_suffix_eq_nil hne hc (hname ▸ hnil)
    refine .dash ?_ ?_
    · rw [← String.toList_inj, hname]
      simp
    · rw [← String.toList_inj, toList_suffix, hextension, hrest, hnil]
      simp

theorem sized_eq_sized_iff (hk : '-' ∉ k.toList) (hl : '-' ∉ l.toList) (hne : m ≠ n) :
    sized m k = sized n l ↔ SizedClash m k n l ∨ SizedClash n l m k := by
  constructor
  · intro h
    rw [← String.toList_inj, toList_sized, toList_sized,
      append_cons_eq_append_cons_iff hk hl] at h
    rcases h with ⟨hstem, hsize⟩ | ⟨c, hstem, hsuffix⟩ | ⟨c, hstem, hsuffix⟩
    · exact SizedClash.of_suffix hstem hsize hne
    · exact .inl (.of_stem hstem hsuffix)
    · exact .inr (.of_stem hstem hsuffix)
  · rintro (h | h)
    · exact h.eq
    · exact h.eq.symm

/-- A sized rendition has the name of an alternate one: with the same stem, the suffix makes the
difference; or the extension of the alternate format has the size behind a dash. -/
theorem sized_eq_sizedAlternate_iff (hk : '-' ∉ k.toList) (hl : '-' ∉ l.toList) :
    sized m k = sizedAlternate n l e ↔
      (stem m = stem n ∧ k ++ suffix m = l ++ "." ++ e) ∨
        ∃ c, stem m = stem n ++ "-" ++ l ++ "." ++ c ∧ e = c ++ "-" ++ k ++ suffix m := by
  rw [← String.toList_inj, toList_sized, toList_sizedAlternate,
    append_cons_eq_append_cons_iff hk hl]
  constructor
  · rintro (⟨hstem, hsize⟩ | ⟨c, hstem, hext⟩ | ⟨c, -, hsuffix⟩)
    · refine .inl ⟨?_, ?_⟩
      · rwa [← String.toList_inj, toList_stem, toList_stem]
      · rw [← String.toList_inj]
        simpa using hsize
    · cases c with
      | nil => simp at hext
      | cons d c =>
        rw [List.cons_append, List.cons_eq_cons] at hext
        obtain ⟨rfl, hext⟩ := hext
        refine .inr ⟨String.ofList c, ?_, ?_⟩
        · rw [← String.toList_inj, toList_stem, hstem]
          simp
        · rw [← String.toList_inj, hext]
          simp
    · -- A suffix has no second dot.
      rcases suffix_cases m.toList with hnil | ⟨extension, hextension, -, hdot⟩
      · rw [hsuffix] at hnil
        simp at hnil
      · rw [hextension] at hsuffix
        cases c with
        | nil => simp at hsuffix
        | cons d c =>
          rw [List.cons_append, List.cons_eq_cons] at hsuffix
          rw [hsuffix.2] at hdot
          simp at hdot
  · rintro (⟨hstem, hsize⟩ | ⟨c, hstem, rfl⟩)
    · refine .inl ⟨?_, ?_⟩
      · rw [← toList_stem, hstem, toList_stem]
      · have hlist := congrArg String.toList hsize
        simpa using hlist
    · refine .inr (.inl ⟨'.' :: c.toList, ?_, by simp⟩)
      rw [← toList_stem, hstem]
      simp

theorem sizedAlternate_eq_sizedAlternate_iff (hk : '-' ∉ k.toList) (hl : '-' ∉ l.toList) :
    sizedAlternate m k e = sizedAlternate n l e ↔ stem m = stem n ∧ k = l := by
  rw [← String.toList_inj, toList_sizedAlternate, toList_sizedAlternate,
    append_cons_eq_append_cons_iff hk hl]
  constructor
  · rintro (⟨hstem, hsize⟩ | ⟨c, -, h⟩ | ⟨c, -, h⟩)
    · rw [← String.toList_inj, ← String.toList_inj, toList_stem, toList_stem]
      exact ⟨hstem, List.append_cancel_right hsize⟩
    · have hlength := congrArg List.length h
      simp at hlength
      omega
    · have hlength := congrArg List.length h
      simp at hlength
      omega
  · rintro ⟨hstem, rfl⟩
    rw [← toList_stem, hstem, toList_stem]
    exact .inl ⟨rfl, rfl⟩

end FileName

/-! ## Places of outputs -/

/-- What is made from an image: the copy, and the renditions of each size. -/
inductive Output where
  | copy
  | sized (size : Number)
  | alternate (size : Number)

namespace Output

open FileName

/-- An output whose size, if it has one, is one or more. -/
def IsProper : Output → Prop
  | copy => True
  | sized k | alternate k => Number.le 1 k = true

instance : DecidablePred IsProper
  | copy => .isTrue trivial
  | sized k | alternate k => inferInstanceAs (Decidable (Number.le 1 k = true))

/-- The names behind the directory at which an output lies, for an image of the name `m`. -/
def names (m extension : String) : Output → List String
  | copy => [m]
  | sized k => [FileName.sized m k.text]
  | alternate k => sizedAlternate m k.text (firstSegment extension) :: below extension

/-- An output of an image `m` and one of an image `n` that have one place. -/
inductive Clash (extension : String) : String → Output → String → Output → Prop
  | copy_sized {m n : String} {l : Number} (h : m = FileName.sized n l.text) :
      Clash extension m copy n (sized l)
  | copy_alternate {m n : String} {l : Number} (hbelow : below extension = [])
      (h : m = sizedAlternate n l.text (firstSegment extension)) :
      Clash extension m copy n (alternate l)
  | sized_sized {m n : String} {k l : Number} (h : SizedClash m k.text n l.text) :
      Clash extension m (sized k) n (sized l)
  | suffix {m n : String} {k l : Number} (hbelow : below extension = []) (hstem : stem m = stem n)
      (hsize : k.text ++ FileName.suffix m = l.text ++ "." ++ firstSegment extension) :
      Clash extension m (sized k) n (alternate l)
  | dash {m n : String} {k l : Number} {c : String} (hbelow : below extension = [])
      (hstem : stem m = stem n ++ "-" ++ l.text ++ "." ++ c)
      (hextension : firstSegment extension = c ++ "-" ++ k.text ++ FileName.suffix m) :
      Clash extension m (sized k) n (alternate l)
  | alternate_alternate {m n : String} {k l : Number} (hstem : stem m = stem n)
      (hsize : k.text = l.text) : Clash extension m (alternate k) n (alternate l)

variable {m n extension : String} {i j : Output}

theorem names_eq_of_clash (hi : i.IsProper) (hj : j.IsProper) (h : Clash extension m i n j) :
    i.names m extension = j.names n extension := by
  cases h with
  | copy_sized h => rw [names, names, h]
  | copy_alternate hbelow h => rw [names, names, h, hbelow]
  | sized_sized h => rw [names, names, h.eq]
  | suffix hbelow hstem hsize =>
    rw [names, names, hbelow, (sized_eq_sizedAlternate_iff (Number.dash_not_mem_text hi)
      (Number.dash_not_mem_text hj)).mpr (.inl ⟨hstem, hsize⟩)]
  | dash hbelow hstem hextension =>
    rw [names, names, hbelow, (sized_eq_sizedAlternate_iff (Number.dash_not_mem_text hi)
      (Number.dash_not_mem_text hj)).mpr (.inr ⟨_, hstem, hextension⟩)]
  | alternate_alternate hstem hsize =>
    rw [names, names, (sizedAlternate_eq_sizedAlternate_iff (Number.dash_not_mem_text hi)
      (Number.dash_not_mem_text hj)).mpr ⟨hstem, hsize⟩]

theorem clash_of_copy_eq (hne : m ≠ n) (h : copy.names m extension = j.names n extension) :
    Clash extension m copy n j := by
  cases j with
  | copy => exact absurd (List.singleton_inj.mp h) hne
  | sized l => exact .copy_sized (List.singleton_inj.mp h)
  | alternate l =>
    obtain ⟨hname, hbelow⟩ := List.cons_eq_cons.mp h
    exact .copy_alternate hbelow.symm hname

theorem clash_of_sized_eq {k l : Number} (hk : '-' ∉ k.text.toList) (hl : '-' ∉ l.text.toList)
    (h : (sized k).names m extension = (alternate l).names n extension) :
    Clash extension m (sized k) n (alternate l) := by
  obtain ⟨hname, hbelow⟩ := List.cons_eq_cons.mp h
  rcases (sized_eq_sizedAlternate_iff hk hl).mp hname with ⟨hstem, hsize⟩ | ⟨c, hstem, hext⟩
  · exact .suffix hbelow.symm hstem hsize
  · exact .dash hbelow.symm hstem hext

theorem names_eq_names_iff (hi : i.IsProper) (hj : j.IsProper) (hne : m ≠ n) :
    i.names m extension = j.names n extension ↔
      Clash extension m i n j ∨ Clash extension n j m i := by
  constructor
  · intro h
    cases i with
    | copy => exact .inl (clash_of_copy_eq hne h)
    | sized k =>
      have hk := Number.dash_not_mem_text hi
      cases j with
      | copy => exact .inr (clash_of_copy_eq hne.symm h.symm)
      | sized l =>
        have hname := List.singleton_inj.mp h
        exact ((sized_eq_sized_iff hk (Number.dash_not_mem_text hj) hne).mp hname).imp
          .sized_sized .sized_sized
      | alternate l => exact .inl (clash_of_sized_eq hk (Number.dash_not_mem_text hj) h)
    | alternate k =>
      have hk := Number.dash_not_mem_text hi
      cases j with
      | copy => exact .inr (clash_of_copy_eq hne.symm h.symm)
      | sized l => exact .inr (clash_of_sized_eq (Number.dash_not_mem_text hj) hk h.symm)
      | alternate l =>
        obtain ⟨hstem, hsize⟩ := (sizedAlternate_eq_sizedAlternate_iff hk
          (Number.dash_not_mem_text hj)).mp (List.cons_eq_cons.mp h).1
        exact .inl (.alternate_alternate hstem hsize)
  · rintro (h | h)
    · exact names_eq_of_clash hi hj h
    · exact (names_eq_of_clash hj hi h).symm

end Output

namespace OutputPlan

variable {p q : OutputPlan} {o : Options} {source source' : Path} {w : Workspace}

/-- Where an output of an image goes. -/
def placeOf (p : OutputPlan) : Output → Path
  | .copy => p.path
  | .sized k => p.sizedPath k
  | .alternate k => p.sizedAlternatePath k

theorem placeOf_eq (h : IsName p.name) (i : Output) :
    p.placeOf i =
      ⟨p.directory.anchor, p.directory.parts ++ i.names p.name p.altExtension⟩ := by
  cases i with
  | copy => exact path_eq h
  | sized k => exact sizedPath_eq h k
  | alternate k =>
    rw [placeOf, sizedAlternatePath, sizedAlternateName,
      FileName.ofString_sizedAlternate h k.slash_not_mem_text]
    rfl

/-- **Two images of different file names have an output at one place exactly if their names, the
sizes and the extension of the alternate format clash.** -/
theorem placeOf_eq_placeOf_iff (hp : ((ofImage source o).run w).1 = .ok p)
    (hq : ((ofImage source' o).run w).1 = .ok q) (hsource : IsName source.name)
    (hsource' : IsName source'.name) (hne : source.name ≠ source'.name) {i j : Output}
    (hi : i.IsProper) (hj : j.IsProper) :
    p.placeOf i = q.placeOf j ↔
      Output.Clash p.altExtension source.name i source'.name j ∨
        Output.Clash p.altExtension source'.name j source.name i := by
  obtain ⟨-, rfl, ⟨d, hd, hdirectory⟩, -, hext⟩ := eq_of_run_ofImage (Prod.ext hp rfl)
  obtain ⟨-, rfl, ⟨d', hd', hdirectory'⟩, -, hext'⟩ := eq_of_run_ofImage (Prod.ext hq rfl)
  have hsame : p.directory = q.directory := by
    rw [hdirectory, hdirectory', Except.ok.inj (hd.symm.trans hd')]
  have hsameExt : p.altExtension = q.altExtension := Except.ok.inj (hext.symm.trans hext')
  rw [placeOf_eq hsource, placeOf_eq hsource', hsame, hsameExt, Path.mk.injEq,
    and_iff_right rfl, List.append_cancel_left_eq]
  exact Output.names_eq_names_iff hi hj hne

/-! ## Pictures with clashing names -/

open scoped HeaderCodec

/-- A tree with a picture, one in another format that has its stem, and one whose name is that of a
rendition of the first. -/
def clashingFiles : Workspace where
  cwd := []
  files := ⟨[(["src"], .directory),
    (["src", "x.png"], .file (HeaderCodec.file ⟨"PNG", 1000, 500⟩)),
    (["src", "x.jpg"], .file (HeaderCodec.file ⟨"JPEG", 1000, 500⟩)),
    (["src", "x-400.png"], .file (HeaderCodec.file ⟨"PNG", 10, 10⟩))]⟩

/-- The plan for one of these pictures. -/
def clashingPlan (name : String) : OutputPlan :=
  ⟨.ofParts ["src", name], .ofParts ["static", "g"], "g", "webp"⟩

/-- The alternate renditions of a picture in two formats are one file. -/
theorem placeOf_alternate_clashing :
    (clashingPlan "x.png").placeOf (.alternate 400) =
      (clashingPlan "x.jpg").placeOf (.alternate 400) := by
  have hpng : ((ofImage (.ofParts ["src", "x.png"]) .defaults).run clashingFiles).1 =
      .ok (clashingPlan "x.png") := eq_ok_of_toOption (by decide +kernel)
  have hjpg : ((ofImage (.ofParts ["src", "x.jpg"]) .defaults).run clashingFiles).1 =
      .ok (clashingPlan "x.jpg") := eq_ok_of_toOption (by decide +kernel)
  exact (placeOf_eq_placeOf_iff hpng hjpg (by decide) (by decide) (by decide) (by decide)
    (by decide)).mpr (.inl (.alternate_alternate (by decide +kernel) rfl))

/-- The copy of one picture is taken for a rendition of another. -/
theorem path_eq_sizedPath_clashing :
    ((ofImage (.ofParts ["src", "x-400.png"]) .defaults).run clashingFiles).1 =
        .ok (clashingPlan "x-400.png") ∧
      ((ofImage (.ofParts ["src", "x.png"]) .defaults).run clashingFiles).1 =
        .ok (clashingPlan "x.png") ∧
      (clashingPlan "x-400.png").name ≠ (clashingPlan "x.png").name ∧
      (clashingPlan "x-400.png").path = (clashingPlan "x.png").sizedPath 400 ∧
      ((do
        (clashingPlan "x-400.png").stage
        Variant.generate (clashingPlan "x.png") .defaults : Job (List Variant)).run
          clashingFiles).1 =
        .ok [⟨400, 10, 10, "g/x-400.png", true⟩, ⟨800, 800, 400, "g/x-800.png", true⟩] :=
  ⟨eq_ok_of_toOption (by decide +kernel), eq_ok_of_toOption (by decide +kernel), by decide,
    by decide +kernel, eq_ok_of_toOption (by decide +kernel)⟩

end OutputPlan

end ResponsiveImage
