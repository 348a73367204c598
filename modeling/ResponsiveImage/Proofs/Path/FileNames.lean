import Mathlib.Data.List.Basic
import ResponsiveImage.Proofs.Path.Names

/-!
# Names made from file names

A file name is taken apart at its last dot, and the names of renditions are put together from the
stem, a size behind a dash, and a suffix.  Where such a name can be taken apart in one way only, and
where it cannot, is what decides which names agree.
-/

namespace ResponsiveImage

namespace Text

variable {sep : Char} {cs before after : List Char}

/-- What stands before and after the last occurrence of a character. -/
theorem splitLast_eq_some_iff :
    splitLast sep cs = some (before, after) ↔ cs = before ++ sep :: after ∧ sep ∉ after := by
  constructor
  · intro h
    refine ⟨splitLast_eq_some h, ?_⟩
    induction cs generalizing before with
    | nil => cases h
    | cons c cs ih =>
      rw [splitLast] at h
      cases hs : splitLast sep cs with
      | some parts =>
        rw [hs] at h
        cases h
        exact ih hs
      | none =>
        rw [hs] at h
        dsimp only at h
        split at h
        · cases h
          exact splitLast_eq_none.mp hs
        · cases h
  · rintro ⟨rfl, hafter⟩
    induction before with
    | nil => rw [List.nil_append, splitLast, splitLast_eq_none.mpr hafter, if_pos rfl]
    | cons c before ih => rw [List.cons_append, splitLast, ih]

/-- A text that can be cut at two occurrences of a character, each of which is the last one before
something, is cut at one place, or one cut lies behind the other. -/
theorem append_cons_eq_append_cons_iff {a b k l x y : List Char} (hk : sep ∉ k) (hl : sep ∉ l) :
    a ++ sep :: (k ++ x) = b ++ sep :: (l ++ y) ↔
      (a = b ∧ k ++ x = l ++ y) ∨
        (∃ c, a = b ++ sep :: (l ++ c) ∧ y = c ++ sep :: (k ++ x)) ∨
        ∃ c, b = a ++ sep :: (k ++ c) ∧ x = c ++ sep :: (l ++ y) := by
  -- Where the first cut lies before the second, the piece behind it ends before the second.
  have hbehind : ∀ {a b k l x y : List Char}, sep ∉ k → (∃ d, b = a ++ d ∧
      sep :: (k ++ x) = d ++ sep :: (l ++ y)) → (a = b ∧ k ++ x = l ++ y) ∨
        ∃ c, b = a ++ sep :: (k ++ c) ∧ x = c ++ sep :: (l ++ y) := by
    rintro a b k l x y hk ⟨d, rfl, hd⟩
    cases d with
    | nil => exact .inl ⟨(List.append_nil a).symm, List.tail_eq_of_cons_eq hd⟩
    | cons c d =>
      obtain ⟨rfl, hrest⟩ := List.cons_eq_cons.mp hd
      rcases List.append_eq_append_iff.mp hrest with ⟨c, rfl, hx⟩ | ⟨c, rfl, hx⟩
      · exact .inr ⟨c, rfl, hx⟩
      · cases c with
        | nil => exact .inr ⟨[], by simp, by simpa using hx.symm⟩
        | cons c cs =>
          obtain ⟨rfl, -⟩ := List.cons_eq_cons.mp hx
          simp at hk
  constructor
  · intro h
    rcases List.append_eq_append_iff.mp h with hd | hd
    · rcases hbehind hk hd with h | h
      · exact .inl h
      · exact .inr (.inr h)
    · rcases hbehind hl hd with h | h
      · exact .inl ⟨h.1.symm, h.2.symm⟩
      · exact .inr (.inl h)
  · rintro (⟨rfl, h⟩ | ⟨c, rfl, rfl⟩ | ⟨c, rfl, rfl⟩)
    · rw [h]
    · simp
    · simp

end Text

namespace FileName

open Text

variable {name stem extension : List Char}

/-! ## Stems and suffixes -/

theorem split_of_dot (hstem : stem ≠ []) (hne : extension ≠ []) (hdot : '.' ∉ extension) :
    split (stem ++ '.' :: extension) = (stem, '.' :: extension) := by
  rw [split, splitLast_eq_some_iff.mpr ⟨rfl, hdot⟩]
  simp [hstem, hne]

/-- A name has a suffix, or it has no dots but one at either end. -/
theorem split_cases (name : List Char) :
    (split name = (name, []) ∧
        ('.' ∉ name ∨ (∃ extension, '.' ∉ extension ∧ name = '.' :: extension) ∨
          ∃ stem, name = stem ++ ['.'])) ∨
      ∃ stem extension, stem ≠ [] ∧ extension ≠ [] ∧ '.' ∉ extension ∧
        name = stem ++ '.' :: extension ∧ split name = (stem, '.' :: extension) := by
  cases hlast : splitLast '.' name with
  | none => exact .inl ⟨by rw [split, hlast], .inl (splitLast_eq_none.mp hlast)⟩
  | some parts =>
    obtain ⟨stem, extension⟩ := parts
    obtain ⟨hname, hdot⟩ := splitLast_eq_some_iff.mp hlast
    cases stem with
    | nil => exact .inl ⟨by rw [split, hlast]; rfl, .inr (.inl ⟨extension, hdot, hname⟩)⟩
    | cons c cs =>
      cases extension with
      | nil => exact .inl ⟨by rw [split, hlast]; rfl, .inr (.inr ⟨_, hname⟩)⟩
      | cons e es =>
        exact .inr ⟨_, _, List.cons_ne_nil _ _, List.cons_ne_nil _ _, hdot, hname,
          by rw [split, hlast]; rfl⟩

theorem suffix_cases (name : List Char) :
    (split name).2 = [] ∨
      ∃ extension, (split name).2 = '.' :: extension ∧ extension ≠ [] ∧ '.' ∉ extension := by
  rcases split_cases name with ⟨hsplit, -⟩ | ⟨stem, extension, -, hne, hdot, -, hsplit⟩
  · exact .inl (by rw [hsplit])
  · exact .inr ⟨extension, by rw [hsplit], hne, hdot⟩

theorem stem_eq_of_suffix_eq_nil (h : (split name).2 = []) : (split name).1 = name := by
  have happend := split_append name
  rwa [h, List.append_nil] at happend

theorem eq_nil_of_stem_eq_nil {name : List Char} (h : (split name).1 = []) : name = [] := by
  rcases split_cases name with ⟨hsplit, -⟩ | ⟨stem, extension, hstem, -, -, -, hsplit⟩
  · rwa [hsplit] at h
  · rw [hsplit] at h
    exact absurd h hstem

@[simp] theorem toList_stem (name : String) :
    (FileName.stem name).toList = (split name.toList).1 := by
  simp [FileName.stem]

@[simp] theorem toList_suffix (name : String) : (suffix name).toList = (split name.toList).2 := by
  simp [suffix]

theorem suffix_eq_empty_iff {name : String} : suffix name = "" ↔ (split name.toList).2 = [] := by
  rw [← String.toList_inj, toList_suffix]
  rfl

theorem split_of_last_dot (stem : List Char) : split (stem ++ ['.']) = (stem ++ ['.'], []) := by
  rw [split, splitLast_eq_some_iff.mpr ⟨rfl, List.not_mem_nil⟩]
  simp

/-- A dot behind the first character gives a suffix, if something but no dot stands behind it. -/
theorem eq_nil_of_suffix_eq_nil (hstem : stem ≠ []) (hdot : '.' ∉ extension)
    (h : (split (stem ++ '.' :: extension)).2 = []) : extension = [] := by
  by_cases hne : extension = []
  · exact hne
  · rw [split_of_dot hstem hne hdot] at h
    cases h

/-! ## Names of renditions -/

theorem toList_sized (name size : String) :
    (sized name size).toList =
      (split name.toList).1 ++ '-' :: (size.toList ++ (split name.toList).2) := by
  simp [sized]

theorem toList_sizedAlternate (name size extension : String) :
    (sizedAlternate name size extension).toList =
      (split name.toList).1 ++ '-' :: (size.toList ++ '.' :: extension.toList) := by
  simp [sizedAlternate]

theorem forall_mem_sized {name size : String} {P : Char → Prop} (hdash : P '-')
    (hsize : ∀ c ∈ size.toList, P c) :
    (∀ c ∈ (sized name size).toList, P c) ↔ ∀ c ∈ name.toList, P c := by
  have hname : (∀ c ∈ name.toList, P c) ↔
      (∀ c ∈ (split name.toList).1, P c) ∧ ∀ c ∈ (split name.toList).2, P c := by
    rw [← List.forall_mem_append, split_append]
  rw [toList_sized, hname, List.forall_mem_append, List.forall_mem_cons, List.forall_mem_append]
  simp only [hdash, true_and]
  exact and_congr_right fun _ ↦ and_iff_right hsize

/-- The name of a rendition begins as the name of the image does, or with the dash. -/
theorem head?_sized (name size : String) :
    (sized name size).toList.head? = some (name.toList.head?.getD '-') := by
  rw [toList_sized]
  cases hstem : (split name.toList).1 with
  | nil => simp [eq_nil_of_stem_eq_nil hstem]
  | cons c cs =>
    have hname := split_append name.toList
    rw [hstem] at hname
    rw [← hname]
    rfl

theorem getLast?_sized_ne_iff {name size : String} {c : Char} (hdash : c ≠ '-')
    (hsize : c ∉ size.toList) :
    (sized name size).toList.getLast? ≠ some c ↔ (suffix name).toList.getLast? ≠ some c := by
  rw [toList_sized, toList_suffix]
  cases hsuffix : (split name.toList).2 with
  | nil =>
    refine iff_of_true (fun hlast ↦ ?_) (by simp)
    rw [List.append_nil, List.getLast?_append_of_ne_nil _ (List.cons_ne_nil _ _)] at hlast
    rcases List.mem_cons.mp (List.mem_of_getLast? hlast) with h | h
    · exact hdash h
    · exact hsize h
  | cons d ds =>
    rw [List.getLast?_append_of_ne_nil _ (List.cons_ne_nil _ _), ← List.cons_append,
      List.getLast?_append_of_ne_nil _ (List.cons_ne_nil _ _)]

/-- A name with a dash and without slashes is one that files can have. -/
theorem isName_of_dash {n : String} (hdash : '-' ∈ n.toList) (hslash : '/' ∉ n.toList) :
    IsName n := by
  refine ⟨?_, ?_, ?_, hslash⟩
  · rintro rfl
    exact absurd hdash (by decide)
  · rintro rfl
    exact absurd hdash (by decide)
  · rintro rfl
    exact absurd hdash (by decide)

variable {file size : String}

theorem slash_not_mem_split (h : IsName file) :
    '/' ∉ (split file.toList).1 ∧ '/' ∉ (split file.toList).2 := by
  have hslash := h.no_slash
  rw [← split_append file.toList, List.mem_append, not_or] at hslash
  exact hslash

theorem isName_sized (h : IsName file) (hsize : '/' ∉ size.toList) : IsName (sized file size) := by
  obtain ⟨hstem, hsuffix⟩ := slash_not_mem_split h
  refine isName_of_dash ?_ ?_
  · simp [toList_sized]
  · simp [toList_sized, hstem, hsize, hsuffix]

theorem isName_sizedAlternate {extension : String} (h : IsName file) (hsize : '/' ∉ size.toList)
    (hextension : '/' ∉ extension.toList) : IsName (sizedAlternate file size extension) := by
  obtain ⟨hstem, -⟩ := slash_not_mem_split h
  refine isName_of_dash ?_ ?_
  · simp [toList_sizedAlternate]
  · simp [toList_sizedAlternate, hstem, hsize, hextension]

/-! ## Extensions with slashes -/

/-- An extension as far as it belongs to the name of a file: up to its first slash. -/
def firstSegment (extension : String) : String :=
  String.ofList (extension.toList.takeWhile (· ≠ '/'))

/-- The names to which an extension with a slash leads below the file. -/
def below (extension : String) : List String :=
  Path.partsOf (extension.toList.dropWhile (· ≠ '/'))

theorem slash_not_mem_firstSegment (extension : String) :
    '/' ∉ (firstSegment extension).toList := by
  rw [firstSegment, String.toList_ofList]
  intro h
  have hall := List.all_eq_true.mp (List.all_takeWhile (p := (· ≠ '/')) (l := extension.toList)) _ h
  simp at hall

/-- An alternate rendition has the name of a file, and further names if its extension holds
slashes. -/
theorem ofString_sizedAlternate (h : IsName file) (hsize : '/' ∉ size.toList) (extension : String) :
    Path.ofString (sizedAlternate file size extension) =
      ⟨.relative, sizedAlternate file size (firstSegment extension) :: below extension⟩ := by
  have hname := isName_sizedAlternate h hsize (slash_not_mem_firstSegment extension)
  have htext : (sizedAlternate file size extension).toList =
      (sizedAlternate file size (firstSegment extension)).toList ++
        extension.toList.dropWhile (· ≠ '/') := by
    simp [toList_sizedAlternate, firstSegment, List.takeWhile_append_dropWhile]
  have hanchor : Path.anchorOf (sizedAlternate file size extension).toList = .relative := by
    rw [Path.anchorOf_eq_relative_iff, htext]
    obtain ⟨c, cs, hcs⟩ := List.exists_cons_of_ne_nil
      (mt String.toList_eq_nil_iff.mp hname.ne_empty)
    have hhead := Path.head?_ne_slash hname.no_slash
    rwa [hcs] at hhead ⊢
  rw [Path.ofString, hanchor, htext, below]
  have hhead := List.head?_dropWhile_not (· ≠ '/') extension.toList
  cases hdrop : extension.toList.dropWhile (· ≠ '/') with
  | nil => rw [List.append_nil, Path.partsOf_of_isName hname]; rfl
  | cons c cs =>
    rw [hdrop] at hhead
    obtain rfl : c = '/' := by simpa using hhead
    rw [Path.partsOf_append_slash, Path.partsOf_of_isName hname, Path.partsOf_slash_cons]
    rfl

end FileName

end ResponsiveImage
