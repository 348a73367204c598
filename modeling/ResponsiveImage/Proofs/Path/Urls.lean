import Mathlib.Data.List.Basic
import ResponsiveImage.Path.Url
import ResponsiveImage.Proofs.Path.FileNames

/-!
# URLs taken apart and put together

A URL is a head, which is empty or ends in a slash, and a last segment.  Joining a segment to a URL
makes the URL a head; giving a URL another extension leaves its head as it is, but for slashes at its
end, of which only one is left unless there is nothing else (`swapExtension_eq`).
-/

namespace ResponsiveImage

open Text

theorem Text.exists_eq_append_trimLeft (sep : Char) (cs : List Char) :
    ∃ n, cs = List.replicate n sep ++ trimLeft sep cs := by
  have hrun : cs.takeWhile (· == sep) = List.replicate (cs.takeWhile (· == sep)).length sep := by
    refine List.eq_replicate_of_mem fun c hc ↦ ?_
    simpa using List.all_eq_true.mp List.all_takeWhile c hc
  refine ⟨(cs.takeWhile (· == sep)).length, ?_⟩
  rw [← hrun, trimLeft, List.takeWhile_append_dropWhile]

theorem Text.exists_eq_trimRight_append (sep : Char) (cs : List Char) :
    ∃ n, cs = trimRight sep cs ++ List.replicate n sep := by
  obtain ⟨n, hn⟩ := exists_eq_append_trimLeft sep cs.reverse
  refine ⟨n, List.reverse_injective ?_⟩
  rw [List.reverse_append, trimRight, List.reverse_reverse, List.reverse_replicate, ← hn]

theorem Text.trimRight_subset (sep : Char) (cs : List Char) : trimRight sep cs ⊆ cs := by
  obtain ⟨n, hn⟩ := exists_eq_trimRight_append sep cs
  intro c hc
  rw [hn]
  exact List.mem_append_left _ hc

theorem Text.head?_trimLeft_ne (sep : Char) (cs : List Char) :
    (trimLeft sep cs).head? ≠ some sep := by
  intro h
  have hhead := List.head?_dropWhile_not (· == sep) cs
  rw [← trimLeft, h] at hhead
  simp at hhead

theorem Text.getLast?_trimRight_ne (sep : Char) (cs : List Char) :
    (trimRight sep cs).getLast? ≠ some sep := by
  rw [trimRight, List.getLast?_reverse]
  exact head?_trimLeft_ne sep cs.reverse

theorem Text.trimRight_append_self (sep : Char) (cs : List Char) :
    trimRight sep (cs ++ [sep]) = trimRight sep cs := by
  simp [trimRight, trimLeft]

theorem Text.trimRight_eq_self_iff {sep : Char} {cs : List Char} :
    trimRight sep cs = cs ↔ cs.getLast? ≠ some sep := by
  constructor
  · intro h
    rw [← h]
    exact getLast?_trimRight_ne sep cs
  · intro h
    obtain ⟨n, hn⟩ := exists_eq_trimRight_append sep cs
    cases n with
    | zero => simpa using hn.symm
    | succ n =>
      rw [hn, List.replicate_succ', ← List.append_assoc, List.getLast?_concat] at h
      exact absurd rfl h

namespace Url

variable {head head' url last last' extension segment : List Char}

/-! ## Heads -/

/-- What can stand before the last segment of a URL. -/
def IsHead (head : List Char) : Prop := head = [] ∨ ∃ before, head = before ++ ['/']

/-- A URL as a head. -/
def headOf (url : List Char) : List Char :=
  if url.isEmpty || url.getLast? = some '/' then url else url ++ ['/']

theorem isHead_headOf (url : List Char) : IsHead (headOf url) := by
  rw [headOf]
  split
  · rename_i h
    rcases Bool.or_eq_true_iff.mp h with h | h
    · exact .inl (List.isEmpty_iff.mp h)
    · obtain ⟨before, hbefore⟩ := List.getLast?_eq_some_iff.mp (of_decide_eq_true h)
      exact .inr ⟨before, hbefore⟩
  · exact .inr ⟨url, rfl⟩

theorem join_eq (h : segment.head? ≠ some '/') : join url segment = headOf url ++ segment := by
  rw [join, headOf, if_neg h]
  split
  · rfl
  · simp

theorem forall_mem_join {P : Char → Prop} (hslash : P '/') :
    (∀ c ∈ join url segment, P c) ↔
      (segment.head? = some '/' ∨ ∀ c ∈ url, P c) ∧ ∀ c ∈ segment, P c := by
  rw [join]
  split
  · rename_i h
    simp [h]
  · rename_i h
    split
    · rw [List.forall_mem_append, or_iff_right h]
    · rw [List.forall_mem_append, List.forall_mem_cons, or_iff_right h, and_iff_right hslash]

theorem head?_join :
    (join url segment).head? =
      if segment.head? = some '/' ∨ url = [] then segment.head? else url.head? := by
  cases url with
  | nil => simp [join]
  | cons c cs =>
    rw [join]
    split
    · rename_i h
      simp [h]
    · rename_i h
      have hnot : ¬ (segment.head? = some '/' ∨ c :: cs = []) := by simp [h]
      rw [if_neg hnot]
      split
      · rfl
      · rfl

theorem getLast?_join (h : segment ≠ []) : (join url segment).getLast? = segment.getLast? := by
  rw [join]
  split
  · rfl
  · split
    · exact List.getLast?_append_of_ne_nil _ h
    · rw [List.getLast?_append_of_ne_nil _ (List.cons_ne_nil _ _), List.getLast?_cons_of_ne_nil h]

/-- A URL is a head and a last segment in one way. -/
theorem IsHead.append_inj (hh : IsHead head) (hh' : IsHead head') (hl : '/' ∉ last)
    (hl' : '/' ∉ last') (h : head ++ last = head' ++ last') : head = head' ∧ last = last' := by
  rcases hh with rfl | ⟨before, rfl⟩
  · rcases hh' with rfl | ⟨before', rfl⟩
    · exact ⟨rfl, h⟩
    · rw [List.nil_append] at h
      rw [h] at hl
      simp at hl
  · rcases hh' with rfl | ⟨before', rfl⟩
    · rw [List.nil_append] at h
      rw [← h] at hl'
      simp at hl'
    · rw [List.append_assoc, List.append_assoc] at h
      have hlast := splitLast_eq_some_iff.mpr ⟨h, hl'⟩
      rw [List.singleton_append, splitLast_eq_some_iff.mpr ⟨rfl, hl⟩, Option.some_inj,
        Prod.mk.injEq] at hlast
      exact ⟨congrArg (· ++ ['/']) hlast.1, hlast.2⟩

theorem exists_head_append (url : List Char) :
    ∃ head last, url = head ++ last ∧ IsHead head ∧ '/' ∉ last := by
  cases h : splitLast '/' url with
  | none => exact ⟨[], url, rfl, .inl rfl, splitLast_eq_none.mp h⟩
  | some parts =>
    obtain ⟨hurl, hlast⟩ := splitLast_eq_some_iff.mp h
    exact ⟨parts.1 ++ ['/'], parts.2, by simp [hurl], .inr ⟨_, rfl⟩, hlast⟩

theorem headOf_trimRight (h : ¬ ∀ c ∈ url, c = '/') :
    headOf (trimRight '/' url) = trimRight '/' url ++ ['/'] := by
  have hne : trimRight '/' url ≠ [] := by
    intro hnil
    obtain ⟨n, hn⟩ := exists_eq_trimRight_append '/' url
    rw [hnil, List.nil_append] at hn
    exact h fun c hc ↦ List.eq_of_mem_replicate (hn ▸ hc)
  rw [headOf, if_neg]
  simp [hne, getLast?_trimRight_ne]

/-! ## Another extension -/

/-- A head with one slash at its end, unless it is slashes only. -/
def tidy (head : List Char) : List Char :=
  if head.all (· == '/') then head else trimRight '/' head ++ ['/']

theorem mem_tidy {c : Char} (h : c ∈ tidy head) : c ∈ head ∨ c = '/' := by
  rw [tidy] at h
  split at h
  · exact .inl h
  · rcases List.mem_append.mp h with h | h
    · exact .inl (trimRight_subset _ _ h)
    · exact .inr (List.mem_singleton.mp h)

/-- A head that is tidied begins as before. -/
theorem head?_tidy (head : List Char) : (tidy head).head? = head.head? := by
  rw [tidy]
  split
  · rfl
  · rename_i hall
    obtain ⟨n, hn⟩ := exists_eq_trimRight_append '/' head
    cases htrim : trimRight '/' head with
    | nil =>
      rw [htrim, List.nil_append] at hn
      rw [hn] at hall
      simp at hall
    | cons c cs =>
      rw [htrim] at hn
      rw [hn]
      rfl

/-- A segment up to its last dot, unless that comes first. -/
def withoutExtension (last : List Char) : List Char :=
  match splitLast '.' last with
  | some (stem, _) => if stem.isEmpty then last else stem
  | none => last

theorem withoutExtension_begins (last : List Char) : withoutExtension last <+: last := by
  unfold withoutExtension
  split
  · rename_i h
    split
    · exact List.prefix_refl _
    · rw [splitLast_eq_some h]
      exact List.prefix_append _ _
  · exact List.prefix_refl _

theorem withoutExtension_subset (last : List Char) : withoutExtension last ⊆ last :=
  (withoutExtension_begins last).subset

theorem withoutExtension_of_dot {stem rest : List Char} (hstem : stem ≠ []) (hrest : '.' ∉ rest) :
    withoutExtension (stem ++ '.' :: rest) = stem := by
  rw [withoutExtension, splitLast_eq_some_iff.mpr ⟨rfl, hrest⟩]
  exact if_neg (by simpa using hstem)

/-- Nothing goes if there is no dot but in the first place. -/
theorem withoutExtension_eq_self_iff : withoutExtension last = last ↔ '.' ∉ last.tail := by
  unfold withoutExtension
  split
  · rename_i stem rest h
    obtain ⟨rfl, hrest⟩ := splitLast_eq_some_iff.mp h
    cases stem with
    | nil => simp [hrest]
    | cons c cs => simp
  · rename_i h
    exact iff_of_true rfl fun hmem ↦ splitLast_eq_none.mp h (List.mem_of_mem_tail hmem)

theorem swapExtension_eq (hhead : IsHead head) (hlast : '/' ∉ last) (extension : List Char) :
    swapExtension (head ++ last) extension =
      tidy head ++ (withoutExtension last ++ '.' :: extension) := by
  have hsegment : (withoutExtension last ++ '.' :: extension).head? ≠ some '/' := by
    cases hstem : withoutExtension last with
    | nil => simp
    | cons c cs =>
      rintro ⟨rfl⟩
      exact hlast (withoutExtension_subset last (hstem ▸ List.mem_cons_self))
  have hswap : ∀ first, split (head ++ last) = (first, last) →
      swapExtension (head ++ last) extension =
        headOf first ++ (withoutExtension last ++ '.' :: extension) := by
    intro first hsplit
    rw [← join_eq hsegment, swapExtension, hsplit]
    rfl
  rcases hhead with rfl | ⟨before, rfl⟩
  · rw [hswap [] (by rw [split, List.nil_append, splitLast_eq_none.mpr hlast])]
    rfl
  · have hcut : splitLast '/' (before ++ ['/'] ++ last) = some (before, last) := by
      rw [splitLast_eq_some_iff]
      simp [hlast]
    rw [tidy]
    split
    · rename_i hall
      rw [hswap (before ++ ['/']) (by rw [split, hcut]; exact if_pos hall)]
      simp [headOf]
    · rename_i hall
      rw [hswap (trimRight '/' (before ++ ['/'])) (by rw [split, hcut]; exact if_neg hall)]
      rw [headOf_trimRight (by simpa using hall)]

theorem backslash_not_mem_forwardSlashes (url : List Char) : '\\' ∉ forwardSlashes url := by
  rw [forwardSlashes, List.mem_map]
  rintro ⟨c, -, hc⟩
  split at hc
  · cases hc
  · contradiction

theorem forwardSlashes_eq_self_iff : forwardSlashes url = url ↔ '\\' ∉ url := by
  constructor
  · intro h
    rw [← h]
    exact backslash_not_mem_forwardSlashes url
  · intro h
    refine (List.map_congr_left fun c hc ↦ if_neg ?_).trans (List.map_id url)
    rintro rfl
    exact h hc

theorem forwardSlashes_append (url last : List Char) :
    forwardSlashes (url ++ last) = forwardSlashes url ++ forwardSlashes last := List.map_append

theorem IsHead.forwardSlashes (h : IsHead head) : IsHead (forwardSlashes head) := by
  rcases h with rfl | ⟨before, rfl⟩
  · exact .inl rfl
  · exact .inr ⟨Url.forwardSlashes before, forwardSlashes_append before ['/']⟩

/-! ## Bases -/

theorem tidy_concat_eq_self_iff {before : List Char} :
    tidy (before ++ ['/']) = before ++ ['/'] ↔
      (∀ c ∈ before, c = '/') ∨ before.getLast? ≠ some '/' := by
  rw [tidy, trimRight_append_self]
  split
  · rename_i h
    have hall : ∀ c ∈ before, c = '/' := by simpa using h
    exact iff_of_true rfl (.inl hall)
  · rename_i h
    have hnot : ¬ ∀ c ∈ before, c = '/' := by simpa using h
    rw [List.append_cancel_right_eq, trimRight_eq_self_iff]
    simp [hnot]

/-- The URL of a directory that stays as it is as the head of a URL which gets another extension. -/
def IsBase (url : List Char) : Prop :=
  '\\' ∉ url ∧ ((∀ c ∈ url, c = '/') ∨ ¬ ['/', '/'] <:+ url)

instance (url : List Char) : Decidable (IsBase url) := inferInstanceAs (Decidable (_ ∧ _))

theorem slashes_suffix_concat_iff {before : List Char} :
    ['/', '/'] <:+ before ++ ['/'] ↔ before.getLast? = some '/' := by
  rw [List.getLast?_eq_some_iff]
  constructor
  · rintro ⟨rest, h⟩
    refine ⟨rest, List.append_cancel_right (h.symm.trans ?_)⟩
    simp
  · rintro ⟨rest, rfl⟩
    exact ⟨rest, by simp⟩

theorem tidy_headOf_eq_self_iff :
    tidy (headOf url) = headOf url ↔ (∀ c ∈ url, c = '/') ∨ ¬ ['/', '/'] <:+ url := by
  rw [headOf]
  split
  · rename_i h
    rcases Bool.or_eq_true_iff.mp h with h | h
    · obtain rfl := List.isEmpty_iff.mp h
      simp [tidy]
    · obtain ⟨before, rfl⟩ := List.getLast?_eq_some_iff.mp (of_decide_eq_true h)
      rw [tidy_concat_eq_self_iff, slashes_suffix_concat_iff]
      simp [or_imp]
  · rename_i h
    obtain ⟨-, hlast⟩ : url ≠ [] ∧ url.getLast? ≠ some '/' := by simpa using h
    have hnot : ¬ ['/', '/'] <:+ url := by
      rintro ⟨rest, rfl⟩
      simp at hlast
    rw [tidy_concat_eq_self_iff]
    simp [hlast, hnot]

/-- A base is what stays the head of a URL whose slashes are turned and put in order. -/
theorem tidy_forwardSlashes_headOf_eq_iff :
    tidy (forwardSlashes (headOf url)) = headOf url ↔ IsBase url := by
  have hmem : '\\' ∈ headOf url ↔ '\\' ∈ url := by
    rw [headOf]
    split <;> simp
  constructor
  · intro h
    have hnot : '\\' ∉ headOf url := by
      rw [← h]
      intro hmem
      rcases mem_tidy hmem with hmem | hmem
      · exact backslash_not_mem_forwardSlashes _ hmem
      · exact absurd hmem (by decide)
    rw [forwardSlashes_eq_self_iff.mpr hnot, tidy_headOf_eq_self_iff] at h
    exact ⟨mt hmem.mpr hnot, h⟩
  · rintro ⟨hnot, h⟩
    rw [forwardSlashes_eq_self_iff.mpr (mt hmem.mp hnot), tidy_headOf_eq_self_iff]
    exact h

end Url

end ResponsiveImage
