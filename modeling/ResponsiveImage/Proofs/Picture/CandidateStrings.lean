import Mathlib.Data.List.DropRight
import Mathlib.Tactic.MkIffOfInductiveProp
import ResponsiveImage.Picture.HeaderCodec
import ResponsiveImage.Proofs.Picture.CandidateSizes

/-!
# Candidate strings

What lists the variants of an image is a text from which a browser takes the candidates again: it
skips white space and commas, takes a URL up to white space, and then a descriptor up to a comma.  A
comma at the end of the URL is not part of it, and no descriptor follows then.

The URLs are listed as they are, with the name of the image file in them.  The candidates that are
taken are those that are meant exactly if all URLs can stand there (`offersOf_text_iff`).  The sizes
and the breakpoints always can, so that this is up to the URL of the image and the end of its suffix.
-/

namespace ResponsiveImage

open Text

namespace Srcset

open Json (Value)

/-! ## Taking candidates from a text -/

/-- The characters that part a URL from what follows. -/
def isSpace (c : Char) : Bool :=
  c == ' ' || c == '\t' || c == '\n' || c == '\x0c' || c == '\r'

/-- The characters that a URL is made of. -/
def inUrl (c : Char) : Bool := !isSpace c

/-- A URL and what is said about it. -/
structure Candidate where
  url : List Char
  descriptor : List Char
deriving DecidableEq, Repr

/-- The candidates that a browser takes from a text. -/
def candidates : List Char → List Candidate
  | [] => []
  | c :: cs =>
    if isSpace c || c == ',' then candidates cs
    else
      let url := c :: cs.takeWhile inUrl
      let rest := cs.dropWhile inUrl
      if url.getLast? = some ',' then ⟨url.rdropWhile (· == ','), []⟩ :: candidates rest
      else
        ⟨url, ((rest.takeWhile (· != ',')).dropWhile isSpace).rdropWhile isSpace⟩ ::
          candidates (rest.dropWhile (· != ','))
termination_by cs => cs.length
decreasing_by
  · exact Nat.lt_succ_self _
  · exact Nat.lt_succ_of_le (List.length_dropWhile_le _ _)
  · exact Nat.lt_succ_of_le
      ((List.length_dropWhile_le _ _).trans (List.length_dropWhile_le _ _))

/-- The width that a descriptor gives. -/
def width? (descriptor : List Char) : Option Int :=
  if descriptor.getLast? = some 'w' then (String.ofList descriptor.dropLast).toInt? else none

/-- The candidates of a text as URLs with widths. -/
def offersOf (text : String) : List (List Char × Option Int) :=
  (candidates text.toList).map fun c ↦ (c.url, width? c.descriptor)

/-- A URL that can be taken from a list of candidates. -/
@[mk_iff]
structure IsCandidateUrl (url : List Char) : Prop where
  ne_nil : url ≠ []
  no_space : ∀ c ∈ url, isSpace c = false
  head? : url.head? ≠ some ','
  getLast? : url.getLast? ≠ some ','

/-- A word that is no white space and no comma, cut behind its last comma, is such a URL. -/
theorem isCandidateUrl_cons {c : Char} {cs : List Char} (hc : (isSpace c || c == ',') = false)
    (hcs : ∀ d ∈ cs, isSpace d = false) :
    IsCandidateUrl ((c :: cs).rdropWhile (· == ',')) := by
  rw [Bool.or_eq_false_iff, beq_eq_false_iff_ne] at hc
  have hleading := List.rdropWhile_prefix (· == ',') (l := c :: cs)
  have hne : (c :: cs).rdropWhile (· == ',') ≠ [] := by
    rw [ne_eq, List.rdropWhile_eq_nil_iff]
    intro hall
    exact hc.2 (by simpa using hall c List.mem_cons_self)
  refine ⟨hne, fun d hd ↦ ?_, fun hhead ↦ ?_, fun hlast ↦ ?_⟩
  · rcases List.mem_cons.mp (hleading.subset hd) with rfl | hd
    · exact hc.1
    · exact hcs d hd
  · obtain ⟨rest, hrest⟩ := hleading
    have hsame := congrArg List.head? hrest
    rw [List.head?_append_of_ne_nil _ hne, hhead] at hsame
    exact hc.2 (Option.some_inj.mp hsame).symm
  · have hcomma := List.rdropWhile_last_not (· == ',') (c :: cs) hne
    rw [List.getLast?_eq_some_getLast hne] at hlast
    rw [Option.some_inj.mp hlast] at hcomma
    exact hcomma rfl

/-- All URLs that are taken are such. -/
theorem isCandidateUrl_of_mem {cs : List Char} {k : Candidate} (h : k ∈ candidates cs) :
    IsCandidateUrl k.url := by
  have hword : ∀ cs : List Char, ∀ d ∈ cs.takeWhile inUrl, isSpace d = false := by
    intro cs d hd
    simpa [inUrl] using List.mem_takeWhile_imp hd
  fun_induction candidates cs with
  | case1 => cases h
  | case2 c cs hskip ih => exact ih h
  | case3 c cs hskip url rest hcomma ih =>
    rcases List.mem_cons.mp h with rfl | h
    · exact isCandidateUrl_cons ((Bool.not_eq_true _).mp hskip) (hword cs)
    · exact ih h
  | case4 c cs hskip url rest hcomma ih =>
    rcases List.mem_cons.mp h with rfl | h
    · have hurl := isCandidateUrl_cons ((Bool.not_eq_true _).mp hskip) (hword cs)
      rwa [List.rdropWhile_eq_self_iff.mpr] at hurl
      intro hne hlast
      refine hcomma (List.getLast?_eq_some_getLast hne ▸ congrArg some ?_)
      simpa using hlast
    · exact ih h

theorem candidates_comma_cons (cs : List Char) : candidates (',' :: cs) = candidates cs := by
  rw [candidates, if_pos (by decide)]

/-- A word is its own descriptor behind a blank. -/
theorem trim_word {descriptor : List Char} (h : ∀ c ∈ descriptor, isSpace c = false) :
    ((' ' :: descriptor).dropWhile isSpace).rdropWhile isSpace = descriptor := by
  have hdrop : (' ' :: descriptor).dropWhile isSpace = descriptor := by
    rw [List.dropWhile_cons_of_pos (by decide)]
    cases descriptor with
    | nil => rfl
    | cons d ds => exact List.dropWhile_cons_of_neg (by simp [h d List.mem_cons_self])
  rw [hdrop, List.rdropWhile_eq_self_iff]
  intro hne
  simp [h _ (List.getLast_mem hne)]

/-- A URL that can be taken is taken, and a word behind it is its descriptor. -/
theorem candidates_url_append {url descriptor rest : List Char} (hurl : IsCandidateUrl url)
    (hdescriptor : ∀ c ∈ descriptor, isSpace c = false ∧ c ≠ ',')
    (hrest : rest = [] ∨ ∃ cs, rest = ',' :: cs) :
    candidates (url ++ ' ' :: (descriptor ++ rest)) = ⟨url, descriptor⟩ :: candidates rest := by
  obtain ⟨hne, hspace, hhead, hlast⟩ := hurl
  cases url with
  | nil => exact absurd rfl hne
  | cons c cs =>
    obtain ⟨hc, hcs⟩ := List.forall_mem_cons.mp hspace
    have hnot : ¬ (isSpace c || c == ',') = true := by
      have hcomma : c ≠ ',' := fun h ↦ hhead (congrArg some h)
      simp [hc, hcomma]
    have hword : ∀ d ∈ cs, inUrl d = true := fun d hd ↦ by simp [inUrl, hcs d hd]
    have hblank : ¬ inUrl ' ' = true := by decide
    have hurl : (cs ++ ' ' :: (descriptor ++ rest)).takeWhile inUrl = cs := by
      rw [List.takeWhile_append_of_pos hword, List.takeWhile_cons_of_neg hblank, List.append_nil]
    have hbehind : (cs ++ ' ' :: (descriptor ++ rest)).dropWhile inUrl =
        ' ' :: descriptor ++ rest := by
      rw [List.dropWhile_append_of_pos hword, List.dropWhile_cons_of_neg hblank, List.cons_append]
    have hkept : ∀ d ∈ ' ' :: descriptor, (d != ',') = true := by
      simp only [List.forall_mem_cons, bne_iff_ne]
      exact ⟨by decide, fun d hd ↦ (hdescriptor d hd).2⟩
    have htake : rest.takeWhile (· != ',') = [] ∧ rest.dropWhile (· != ',') = rest := by
      rcases hrest with rfl | ⟨cs, rfl⟩
      · exact ⟨rfl, rfl⟩
      · exact ⟨rfl, rfl⟩
    rw [List.cons_append, candidates, if_neg hnot]
    dsimp only
    rw [hurl, hbehind, if_neg hlast, List.takeWhile_append_of_pos hkept,
      List.dropWhile_append_of_pos hkept, htake.1, htake.2, List.append_nil,
      trim_word fun d hd ↦ (hdescriptor d hd).1]

/-- Candidates that are written one after another are taken again. -/
theorem candidates_intercalate {ks : List Candidate}
    (h : ∀ k ∈ ks, IsCandidateUrl k.url ∧ ∀ c ∈ k.descriptor, isSpace c = false ∧ c ≠ ',') :
    candidates ([','].intercalate (ks.map fun k ↦ k.url ++ ' ' :: k.descriptor)) = ks := by
  induction ks with
  | nil => rw [List.map_nil, List.intercalate_nil, candidates]
  | cons k ks ih =>
    obtain ⟨⟨hurl, hdescriptor⟩, hks⟩ := List.forall_mem_cons.mp h
    cases ks with
    | nil =>
      have hone := candidates_url_append hurl hdescriptor (.inl rfl)
      rw [List.append_nil, candidates] at hone
      simpa using hone
    | cons l ls =>
      have hrest := ih hks
      rw [List.map_cons] at hrest
      rw [List.map_cons, List.map_cons, List.intercalate_cons_cons, List.append_assoc,
        List.append_assoc, List.cons_append, List.singleton_append,
        candidates_url_append hurl hdescriptor (.inr ⟨_, rfl⟩), candidates_comma_cons, hrest]

/-! ## What is listed -/

theorem toList_entry (url : List Char) (b : Int) :
    (entry url (.int b)).toList = url ++ ' ' :: ((toString b).toList ++ ['w']) := by
  have hentry : entry url (.int b) = String.ofList url ++ " " ++ toString b ++ "w" := rfl
  simp [hentry]

theorem not_isSpace_of_isNumeral {c : Char} (h : isNumeral c = true) :
    isSpace c = false ∧ c ≠ ',' := by
  rw [← Bool.not_eq_true]
  refine ⟨fun hspace ↦ ?_, ?_⟩
  · simp only [isSpace, Bool.or_eq_true, beq_iff_eq] at hspace
    rcases hspace with (((rfl | rfl) | rfl) | rfl) | rfl
    all_goals exact absurd h (by decide)
  · rintro rfl
    exact absurd h (by decide)

theorem width?_toString (b : Int) : width? ((toString b).toList ++ ['w']) = some b := by
  rw [width?, if_pos List.getLast?_concat, List.dropLast_concat, String.ofList_toList]
  exact Int.toInt?_repr b

/-- A URL with an integer breakpoint. -/
def Candidate.ofInt (url : List Char) (b : Int) : Candidate := ⟨url, (toString b).toList ++ ['w']⟩

/-- The candidates for which variants and integer breakpoints are listed. -/
def meant (link : Variant → List Char) (variants : List Variant) (bs : List Int) : List Candidate :=
  List.zipWith (fun v b ↦ .ofInt (link v) b) variants bs

section Meant

variable {link : Variant → List Char} {variants : List Variant} {bs : List Int} {s : String}

theorem toList_withUrls (h : withUrls link variants (bs.map .int) = .ok s) :
    s.toList =
      [','].intercalate ((meant link variants bs).map fun k ↦ k.url ++ ' ' :: k.descriptor) := by
  obtain ⟨-, rfl⟩ := withUrls_eq_ok h
  rw [String.toList_intercalate, List.zipWith_map_right, meant, List.map_zipWith, List.map_zipWith]
  simp only [toList_entry]
  rfl

theorem forall_mem_meant_iff (h : variants.length ≤ bs.length) :
    (∀ k ∈ meant link variants bs, IsCandidateUrl k.url) ↔
      ∀ v ∈ variants, IsCandidateUrl (link v) := by
  have hone : ∀ (v : Variant) (b : Int),
      IsCandidateUrl (Candidate.ofInt (link v) b).url ↔ IsCandidateUrl (link v) ∧ True :=
    fun _ _ ↦ (and_iff_left trivial).symm
  have hall := forall_mem_zipWith (f := fun v b ↦ Candidate.ofInt (link v) b)
    (P := fun k ↦ IsCandidateUrl k.url) hone h
  exact hall.trans (and_iff_left fun _ _ ↦ trivial)

/-- The descriptor of an integer breakpoint is one word, without a comma. -/
theorem descriptor_of_mem_meant {k : Candidate} (hk : k ∈ meant link variants bs) :
    ∀ c ∈ k.descriptor, isSpace c = false ∧ c ≠ ',' := by
  rw [meant, ← List.map_uncurry_zip_eq_zipWith, List.mem_map] at hk
  obtain ⟨⟨v, b⟩, -, rfl⟩ := hk
  refine List.forall_mem_append.mpr ⟨fun c hc ↦ ?_, List.forall_mem_singleton.mpr (by decide)⟩
  exact not_isSpace_of_isNumeral (Number.isNumeral_of_mem_text (.int b) c hc)

/-- A list of variants with integer breakpoints is taken as it is meant exactly if all URLs can be
taken. -/
theorem offersOf_withUrls_iff (h : withUrls link variants (bs.map .int) = .ok s) :
    offersOf s = List.zipWith (fun v b ↦ (link v, some b)) variants bs ↔
      ∀ v ∈ variants, IsCandidateUrl (link v) := by
  have hlength := (withUrls_eq_ok h).1
  rw [List.length_map] at hlength
  have hoffers : (meant link variants bs).map (fun k ↦ (k.url, width? k.descriptor)) =
      List.zipWith (fun v b ↦ (link v, some b)) variants bs := by
    rw [meant, List.map_zipWith]
    simp only [Candidate.ofInt, width?_toString]
  rw [← hoffers, ← forall_mem_meant_iff hlength, offersOf, toList_withUrls h]
  constructor
  · intro heq k hk
    obtain ⟨l, hl, hlk⟩ := List.mem_map.mp (heq.symm ▸ List.mem_map_of_mem hk)
    rw [← (Prod.mk.inj hlk).1]
    exact isCandidateUrl_of_mem hl
  · intro hall
    rw [candidates_intercalate fun k hk ↦ ⟨hall k hk, descriptor_of_mem_meant hk⟩]

theorem exists_offersOf_iff :
    (∃ s, withUrls link variants (bs.map .int) = .ok s ∧
        offersOf s = List.zipWith (fun v b ↦ (link v, some b)) variants bs) ↔
      variants.length ≤ bs.length ∧ ∀ v ∈ variants, IsCandidateUrl (link v) := by
  constructor
  · rintro ⟨s, hs, hoffers⟩
    have hlength := (withUrls_eq_ok hs).1
    rw [List.length_map] at hlength
    exact ⟨hlength, (offersOf_withUrls_iff hs).mp hoffers⟩
  · rintro ⟨hlength, hall⟩
    have hs : withUrls link variants (bs.map .int) = .ok _ :=
      if_neg (by rw [List.length_map]; exact Nat.not_lt.mpr hlength)
    exact ⟨_, hs, (offersOf_withUrls_iff hs).mpr hall⟩

end Meant

end Srcset

/-! ## URLs that can be taken -/

open Srcset (IsCandidateUrl isSpace)

theorem Srcset.isCandidateUrl_forwardSlashes {url : List Char} :
    IsCandidateUrl (Url.forwardSlashes url) ↔ IsCandidateUrl url := by
  have hspace : ∀ c : Char, isSpace (if c = '\\' then '/' else c) = isSpace c := by
    intro c
    split
    · rename_i h
      subst h
      decide
    · rfl
  have hcomma : ∀ c : Char, (if c = '\\' then '/' else c) = ',' ↔ c = ',' := by
    intro c
    split
    · rename_i h
      subst h
      decide
    · rfl
  have hoption : ∀ c? : Option Char,
      c?.map (fun c ↦ if c = '\\' then '/' else c) = some ',' ↔ c? = some ',' := by
    intro c?
    cases c? with
    | none => simp
    | some c => simp [hcomma]
  simp only [isCandidateUrl_iff, Url.forwardSlashes, List.forall_mem_map, List.head?_map,
    List.getLast?_map, List.map_eq_nil_iff, ne_eq, hspace, hoption]

/-- Another extension leaves a URL one that can be taken if the extension could stand at its end. -/
theorem Srcset.IsCandidateUrl.swapExtension {url extension : List Char} (h : IsCandidateUrl url)
    (hspace : ∀ c ∈ extension, isSpace c = false) (hlast : extension.getLast? ≠ some ',') :
    IsCandidateUrl (Url.swapExtension url extension) := by
  obtain ⟨head, last, rfl, hhead, hslash⟩ := Url.exists_head_append url
  obtain ⟨-, hno, hfirst, -⟩ := h
  rw [List.forall_mem_append] at hno
  rw [Url.swapExtension_eq hhead hslash]
  refine ⟨by simp, ?_, ?_, ?_⟩
  · rw [List.forall_mem_append, List.forall_mem_append, List.forall_mem_cons]
    refine ⟨fun c hc ↦ ?_, fun c hc ↦ hno.2 c (Url.withoutExtension_subset last hc), by decide,
      hspace⟩
    rcases Url.mem_tidy hc with hc | rfl
    · exact hno.1 c hc
    · decide
  · rw [List.head?_append, Url.head?_tidy]
    rw [List.head?_append] at hfirst
    cases hc : head.head? with
    | some c =>
      rw [hc] at hfirst
      exact hfirst
    | none =>
      rw [hc] at hfirst
      obtain ⟨rest, hrest⟩ := Url.withoutExtension_begins last
      cases hstem : Url.withoutExtension last with
      | nil => simp
      | cons d ds =>
        rw [← hrest, hstem] at hfirst
        exact hfirst
  · rw [← List.append_assoc, List.getLast?_append_of_ne_nil _ (List.cons_ne_nil _ _)]
    cases extension with
    | nil => simp
    | cons d ds => rwa [List.getLast?_cons_cons]

namespace OutputPlan

/-- An image whose variants can be listed: no white space stands in its URL, no comma at the start of
the URL, and none at the end of the suffix. -/
structure IsListable (p : OutputPlan) : Prop where
  no_space : ∀ c ∈ p.url.toList, isSpace c = false
  head? : p.url.toList.head? ≠ some ','
  suffix : (FileName.suffix p.name).toList.getLast? ≠ some ','

/-- The URLs of all variants can be taken if one can. -/
theorem isCandidateUrl_sizedUrl_iff (p : OutputPlan) (size : Number) :
    IsCandidateUrl (p.sizedUrl size).toList ↔ p.IsListable := by
  have hsize : ∀ c ∈ size.text.toList, isSpace c = false ∧ c ≠ ',' := fun c hc ↦
    Srcset.not_isSpace_of_isNumeral (size.isNumeral_of_mem_text c hc)
  have hne : (p.sizedName size).toList ≠ [] := by
    simp [sizedName, FileName.toList_sized]
  have hno : (∀ c ∈ (p.sizedUrl size).toList, isSpace c = false) ↔
      ∀ c ∈ p.url.toList, isSpace c = false := by
    simp only [sizedUrl, sizedName, url, urlOf, String.toList_ofList]
    rw [Url.forall_mem_join (P := fun c ↦ isSpace c = false) (by decide),
      Url.forall_mem_join (P := fun c ↦ isSpace c = false) (by decide),
      FileName.forall_mem_sized (P := fun c ↦ isSpace c = false) (by decide)
        fun c hc ↦ (hsize c hc).1, FileName.head?_sized_eq_slash]
  have hhead : (p.sizedUrl size).toList.head? = some ',' ↔ p.url.toList.head? = some ',' := by
    rw [sizedUrl, url, urlOf, urlOf, String.toList_ofList, String.toList_ofList, Url.head?_join,
      Url.head?_join, sizedName, FileName.head?_sized]
    cases p.name.toList.head? with
    | none =>
      by_cases hbase : p.urlBase.toList = []
      · simp [hbase]
      · simp [hbase]
    | some c => rfl
  have hlast : (p.sizedUrl size).toList.getLast? ≠ some ',' ↔
      (FileName.suffix p.name).toList.getLast? ≠ some ',' := by
    rw [sizedUrl, urlOf, String.toList_ofList, Url.getLast?_join hne, sizedName,
      FileName.getLast?_sized_ne_iff (by decide) fun hc ↦ (hsize _ hc).2 rfl]
  constructor
  · rintro ⟨-, h, hfirst, hend⟩
    exact ⟨hno.mp h, mt hhead.mpr hfirst, hlast.mp hend⟩
  · rintro ⟨h, hfirst, hend⟩
    refine ⟨fun hnil ↦ ?_, hno.mpr h, mt hhead.mp hfirst, hlast.mpr hend⟩
    have hsame : (Url.join p.urlBase.toList (p.sizedName size).toList).getLast? =
        (p.sizedName size).toList.getLast? := Url.getLast?_join hne
    rw [sizedUrl, urlOf, String.toList_ofList] at hnil
    rw [hnil] at hsame
    exact hne (List.getLast?_eq_none_iff.mp hsame.symm)

end OutputPlan

/-! ## The variants of an image -/

section Generated

variable {o : Options} {p : OutputPlan} {w : Workspace} {variants : List Variant}

theorem Variant.exists_header_of_generate [Codec] (hok : ((generate p o).run w).1 = .ok variants) :
    ∃ h, ((Picture.header p.source).run w).1 = .ok h := by
  have hrun : (generate p o).run w = (.ok variants, ((generate p o).run w).2) := Prod.ext hok rfl
  rw [generate] at hrun
  obtain ⟨h, w₁, hheader, -⟩ := Job.run_bind_eq_ok.mp hrun
  exact ⟨h, by rw [hheader]⟩

/-- With any breakpoints at all there are enough of them. -/
theorem Options.IsAccepted.length_le_iff [Codec] (ho : o.IsAccepted)
    (hok : ((Variant.generate p o).run w).1 = .ok variants) (hne : variants ≠ []) :
    variants.length ≤ o.breakpoints.length ↔ o.breakpoints ≠ [] := by
  obtain ⟨h, hheader⟩ := Variant.exists_header_of_generate hok
  have hlength : variants.length = (candidateSizes o.sizes (.int h.width)).length := by
    rw [← Variant.sizes_of_generate hheader hok, List.length_map]
  constructor
  · intro hle hnil
    rw [hnil, List.length_nil, Nat.le_zero, List.length_eq_zero_iff] at hle
    exact hne hle
  · intro hbreakpoints
    rw [hlength, ← Nat.not_lt, ho.breakpoints_lt_iff]
    exact fun hnil ↦ hbreakpoints hnil.2

/-- **From the list of the variants of an image, made with accepted options, a browser takes exactly
these variants with their breakpoints, if there are integer breakpoints at all, if no white space
stands in the URL of the image nor a comma at its start, and if the suffix of the file does not end in
a comma.  The list in the alternate format is taken as it is meant if its URLs can stand there, which
they can if so can those of the image and if no white space stands in the extension nor a comma at its
end.** -/
theorem offersOf_text_iff [Codec]
    (ho : (∃ members, Options.ofMapping members = .ok o) ∨
      ∃ o' overrides, Options.withOverrides o' overrides = .ok o) {bs : List Int}
    (hbs : o.breakpoints = bs.map .int) (hvariants : ((Variant.generate p o).run w).1 = .ok variants)
    (hne : variants ≠ []) :
    ((∃ s, Srcset.text variants o.breakpoints = .ok s ∧ Srcset.offersOf s =
          List.zipWith (fun v b ↦ (Srcset.urlOf v, some b)) variants bs) ↔
        bs ≠ [] ∧ p.IsListable) ∧
      ∀ extension : String,
        ((∃ s, Srcset.alternate variants o.breakpoints extension = .ok s ∧ Srcset.offersOf s =
            List.zipWith (fun v b ↦
              (Url.swapExtension (Srcset.urlOf v) extension.toList, some b)) variants bs) ↔
          bs ≠ [] ∧ ∀ v ∈ variants,
            IsCandidateUrl (Url.swapExtension (Srcset.urlOf v) extension.toList)) ∧
        (p.IsListable → (∀ c ∈ extension.toList, isSpace c = false) →
          extension.toList.getLast? ≠ some ',' →
          ∀ v ∈ variants, IsCandidateUrl (Url.swapExtension (Srcset.urlOf v) extension.toList)) := by
  have haccepted := Options.isAccepted_of_ofMapping_or_withOverrides ho
  have hlength : variants.length ≤ bs.length ↔ bs ≠ [] := by
    have hiff := haccepted.length_le_iff hvariants hne
    rwa [hbs, List.length_map, ne_eq, List.map_eq_nil_iff] at hiff
  have hurl : ∀ v ∈ variants, (IsCandidateUrl (Srcset.urlOf v) ↔ p.IsListable) := by
    intro v hv
    rw [Srcset.urlOf, Srcset.isCandidateUrl_forwardSlashes, Variant.generate_url hvariants hv,
      p.isCandidateUrl_sizedUrl_iff]
  refine ⟨?_, fun extension ↦ ⟨?_, fun hlistable hspace hcomma v hv ↦ ?_⟩⟩
  · rw [hbs, Srcset.text, Srcset.exists_offersOf_iff, hlength]
    refine and_congr_right fun _ ↦ ⟨fun hall ↦ ?_, fun hlistable v hv ↦ (hurl v hv).mpr hlistable⟩
    obtain ⟨v, hv⟩ := List.exists_mem_of_ne_nil variants hne
    exact (hurl v hv).mp (hall v hv)
  · rw [hbs, Srcset.alternate, Srcset.exists_offersOf_iff, hlength]
  · exact ((hurl v hv).mpr hlistable).swapExtension hspace hcomma

end Generated

/-! ## A name with a blank -/

open scoped HeaderCodec

/-- A tree with a picture whose name holds a blank. -/
def spacedFiles : Workspace where
  cwd := []
  files := ⟨[(["src"], .directory),
    (["src", "a b.png"], .file (HeaderCodec.file ⟨"PNG", 8, 8⟩))]⟩

/-- The plan for that picture. -/
def spacedPlan : OutputPlan :=
  ⟨.ofParts ["src", "a b.png"], .ofParts ["static", "g"], "g", "webp"⟩

/-- From the list of the variants of that picture none of them is taken. -/
theorem offersOf_text_spaced :
    ((Resolution.ofText "a b.png".toList (.ofParts ["src"]) .defaults []).run spacedFiles).1 =
        .ok (.process spacedPlan) ∧
      ∃ variants, ((Variant.generate spacedPlan .defaults).run spacedFiles).1 = .ok variants ∧
        Srcset.text variants Options.defaults.breakpoints = .ok "g/a b-8.png 375w" ∧
        Srcset.offersOf "g/a b-8.png 375w" ≠ [("g/a b-8.png".toList, some 375)] := by
  have hvariants : ((Variant.generate spacedPlan .defaults).run spacedFiles).1 =
      .ok [⟨8, 8, 8, "g/a b-8.png", true⟩] := eq_ok_of_toOption (by decide +kernel)
  have haccepted : Options.ofMapping [] = .ok .defaults := rfl
  have hbs : Options.defaults.breakpoints = [375, 768, 1024].map .int := rfl
  have htext : Srcset.text [⟨8, 8, 8, "g/a b-8.png", true⟩] Options.defaults.breakpoints =
      .ok "g/a b-8.png 375w" := eq_ok_of_toOption (by decide +kernel)
  refine ⟨eq_ok_of_toOption (by decide +kernel), _, hvariants, htext, fun hoffers ↦ ?_⟩
  obtain ⟨hiff, -⟩ := offersOf_text_iff (.inl ⟨_, haccepted⟩) hbs hvariants (List.cons_ne_nil _ _)
  obtain ⟨-, hlistable⟩ := hiff.mp ⟨_, htext, hoffers⟩
  exact absurd (hlistable.no_space ' ' (by decide +kernel)) (by decide)

end ResponsiveImage
