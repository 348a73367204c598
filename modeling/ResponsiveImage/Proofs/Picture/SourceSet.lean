import ResponsiveImage.Picture.HeaderCodec
import ResponsiveImage.Proofs.Job.Run
import ResponsiveImage.Proofs.Markup.AddedAttributes
import ResponsiveImage.Proofs.Number.Text
import ResponsiveImage.Proofs.Options.Defaults
import ResponsiveImage.Proofs.Path.Urls
import ResponsiveImage.Proofs.Text.Case
import ResponsiveImage.Resolution
import ResponsiveImage.Srcset

/-!
# Reading the source set back

The attributes that offer the variants of an image are written behind its source as they are: the URLs
with the name of the image file in them, the breakpoints, and the extension of the alternate format in
the name of an attribute.  They read back exactly if all of these are plain (`readAt_offered_iff`).
The sizes, the dimensions and the ratio always are.

The URL of a variant holds the characters of the URL of the image and those of a size, so that one
condition on the image decides about all its variants.
-/

namespace ResponsiveImage

open Markup Text

/-! ## Numbers -/

theorem isPlain_of_isNumeral {cs : List Char} (h : ∀ c ∈ cs, isNumeral c = true) : IsPlain cs := by
  intro c hc
  constructor
  · rintro rfl
    exact absurd (h _ hc) (by decide)
  · rintro rfl
    exact absurd (h _ hc) (by decide)

theorem isPlain_numberText (n : Number) : IsPlain n.text.toList :=
  isPlain_of_isNumeral n.isNumeral_of_mem_text

theorem isPlain_intText (n : Int) : IsPlain (toString n).toList :=
  isPlain_numberText (.int n)

/-! ## URLs -/

theorem isPlain_join {url segment : List Char} :
    IsPlain (Url.join url segment) ↔
      (segment.head? = some '/' ∨ IsPlain url) ∧ IsPlain segment := Url.forall_mem_join (by decide)

theorem isPlain_forwardSlashes {url : List Char} :
    IsPlain (Url.forwardSlashes url) ↔ IsPlain url := by
  have hchar : ∀ c : Char, ((if c = '\\' then '/' else c) ≠ '"' ∧
      (if c = '\\' then '/' else c) ≠ '{') ↔ c ≠ '"' ∧ c ≠ '{' := by
    intro c
    split
    · rename_i h
      subst h
      decide
    · rfl
  simp only [IsPlain, Url.forwardSlashes, List.forall_mem_map, hchar]

namespace FileName

theorem isPlain_sized {name size : String} (hsize : IsPlain size.toList) :
    IsPlain (sized name size).toList ↔ IsPlain name.toList := forall_mem_sized (by decide) hsize

theorem head?_sized_eq_slash {name size : String} :
    (sized name size).toList.head? = some '/' ↔ name.toList.head? = some '/' := by
  rw [head?_sized]
  cases name.toList.head? with
  | none => simp
  | some c => rfl

end FileName

/-- The URLs of all variants are plain if that of the image is. -/
theorem OutputPlan.isPlain_sizedUrl (p : OutputPlan) (size : Number) :
    IsPlain (p.sizedUrl size).toList ↔ IsPlain p.url.toList := by
  simp only [sizedUrl, sizedName, url, urlOf, String.toList_ofList, isPlain_join,
    FileName.isPlain_sized (isPlain_numberText size), FileName.head?_sized_eq_slash]

/-- Another extension makes no plain URL less plain than the extension is. -/
theorem isPlain_swapExtension {url extension : List Char} (hurl : IsPlain url)
    (hextension : IsPlain extension) : IsPlain (Url.swapExtension url extension) := by
  obtain ⟨head, last, rfl, hhead, hlast⟩ := Url.exists_head_append url
  rw [isPlain_append] at hurl
  rw [Url.swapExtension_eq hhead hlast, isPlain_append, isPlain_append, isPlain_cons]
  refine ⟨fun c hc ↦ ?_, hurl.2.subset (Url.withoutExtension_subset last), by decide, hextension⟩
  rcases Url.mem_tidy hc with hc | rfl
  · exact hurl.1 c hc
  · decide

/-! ## Lists of URLs -/

theorem isPlain_intercalate_comma {texts : List (List Char)} :
    IsPlain ([','].intercalate texts) ↔ ∀ t ∈ texts, IsPlain t := by
  induction texts with
  | nil => simp [List.intercalate]
  | cons t ts ih =>
    cases ts with
    | nil => simp [List.intercalate]
    | cons u us =>
      rw [List.intercalate_cons_cons, List.forall_mem_cons, ← ih]
      simp

namespace Srcset

open Json (Value)

theorem isPlain_entry {url : List Char} {breakpoint : Value} :
    IsPlain (entry url breakpoint).toList ↔ IsPlain url ∧ IsPlain breakpoint.text.toList := by
  have hentry : entry url breakpoint = String.ofList url ++ " " ++ breakpoint.text ++ "w" := rfl
  simp [hentry]

theorem forall_mem_zipWith {α β γ : Type} {f : α → β → γ} {P : γ → Prop} {Q : α → Prop}
    {R : β → Prop} (hP : ∀ a b, P (f a b) ↔ Q a ∧ R b) {as : List α} {bs : List β}
    (hlen : as.length ≤ bs.length) :
    (∀ c ∈ List.zipWith f as bs, P c) ↔ (∀ a ∈ as, Q a) ∧ ∀ b ∈ bs.take as.length, R b := by
  induction as generalizing bs with
  | nil => simp
  | cons a as ih =>
    cases bs with
    | nil => simp at hlen
    | cons b bs =>
      have hlen' : as.length ≤ bs.length := Nat.le_of_succ_le_succ hlen
      simp only [List.zipWith_cons_cons, List.forall_mem_cons, hP, ih hlen', List.length_cons,
        List.take_succ_cons]
      exact and_and_and_comm

theorem withUrls_eq_ok {link : Variant → List Char} {variants : List Variant}
    {breakpoints : List Value} {s : String} (h : withUrls link variants breakpoints = .ok s) :
    variants.length ≤ breakpoints.length ∧
      s = ",".intercalate (List.zipWith (fun v b ↦ entry (link v) b) variants breakpoints) := by
  rw [withUrls] at h
  split at h
  · cases h
  · rename_i hlen
    cases h
    exact ⟨Nat.le_of_not_lt hlen, rfl⟩

theorem isPlain_withUrls {link : Variant → List Char} {variants : List Variant}
    {breakpoints : List Value} {s : String} (h : withUrls link variants breakpoints = .ok s) :
    IsPlain s.toList ↔ (∀ v ∈ variants, IsPlain (link v)) ∧
      ∀ b ∈ breakpoints.take variants.length, IsPlain b.text.toList := by
  obtain ⟨hlen, rfl⟩ := withUrls_eq_ok h
  have hcomma : ",".toList = [','] := rfl
  have hentry : ∀ (v : Variant) (b : Value), IsPlain (entry (link v) b).toList ↔
      IsPlain (link v) ∧ IsPlain b.text.toList := fun _ _ ↦ isPlain_entry
  rw [String.toList_intercalate, hcomma, isPlain_intercalate_comma, List.forall_mem_map]
  exact forall_mem_zipWith (f := fun v b ↦ entry (link v) b) hentry hlen

/-! ## The attributes -/

/-- The ratio of the first variant, which stands for all. -/
def firstRatio : List Variant → Except Fault String
  | [] => .error .noFirstVariant
  | v :: _ =>
    match aspectRatio (.int v.width) (.int v.height) >>= fun r ↦ formatRatio (.float r) with
    | .ok ratio => .ok ratio
    | .error e => .error (.arithmetic e)

/-- The attributes that offer the variants of an image, before they are written. -/
def offered (variants : List Variant) (breakpoints : List Value) (extension : String) :
    Except Fault (List NamedText) := do
  let srcset ← text variants breakpoints
  let ratio ← firstRatio variants
  let always := [("srcset".toList, srcset.toList), ("ratio".toList, ratio.toList)]
  if extension = "" then return always
  let second ← alternate variants breakpoints extension
  return always ++ [((alternateName extension).toList, second.toList)]

theorem offered_eq_ok {variants : List Variant} {breakpoints : List Value} {extension : String}
    {ps : List NamedText} (h : offered variants breakpoints extension = .ok ps) :
    ∃ srcset ratio, text variants breakpoints = .ok srcset ∧ firstRatio variants = .ok ratio ∧
      (extension = "" ∧ ps = [("srcset".toList, srcset.toList), ("ratio".toList, ratio.toList)] ∨
        extension ≠ "" ∧ ∃ second, alternate variants breakpoints extension = .ok second ∧
          ps = [("srcset".toList, srcset.toList), ("ratio".toList, ratio.toList),
            ((alternateName extension).toList, second.toList)]) := by
  rw [offered] at h
  cases hs : text variants breakpoints with
  | error e =>
    rw [hs] at h
    cases h
  | ok srcset =>
    cases hr : firstRatio variants with
    | error e =>
      rw [hs, hr] at h
      cases h
    | ok ratio =>
      refine ⟨srcset, ratio, rfl, rfl, ?_⟩
      simp only [hs, hr, bind, Except.bind, pure, Except.pure] at h
      split at h
      · rename_i hext
        cases h
        exact .inl ⟨hext, rfl⟩
      · rename_i hext
        cases hsecond : alternate variants breakpoints extension with
        | error e =>
          rw [hsecond] at h
          cases h
        | ok second =>
          rw [hsecond] at h
          cases h
          exact .inr ⟨hext, second, rfl, rfl⟩

theorem toList_attributeText (name value : String) :
    (attributeText name value).toList = name.toList ++ '=' :: '"' :: (value.toList ++ ['"']) := by
  simp [attributeText]

/-- They are written with a blank before each. -/
theorem attributes_eq (variants : List Variant) (breakpoints : List Value) (extension : String) :
    (attributes variants breakpoints extension).map String.toList =
      (offered variants breakpoints extension).map written := by
  rw [attributes, offered]
  cases text variants breakpoints with
  | error e => rfl
  | ok srcset =>
    cases variants with
    | nil => rfl
    | cons v vs =>
      simp only [firstRatio]
      generalize aspectRatio (.int v.width) (.int v.height) >>= _ = ratio
      cases ratio with
      | error e => rfl
      | ok ratio =>
        simp only [bind, Except.bind, pure, Except.pure]
        split
        · simp [Except.map, written, writtenOne, toList_attributeText]
        · cases alternate (v :: vs) breakpoints extension with
          | error e => rfl
          | ok second => simp [Except.map, written, writtenOne, toList_attributeText]

/-! ## What is plain about them -/

theorem isPlain_formatRatio {x : Number} {s : String} (h : formatRatio x = .ok s) :
    IsPlain s.toList := by
  rw [formatRatio] at h
  cases hfloat : x.toFloat with
  | error e =>
    rw [hfloat] at h
    cases h
  | ok y =>
    simp only [hfloat, bind, Except.bind] at h
    split at h
    · cases hint : x.toInt with
      | error e =>
        rw [hint] at h
        cases h
      | ok n =>
        rw [hint] at h
        cases h
        rw [String.toList_append, isPlain_append]
        exact ⟨isPlain_intText n, by decide⟩
    · cases h
      rw [String.toList_append, isPlain_append]
      exact ⟨isPlain_numberText x, by decide⟩

theorem isPlain_firstRatio {variants : List Variant} {s : String}
    (h : firstRatio variants = .ok s) : IsPlain s.toList := by
  cases variants with
  | nil => cases h
  | cons v vs =>
    rw [firstRatio] at h
    split at h
    · rename_i ratio hratio
      cases h
      cases hr : aspectRatio (.int v.width) (.int v.height) with
      | error e =>
        rw [hr] at hratio
        cases hratio
      | ok r =>
        rw [hr] at hratio
        exact isPlain_formatRatio (x := .float r) hratio
    · cases h

/-- A character without another form that stands in an extension stands in the name made of it. -/
theorem mem_alternateName {c : Char} (hcapital : capitalForm c = [c]) (hsmall : smallForm c = [c])
    (hsigma : c ≠ 'Σ') {extension : String} (h : c ∈ extension.toList) :
    c ∈ (alternateName extension).toList := by
  rw [← List.take_append_drop 1 extension.toList, List.mem_append] at h
  simp only [alternateName, String.toList_append, String.toList_ofList, List.mem_append]
  rcases h with h | h
  · exact .inr (.inl (mem_upperChars hcapital h))
  · exact .inr (.inr (mem_lowerAfter hsmall hsigma h))

/-- An extension that makes the name of an attribute is plain. -/
theorem isPlain_of_alternateName {extension : String}
    (h : ∀ c ∈ (alternateName extension).toList, isAttributeName c = true) :
    IsPlain extension.toList := by
  intro c hc
  constructor
  · rintro rfl
    exact absurd (h _ (mem_alternateName (by decide) (by decide) (by decide) hc)) (by decide)
  · rintro rfl
    exact absurd (h _ (mem_alternateName (by decide) (by decide) (by decide) hc)) (by decide)

end Srcset

/-! ## The variants of an image -/

namespace Variant

open Job

theorem gather_eq_ok {α : Type} {rs : List (Except Fault α)} {as : List α}
    (h : gather rs = .ok as) : rs = as.map .ok := by
  induction rs generalizing as with
  | nil =>
    cases h
    rfl
  | cons r rs ih =>
    cases r with
    | error e => cases h
    | ok a =>
      rw [gather] at h
      cases hrs : gather rs with
      | error e =>
        rw [hrs] at h
        cases h
      | ok bs =>
        rw [hrs] at h
        cases h
        rw [ih hrs]
        rfl

variable [Codec]

/-- A variant is of the size that was asked for and has the URL of that size. -/
theorem ofSize_eq_some {p : OutputPlan} {size : Number} {h : Header} {o : Options} {v : Variant}
    {w w' : Workspace} (hrun : (ofSize p size h o).run w = (.ok (some v), w')) :
    v.size = size ∧ v.url = p.sizedUrl size := by
  rw [ofSize] at hrun
  split at hrun
  · cases hrun
  · obtain ⟨available, w₁, -, hrun⟩ := run_bind_eq_ok.mp hrun
    obtain ⟨produced, w₂, -, hrun⟩ := run_bind_eq_ok.mp hrun
    cases hrun
    exact ⟨rfl, rfl⟩

/-- The variants of some sizes are what comes out of the work on each of them. -/
theorem ofSizes_eq_ok {p : OutputPlan} {sizes : List Number} {h : Header} {o : Options}
    {variants : List Variant} {w w' : Workspace}
    (hrun : (ofSizes p sizes h o).run w = (.ok variants, w')) :
    ∃ found, variants = found.filterMap id ∧ List.Forall₂
      (fun size r ↦ ∃ w₁ w₂, (ofSize p size h o).run w₁ = (.ok r, w₂)) sizes found := by
  rw [ofSizes] at hrun
  obtain ⟨outcomes, w₁, houtcomes, hrun⟩ := run_bind_eq_ok.mp hrun
  obtain ⟨found, w₂, hfound, hrun⟩ := run_bind_eq_ok.mp hrun
  cases hgather : gather outcomes with
  | error e =>
    rw [hgather] at hfound
    cases hfound
  | ok as =>
    rw [hgather] at hfound
    cases hfound
    cases hrun
    have hall := (run_mapM_eq_ok.mp houtcomes).forall₂
    rw [gather_eq_ok hgather, List.forall₂_map_right_iff] at hall
    exact ⟨found, rfl, hall.imp fun _ _ ⟨w₃, w₄, h⟩ ↦ ⟨w₃, w₄, run_attempt_eq_ok.mp h⟩⟩

/-- Every variant has the URL of its size. -/
theorem url_of_ofSizes {p : OutputPlan} {sizes : List Number} {h : Header} {o : Options}
    {variants : List Variant} {w w' : Workspace}
    (hrun : (ofSizes p sizes h o).run w = (.ok variants, w')) :
    ∀ v ∈ variants, v.url = p.sizedUrl v.size := by
  obtain ⟨found, rfl, hall⟩ := ofSizes_eq_ok hrun
  clear hrun
  induction hall with
  | nil => simp
  | cons hsize _ ih =>
    rename_i r _ _ _
    obtain ⟨w₁, w₂, hsize⟩ := hsize
    cases r with
    | none => exact ih
    | some v =>
      obtain ⟨rfl, hurl⟩ := ofSize_eq_some hsize
      exact List.forall_mem_cons.mpr ⟨hurl, ih⟩

theorem generate_url {p : OutputPlan} {o : Options} {variants : List Variant} {w : Workspace}
    (hok : ((generate p o).run w).1 = .ok variants) {v : Variant} (hv : v ∈ variants) :
    v.url = p.sizedUrl v.size := by
  have hrun : (generate p o).run w = (.ok variants, ((generate p o).run w).2) := Prod.ext hok rfl
  rw [generate] at hrun
  obtain ⟨h, w₁, -, hrun⟩ := run_bind_eq_ok.mp hrun
  obtain ⟨⟨⟩, w₂, -, hrun⟩ := run_bind_eq_ok.mp hrun
  exact url_of_ofSizes hrun v hv

end Variant

/-! ## The tag of a component -/

/-- What is offered can be written exactly if it is plain, given one condition on the URLs. -/
theorem Srcset.forall_isWritable_offered_iff {variants : List Variant}
    {breakpoints : List Json.Value} {extension : String} {ps : List NamedText} {url : List Char}
    (hps : offered variants breakpoints extension = .ok ps)
    (hurl : ∀ v ∈ variants, IsPlain v.url.toList ↔ IsPlain url) :
    (∀ p ∈ ps, IsWritable p) ↔
      IsPlain url ∧ (∀ b ∈ breakpoints.take variants.length, IsPlain b.text.toList) ∧
        (extension = "" ∨ ∀ c ∈ (alternateName extension).toList, isAttributeName c = true) := by
  obtain ⟨srcset, ratio, hsrcset, hratio, hcases⟩ := offered_eq_ok hps
  have hall : (∀ v ∈ variants, IsPlain (urlOf v)) ↔ IsPlain url := by
    have hmem : ∃ v, v ∈ variants := by
      cases variants with
      | nil => cases hratio
      | cons v vs => exact ⟨v, List.mem_cons_self⟩
    obtain ⟨v, hv⟩ := hmem
    constructor
    · intro h
      exact (hurl v hv).mp (isPlain_forwardSlashes.mp (h v hv))
    · intro h u hu
      exact isPlain_forwardSlashes.mpr ((hurl u hu).mpr h)
  have hfirst : IsWritable ("srcset".toList, srcset.toList) ↔
      IsPlain url ∧ ∀ b ∈ breakpoints.take variants.length, IsPlain b.text.toList := by
    rw [isWritable_iff (by decide), isPlain_withUrls hsrcset, hall]
    exact and_iff_right (List.all_eq_true.mp (by decide))
  have hsecond : IsWritable ("ratio".toList, ratio.toList) :=
    (isWritable_iff (by decide)).mpr ⟨List.all_eq_true.mp (by decide), isPlain_firstRatio hratio⟩
  rcases hcases with ⟨hext, rfl⟩ | ⟨hext, second, halternate, rfl⟩
  · simp only [List.forall_mem_cons, hfirst, hsecond, hext, List.not_mem_nil, false_implies,
      implies_true, and_true, true_or]
  · have hname : (alternateName extension).toList ≠ [] := by
      rw [alternateName, String.toList_append]
      simp
    have hthird : IsPlain url → (∀ b ∈ breakpoints.take variants.length, IsPlain b.text.toList) →
        (IsWritable ((alternateName extension).toList, second.toList) ↔
          ∀ c ∈ (alternateName extension).toList, isAttributeName c = true) := by
      intro hplain hbreakpoints
      rw [isWritable_iff hname, isPlain_withUrls halternate]
      refine and_iff_left_of_imp fun h ↦ ⟨fun v hv ↦ ?_, hbreakpoints⟩
      exact isPlain_swapExtension (hall.mpr hplain v hv) (isPlain_of_alternateName h)
    simp only [List.forall_mem_cons, hfirst, hsecond, hext, List.not_mem_nil, false_implies,
      implies_true, true_and, and_true, false_or, and_assoc]
    exact and_congr_right fun h ↦ and_congr_right fun h' ↦ hthird h h'

/-- **The attributes put behind the source of a component read back as they are meant exactly if
neither the URL of the image, with its file name, nor a breakpoint that is shown holds a double quote
or an opening brace, and the extension of the alternate format makes a name.** -/
theorem readAt_offered_iff [Codec] {text t : List Char} {pos : Int} {tag : StartTag}
    {before after : List Attribute} {a : Attribute} {s e : Nat} {plan : OutputPlan} {o : Options}
    {w : Workspace} {variants : List Variant} {extension extra : String}
    (h : StartTag.readAt text pos = .ok tag) (has : tag.attributes = before ++ a :: after)
    (ha : a.value = .static t s e) (ht : trim t ≠ [])
    (hvariants : ((Variant.generate plan o).run w).1 = .ok variants)
    (hextra : Srcset.attributes variants o.breakpoints extension = .ok extra) :
    ∃ ps edited, Srcset.offered variants o.breakpoints extension = .ok ps ∧
      Edit.applyAll text [⟨a.stop, a.stop, extra.toList⟩] = .ok edited ∧
      (StartTag.readAt edited pos = .ok (tag.withAdded before a after ps) ↔
        IsPlain plan.url.toList ∧
          (∀ b ∈ o.breakpoints.take variants.length, IsPlain b.text.toList) ∧
          (extension = "" ∨
            ∀ c ∈ (Srcset.alternateName extension).toList, isAttributeName c = true)) := by
  have hwritten := Srcset.attributes_eq variants o.breakpoints extension
  cases hps : Srcset.offered variants o.breakpoints extension with
  | error e =>
    rw [hextra, hps] at hwritten
    cases hwritten
  | ok ps =>
    rw [hextra, hps] at hwritten
    have htext : extra.toList = written ps := Except.ok.inj hwritten
    have ht' : t ≠ [] := by
      rintro rfl
      exact ht rfl
    obtain ⟨edited, hedited, hread⟩ := readAt_added_iff ps h has ha ht'
    have hurl : ∀ v ∈ variants, IsPlain v.url.toList ↔ IsPlain plan.url.toList := by
      intro v hv
      rw [Variant.generate_url hvariants hv, plan.isPlain_sizedUrl]
    exact ⟨ps, edited, rfl, htext ▸ hedited,
      hread.trans (Srcset.forall_isWritable_offered_iff hps hurl)⟩

/-! ## A name with a quote -/

open scoped HeaderCodec

/-- A tree with a picture whose name holds a double quote. -/
def quotedFiles : Workspace where
  cwd := []
  files := ⟨[(["src"], .directory),
    (["src", "a\"b.png"], .file (HeaderCodec.file ⟨"PNG", 8, 8⟩))]⟩

/-- The plan for that picture, to which the source `a"b.png` between single quotes leads. -/
def quotedPlan : OutputPlan :=
  ⟨.ofParts ["src", "a\"b.png"], .ofParts ["static", "g"], "g", "webp"⟩

/-- That source in a tag. -/
def quotedSource : Attribute := ⟨"src".toList, .static "a\"b.png".toList 12 19, 7, 20⟩

def quotedTag : StartTag := ⟨"Image".toList, [quotedSource], 21⟩

/-- The file name of an image can end the attribute in which its variants are listed. -/
theorem readAt_offered_quoted :
    ((Resolution.ofText "a\"b.png".toList (.ofParts ["src"]) .defaults []).run quotedFiles).1 =
        .ok (.process quotedPlan) ∧
      StartTag.readAt "<Image src='a\"b.png'>".toList 0 = .ok quotedTag ∧
      ∃ ps edited,
        Srcset.offered [⟨8, 8, 8, "g/a\"b-8.png", true⟩] Options.defaults.breakpoints "webp" =
          .ok ps ∧
        Edit.applyAll "<Image src='a\"b.png'>".toList [⟨20, 20, (" srcset=\"g/a\"b-8.png 375w\" " ++
          "ratio=\"100%\" srcsetWebp=\"g/a\"b-8.webp 375w\"").toList⟩] = .ok edited ∧
        StartTag.readAt edited 0 ≠ .ok (quotedTag.withAdded [] quotedSource [] ps) := by
  have hresolve : ((Resolution.ofText "a\"b.png".toList (.ofParts ["src"]) .defaults []).run
      quotedFiles).1 = .ok (.process quotedPlan) := eq_ok_of_toOption (by decide +kernel)
  have hread : StartTag.readAt "<Image src='a\"b.png'>".toList 0 = .ok quotedTag := by
    cbv
  have hvariants : ((Variant.generate quotedPlan .defaults).run quotedFiles).1 =
      .ok [⟨8, 8, 8, "g/a\"b-8.png", true⟩] := eq_ok_of_toOption (by decide +kernel)
  have hextra : Srcset.attributes [⟨8, 8, 8, "g/a\"b-8.png", true⟩] Options.defaults.breakpoints
      "webp" = .ok (" srcset=\"g/a\"b-8.png 375w\" " ++
        "ratio=\"100%\" srcsetWebp=\"g/a\"b-8.webp 375w\"") :=
    eq_ok_of_toOption (by decide +kernel)
  have hquote : ¬ IsPlain quotedPlan.url.toList := by decide +kernel
  have has : quotedTag.attributes = [] ++ quotedSource :: [] := rfl
  obtain ⟨ps, edited, hps, hedited, hiff⟩ :=
    readAt_offered_iff hread has rfl (by decide) hvariants hextra
  exact ⟨hresolve, hread, ps, edited, hps, hedited, fun h ↦ hquote (hiff.mp h).1⟩

end ResponsiveImage
