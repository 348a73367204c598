import ResponsiveImage.Markup.StartTag
import ResponsiveImage.Placeholder.Outline

/-!
# The characters of inline URIs

The URIs that go into a document in place of a picture hold the picture itself: the content of its
file, a small blurred copy, or an outline.  Whatever the data, such a URI holds no quote, no bracket,
no brace and no blank; the one character of it that matters to a start tag is the equals sign with
which base 64 fills up the last group.
-/

namespace ResponsiveImage

open Markup Text

/-- The URIs that take the place of a source.  A picture that goes into the document as it is has the
type that its content or its name tells. -/
inductive IsInlineUri : List Char → Prop
  | picture {name mime : String} {c : Content} (h : Picture.mimeType? name c = some mime) :
      IsInlineUri (Picture.dataUri mime c.data).toList
  | blurred (data : List UInt8) : IsInlineUri (Picture.dataUri "image/png" data).toList
  | outline (drawing : String) : IsInlineUri (Outline.uri drawing).toList

/-- A character that a URI may hold, an equals sign among them. -/
def isUriChar (c : Char) : Bool := (isUnquoted c || c == '=') && c != '{'

/-! ## Base 64 -/

theorem isUriChar_letter (n : Nat) : isUriChar (Base64.letter n) = true := by
  have hall : ∀ k < 64, isUriChar (Base64.letter k) = true := by decide
  have hmod : Base64.letter n = Base64.letter (n % 64) := by
    simp only [Base64.letter, Nat.mod_mod]
  rw [hmod]
  exact hall _ (Nat.mod_lt _ (by decide))

theorem isUriChar_of_mem_encode {data : List UInt8} :
    ∀ c ∈ Base64.encode data, isUriChar c = true := by
  have heq : isUriChar '=' = true := by decide
  fun_induction Base64.encode data with
  | case1 => simp
  | case2 => simp [isUriChar_letter, heq]
  | case3 => simp [isUriChar_letter, heq]
  | case4 => simpa [isUriChar_letter]

/-! ## Media types -/

theorem all_types_isUriChar :
    (MimeType.types.all fun t ↦ t.2.toList.all isUriChar) = true := by
  decide +kernel

theorem all_signatures_isUriChar : ((Signature.signatures.filterMap Prod.snd).all
    fun s ↦ s.toList.all isUriChar) = true := by
  decide +kernel

/-- The type of a file name is one of those that are looked up. -/
theorem exists_lookup_of_ofName? {name mime : String} (h : MimeType.ofName? name = some mime) :
    ∃ key, MimeType.types.lookup key = some mime := by
  unfold MimeType.ofName? at h
  generalize MimeType.types = types at *
  obtain ⟨stem, extension⟩ := MimeType.expand (MimeType.withoutScheme name.toList)
  simp only at h
  split at h
  · rename_i t ht
    cases h
    exact ⟨_, ht⟩
  · exact ⟨_, h⟩

theorem isUriChar_of_ofName? {name mime : String} (h : MimeType.ofName? name = some mime) :
    ∀ c ∈ mime.toList, isUriChar c = true := by
  obtain ⟨key, hkey⟩ := exists_lookup_of_ofName? h
  obtain ⟨before, after, htypes, -⟩ := List.lookup_eq_some_iff.mp hkey
  have hmem : (key, mime) ∈ MimeType.types := by
    rw [htypes]
    exact List.mem_append_right _ List.mem_cons_self
  exact List.all_eq_true.mp (List.all_eq_true.mp all_types_isUriChar _ hmem)

theorem isUriChar_of_signature {data : List UInt8} {mime : String}
    (h : Signature.mimeType? data = some mime) : ∀ c ∈ mime.toList, isUriChar c = true := by
  rw [Signature.mimeType?] at h
  split at h
  · rename_i test name hfind
    cases h
    have hmem : name ∈ Signature.signatures.filterMap Prod.snd :=
      List.mem_filterMap.mpr ⟨(test, some name), List.mem_of_find?_eq_some hfind, rfl⟩
    intro c hc
    rw [String.toList_append] at hc
    rcases List.mem_append.mp hc with hc | hc
    · have hall : "image/".toList.all isUriChar = true := by decide
      exact List.all_eq_true.mp hall c hc
    · exact List.all_eq_true.mp (List.all_eq_true.mp all_signatures_isUriChar _ hmem) c hc
  · cases h

theorem isUriChar_of_mimeType? {name mime : String} {content : Content}
    (h : Picture.mimeType? name content = some mime) :
    ∀ c ∈ mime.toList, isUriChar c = true := by
  rw [Picture.mimeType?] at h
  cases hsign : Signature.mimeType? content.data with
  | some m =>
    rw [hsign] at h
    cases h
    exact isUriChar_of_signature hsign
  | none =>
    rw [hsign, Option.orElse_none] at h
    exact isUriChar_of_ofName? h

/-! ## URIs -/

theorem toList_dataUri (mime : String) (data : List UInt8) :
    (Picture.dataUri mime data).toList =
      "data:".toList ++ (mime.toList ++ (";base64,".toList ++ Base64.encode data)) := by
  simp [Picture.dataUri, toString]

/-- An inline URI begins with a character of unquoted values, and holds only characters of URIs. -/
theorem IsInlineUri.isUriChar {uri : List Char} (h : IsInlineUri uri) :
    (∃ rest, uri = 'd' :: rest) ∧ ∀ c ∈ uri, isUriChar c = true := by
  have hdata : ∀ (mime : String) (data : List UInt8),
      (∀ c ∈ mime.toList, ResponsiveImage.isUriChar c = true) →
      (∃ rest, (Picture.dataUri mime data).toList = 'd' :: rest) ∧
        ∀ c ∈ (Picture.dataUri mime data).toList, ResponsiveImage.isUriChar c = true := by
    intro mime data hmime
    have hlead : "data:".toList.all ResponsiveImage.isUriChar = true := by decide
    have hcode : ";base64,".toList.all ResponsiveImage.isUriChar = true := by decide
    rw [toList_dataUri]
    refine ⟨⟨_, rfl⟩, fun c hc ↦ ?_⟩
    rcases List.mem_append.mp hc with hc | hc
    · exact List.all_eq_true.mp hlead c hc
    rcases List.mem_append.mp hc with hc | hc
    · exact hmime c hc
    rcases List.mem_append.mp hc with hc | hc
    · exact List.all_eq_true.mp hcode c hc
    · exact isUriChar_of_mem_encode c hc
  cases h with
  | picture h => exact hdata _ _ (isUriChar_of_mimeType? h)
  | blurred data => exact hdata _ _ (List.all_eq_true.mp (by decide))
  | outline drawing => exact hdata _ _ (List.all_eq_true.mp (by decide))

end ResponsiveImage
