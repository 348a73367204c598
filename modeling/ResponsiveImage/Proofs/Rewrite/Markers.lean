import ResponsiveImage.Picture.HeaderCodec
import ResponsiveImage.Proofs.Markup.TagText
import ResponsiveImage.Proofs.Rewrite.Isolation

/-!
# The test for markers

Before a document is parsed, its text is tested for the beginnings of image tags.  The test looks at the
text as it is written, while the nodes of a document are found in its masked text, in small letters, by
line and column.  Still a node has its name written behind the bracket at its offset
(`drop_of_nodeAt`), so that a document that fails the test has no images, and working on it without the
test leaves it its text (`hasMarkers_loses_nothing`).
-/

namespace ResponsiveImage

namespace Text

theorem occursIn_of_isPrefixOf_drop {w : List Char} {text : List Char} {k : Nat}
    (h : w.isPrefixOf (text.drop k) = true) : occursIn w text = true := by
  induction text generalizing k with
  | nil =>
    rw [List.drop_nil] at h
    rw [occursIn]
    exact List.isEmpty_iff.mpr (List.prefix_nil.mp (List.isPrefixOf_iff_prefix.mp h))
  | cons c cs ih =>
    rw [occursIn, Bool.or_eq_true]
    cases k with
    | zero => exact .inl h
    | succ k => exact .inr (ih h)

end Text

namespace Markup

open Text

/-- A node has its name written behind the bracket at its offset. -/
theorem drop_of_nodeAt {text : List Char} {k : Nat} {n : Node} (h : nodeAt text k = some n) :
    ∃ rest, text.drop k = '<' :: n.name ++ rest := by
  rw [nodeAt] at h
  split at h
  · rename_i tag hread
    cases h
    obtain ⟨rest, hdrop, -⟩ := StartTag.readAt_eq_ok_iff.mp hread
    exact ⟨rest, hdrop⟩
  · cases h

/-- The names of the nodes of a document are written in it behind brackets. -/
theorem occursIn_name {text tagName : List Char} {root n : Node} (h : parse text tagName = .ok root)
    (hn : n ∈ flattenAll root.children) : occursIn ('<' :: n.name) text = true := by
  obtain ⟨os, hlisting⟩ := exists_isListing h
  have hbare : n.bare ∈ os.filterMap (Opening.node? text) :=
    hlisting.nodes_eq ▸ List.mem_map_of_mem hn
  obtain ⟨o, -, ho⟩ := List.mem_filterMap.mp hbare
  obtain ⟨rest, hdrop⟩ := drop_of_nodeAt ho
  refine occursIn_of_isPrefixOf_drop (k := o.offset) ?_
  rw [hdrop, List.isPrefixOf_iff_prefix]
  exact List.prefix_append _ rest

/-- A document with images has their markers. -/
theorem hasMarkers_of_mem_candidates {text tagName : List Char} {root n : Node}
    (h : parse text tagName = .ok root) (hn : n ∈ candidates root tagName) :
    hasMarkers text tagName = true := by
  rw [candidates, List.mem_mergeSort, List.mem_filter, Bool.or_eq_true, beq_iff_eq,
    beq_iff_eq] at hn
  obtain ⟨hmem, hname⟩ := hn
  have hoccurs := occursIn_name h hmem
  rw [hasMarkers, Bool.or_eq_true]
  rcases hname with hname | hname
  · rw [hname] at hoccurs
    exact .inl hoccurs
  · rw [hname] at hoccurs
    exact .inr hoccurs

theorem candidates_eq_nil_of_hasMarkers {text tagName : List Char} {root : Node}
    (hmarkers : hasMarkers text tagName = false) (h : parse text tagName = .ok root) :
    candidates root tagName = [] := by
  rw [List.eq_nil_iff_forall_not_mem]
  intro n hn
  rw [hasMarkers_of_mem_candidates h hn] at hmarkers
  cases hmarkers

end Markup

namespace Rewrite

open Job

variable {o : Options} {w w₁ : Workspace} {d : Document}

/-! ## Rewriting without the test -/

/-- The images of a document that are worked on, its text not being tested before. -/
def Page.sought (o : Options) (d : Document) : Job (List Markup.Node) := do
  if !(← inSourceTree o d.directory) then return []
  match images d.text o.tagName with
  | .ok nodes => return nodes
  | .error e =>
    logUnreadable d e
    return []

theorem Page.candidates_eq (o : Options) (d : Document) :
    candidates o d =
      if Markup.hasMarkers d.text o.tagName.text.toList then sought o d else return [] := by
  rw [candidates]
  cases Markup.hasMarkers d.text o.tagName.text.toList with
  | false => rfl
  | true => rfl

/-- A document rewritten alone, its images being found by some job. -/
def documentBy [Codec] (seek : Document → Job (List Markup.Node)) (o : Options)
    (placeholder : Placeholder)
    (text : List Char) (file? : Option String) : Job (List Char) := do
  let directory ← directoryOf file?
  let d : Document := ⟨text, directory⟩
  let pages ← worked o placeholder [(d, ← seek d)]
  match pages.findSome? (·.fault?) with
  | some f => throw f
  | none =>
    let pages ← pages.mapM Page.close
    return (pages.map fun p ↦ p.result?.getD p.document.text).head?.getD text

theorem document_eq_documentBy [Codec] (o : Options) (placeholder : Placeholder) (text : List Char)
    (file? : Option String) :
    document o placeholder text file? = documentBy (Page.candidates o) o placeholder text file? := by
  simp only [document, documentBy, documents_eq, completed, List.mapM_cons, List.mapM_nil,
    Page.opened, bind_assoc, pure_bind]
  congr
  funext directory
  congr
  funext ns
  congr
  funext pages
  cases pages.findSome? (·.fault?) with
  | some f => rfl
  | none => simp only [bind_assoc, pure_bind]

/-- A document without images keeps its text. -/
theorem run_documentBy_of_nil [Codec] {seek : Document → Job (List Markup.Node)} {directory : Path}
    {text : List Char} {file? : Option String} (placeholder : Placeholder)
    (hdirectory : (directoryOf file?).run w = (.ok directory, w))
    (hseek : (seek ⟨text, directory⟩).run w = (.ok [], w₁)) :
    (documentBy seek o placeholder text file?).run w = (.ok text, w₁) := by
  rw [documentBy, run_bind_of_ok hdirectory, run_bind_of_ok hseek]
  rfl

theorem eq_nil_of_run_sought {ns : List Markup.Node}
    (hmarkers : Markup.hasMarkers d.text o.tagName.text.toList = false)
    (h : (Page.sought o d).run w = (.ok ns, w₁)) : ns = [] := by
  rw [Page.sought, run_bind_eq_ok] at h
  obtain ⟨b, w₂, -, h⟩ := h
  split at h
  · cases h
    rfl
  cases himages : Page.images d.text o.tagName with
  | error e =>
    rw [himages, run_bind_eq_ok] at h
    obtain ⟨u, w₃, -, h⟩ := h
    cases h
    rfl
  | ok nodes =>
    rw [himages] at h
    cases h
    unfold Page.images at himages
    split at himages
    · rename_i tagName htagName
      rw [htagName] at hmarkers
      split at himages
      · rename_i root hroot
        cases himages
        exact Markup.candidates_eq_nil_of_hasMarkers hmarkers hroot
      · cases himages
    · split at himages
      · cases himages
      · cases himages

/-- **The test for markers loses no image.**  A document that fails it is not parsed, or has no images;
and it keeps its text, as it does wherever it is rewritten without the test. -/
theorem hasMarkers_loses_nothing [Codec] {text tagName : List Char}
    (h : Markup.hasMarkers text tagName = false) :
    (∀ root, Markup.parse text tagName = .ok root → Markup.candidates root tagName = []) ∧
      ∀ (o : Options) (placeholder : Placeholder) (file? : Option String) (w w' : Workspace)
        (result : List Char), o.tagName.text.toList = tagName →
        (documentBy (Page.sought o) o placeholder text file?).run w = (.ok result, w') →
        result = text ∧ (document o placeholder text file?).run w = (.ok text, w) := by
  refine ⟨fun root hroot ↦ Markup.candidates_eq_nil_of_hasMarkers h hroot, ?_⟩
  rintro o placeholder file? w w' result rfl hrun
  have hparts := hrun
  rw [documentBy, run_bind_eq_ok] at hparts
  obtain ⟨directory, w₁, hdirectory, hparts⟩ := hparts
  obtain rfl : w₁ = w := by
    rw [directoryOf_eq] at hdirectory
    exact (looks_resolve _).eq hdirectory
  rw [run_bind_eq_ok] at hparts
  obtain ⟨ns, w₂, hseek, -⟩ := hparts
  obtain rfl := eq_nil_of_run_sought h hseek
  constructor
  · rw [run_documentBy_of_nil placeholder hdirectory hseek] at hrun
    cases hrun
    rfl
  · have hnone : (Page.candidates o ⟨text, directory⟩).run w₁ = (.ok [], w₁) := by
      rw [Page.candidates_eq, h]
      rfl
    rw [document_eq_documentBy, run_documentBy_of_nil placeholder hdirectory hnone]

/-- Two tags that are met under the names of images, and are written otherwise. -/
def otherCapitals : List Char := "<IMG src='x.png'><image src='y.png'>".toList

open scoped HeaderCodec in
theorem hasMarkers_loses_nothing_otherCapitals :
    Markup.hasMarkers otherCapitals "Image".toList = false ∧
      (∃ root, Markup.parse otherCapitals "Image".toList = .ok root ∧
        Markup.candidates root "Image".toList = []) ∧
      ((documentBy (Page.sought Options.defaults) Options.defaults (Placeholder.label .trace)
        otherCapitals (some "src/a.svelte")).run { cwd := [] }).1 = .ok otherCapitals := by
  have hmarkers : Markup.hasMarkers otherCapitals "Image".toList = false := by decide +kernel
  obtain ⟨hparsed, hdocument⟩ := hasMarkers_loses_nothing hmarkers
  have hroot : (Markup.parse otherCapitals "Image".toList).toOption.isSome = true := by
    decide +kernel
  obtain ⟨root, hroot⟩ := Option.isSome_iff_exists.mp hroot
  have hroot := eq_ok_of_toOption hroot
  have hrun : ((documentBy (Page.sought Options.defaults) Options.defaults
      (Placeholder.label .trace) otherCapitals (some "src/a.svelte")).run
        { cwd := [] }).1.toOption.isSome = true := by
    decide +kernel
  obtain ⟨result, hresult⟩ := Option.isSome_iff_exists.mp hrun
  have hresult := eq_ok_of_toOption hresult
  obtain ⟨rfl, -⟩ := hdocument Options.defaults _ _ _ _ result rfl (Prod.ext hresult rfl)
  exact ⟨hmarkers, ⟨root, hroot, hparsed root hroot⟩, hresult⟩

end Rewrite

end ResponsiveImage
