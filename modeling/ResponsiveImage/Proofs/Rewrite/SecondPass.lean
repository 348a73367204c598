import ResponsiveImage.Picture.HeaderCodec
import ResponsiveImage.Proofs.Markup.TagEnds
import ResponsiveImage.Proofs.Rewrite.Passes

/-!
# Rewriting a document again

A document that has been rewritten is rewritten once more, over the files that the first pass has
left.  If the edits of the first pass conflict, it has written nothing, and all images end as they did
(`Passes.edits_eq_of_map_eq`).  Otherwise every image of the second pass is found where one of the
first has landed, at least if every place that looks like the beginning of an image is one (`Overt`),
and is left of that one.  If it was given nothing it comes to the same again, and if it has become data
it is left alone.  A URL is looked up like any other source.  If it leads to an image, that image is
called like the first one, so that it is given the very same URL, unless it is small enough to go into
the document itself.

So all edits of the second pass restate the text that they replace, but for those of the images that are
inlined now (`Passes.restates_or_departs`), and the document stays as it is if and only if there is no
such image (`document_again_iff`).
-/

namespace ResponsiveImage.Rewrite

open Job
open Markup (literalOf nodeAt)

variable {o : Options} {placeholder : Placeholder} {text text₁ : List Char} {file? : Option String}
  {w w₁ x y : Workspace} {vs us : List Visit} {u v : Visit} {q r : Progress} {qs rs : List Progress}
  {as : List (Markup.Node × List Edit)} {ns : List Markup.Node} {directory : Path}

/-! ## Images where others have landed -/

/-- The image that is visited begins where one has landed that has been edited. -/
def Lands (as : List (Markup.Node × List Edit)) (u : Visit) : Prop :=
  ∃ a ∈ as, (u.node.start : Int) = Edit.landing (as.flatMap (·.2)) a.1.start

/-- Every place of a text that looks like the beginning of an image is that of one, and no bracket is
written. -/
structure Overt (text tagName : List Char) (as : List (Markup.Node × List Edit)) : Prop where
  images : ∀ name ∈ ["img".toList, tagName], ∀ k, '<' :: name <+: text.drop k → ∃ a ∈ as, a.1.start = k
  brackets : ∀ a ∈ as, ∀ e ∈ a.2, '<' ∉ e.replacement

/-- If a text is overt, every image of a pass over the edited text begins where one has landed. -/
theorem Overt.lands [Codec] {past : List Visit} (h : Overt text o.tagName.text.toList as)
    (hlegible : Legible text as) (hgiven : ∀ a ∈ as, Given o text a.1 a.2)
    (hpass : Pass o placeholder w past (Edit.writeOut text (as.flatMap (·.2))) us rs) (hu : u ∈ us) :
    Lands as u := by
  obtain ⟨hread, hname⟩ := hpass.read hu
  obtain ⟨tag, htag, htagName, -, -⟩ := exists_readAt_of_nodeAt hread
  obtain ⟨rest, hdrop, htagRest, -⟩ := Markup.StartTag.readAt_eq_ok_iff.mp htag
  have hnameRest : ∀ c ∈ u.node.name, Markup.isNameRest c = true := htagName ▸ htagRest.isNameRest
  have hlooks : '<' :: u.node.name <+: (Edit.writeOut text (as.flatMap (·.2))).drop u.node.start := by
    rw [hdrop, htagName]
    exact List.prefix_append ('<' :: u.node.name) rest
  exact hlegible.exists_lands hgiven hnameRest (h.images u.node.name hname) h.brackets hlooks

/-- An image that is found where one has landed is read back from it. -/
theorem Pass.readsBack [Codec] (h : Pass o placeholder w [] text vs qs) (hw : w.IsSound)
    (hlegible : Legible text (edited vs (qs.map (·.edits))))
    (hread : nodeAt (Edit.writeOut text (qs.map (·.edits)).flatten) u.node.start = some u.node.bare)
    (hlands : Lands (edited vs (qs.map (·.edits))) u) :
    ∃ v ∈ vs, ∃ q, Ends o placeholder w vs v q ∧ ReadsBack q.edits v u := by
  obtain ⟨a, ha, hland⟩ := hlands
  rw [← h.flatMap_edited] at hread
  obtain ⟨hname, hliteral, -⟩ := hlegible.found (h.given hw) ha hread hland
  have hstands := hlegible.stands a ha
  obtain ⟨v, hv, q, -, ⟨hends, -⟩, rfl⟩ := h.exists_of_mem_edited ha
  rw [← Visit.text?_eq] at hliteral
  refine ⟨v, hv, q, hends, ⟨hname, fun hnil ↦ ?_, fun e he ↦ ?_, hstands.lookedUp⟩⟩
  · rw [hliteral, hnil, Visit.text?_eq]
    rfl
  · obtain ⟨es, hes⟩ := List.head?_eq_some_iff.mp he
    rw [hliteral, hes]
    rfl

/-! ## The second pass -/

theorem exists_getElem?_of_forall₂ {α β : Type} {R : α → β → Prop} {as : List α} {bs : List β}
    (h : List.Forall₂ R as bs) {i : Nat} {a : α} (ha : as[i]? = some a) :
    ∃ b, bs[i]? = some b ∧ R a b := by
  obtain ⟨hi, rfl⟩ := List.getElem?_eq_some_iff.mp ha
  have hi' : i < bs.length := h.length_eq ▸ hi
  exact ⟨bs[i], List.getElem?_eq_getElem hi', h.get hi hi'⟩

/-- A document that is rewritten twice: a pass over its images, which finds none where outputs or
downloads go, and another pass over what the first one has made of the text, with all images in one
directory. -/
structure Passes [Codec] (o : Options) (placeholder : Placeholder) (w : Workspace) (text : List Char)
    (vs : List Visit) (qs : List Progress) (text₁ : List Char) (us : List Visit) (rs : List Progress) :
    Prop where
  first : Pass o placeholder w [] text vs qs
  second : Pass o placeholder w vs text₁ us rs
  text_eq : text₁ = Edit.spliced text (Edit.sort (qs.map (·.edits)).flatten)
  directory : ∀ v ∈ vs, ∀ u ∈ us, u.document.directory = v.document.directory
  clear : Clear o w.cwd (vs ++ us)
  distinct : Distinct o vs

namespace Passes

variable [Codec] (h : Passes o placeholder w text vs qs text₁ us rs)
include h

/-- The images of a text that has not changed are left of the same images. -/
theorem leaves_of_map_eq (hnodes : us.map (·.node) = vs.map (·.node)) {i : Nat} (hu : us[i]? = some u) :
    ∃ v q, vs[i]? = some v ∧ qs[i]? = some q ∧ u.node = v.node ∧ IsWhole o v.node q.edits ∧
      u.Twins v ∧ Leaves o placeholder w vs v q u := by
  have heq := congrArg (·[i]?) hnodes
  rw [List.getElem?_map, List.getElem?_map, hu] at heq
  obtain ⟨v, hv, hnode⟩ := Option.map_eq_some_iff.mp heq.symm
  obtain ⟨q, hq, hends, hwhole⟩ := exists_getElem?_of_forall₂ h.first.ends hv
  have hmemv := List.mem_of_getElem? hv
  have hdirectory := h.directory v hmemv u (List.mem_of_getElem? hu)
  have hname : u.node.name = v.node.name := by rw [hnode]
  have htext : u.text? = v.text? := by rw [Visit.text?_eq, Visit.text?_eq, hnode]
  exact ⟨v, q, hv, hq, hnode.symm, hwhole, ⟨hname, htext, hdirectory⟩, hmemv, hends, hdirectory,
    .inr ⟨hname, fun _ ↦ htext, by rintro e ⟨⟩, by rintro e ⟨⟩⟩⟩

/-- The literal text of a source stands in the text of the second pass. -/
theorem span_eq_source (hu : u ∈ us) {source : List Char} (htext : u.text? = some source)
    {s : SourceSpan}
    (hspan : Progress.spanOf u.node = .ok s) : Edit.span text₁ s.start s.stop = source := by
  rcases h.second.images with hnil | himages
  · rw [hnil] at hu
    cases hu
  · exact span_source himages (List.mem_map_of_mem hu) htext hspan

/-- An image of the second pass is misconfigured only if one of the first pass is. -/
theorem isMisconfigured (hw : w.IsSound) (hleaves : ∀ u ∈ us, ∃ v q, Leaves o placeholder w vs v q u)
    (hu : u ∈ us) (hbad : Eligibility.IsMisconfigured u.node o) :
    ∃ v ∈ vs, Eligibility.IsMisconfigured v.node o := by
  obtain ⟨y, hy⟩ := h.second.history
  obtain ⟨v, q, hleft⟩ := hleaves u hu
  obtain ⟨hbefore, -, hdirectory⟩ := resolved_of_mem hw hy (List.mem_append_left us hleft.mem)
  exact ⟨v, hleft.mem, hleft.isMisconfigured hbefore hdirectory hbad⟩

/-- The visits of both passes are tidy. -/
theorem tidy (hw : w.IsSound) (hsteady : placeholder.IsSteady)
    (hleaves : ∀ u ∈ us, ∃ v q, Leaves o placeholder w vs v q u) : Tidy o w.cwd (vs ++ us) := by
  obtain ⟨y, hy⟩ := h.second.history
  exact ⟨h.clear, h.distinct.again hsteady hw h.clear hy hleaves⟩

/-- If nothing has been written because of a conflict, all images end as they did. -/
theorem edits_eq_of_map_eq (hw : w.IsSound) (hsteady : placeholder.IsSteady) (hname : o.NamesAlternate)
    (hnodes : us.map (·.node) = vs.map (·.node)) : rs.map (·.edits) = qs.map (·.edits) := by
  obtain ⟨x, hx⟩ := h.first.history
  obtain ⟨y, hy⟩ := h.second.history
  rw [List.nil_append] at hx
  have ht : Tidy o w.cwd (vs ++ us) := h.tidy hw hsteady fun u hu ↦ by
    obtain ⟨i, hi⟩ := List.mem_iff_getElem?.mp hu
    obtain ⟨v, q, -, -, -, -, -, hleft⟩ := h.leaves_of_map_eq hnodes hi
    exact ⟨v, q, hleft⟩
  have hlength : us.length = vs.length := by simpa using congrArg List.length hnodes
  refine List.ext_getElem? fun i ↦ ?_
  rw [List.getElem?_map, List.getElem?_map]
  cases hu : us[i]? with
  | none =>
    have hle := List.getElem?_eq_none_iff.mp hu
    rw [List.getElem?_eq_none (h.second.ends.length_eq ▸ hle),
      List.getElem?_eq_none (h.first.ends.length_eq ▸ hlength ▸ hle)]
  | some u =>
    obtain ⟨v, q, hv, hq, hnode, hwhole, htwins, hleft⟩ := h.leaves_of_map_eq hnodes hu
    obtain ⟨r, hr, hends', hwhole'⟩ := exists_getElem?_of_forall₂ h.second.ends hu
    have heq := ht.replacements_eq (hy.sound hw) hw hname hsteady (List.subset_append_left _ _)
      (List.Subset.refl _) hleft.mem (List.mem_append_right vs (List.mem_of_getElem? hu)) htwins hx hy
      hleft.ends hends'
    rw [hnode] at hwhole'
    rw [hq, hr, Option.map_some, Option.map_some, hwhole'.ext hwhole heq.symm]

section Legible

variable (hw : w.IsSound) (hlegible : Legible text (edited vs (qs.map (·.edits))))
include hw hlegible

theorem text_eq_of_legible : text₁ = Edit.writeOut text (qs.map (·.edits)).flatten := by
  have hgiven := h.first.given hw
  have hconflict := conflict?_eq_none_of_apart hgiven hlegible.apart
  obtain ⟨hsort, -⟩ := hlegible.inOrder hgiven
  rw [h.first.flatMap_edited] at hconflict hsort
  rw [h.text_eq, Edit.spliced, hconflict, hsort]

/-- If every place that looks like the beginning of an image is one, all images of the second pass are
where others have landed. -/
theorem lands (hovert : Overt text o.tagName.text.toList (edited vs (qs.map (·.edits)))) (hu : u ∈ us) :
    Lands (edited vs (qs.map (·.edits))) u := by
  have hsecond := h.second
  rw [h.text_eq_of_legible hw hlegible, ← h.first.flatMap_edited] at hsecond
  exact hovert.lands hlegible (h.first.given hw) hsecond hu

variable (hlands : ∀ u ∈ us, Lands (edited vs (qs.map (·.edits))) u)
include hlands

/-- An image of the second pass is read back from one of the first. -/
theorem readsBack (hu : u ∈ us) :
    ∃ v ∈ vs, ∃ q, Ends o placeholder w vs v q ∧ ReadsBack q.edits v u := by
  obtain ⟨hread, -⟩ := h.second.read hu
  rw [h.text_eq_of_legible hw hlegible] at hread
  exact h.first.readsBack hw hlegible hread (hlands u hu)

theorem leaves (u : Visit) (hu : u ∈ us) : ∃ v q, Leaves o placeholder w vs v q u := by
  obtain ⟨v, hv, q, hends, hreads⟩ := h.readsBack hw hlegible hlands hu
  exact ⟨v, q, hv, hends, h.directory v hv u hu, .inl hreads⟩

/-- The edits of the second pass do not conflict. -/
theorem conflict?_again : Edit.conflict? text₁ (Edit.sort (rs.map (·.edits)).flatten) = none := by
  have hapart : (us.map (·.node)).Pairwise fun m n ↦ m.stop ≤ n.start := by
    refine hlegible.apart_again (h.first.given hw) (fun m hm ↦ ?_) h.second.increasing
    obtain ⟨u, hu, rfl⟩ := List.mem_map.mp hm
    obtain ⟨hread, -⟩ := h.second.read hu
    rw [h.text_eq_of_legible hw hlegible, ← h.first.flatMap_edited] at hread
    exact ⟨hread, hlands u hu⟩
  rw [← h.second.flatMap_edited]
  refine conflict?_eq_none_of_apart (h.second.given hw) ?_
  rw [← h.second.map_fst_edited, List.pairwise_map] at hapart
  exact hapart

/-- What the second pass gives an image restates its source, unless the image goes into the document
now. -/
theorem restates_or_departs (hsteady : placeholder.IsSteady) (hname : o.NamesAlternate) (hu : u ∈ us)
    (hr : Ends o placeholder w (vs ++ us) u r) (hwhole : IsWhole o u.node r.edits) :
    (¬ u.Inlines o → ∀ f ∈ r.edits, Edit.Restates text₁ f) ∧
      (u.Inlines o → ∃ f, r.edits = [f] ∧ Edit.Departs text₁ f) := by
  obtain ⟨x, hx⟩ := h.first.history
  obtain ⟨y, hy⟩ := h.second.history
  rw [List.nil_append] at hx
  have ht := h.tidy hw hsteady (h.leaves hw hlegible hlands)
  obtain ⟨v, hv, q, hq, hreads⟩ := h.readsBack hw hlegible hlands hu
  obtain ⟨hrest, hinlined⟩ := ht.reread hw hname hsteady hx hy hv hu (h.directory v hv u hu) hq hr hreads
  have hspan : ∀ f source, r.edits = [f] → u.text? = some source →
      Edit.span text₁ f.start f.stop = source := by
    intro f source hf htext
    rw [hf] at hwhole
    obtain ⟨s, hs, hstart, hstop⟩ := hwhole.exists_span
    rw [hstart, hstop]
    exact h.span_eq_source hu htext hs
  refine ⟨fun hnot f hf ↦ ?_, fun hinlines ↦ ?_⟩
  · rcases hrest hnot with hnil | ⟨g, hg, htext⟩
    · rw [hnil] at hf
      cases hf
    · rw [hg] at hf
      rw [List.mem_singleton.mp hf]
      exact (hspan g _ hg htext).symm
  · obtain ⟨f, source, hf, htext, hdata, hbefore, hbehind⟩ := hinlined hinlines
    refine ⟨f, hf, ?_⟩
    rw [Edit.Departs, hspan f source hf htext]
    refine ⟨fun hle ↦ hbehind (hdata.trans hle), fun hle ↦ ?_⟩
    exact (List.prefix_or_prefix_of_prefix hle hdata).elim hbefore hbehind

/-- The second pass changes nothing exactly if it inlines no image. -/
theorem spliced_eq_self_iff (hsteady : placeholder.IsSteady) (hname : o.NamesAlternate) :
    Edit.spliced text₁ (Edit.sort (rs.map (·.edits)).flatten) = text₁ ↔ ∀ u ∈ us, ¬ u.Inlines o := by
  have himage := fun {u r} hu hr hwhole ↦
    h.restates_or_departs (u := u) (r := r) hw hlegible hlands hsteady hname hu hr hwhole
  have hmem : ∀ f, f ∈ Edit.sort (rs.map (·.edits)).flatten ↔ ∃ r ∈ rs, f ∈ r.edits := by
    intro f
    rw [Edit.sort, List.mem_mergeSort, ← List.flatMap_def, List.mem_flatMap]
  have hedit : ∀ f ∈ Edit.sort (rs.map (·.edits)).flatten, ∃ u ∈ us, ∃ r,
      (Ends o placeholder w (vs ++ us) u r ∧ IsWhole o u.node r.edits) ∧ f ∈ r.edits := by
    intro f hf
    obtain ⟨r, hr, hf⟩ := (hmem f).mp hf
    obtain ⟨u, hu, -, hends⟩ := exists_mem_of_forall₂ h.second.ends.flip hr
    exact ⟨u, hu, r, hends, hf⟩
  have hconflict := h.conflict?_again hw hlegible hlands
  have horder := Edit.conflictFrom_eq_none_iff.mp hconflict
  rw [Edit.spliced, hconflict]
  refine (Edit.writeOut_eq_self_iff horder fun f hf ↦ ?_).trans ⟨fun hall u hu hinlines ↦ ?_,
    fun hall f hf ↦ ?_⟩
  · obtain ⟨u, hu, r, ⟨hends, hwhole⟩, hf⟩ := hedit f hf
    obtain ⟨hrest, hinlined⟩ := himage hu hends hwhole
    by_cases hinlines : u.Inlines o
    · obtain ⟨g, hg, hdeparts⟩ := hinlined hinlines
      rw [hg] at hf
      exact .inr (List.mem_singleton.mp hf ▸ hdeparts)
    · exact .inl (hrest hinlines f hf)
  · obtain ⟨r, hr, -, hends, hwhole⟩ := exists_mem_of_forall₂ h.second.ends hu
    obtain ⟨f, hf, hdeparts⟩ := (himage hu hends hwhole).2 hinlines
    exact hdeparts.not_restates (hall f ((hmem f).mpr ⟨r, hr, hf ▸ List.mem_singleton_self f⟩))
  · obtain ⟨u, hu, r, ⟨hends, hwhole⟩, hf⟩ := hedit f hf
    exact (himage hu hends hwhole).1 (hall u hu) f hf

end Legible

end Passes

/-- The images of a document, each with the edits that come out for it when it is rewritten alone. -/
def editedImages [Codec] (o : Options) (placeholder : Placeholder) (text : List Char)
    (file? : Option String) (w : Workspace) : List (Markup.Node × List Edit) :=
  edited (documentVisits o text file? w) (documentEdits o placeholder text file? w)

/-- The images of a document that has been rewritten are known, if they were. -/
theorem exists_candidates_again (w₁ : Workspace) {w' : Workspace}
    (hns : (Page.candidates o ⟨text, directory⟩).run w = (.ok ns, w'))
    (hsame : ns = [] → text₁ = text) :
    ∃ ns₁ w₂, (Page.candidates o ⟨text₁, directory⟩).run w₁ = (.ok ns₁, w₂) := by
  cases hrun : (Page.candidates o ⟨text₁, directory⟩).run w₁ with
  | mk r w₂ =>
    cases r with
    | ok ns₁ => exact ⟨ns₁, w₂, rfl⟩
    | error f =>
      obtain ⟨hmarkers, hsource⟩ := (run_candidates_eq_error_iff o ⟨text₁, directory⟩ w₁).mp
        ⟨f, congrArg Prod.fst hrun⟩
      have hnone : ¬ Markup.hasMarkers text o.tagName.text.toList = true := by
        intro hmarkers'
        obtain ⟨f', hf'⟩ := (run_candidates_eq_error_iff o ⟨text, directory⟩ w).mpr
          ⟨hmarkers', hsource⟩
        rw [hns] at hf'
        cases hf'
      rw [Page.candidates, if_pos (by simpa using hnone)] at hns
      cases hns
      exact absurd (hsame rfl ▸ hmarkers) hnone

/-- A document whose second rewrite is a second pass over its images.  It stays as it is exactly if
none of them is misconfigured and the edits change nothing, and if there was a conflict, the images are
the same. -/
theorem exists_passes [Codec] (hw : w.IsSound) (hsteady : placeholder.IsSteady)
    (hrun : (document o placeholder text file?).run w = (.ok text₁, w₁))
    (hclear : Clear o w.cwd (documentVisits o text file? w ++ documentVisits o text₁ file? w₁))
    (hdistinct : Distinct o (documentVisits o text file? w)) :
    ∃ qs rs, Passes o placeholder w text (documentVisits o text file? w) qs text₁
        (documentVisits o text₁ file? w₁) rs ∧
      documentEdits o placeholder text file? w = qs.map (·.edits) ∧
      (∀ v ∈ documentVisits o text file? w, ¬ Eligibility.IsMisconfigured v.node o) ∧
      (text₁ = text → (documentVisits o text₁ file? w₁).map (·.node) =
        (documentVisits o text file? w).map (·.node)) ∧
      (((document o placeholder text₁ file?).run w₁).1 = .ok text₁ ↔
        (∀ u ∈ documentVisits o text₁ file? w₁, ¬ Eligibility.IsMisconfigured u.node o) ∧
          Edit.spliced text₁ (Edit.sort (rs.map (·.edits)).flatten) = text₁) := by
  have hfirst := congrArg Prod.fst hrun
  obtain ⟨directory, ns, w', hdirectory, hns⟩ := exists_candidates_of_ok hfirst
  obtain ⟨qs, hqs, hedits, hnodes, hok⟩ := exists_pass hsteady.looks hw .start hdirectory hns
  obtain ⟨hconfigured, htext₁⟩ := (hok text₁).mp hfirst
  have hx : History o w (documentVisits o text file? w) w₁ := by
    have h : History o w (documentVisits o text file? w)
        ((document o placeholder text file?).run w).2 := history_document hsteady.looks hw
    rwa [hrun] at h
  have hcwd := (hx.sound hw).cwd_eq
  have hdirectory₁ : (directoryOf file?).run w₁ = (.ok directory, w₁) := by
    refine Prod.ext ?_ (looks_directoryOf file? w₁)
    rw [run_directoryOf_congr hcwd, hdirectory]
  have hsame : ns = [] → text₁ = text := by
    rintro rfl
    have hnil := hqs.ends
    rw [List.map_eq_nil_iff.mp hnodes, List.forall₂_nil_left_iff] at hnil
    rw [htext₁, hnil]
    exact congrArg (Edit.spliced text) List.mergeSort_nil
  obtain ⟨ns₁, w₂, hns₁⟩ := exists_candidates_again w₁ hns hsame
  obtain ⟨rs, hrs, -, hnodes₁, hok₁⟩ := exists_pass hsteady.looks hw hx hdirectory₁ hns₁
  refine ⟨qs, rs, ⟨hqs, hrs, htext₁, fun v hv u hu ↦ ?_, hclear, hdistinct⟩, hedits, fun v hv ↦ ?_,
    fun heq ↦ ?_, ?_⟩
  · rw [document_of_mem_documentVisits hdirectory hv, document_of_mem_documentVisits hdirectory₁ hu]
  · exact hconfigured v.node (hnodes ▸ List.mem_map_of_mem hv)
  · have hcongr := run_candidates_congr (o := o) hcwd ⟨text, directory⟩
    subst heq
    rw [hns, hns₁] at hcongr
    rw [hnodes₁, hnodes, Except.ok.inj hcongr]
  · rw [hok₁, eq_comm (a := text₁), ← hnodes₁, List.forall_mem_map]

open scoped HeaderCodec

/-- Options with a directory of its own for downloads, which inline files of less than 40 bytes. -/
def apartOptions : Options :=
  { Options.defaults with downloadDir := .string "dl", inlineBelow := .int 40 }

/-- A picture that is too long to be inlined, and one of the same name where its URL leads. -/
def echoedFiles : Workspace where
  cwd := []
  files := ⟨[(["src"], .directory), (["src", "g"], .directory),
    (["src", "x.png"],
      .file (.bytes (HeaderCodec.padded 40 (HeaderCodec.file ⟨"PNG", 1000, 500⟩).data))),
    (["src", "g", "x.png"], .file (HeaderCodec.file ⟨"PNG", 10, 10⟩))]⟩

def echoedText : List Char := "<img src=\"x.png\">".toList

/-- What the first pass makes of the text. -/
def echoText : List Char := "<img src=\"g/x.png\">".toList

/-- What the first pass leaves. -/
def echoFiles : Workspace :=
  ((document apartOptions (Placeholder.label .trace) echoedText (some "src/a.svelte")).run
    echoedFiles).2

theorem run_document_echoed :
    (document apartOptions (Placeholder.label .trace) echoedText (some "src/a.svelte")).run
      echoedFiles = (.ok echoText, echoFiles) :=
  Prod.ext (eq_ok_of_toOption (by decide +kernel)) rfl

/-- The visits of both passes. -/
def echoVisits : List Visit :=
  documentVisits apartOptions echoedText (some "src/a.svelte") echoedFiles ++
    documentVisits apartOptions echoText (some "src/a.svelte") echoFiles

theorem namesAlternate_apart : apartOptions.NamesAlternate := by
  rintro - e he
  cases he
  decide

theorem apart_apartOptions : apartOptions.Apart [] := by
  intro d f hd hf
  cases hd
  cases hf
  decide +kernel

/-- The images that the visits find. -/
theorem found_echoVisits : ∀ v ∈ echoVisits, (v.progress apartOptions).isPending = false ∧
    Resolution.remoteUrl? v.source? = none ∧
    ∀ f ∈ v.found? apartOptions, f.2.1.parts ∈ [["src", "x.png"], ["src", "g", "x.png"]] := by
  decide +kernel

theorem clear_echoVisits : Clear apartOptions [] echoVisits := by
  -- what is found is in neither of the directories that the options name
  have hfar : ∀ q ∈ [["src", "x.png"], ["src", "g", "x.png"]],
      q.dropLast ≠ ["static", "g"] ∧ q.dropLast ≠ ["dl"] := by decide
  have hout : ∀ v ∈ echoVisits, ∀ role image w₀, v.found? apartOptions = some (role, image, w₀) →
      ¬ apartOptions.InOutputs [] image.parts ∧ ¬ apartOptions.InFolder [] image.parts := by
    intro v hv role image w₀ hfound
    have hq := (found_echoVisits v hv).2.2 _ hfound
    refine ⟨?_, ?_⟩
    · rintro ⟨d, n, hd, heq⟩
      cases hd
      refine (hfar _ hq).1 ((congrArg List.dropLast heq).trans (List.dropLast_concat.trans ?_))
      decide +kernel
    · rintro ⟨d, n, hd, heq⟩
      cases hd
      refine (hfar _ hq).2 ((congrArg List.dropLast heq).trans (List.dropLast_concat.trans ?_))
      decide +kernel
  have hurls : remoteUrls echoVisits = [] := by
    rw [remoteUrls, List.filterMap_eq_nil_iff]
    exact fun v hv ↦ (found_echoVisits v hv).2.1
  refine ⟨apart_apartOptions, fun v hv role image w₀ hfound _ ↦ ?_,
    fun v hv role image w₀ hfound h ↦ (hout v hv role image w₀ hfound).2 h.inFolder, ?_⟩
  · obtain ⟨h, h'⟩ := hout v hv role image w₀ hfound
    exact ⟨h, fun hin ↦ h' hin.inFolder⟩
  · rw [hurls]
    rintro url ⟨⟩

theorem distinct_echoed :
    Distinct apartOptions
      (documentVisits apartOptions echoedText (some "src/a.svelte") echoedFiles) := by
  have hclosed : ∀ v ∈ documentVisits apartOptions echoedText (some "src/a.svelte") echoedFiles,
      ∀ c, v.progress apartOptions ≠ .awaiting c := by
    intro v hv c hc
    have hpending := (found_echoVisits v (List.mem_append_left _ hv)).1
    rw [hc] at hpending
    cases hpending
  exact ⟨fun v hv c hc ↦ absurd hc (hclosed v hv c), fun v hv c hc ↦ absurd hc (hclosed v hv c)⟩

/-- The image of the text, and the URL in place of its source. -/
theorem editedImages_echoed : ∃ n : Markup.Node, n.start = 0 ∧ n.stop = 17 ∧
    Progress.spanOf n = .ok ⟨10, 15, 16⟩ ∧
    editedImages apartOptions (Placeholder.label .trace) echoedText (some "src/a.svelte") echoedFiles =
      [(n, [⟨10, 15, "g/x.png".toList⟩])] := by
  have hmap : (editedImages apartOptions (Placeholder.label .trace) echoedText (some "src/a.svelte")
      echoedFiles).map (fun a ↦ (a.1.start, a.1.stop, (Progress.spanOf a.1).toOption, a.2)) =
        [(0, 17, some ⟨10, 15, 16⟩, [⟨10, 15, "g/x.png".toList⟩])] := by decide +kernel
  obtain ⟨⟨n, es⟩, heq, hfacts⟩ := List.map_eq_singleton_iff.mp hmap
  simp only [Prod.mk.injEq] at hfacts
  obtain ⟨hstart, hstop, hspan, rfl⟩ := hfacts
  exact ⟨n, hstart, hstop, eq_ok_of_toOption hspan, heq⟩

/-- The URL can be read where it is written. -/
theorem legible_echoed : Legible echoedText (editedImages apartOptions (Placeholder.label .trace)
    echoedText (some "src/a.svelte") echoedFiles) := by
  obtain ⟨n, -, -, hspan, heq⟩ := editedImages_echoed
  rw [heq]
  refine ⟨List.pairwise_singleton _ _, List.forall_mem_singleton.mpr ⟨?_, ?_, ?_⟩⟩
  · rintro e ⟨⟩ span hspan'
    cases hspan.symm.trans hspan'
    have hquote : echoedText[15]? = some '"' := by decide +kernel
    refine ⟨by decide, fun _ q hq ↦ ?_, fun h ↦ absurd h (by decide)⟩
    cases hquote.symm.trans hq
    decide
  · rintro e ⟨⟩ -
    exact ⟨by decide +kernel, by decide +kernel, by decide +kernel⟩
  · rintro e ⟨⟩

/-- The text begins one image, and has no other bracket. -/
theorem overt_echoed : Overt echoedText apartOptions.tagName.text.toList (editedImages apartOptions
    (Placeholder.label .trace) echoedText (some "src/a.svelte") echoedFiles) := by
  obtain ⟨n, hstart, -, -, heq⟩ := editedImages_echoed
  have hbracket : '<' ∉ echoedText.drop 1 := by decide +kernel
  rw [heq]
  refine ⟨fun name _ k hbegins ↦ ⟨_, List.mem_singleton_self _, ?_⟩,
    List.forall_mem_singleton.mpr (List.forall_mem_singleton.mpr (by decide +kernel))⟩
  rw [hstart]
  by_contra hk
  refine hbracket ?_
  obtain ⟨j, rfl⟩ := Nat.exists_eq_add_one_of_ne_zero (Ne.symm hk)
  rw [Nat.add_comm, ← List.drop_drop] at hbegins
  exact List.mem_of_mem_drop (hbegins.subset List.mem_cons_self)

/-- The second visit finds the other picture, which is to go into the document itself. -/
theorem inlines_echo : ∃ u ∈ documentVisits apartOptions echoText (some "src/a.svelte") echoFiles,
    u.Inlines apartOptions := by
  have hmap : (documentVisits apartOptions echoText (some "src/a.svelte") echoFiles).map
      (fun u ↦ (u.shown? apartOptions, (u.before.files.content? ["src", "g", "x.png"]).map
        fun c ↦ (c.size, (Picture.mimeType? "x.png" c).isSome))) =
      [(some (.tag, ⟨.ofParts ["src", "g", "x.png"], .ofParts ["static", "g"], "g", "webp"⟩),
        some (33, true))] := by decide +kernel
  obtain ⟨u, hu, hfacts⟩ := List.map_eq_singleton_iff.mp hmap
  obtain ⟨hshown, hmap⟩ := Prod.mk.inj hfacts
  obtain ⟨c, hc, hpair⟩ := Option.map_eq_some_iff.mp hmap
  obtain ⟨hsize, hmime⟩ := Prod.mk.inj hpair
  exact ⟨u, hu ▸ List.mem_singleton_self u, _, c, hshown, hc, by rw [hsize]; rfl, hmime⟩

end ResponsiveImage.Rewrite
