import ResponsiveImage.Proofs.Picture.InlineUri
import ResponsiveImage.Proofs.Picture.PublicUrls
import ResponsiveImage.Proofs.Rewrite.Revisits

/-!
# Reading back what has been written

What is written in place of a source is data, or the URL of a copy of the image (`Ends.written`).  When
the document is rewritten again, data is left alone, and a URL is looked up like any other source.  An
image that is found there is called like the first one, so that it is given that very URL, unless it is
small enough to go into the document itself (`Visit.reread`).
-/

namespace ResponsiveImage

open Job

variable {o : Options} {placeholder : Placeholder} {w w' : Workspace} {p p' : OutputPlan}

/-! ## What is written -/

/-- What replaces an image tag is the URL of the copy, or the image itself if it is small. -/
theorem OutputPlan.uri_of_optimizeSingle [Codec] (hw : w.IsSound) (hp : p.IsFor o) {uri : String}
    (h : (p.optimizeSingle o).run w = (.ok uri, w')) :
    ∃ c, w.files.content? p.source.parts = some c ∧
      (isInlined o c.size = .ok false ∧ uri = p.url ∨ isInlined o c.size = .ok true ∧
        ∃ mime, Picture.mimeType? p.name c = some mime ∧ uri = Picture.dataUri mime c.data) := by
  rcases run_optimizeSingle_cases hw hp with
    ⟨f, w₁, hfail, -⟩ | ⟨c, uri', hc, hinlined, -⟩ | ⟨c, -, -, w₁, hc, -, hlarge, -, hok, -, -, -⟩
  · rw [hfail] at h
    cases h
  · rw [run_optimizeSingle_of_isInlined hw hp hc hinlined,
      run_inlineData_of_content? hw hp.source hc] at h
    refine ⟨c, hc, .inr ⟨hinlined, ?_⟩⟩
    split at h
    · rename_i mime hmime
      cases h
      exact ⟨mime, hmime, rfl⟩
    · cases h
  · rw [hok] at h
    cases h
    exact ⟨c, hc, .inl ⟨hlarge, rfl⟩⟩

theorem Picture.isPrefix_dataUri (mime : String) (data : List UInt8) :
    "data:".toList <+: (dataUri mime data).toList := by
  rw [toList_dataUri]
  exact List.prefix_append _ _

/-- A literal text that is looked up as it stands in the file tree, and is not the beginning of the word
that marks data. -/
structure Resolution.IsPlain (text : List Char) : Prop where
  trim_eq : Text.trim text = text
  isExternal : Url.isExternal text = false
  not_isPrefix : ¬ text <+: "data:".toList

/-- The name of an image tells the part that it plays. -/
theorem Eligibility.role_eq {m n : Markup.Node} {role role' : Role}
    {extensions extensions' : List Json.Value} (hname : m.name = n.name)
    (hm : ofNode m o = .ok (.eligible role extensions))
    (hn : ofNode n o = .ok (.eligible role' extensions')) : role = role' := by
  have hofSource : ∀ {k : Markup.Node} {r r' : Role} {es es' : List Json.Value},
      ofSource k r es = .ok (.eligible r' es') → r' = r := by
    intro k r r' es es' h
    rw [ofSource] at h
    split at h
    · cases h
      rfl
    · cases hallowed : isAllowed _ es with
      | error f =>
        rw [hallowed] at h
        cases h
      | ok b =>
        rw [hallowed] at h
        cases b <;> cases h
        rfl
  have hnamed : isNamed m o.tagName = isNamed n o.tagName := by
    unfold isNamed
    rw [hname]
  unfold ofNode at hm hn
  rw [hnamed, hname] at hm
  dsimp only at hm hn
  split at hm
  · rename_i htag
    rw [if_pos htag] at hn
    exact (hofSource hm).trans (hofSource hn).symm
  · rename_i htag
    rw [if_neg htag] at hn
    split at hm
    · rename_i hcomponent
      rw [if_pos hcomponent] at hn
      exact (hofSource hm).trans (hofSource hn).symm
    · split at hm <;> cases hm

namespace Rewrite

variable {vs : List Visit} {u v : Visit} {q : Progress} {role : Role} {image : Path} {es : List Edit}

/-- What is written in place of a source is data, or the URL of the copy of a tag. -/
theorem Ends.written [Codec] (hsteady : placeholder.IsSteady) (hw : v.before.IsSound)
    (hd : v.document.directory.IsResolved) (h : Ends o placeholder w vs v q) {e : Edit}
    (he : q.edits.head? = some e) :
    Resolution.IsData e.replacement ∨
      ∃ p, v.shown? o = some (.tag, p) ∧ e.replacement = p.url.toList := by
  cases h with
  | failed => cases he
  | completed hc h₁ hvariants hne h₂ hshown hextension hextra =>
    cases he
    exact .inl (hsteady.isData hshown)
  | visited hpending =>
    cases v.course o hw hd with
    | skipped _ hedits _ _ =>
      rw [Visit.edits] at hedits
      rw [hedits] at he
      cases he
    | tagFailed _ _ _ hprogress =>
      rw [hprogress] at he
      cases he
    | componentFailed _ _ _ hprogress =>
      rw [hprogress] at he
      cases he
    | componentOpened _ _ _ _ hprogress =>
      rw [hprogress] at hpending
      cases hpending
    | @tagMade p w₁ uri span hs hmade hprogress =>
      rw [hprogress] at he
      cases he
      obtain ⟨c, -, ⟨-, rfl⟩ | ⟨-, mime, -, rfl⟩⟩ :=
        OutputPlan.uri_of_optimizeSingle hs.isSound hs.isMade.toIsFor hmade
      · exact .inr ⟨p, hs.shown, rfl⟩
      · exact .inl (Resolution.isData_of_isPrefix (Picture.isPrefix_dataUri mime c.data))

theorem Ends.eq_progress [Codec] (h : Ends o placeholder w vs v q)
    (hclosed : (v.progress o).isPending = false) :
    q = v.progress o := by
  cases h with
  | visited => rfl
  | failed hc =>
    rw [hc] at hclosed
    cases hclosed
  | completed hc =>
    rw [hc] at hclosed
    cases hclosed

/-- What is found has a literal source. -/
theorem Visit.literalSource?_ne_none {w₀ : Workspace} (hfound : v.found? o = some (role, image, w₀)) :
    Eligibility.literalSource? v.node ≠ none := by
  obtain ⟨extensions, text, -, htext, hfind⟩ := found?_eq_some_iff_findText.mp hfound
  rw [literalSource?_eq, htext, Option.bind_some]
  rw [Resolution.findText] at hfind
  dsimp only at hfind
  split at hfind
  · cases hfind
  · rename_i hblank
    rw [if_neg hblank]
    exact Option.some_ne_none _

/-- An image that is given something has a literal source. -/
theorem Ends.literalSource?_ne_none [Codec] (hw : v.before.IsSound)
    (hd : v.document.directory.IsResolved)
    (h : Ends o placeholder w vs v q) (hne : q.edits ≠ []) :
    Eligibility.literalSource? v.node ≠ none := by
  by_cases hcomes : ∃ r, v.ComesTo o r
  · obtain ⟨r, role, image, w₀, hfound, -⟩ := hcomes
    exact Visit.literalSource?_ne_none hfound
  · obtain ⟨hclosed, hedits⟩ := Visit.closed_of_not_comesTo hw hd (not_exists.mp hcomes)
    rw [h.eq_progress hclosed] at hne
    exact absurd hedits hne

/-! ## What is read back -/

namespace Visit

theorem not_isData_of_found {text : List Char} {w₀ : Workspace} (htext : u.text? = some text)
    (hfound : u.found? o = some (role, image, w₀)) : ¬ Resolution.IsData text := by
  obtain ⟨extensions, text', -, htext', hfind⟩ := found?_eq_some_iff_findText.mp hfound
  cases htext.symm.trans htext'
  exact Resolution.not_isData_of_findText hfind

/-- What is data already is left alone. -/
theorem closed_of_isData [Codec] (hw : u.before.IsSound) (hd : u.document.directory.IsResolved)
    {text : List Char} (htext : u.text? = some text) (hdata : Resolution.IsData text) :
    (u.progress o).isPending = false ∧ (u.progress o).edits = [] := by
  refine closed_of_not_comesTo hw hd ?_
  rintro q ⟨role, image, w₀, hfound, -⟩
  exact not_isData_of_found htext hfound hdata

/-- The visit shows an image tag whose image is small enough to go into the document itself. -/
def Inlines (o : Options) (u : Visit) : Prop :=
  ∃ p c, u.shown? o = some (.tag, p) ∧ u.before.files.content? p.source.parts = some c ∧
    OutputPlan.isInlined o c.size = .ok true ∧ (Picture.mimeType? p.name c).isSome = true

theorem not_inlines_of_isData (hw : u.before.IsSound) (hd : u.document.directory.IsResolved)
    {text : List Char} (htext : u.text? = some text) (hdata : Resolution.IsData text) :
    ¬ u.Inlines o := by
  rintro ⟨p, c, hshown, -⟩
  obtain ⟨w₀, hfound, -⟩ := exists_found_of_shown hw hd hshown
  exact not_isData_of_found htext hfound hdata

/-- What is found of a plain text is at one of the places in the file tree, and was there before. -/
theorem of_found_plain (hw : u.before.IsSound) (hd : u.document.directory.IsResolved)
    {text : List Char} (htext : u.text? = some text) (hplain : Resolution.IsPlain text)
    {w₀ : Workspace} (hfound : u.found? o = some (role, image, w₀)) :
    image ∈ Resolution.localPlaces o u.before.cwd u.document.directory text ∧
      ∃ c, u.before.files.content? image.parts = some c := by
  obtain ⟨c, hmeets⟩ := exists_meets hw hd hfound
  obtain ⟨extensions, text', -, htext', hsees⟩ := meets_iff.mp hmeets
  cases htext.symm.trans htext'
  have hfind := Resolution.findText_of_sees hsees u.before
  rw [hplain.trim_eq, hplain.isExternal, if_neg Bool.false_ne_true] at hfind
  obtain ⟨w₁, hrun, hc⟩ := hsees
  rw [hfind] at hrun
  obtain rfl := (Resolution.looks_findFile _ _ _).eq hrun
  exact ⟨Resolution.mem_localPlaces_of_findFile hw hd hrun, c, hc⟩

variable [Codec]

/-- An image that is found at the URL of a copy has that URL itself. -/
theorem url_eq_of_shown (hw : u.before.IsSound) (hd : u.document.directory.IsResolved)
    (hp : IsName p.name)
    (hbase : o.urlBase = .ok p.urlBase) (htext : u.text? = some p.url.toList)
    (hplain : Resolution.IsPlain p.url.toList) (h : u.shown? o = some (role, p')) :
    p'.url = p.url := by
  obtain ⟨w₀, hfound, -⟩ := exists_found_of_shown hw hd h
  obtain ⟨hplace, -⟩ := of_found_plain hw hd htext hplain hfound
  have hname : p'.name = p.name :=
    Resolution.name_of_mem_localPlaces hplace (OutputPlan.partsOf_urlOf p hp) hp.ne_dots
  have hbase' : p'.urlBase = p.urlBase :=
    Except.ok.inj ((isMade_of_shown hw hd h).urlBase.symm.trans hbase)
  rw [OutputPlan.url, OutputPlan.urlOf, hname, hbase']
  rfl

/-- An image tag whose image is to go into the document is given it. -/
theorem edits_of_inlines (hw : u.before.IsSound) (hd : u.document.directory.IsResolved)
    (hsource : ∀ role image w₀, u.found? o = some (role, image, w₀) →
      ¬ o.Unfinished u.before.cwd image.parts ∧ ¬ o.InOutputs u.before.cwd image.parts)
    (h : u.Inlines o) :
    (u.progress o).isPending = false ∧ ∃ e, u.edits o = [e] ∧ "data:".toList <+: e.replacement := by
  obtain ⟨p, c, hshown, hc, hinlined, hmime⟩ := h
  -- the image is still there once its copy has been put in its place
  have hthere : ∀ {w : Workspace}, u.Stages o .tag p w → w.files.content? p.source.parts = some c := by
    intro w hs
    obtain ⟨w₀, hfound, -⟩ := exists_found_of_shown hw hd hshown
    obtain ⟨hunfinished, hout⟩ := hsource _ _ _ hfound
    refine hs.evolves.content?_of_some ?_ hc
    rintro (h | h)
    · exact hunfinished h
    · exact hout (h ▸ hs.isMade.parts_path ▸ hs.isMade.inOutputs p.name)
  cases u.course o hw hd with
  | skipped hnone _ _ _ => cases hnone.symm.trans hshown
  | componentFailed hs _ _ _ => cases hs.shown.symm.trans hshown
  | componentOpened hs _ _ _ _ => cases hs.shown.symm.trans hshown
  | tagFailed hs hfailed _ _ =>
    cases hs.shown.symm.trans hshown
    obtain ⟨mime, hmime⟩ := Option.isSome_iff_exists.mp hmime
    rw [OutputPlan.name] at hmime
    have hp := hs.isMade.toIsFor
    rw [OutputPlan.run_optimizeSingle_of_isInlined hs.isSound hp (hthere hs) hinlined,
      OutputPlan.run_inlineData_of_content? hs.isSound hp.source (hthere hs), hmime] at hfailed
    cases hfailed
  | tagMade hs hmade hprogress =>
    cases hs.shown.symm.trans hshown
    obtain ⟨c', hc', hcases⟩ := OutputPlan.uri_of_optimizeSingle hs.isSound hs.isMade.toIsFor hmade
    cases (hthere hs).symm.trans hc'
    rw [edits, hprogress]
    rcases hcases with ⟨hlarge, -⟩ | ⟨-, mime, -, rfl⟩
    · cases hinlined.symm.trans hlarge
    · exact ⟨rfl, _, rfl, Picture.isPrefix_dataUri mime c.data⟩

/-- An image tag whose source is the URL of a copy is left alone or given that URL once more, unless its
image is to go into the document. -/
theorem reread (hw : u.before.IsSound) (hd : u.document.directory.IsResolved)
    (hvw : v.before.IsSound) (hvd : v.document.directory.IsResolved)
    (hname : u.node.name = v.node.name) (hv : v.shown? o = some (.tag, p))
    (htext : u.text? = some p.url.toList) (hplain : Resolution.IsPlain p.url.toList)
    (hsource : ∀ role image w₀, u.found? o = some (role, image, w₀) →
      ¬ o.Unfinished u.before.cwd image.parts ∧ ¬ o.InOutputs u.before.cwd image.parts) :
    (u.progress o).isPending = false ∧
      (¬ u.Inlines o → u.edits o = [] ∨ ∃ e, u.edits o = [e] ∧ e.replacement = p.url.toList) := by
  have hmade := isMade_of_shown hvw hvd hv
  have hrole : ∀ {role : Role} {p' : OutputPlan}, u.shown? o = some (role, p') → role = .tag := by
    intro role p' h
    obtain ⟨w₀, hfound, -⟩ := exists_found_of_shown hw hd h
    obtain ⟨w₁, hfound', -⟩ := exists_found_of_shown hvw hvd hv
    obtain ⟨extensions, heligible, -⟩ := found?_eq_some_iff.mp hfound
    obtain ⟨extensions', heligible', -⟩ := found?_eq_some_iff.mp hfound'
    exact Eligibility.role_eq hname heligible heligible'
  cases u.course o hw hd with
  | skipped _ hedits hpending _ => exact ⟨hpending, fun _ ↦ .inl hedits⟩
  | tagFailed _ _ _ hprogress =>
    rw [edits, hprogress]
    exact ⟨rfl, fun _ ↦ .inl rfl⟩
  | componentFailed hs _ _ _ => cases hrole hs.shown
  | componentOpened hs _ _ _ _ => cases hrole hs.shown
  | @tagMade p' w₁ uri span hs hmade' hprogress =>
    obtain ⟨w₀, hfound, -⟩ := exists_found_of_shown hw hd hs.shown
    obtain ⟨-, c, hc⟩ := of_found_plain hw hd htext hplain hfound
    obtain ⟨hunfinished, hout⟩ := hsource _ _ _ hfound
    have hc₁ : w₁.files.content? p'.source.parts = some c := by
      refine hs.evolves.content?_of_some ?_ hc
      rintro (h | h)
      · exact hunfinished h
      · exact hout (h ▸ hs.isMade.parts_path ▸ hs.isMade.inOutputs p'.name)
    obtain ⟨c', hc', hcases⟩ :=
      OutputPlan.uri_of_optimizeSingle hs.isSound hs.isMade.toIsFor hmade'
    cases hc₁.symm.trans hc'
    rw [edits, hprogress]
    refine ⟨rfl, fun hnot ↦ ?_⟩
    rcases hcases with ⟨-, rfl⟩ | ⟨hinlined, mime, hmime, -⟩
    · have hurl := url_eq_of_shown hw hd hmade.toIsFor.isName hmade.urlBase htext hplain hs.shown
      exact .inr ⟨_, rfl, congrArg String.toList hurl⟩
    · exact absurd ⟨p', c, hs.shown, hc, hinlined, by rw [hmime]; rfl⟩ hnot

end Visit

/-- An image as it is read back: it is called as before and its source is the first text that was written
for it, which is data or plain, or the source it had if nothing was written. -/
structure ReadsBack (es : List Edit) (v u : Visit) : Prop where
  name : u.node.name = v.node.name
  kept : es = [] → u.text? = v.text?
  written : ∀ e ∈ es.head?, u.text? = some e.replacement
  isPlain : ∀ e ∈ es.head?, ¬ Resolution.IsData e.replacement → Resolution.IsPlain e.replacement

/-- An image that is read back is not misconfigured unless it was. -/
theorem ReadsBack.isMisconfigured (h : ReadsBack es v u)
    (hes : es ≠ [] → Eligibility.literalSource? v.node ≠ none)
    (hu : Eligibility.IsMisconfigured u.node o) : Eligibility.IsMisconfigured v.node o := by
  obtain ⟨hsource, hlooked⟩ := hu
  refine ⟨?_, ?_⟩
  · by_cases hnil : es = []
    · rwa [Visit.literalSource?_eq, h.kept hnil, ← Visit.literalSource?_eq] at hsource
    · exact hes hnil
  · have hsame : Eligibility.looked u.node o = Eligibility.looked v.node o := by
      unfold Eligibility.looked Eligibility.isNamed
      rw [h.name]
    exact hsame ▸ hlooked

/-- An image that is read back is left alone or given its source once more, unless it is to go into the
document, and then it does. -/
theorem Tidy.reread [Codec] {us : List Visit} {r : Progress} {x y : Workspace}
    (ht : Tidy o w.cwd (vs ++ us)) (hw : w.IsSound) (hname : o.NamesAlternate)
    (hsteady : placeholder.IsSteady) (hx : History o w vs x) (hy : History o w (vs ++ us) y)
    (hv : v ∈ vs)
    (hu : u ∈ us) (hdirectory : u.document.directory = v.document.directory)
    (hq : Ends o placeholder w vs v q) (hr : Ends o placeholder w (vs ++ us) u r)
    (h : ReadsBack q.edits v u) :
    (¬ u.Inlines o → r.edits = [] ∨ ∃ f, r.edits = [f] ∧ u.text? = some f.replacement) ∧
    (u.Inlines o → ∃ f text, r.edits = [f] ∧ u.text? = some text ∧
      "data:".toList <+: f.replacement ∧ ¬ text <+: "data:".toList ∧ ¬ "data:".toList <+: text) := by
  have hall := hy.sound hw
  have hmem := List.mem_append_right vs hu
  obtain ⟨hvw, -⟩ := (hx.sound hw).before v hv
  have hvd := (hx.sound hw).directory v hv
  obtain ⟨huw, hucwd⟩ := hall.before u hmem
  have hud := hall.directory u hmem
  have hsource : ∀ role image w₀, u.found? o = some (role, image, w₀) →
      ¬ o.Unfinished u.before.cwd image.parts ∧ ¬ o.InOutputs u.before.cwd image.parts :=
    fun role image w₀ hfound ↦ hucwd ▸ ht.not_output hmem huw hucwd hud hfound
  have hinlined : u.Inlines o → ∃ f, r.edits = [f] ∧ "data:".toList <+: f.replacement := by
    intro hinlines
    obtain ⟨hclosed, f, hf, hbegins⟩ := Visit.edits_of_inlines huw hud hsource hinlines
    rw [hr.eq_progress hclosed]
    exact ⟨f, hf, hbegins⟩
  cases hhead : q.edits.head? with
  | none =>
    have hnil := List.head?_eq_none_iff.mp hhead
    have htwins : u.Twins v := ⟨h.name, h.kept hnil, hdirectory⟩
    have heq := ht.replacements_eq hall hw hname hsteady (List.subset_append_left _ _)
      (List.Subset.refl _) hv hmem htwins hx hy hq hr
    rw [hnil, List.map_nil] at heq
    have hnone : r.edits = [] := List.map_eq_nil_iff.mp heq.symm
    refine ⟨fun _ ↦ .inl hnone, fun hinlines ↦ ?_⟩
    obtain ⟨f, hf, -⟩ := hinlined hinlines
    cases hnone.symm.trans hf
  | some e =>
    have htext := h.written e hhead
    by_cases hdata : Resolution.IsData e.replacement
    · obtain ⟨hclosed, hedits⟩ := Visit.closed_of_isData (o := o) huw hud htext hdata
      rw [hr.eq_progress hclosed]
      exact ⟨fun _ ↦ .inl hedits,
        fun hinlines ↦ absurd hinlines (Visit.not_inlines_of_isData huw hud htext hdata)⟩
    · obtain ⟨p, hshown, hurl⟩ := (hq.written hsteady hvw hvd hhead).resolve_left hdata
      have hplain := h.isPlain e hhead hdata
      rw [hurl] at htext hplain hdata
      obtain ⟨hclosed, hsame⟩ := Visit.reread huw hud hvw hvd h.name hshown htext hplain hsource
      refine ⟨fun hnot ↦ ?_, fun hinlines ↦ ?_⟩
      · rw [hr.eq_progress hclosed]
        refine (hsame hnot).imp_right ?_
        rintro ⟨f, hf, heq⟩
        exact ⟨f, hf, heq ▸ htext⟩
      · obtain ⟨f, hf, hbegins⟩ := hinlined hinlines
        exact ⟨f, _, hf, htext, hbegins, hplain.not_isPrefix,
          fun h ↦ hdata (Resolution.isData_of_isPrefix h)⟩

end Rewrite

end ResponsiveImage
