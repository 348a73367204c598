import ResponsiveImage.Picture.HeaderCodec
import ResponsiveImage.Proofs.Options.Defaults
import ResponsiveImage.Proofs.Picture.Renditions
import ResponsiveImage.Proofs.Rewrite.Closing

/-!
# The attributes of a component

A component is given attributes that offer its variants.  The files of the variants lie in one flat
directory, and a file that is there already is used again, so that earlier rewrites can be felt: an
image of the same name in another directory lends its dimensions.  Where no other image's copy or
rendition, and no download, has the place of one of its renditions, the attributes are told by the
image alone, whatever has been rewritten before.
-/

namespace ResponsiveImage.Rewrite

open Workspace (Evolves)
open Job

variable {o : Options} {placeholder : Placeholder} {w w₁ w₂ : Workspace} {vs : List Visit}
  {v : Visit} {p : OutputPlan} {h : Header} {sizes : List Number} {c : Component}

/-! ## Images that nothing else is put in the way of -/

/-- The components that some visits open. -/
def components [Codec] (o : Options) (vs : List Visit) : List Component :=
  vs.filterMap fun v ↦
    match v.progress o with
    | .awaiting c => some c
    | _ => none

theorem mem_components_of_awaiting [Codec] (hv : v ∈ vs) (hc : v.progress o = .awaiting c) :
    c ∈ components o vs := by
  rw [components, List.mem_filterMap]
  exact ⟨v, hv, by rw [hc]⟩

/-- Visits, from a workspace on, that leave an image as it is and put nothing where its renditions go,
and open no components that do so, except for renditions of that image. -/
structure Undisturbed [Codec] (o : Options) (p : OutputPlan) (sizes : List Number) (w : Workspace)
    (vs : List Visit) : Prop where
  absent : ∀ k ∈ sizes, w.files.content? (p.sizedPath k).parts = none
  kept : ∀ v ∈ vs, ∀ c, v.before.files.content? p.source.parts = some c →
    (v.after o).files.content? p.source.parts = some c
  copies : ∀ q ∈ plans o vs, ∀ k ∈ sizes, q.path.parts ≠ (p.sizedPath k).parts
  renditions : ∀ c ∈ components o vs, ∀ k ∈ c.sizes, p.Avoids sizes c.plan k
  downloads : ∀ k ∈ sizes, ¬ o.Unfinished w.cwd (p.sizedPath k).parts ∧
    ¬ o.Fetched w.cwd (p.sizedPath k).parts

theorem Undisturbed.of_append [Codec] {us : List Visit} (hu : Undisturbed o p sizes w (vs ++ us)) :
    Undisturbed o p sizes w vs := by
  refine ⟨hu.absent, fun v hv ↦ hu.kept v (List.mem_append_left _ hv), fun q hq ↦ hu.copies q ?_,
    fun c hc ↦ hu.renditions c ?_, hu.downloads⟩
  · rw [plans, List.filterMap_append]
    exact List.mem_append_left _ hq
  · rw [components, List.filterMap_append]
    exact List.mem_append_left _ hc

/-- An undisturbed image owns its renditions all along. -/
theorem owns_of_history [Codec] (hw : w.IsSound) (hhistory : History o w vs w₁)
    (hu : Undisturbed o p sizes w vs) : p.Owns sizes w₁ := by
  induction hhistory with
  | start =>
    intro k hk d hd
    rw [hu.absent k hk] at hd
    cases hd
  | quiet hhistory halike ih =>
    have he : Evolves Nowhere Nowhere _ _ := halike.evolves (hhistory.sound hw).isSound
    exact (ih hu).of_evolves he (fun c hc ↦ he.content?_of_some id hc) (fun _ _ ↦ id) (fun _ _ ↦ id)
  | @visit vs w₁ hhistory d hd n ih =>
    have hsound := hhistory.sound hw
    have he := Visit.evolves (o := o) (v := ⟨d, n, w₁⟩) hsound.isSound hd
    have hlast : (⟨d, n, w₁⟩ : Visit) ∈ vs ++ [⟨d, n, w₁⟩] :=
      List.mem_append_right _ List.mem_cons_self
    refine (ih hu.of_append).of_evolves he (hu.kept _ hlast) (fun k hk ↦ ?_) (fun k hk ↦ ?_)
    · rintro (hunfinished | ⟨role, q, hshown, heq⟩)
      · rw [hsound.cwd_eq] at hunfinished
        exact (hu.downloads k hk).1 hunfinished
      · exact hu.copies q (mem_plans_of_shown hlast hshown) k hk heq.symm
    · rw [hsound.cwd_eq]
      exact (hu.downloads k hk).2
  | @expand vs w₁ hhistory v c hv hc ih =>
    have hsound := hhistory.sound hw
    have hplan := Visit.isMade_of_awaiting (hsound.before v hv).1 (hsound.directory v hv) hc
    exact Variant.owns_ofSizes hsound.isSound (ih hu) hplan.2.toIsFor
      (hu.renditions c (mem_components_of_awaiting hv hc)) c.header

/-- What an undisturbed image is, once it has been visited, it stays. -/
theorem kept_of_history [Codec] (hw : w.IsSound) (hhistory : History o w vs w₁)
    (hu : Undisturbed o p sizes w vs) (hv : v ∈ vs) {d : Content}
    (hd : (v.after o).files.content? p.source.parts = some d) :
    w₁.files.content? p.source.parts = some d := by
  induction hhistory with
  | start => cases hv
  | quiet _ halike ih =>
    rw [halike.files_eq]
    exact ih hu hv
  | @visit vs w₁ hhistory doc hdoc n ih =>
    rcases List.mem_append.mp hv with hv | hv
    · exact hu.kept _ (List.mem_append_right _ List.mem_cons_self) d (ih hu.of_append hv)
    · rw [List.mem_singleton.mp hv] at hd
      exact hd
  | @expand vs w₁ hhistory v c hv' hc ih =>
    have hsound := hhistory.sound hw
    have hplan := Visit.isMade_of_awaiting (hsound.before v hv').1 (hsound.directory v hv') hc
    exact (Variant.within_ofSizes hplan.2.toIsFor c.sizes c.header w₁
      hsound.isSound).content?_of_some id (ih hu hv)

/-! ## Attributes told by the image -/

/-- The attributes that an image alone tells of its variants. -/
def toldAttributes (o : Options) (p : OutputPlan) (h : Header) : Except Fault String := do
  let variants ← Variant.toldOfSizes p (candidateSizes o.sizes (.int h.width)) h o
  let extension ← Progress.offeredExtension o
  Srcset.attributes variants o.breakpoints extension

/-- An undisturbed image that is shown in a component and edited is given what it tells itself. -/
theorem replacements_of_ends [Codec] (hw : w.IsSound) (hsound : History.Sound o w vs w₁) (hv : v ∈ vs)
    {q : Progress} (hends : Ends o placeholder w vs v q) (hne : q.edits ≠ [])
    (hshown : v.shown? o = some (.component, p))
    (hheader : ((Picture.header p.source).run (v.after o)).1 = .ok h)
    (hu : Undisturbed o p (candidateSizes o.sizes (.int h.width)) w vs) :
    ∃ shown extra, toldAttributes o p h = .ok extra ∧
      q.edits.map (·.replacement) = [shown, extra.toList] := by
  have hvw := (hsound.before v hv).1
  have hvd := hsound.directory v hv
  cases v.course o hvw hvd with
  | skipped hnone _ _ _ => cases hnone.symm.trans hshown
  | tagFailed hs _ _ _ => cases hs.shown.symm.trans hshown
  | tagMade hs _ _ => cases hs.shown.symm.trans hshown
  | componentFailed _ _ _ hprogress =>
    cases hends with
    | visited _ =>
      rw [hprogress] at hne
      exact absurd rfl hne
    | failed hc _ _ _ => cases hprogress.symm.trans hc
    | completed hc _ _ _ _ _ _ _ => cases hprogress.symm.trans hc
  | @componentOpened w₀ c hs hafter hread hsizes hprogress =>
    cases hends with
    | visited hpending =>
      rw [hprogress] at hpending
      cases hpending
    | failed _ _ _ _ => exact absurd rfl hne
    | @completed c' hc w₂ w₃ variants shown extension extra h₂ hvariants _ _ _ hextension hextra =>
      cases hprogress.symm.trans hc
      cases hs.shown.symm.trans hshown
      have hpm := hs.isMade
      obtain ⟨-, d, hd, hdh⟩ := (Picture.run_header_eq_ok_iff hs.isSound hpm.source).mp hread
      have hd' := hafter.content?_of_some id hd
      have hheader' := (Picture.run_header_eq_ok_iff hafter.isSound hpm.source).mpr
        ⟨rfl, d, hd', hdh⟩
      rw [hheader'] at hheader
      cases hheader
      rw [hsizes] at hvariants
      have htells : Variant.Tells c.plan (candidateSizes o.sizes (.int c.header.width)) c.header w₂ :=
        ⟨(h₂.sound hw).isSound, owns_of_history hw h₂ hu, d, kept_of_history hw h₂ hu hv hd', hdh⟩
      have havoids := hu.renditions c (mem_components_of_awaiting hv hprogress)
      rw [hsizes] at havoids
      have htold := Variant.told_of_ofSizes htells hpm.toIsFor havoids hvariants
      refine ⟨shown.toList, extra, ?_, rfl⟩
      rw [toldAttributes, htold, hextension]
      exact hextra

/-! ## Two pasts -/

/-- The edits that the images of some pages come to, if these are worked on without fail. -/
def editsOf : Except Fault (List Page) → List (List Edit)
  | .ok pages => (pages.flatMap (·.progress)).map (·.edits)
  | .error _ => []

/-- The edits that a rewrite of a document comes to for each of its images. -/
def nodeEdits [Codec] (o : Options) (placeholder : Placeholder) (d : Document) (w : Workspace) :
    List (List Edit) :=
  editsOf ((completed o placeholder [d]).run w).1

/-- After some rewrites, a rewrite of a document comes to some edits of one of its images, which is
shown in a component and undisturbed all along. -/
structure Offers [Codec] (o : Options) (placeholder : Placeholder) (w : Workspace)
    (dss : List (List Document)) (d : Document) (i : Nat) (p : OutputPlan) (h : Header)
    (es : List Edit) : Prop where
  resolved : ∀ ds ∈ dss, ∀ d ∈ ds, d.directory.IsResolved
  undisturbed : Undisturbed o p (candidateSizes o.sizes (.int h.width)) w
    (allVisits o placeholder dss w ++ visits o [d] (leave o placeholder dss w))
  shown : ∃ v, (visits o [d] (leave o placeholder dss w))[i]? = some v ∧
    v.shown? o = some (.component, p) ∧
    ((Picture.header p.source).run (v.after o)).1 = .ok h
  edited : (nodeEdits o placeholder d (leave o placeholder dss w))[i]? = some es
  ne_nil : es ≠ []

theorem Offers.replacements [Codec] (hw : w.IsSound) (hplaceholder : ∀ p, Looks (placeholder p))
    {d : Document} (hd : d.directory.IsResolved) {dss : List (List Document)} {i : Nat}
    {es : List Edit} (hoffers : Offers o placeholder w dss d i p h es) :
    ∃ shown extra, toldAttributes o p h = .ok extra ∧
      es.map (·.replacement) = [shown, extra.toList] := by
  obtain ⟨v, hv, hshown, hheader⟩ := hoffers.shown
  have hedited := hoffers.edited
  have hpast := history_leave (o := o) hplaceholder hw hoffers.resolved .start
  rw [List.nil_append] at hpast
  obtain ⟨hhistory, hends⟩ := history_completed hplaceholder hw
    (List.forall_mem_singleton.mpr hd) hpast
  rw [nodeEdits] at hedited
  cases hpages : ((completed o placeholder [d]).run (leave o placeholder dss w)).1 with
  | error f =>
    rw [hpages] at hedited
    cases hedited
  | ok pages =>
    rw [hpages] at hedited
    have hends := hends pages hpages
    rw [editsOf, List.getElem?_map, Option.map_eq_some_iff] at hedited
    obtain ⟨q, hq, rfl⟩ := hedited
    obtain ⟨hlt, hvi⟩ := List.getElem?_eq_some_iff.mp hv
    obtain ⟨hlt', hqi⟩ := List.getElem?_eq_some_iff.mp hq
    have hend := hends.get hlt hlt'
    rw [List.get_eq_getElem, List.get_eq_getElem, hvi, hqi] at hend
    have hmem := List.mem_append_right (allVisits o placeholder dss w) (List.mem_of_getElem? hv)
    exact replacements_of_ends hw (hhistory.sound hw) hmem hend hoffers.ne_nil hshown hheader
      hoffers.undisturbed

open scoped HeaderCodec

/-- Options that ask for one size, in the format of the picture alone. -/
def oneSize : Options :=
  { Options.defaults with sizes := [.int 400], breakpoints := [.int 375], altFormat := .bool false }

/-- Pictures in two directories, two of them of one name. -/
def namesakes : Workspace where
  cwd := []
  files := ⟨[(["src"], .directory), (["src", "a"], .directory), (["src", "b"], .directory),
    (["src", "a", "x.png"], .file (HeaderCodec.file ⟨"PNG", 1000, 500⟩)),
    (["src", "b", "x.png"], .file (HeaderCodec.file ⟨"PNG", 1000, 1000⟩)),
    (["src", "b", "y.png"], .file (HeaderCodec.file ⟨"PNG", 1000, 1000⟩))]⟩

/-- A document that shows one picture in a component. -/
def showing (source : String) : Document := ⟨s!"<Image src=\"{source}\">".toList, .ofParts ["src"]⟩

/-- The images of the document. -/
def shownNodes (source : String) : List Markup.Node :=
  Markup.imagesOf (showing source).text "Image".toList

/-- The work on the document. -/
def workOn (source : String) : Job (List Page) :=
  worked oneSize (Placeholder.label .trace) [(showing source, shownNodes source)]

/-- The only page of some work, and what the work leaves. -/
def alone? : Except Fault (List Page) × Workspace → Option (Page × Workspace)
  | (.ok [page], w) => some (page, w)
  | _ => none

/-- What is left by the document that shows the picture in the first directory. -/
def afterFirst : Workspace :=
  match alone? ((workOn "a/x.png").run namesakes) with
  | some (page, w) => page.closed w
  | none => namesakes

/-- The edits of that document. -/
def firstEdits : List Edit :=
  [⟨12, 19, "data:trace,x.png".toList⟩, ⟨20, 20, " srcset=\"g/x-400.png 375w\" ratio=\"50%\"".toList⟩]

theorem run_inSourceTree_src (hcwd : w.cwd = []) :
    (Page.inSourceTree oneSize (.ofParts ["src"])).run w = (.ok true, w) := by
  obtain ⟨cwd, files, remote, log, requests⟩ := w
  cases hcwd
  rfl

theorem run_opened_showing {source : String} (hcwd : w.cwd = [])
    (hmarkers : Markup.hasMarkers (showing source).text oneSize.tagName.text.toList = true)
    (hparse : (Markup.parse (showing source).text "Image".toList).isOk = true) :
    ([showing source].mapM (Page.opened oneSize)).run w =
      (.ok [(showing source, shownNodes source)], w) :=
  run_opened_singleton hmarkers (run_inSourceTree_src hcwd) (images_eq_ok hparse)

theorem leave_first : leave oneSize (Placeholder.label .trace) [[showing "a/x.png"]] namesakes =
    afterFirst := by
  have halone : (alone? ((workOn "a/x.png").run namesakes)).map (fun r ↦ (r.1.document,
      r.1.fault?.isNone, r.1.result?, r.1.progress.flatMap (·.edits))) =
      some (showing "a/x.png", true, none, firstEdits) := by decide +kernel
  obtain ⟨⟨page, w₁⟩, hpage, hfacts⟩ := Option.map_eq_some_iff.mp halone
  have hrun : (workOn "a/x.png").run namesakes = (.ok [page], w₁) := by
    unfold alone? at hpage
    split at hpage
    · cases hpage
      assumption
    · cases hpage
  simp only [Prod.mk.injEq] at hfacts
  obtain ⟨hdocument, hfault, hresult, hedits⟩ := hfacts
  have hcompleted : (completed oneSize (Placeholder.label .trace) [showing "a/x.png"]).run namesakes =
      (workOn "a/x.png").run namesakes :=
    run_completed_singleton (run_opened_showing rfl (by decide +kernel) (by decide +kernel))
  have happly : ∃ text, Edit.applyAll page.document.text firstEdits = .ok text := by
    rw [hdocument]
    exact ⟨_, rfl⟩
  obtain ⟨text, happly⟩ := happly
  rw [leave, leave, run_documents_of_page (hcompleted.trans hrun) (Option.isNone_iff_eq_none.mp hfault)
    hresult hedits (by decide) (by decide) happly, afterFirst, hpage]

/-- The visits of a document that shows one picture. -/
def showingVisits (source : String) (w : Workspace) : List Visit :=
  nodeVisits oneSize (showing source) (shownNodes source) w

theorem allVisits_first :
    allVisits oneSize (Placeholder.label .trace) [[showing "a/x.png"]] namesakes =
      showingVisits "a/x.png" namesakes := by
  rw [allVisits, allVisits, List.append_nil]
  exact visits_singleton (run_opened_showing rfl (by decide +kernel) (by decide +kernel))

theorem isSound_namesakes : namesakes.IsSound := ⟨by decide +kernel, by decide⟩

theorem isResolved_showing (source : String) : (showing source).directory.IsResolved :=
  show (Path.ofParts ["src"]).IsResolved from ⟨rfl, by decide +kernel⟩

theorem history_first : History oneSize namesakes (showingVisits "a/x.png" namesakes) afterFirst := by
  have hresolved : ∀ ds ∈ [[showing "a/x.png"]], ∀ d ∈ ds, d.directory.IsResolved := by
    intro ds hds d hd
    rw [List.mem_singleton.mp hds, List.mem_singleton] at hd
    rw [hd]
    exact isResolved_showing _
  have hplaceholder : ∀ p, Looks (Placeholder.label .trace p) := fun _ ↦ looks_pure _
  have hhistory := history_leave (o := oneSize) hplaceholder isSound_namesakes hresolved .start
  rwa [List.nil_append, allVisits_first, leave_first] at hhistory

/-- The picture of another name. -/
def strangerPlan : OutputPlan :=
  ⟨.ofParts ["src", "b", "y.png"], .ofParts ["static", "g"], "g", "webp"⟩

def strangerEdits : List Edit :=
  [⟨12, 19, "data:trace,y.png".toList⟩, ⟨20, 20, " srcset=\"g/y-400.png 375w\" ratio=\"100%\"".toList⟩]

/-- The picture of another name is undisturbed by visits that put none of their files in its way. -/
theorem undisturbed_stranger {vs : List Visit} (hsound : History.Sound oneSize namesakes vs w₁)
    (hplans : ∀ p ∈ plans oneSize vs, p.path.parts ≠ strangerPlan.source.parts ∧
      p.path.parts ≠ (strangerPlan.sizedPath (.int 400)).parts)
    (hcomponents : ∀ c ∈ components oneSize vs, ∀ k ∈ c.sizes,
      strangerPlan.Avoids [.int 400] c.plan k) :
    Undisturbed oneSize strangerPlan [.int 400] namesakes vs := by
  have hsized : (strangerPlan.sizedPath (.int 400)).parts = ["static", "g"] ++ ["y-400.png"] := by
    decide +kernel
  refine ⟨?_, fun v hv c hc ↦ ?_, fun p hp k hk ↦ ?_, hcomponents, fun k hk ↦ ?_⟩
  · rintro k hk
    rw [List.mem_singleton.mp hk, hsized]
    rfl
  · refine Visit.content?_after (hsound.before v hv).1 (hsound.directory v hv) ?_
      (fun role p hshown ↦ (hplans p (mem_plans_of_shown hv hshown)).1) hc
    exact not_options_unfinished (q := ["src", "b"]) fun _ ↦ by decide +kernel
  · rw [List.mem_singleton.mp hk]
    exact (hplans p hp).2
  · rw [List.mem_singleton.mp hk, hsized]
    refine ⟨not_options_unfinished fun _ ↦ by decide +kernel, ?_⟩
    rintro ⟨folder, hfolder, n, -, heq⟩
    cases hfolder
    exact absurd (List.append_singleton_inj.mp heq).1 (by decide +kernel)

/-- After some rewrites that put nothing in its way, the picture of another name is offered. -/
theorem offers_stranger {dss : List (List Document)} {vs : List Visit} {w' : Workspace}
    (hresolved : ∀ ds ∈ dss, ∀ d ∈ ds, d.directory.IsResolved)
    (hpast : allVisits oneSize (Placeholder.label .trace) dss namesakes = vs)
    (hleave : leave oneSize (Placeholder.label .trace) dss namesakes = w')
    (hhistory : History oneSize namesakes vs w')
    (hplans : ∀ p ∈ plans oneSize (vs ++ showingVisits "b/y.png" w'),
      p.path.parts ≠ strangerPlan.source.parts ∧
      p.path.parts ≠ (strangerPlan.sizedPath (.int 400)).parts)
    (hcomponents : ∀ c ∈ components oneSize (vs ++ showingVisits "b/y.png" w'), ∀ k ∈ c.sizes,
      strangerPlan.Avoids [.int 400] c.plan k)
    (hshown : ((showingVisits "b/y.png" w')[0]?.map fun v ↦ (v.shown? oneSize,
      ((Picture.header strangerPlan.source).run (v.after oneSize)).1.toOption)) =
      some (some (.component, strangerPlan), some ⟨"PNG", 1000, 1000⟩))
    (hedits : editsOf ((workOn "b/y.png").run w').1 = [strangerEdits]) :
    Offers oneSize (Placeholder.label .trace) namesakes dss (showing "b/y.png") 0 strangerPlan
      ⟨"PNG", 1000, 1000⟩ strangerEdits := by
  have hopened : ([showing "b/y.png"].mapM (Page.opened oneSize)).run w' =
      (.ok [(showing "b/y.png", shownNodes "b/y.png")], w') :=
    run_opened_showing (hhistory.sound isSound_namesakes).cwd_eq (by decide +kernel)
      (by decide +kernel)
  have hvisits : visits oneSize [showing "b/y.png"] w' = showingVisits "b/y.png" w' :=
    visits_singleton hopened
  have hplaceholder : ∀ p, Looks (Placeholder.label .trace p) := fun _ ↦ looks_pure _
  have hdocuments : ∀ d ∈ [showing "b/y.png"], d.directory.IsResolved :=
    List.forall_mem_singleton.mpr (isResolved_showing _)
  obtain ⟨hboth, -⟩ := history_completed hplaceholder isSound_namesakes hdocuments hhistory
  refine ⟨hresolved, ?_, ?_, ?_, by decide⟩
  · rw [hpast, hleave]
    rw [← hvisits] at hplans hcomponents
    have hsizes : candidateSizes oneSize.sizes (.int (1000 : Nat)) = [.int 400] := by decide +kernel
    rw [hsizes]
    exact undisturbed_stranger (hboth.sound isSound_namesakes) hplans hcomponents
  · rw [hleave, hvisits]
    obtain ⟨v, hv, hfacts⟩ := Option.map_eq_some_iff.mp hshown
    obtain ⟨hplan, hheader⟩ := Prod.mk.inj hfacts
    exact ⟨v, hv, hplan, eq_ok_of_toOption hheader⟩
  · rw [hleave, nodeEdits, run_completed_singleton hopened]
    exact congrArg (·[0]?) hedits

end ResponsiveImage.Rewrite
