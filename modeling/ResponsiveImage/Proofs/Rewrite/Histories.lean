import ResponsiveImage.Proofs.Markup.Listing
import ResponsiveImage.Proofs.Rewrite.Visits

/-!
# Histories

What a run of rewrites does to the files is a history: the visits of its images one after another, and
in between the making of variants for components that have been visited, and steps that leave all files
as they are.  A rewrite of some documents visits the images of the first before those of the second,
and every run of rewrites has such a history (`history_leave`), so that what all these steps keep is
kept by every run.
-/

namespace ResponsiveImage

open Workspace (Evolves Alike)

namespace Rewrite

open Job

variable {o : Options} {placeholder : Placeholder} {w w₁ w₂ : Workspace} {vs : List Visit}
  {v : Visit} {p : OutputPlan} {d : Document} {ds : List Document}

/-! ## The visits of a run -/

/-- The images of a document, each visited in what the visits before it leave. -/
def nodeVisits [Codec] (o : Options) (d : Document) : List Markup.Node → Workspace → List Visit
  | [], _ => []
  | n :: ns, w => ⟨d, n, w⟩ :: nodeVisits o d ns (Visit.after o ⟨d, n, w⟩)

/-- The images of some opened documents. -/
def pageVisits [Codec] (o : Options) : List Page.Opened → Workspace → List Visit
  | [], _ => []
  | p :: ps, w => nodeVisits o p.1 p.2 w ++ pageVisits o ps ((Page.start o p).run w).2

/-- The visits of a rewrite of some documents. -/
def visits [Codec] (o : Options) (ds : List Document) (w : Workspace) : List Visit :=
  match (ds.mapM (Page.opened o)).run w with
  | (.ok pages, w) => pageVisits o pages w
  | (.error _, _) => []

/-- What a run of rewrites leaves. -/
def leave [Codec] (o : Options) (placeholder : Placeholder) :
    List (List Document) → Workspace → Workspace
  | [], w => w
  | ds :: dss, w => leave o placeholder dss ((documents o placeholder ds).run w).2

/-- The visits of a run of rewrites. -/
def allVisits [Codec] (o : Options) (placeholder : Placeholder) :
    List (List Document) → Workspace → List Visit
  | [], _ => []
  | ds :: dss, w =>
    visits o ds w ++ allVisits o placeholder dss ((documents o placeholder ds).run w).2

/-- The images of a document, in the order in which they are met, are what is worked on. -/
theorem images_eq_ok {text : List Char} {tagName : String}
    (h : (Markup.parse text tagName.toList).isOk = true) :
    Page.images text (.string tagName) = .ok (Markup.imagesOf text tagName.toList) := by
  rw [Page.images, Markup.imagesOf]
  cases hroot : Markup.parse text tagName.toList with
  | error e =>
    rw [hroot] at h
    cases h
  | ok root =>
    obtain ⟨os, hlisting⟩ := Markup.exists_isListing hroot
    dsimp only
    rw [hlisting.candidates_eq]

/-- A document that is worked on is opened with its images. -/
theorem run_opened_singleton {ns : List Markup.Node}
    (hmarkers : Markup.hasMarkers d.text o.tagName.text.toList = true)
    (hinside : (Page.inSourceTree o d.directory).run w = (.ok true, w))
    (himages : Page.images d.text o.tagName = .ok ns) :
    ([d].mapM (Page.opened o)).run w = (.ok [(d, ns)], w) := by
  have hcandidates : (Page.candidates o d).run w = (.ok ns, w) := by
    rw [Page.candidates, hmarkers, himages]
    exact run_bind_of_ok hinside
  have hopen : (Page.opened o d).run w = (.ok (d, ns), w) := run_bind_of_ok hcandidates
  rw [List.mapM_cons, run_bind_of_ok hopen]
  rfl

theorem visits_singleton [Codec] {ns : List Markup.Node}
    (hopened : ([d].mapM (Page.opened o)).run w = (.ok [(d, ns)], w)) :
    visits o [d] w = nodeVisits o d ns w := by
  rw [visits, hopened]
  dsimp only
  rw [pageVisits, pageVisits, List.append_nil]

/-! ## Histories -/

/-- What happens to the files between two workspaces, with the visits made. -/
inductive History [Codec] (o : Options) (w : Workspace) : List Visit → Workspace → Prop
  | start : History o w [] w
  | quiet {vs : List Visit} {w₁ w₂ : Workspace} (h : History o w vs w₁)
      (halike : Alike w₁ w₂) : History o w vs w₂
  | visit {vs : List Visit} {w₁ : Workspace} (h : History o w vs w₁) {d : Document}
      (hd : d.directory.IsResolved) (n : Markup.Node) :
      History o w (vs ++ [⟨d, n, w₁⟩]) (Visit.after o ⟨d, n, w₁⟩)
  | expand {vs : List Visit} {w₁ : Workspace} (h : History o w vs w₁) {v : Visit} {c : Component}
      (hv : v ∈ vs) (hc : v.progress o = .awaiting c) :
      History o w vs ((Variant.ofSizes c.plan c.sizes c.header o).run w₁).2

/-- A component that a visit opens has a plan of the options. -/
theorem Visit.isMade_of_awaiting [Codec] {v : Visit} (hw : v.before.IsSound)
    (hd : v.document.directory.IsResolved) {c : Component} (hc : v.progress o = .awaiting c) :
    v.shown? o = some (.component, c.plan) ∧ c.plan.IsMade o v.before.cwd := by
  cases v.course o hw hd with
  | skipped _ _ hpending _ =>
    rw [hc] at hpending
    cases hpending
  | tagFailed _ _ _ hprogress =>
    rw [hc] at hprogress
    cases hprogress
  | tagMade _ _ hprogress =>
    rw [hc] at hprogress
    cases hprogress
  | componentFailed _ _ _ hprogress =>
    rw [hc] at hprogress
    cases hprogress
  | componentOpened h _ _ _ hprogress =>
    rw [hc] at hprogress
    cases hprogress
    exact ⟨h.shown, h.isMade⟩

/-- The places at which a visit changes files. -/
def Visit.Changes (o : Options) (v : Visit) : List String → Prop := fun q ↦
  o.Unfinished v.before.cwd q ∨ ∃ role p, v.shown? o = some (role, p) ∧ q = p.path.parts

/-- A visit changes the copy of its image, and downloads. -/
theorem Visit.evolves [Codec] {v : Visit} (hw : v.before.IsSound)
    (hd : v.document.directory.IsResolved) :
    Evolves (v.Changes o) (o.Fetched v.before.cwd) v.before (v.after o) := by
  have hquiet : ∀ {w w' : Workspace}, Evolves Nowhere Nowhere w w' →
      Evolves (v.Changes o) (o.Fetched v.before.cwd) w w' :=
    fun h ↦ h.mono (fun _ h ↦ h.elim) (fun _ h ↦ h.elim)
  have hstaged : ∀ {role : Role} {p : OutputPlan} {w : Workspace}, v.Stages o role p w →
      Evolves (v.Changes o) (o.Fetched v.before.cwd) v.before w :=
    fun h ↦ h.evolves.mono
      (fun q hq ↦ hq.imp_right fun hq ↦ ⟨_, _, h.shown, hq⟩) (fun _ ↦ .inr)
  have hmakes : ∀ {p : OutputPlan} {w w' : Workspace} {r : Except Fault String},
      v.Stages o .tag p w → (p.optimizeSingle o).run w = (r, w') →
      Evolves (v.Changes o) (o.Fetched v.before.cwd) w w' :=
    fun h hrun ↦ ((OutputPlan.within_optimizeSingle h.isMade.toIsFor).evolves
      (hstaged h).isSound hrun).mono (fun q hq ↦ .inr ⟨_, _, h.shown, hq⟩) (fun _ h ↦ h.elim)
  cases v.course o hw hd with
  | skipped _ _ _ h => exact h.mono (fun _ ↦ .inl) (fun _ ↦ .inr)
  | tagFailed h hmade hafter _ => exact ((hstaged h).trans (hmakes h hmade)).trans (hquiet hafter)
  | tagMade h hmade _ => exact (hstaged h).trans (hmakes h hmade)
  | componentFailed h _ hafter _ => exact (hstaged h).trans (hquiet hafter)
  | componentOpened h hafter _ _ _ => exact (hstaged h).trans (hquiet hafter)

/-! ### The images shown -/

/-- The plans for the images that some visits show. -/
def plans (o : Options) (vs : List Visit) : List OutputPlan :=
  vs.filterMap fun v ↦ (v.shown? o).map (·.2)

theorem mem_plans_iff : p ∈ plans o vs ↔ ∃ v ∈ vs, ∃ role, v.shown? o = some (role, p) := by
  rw [plans, List.mem_filterMap]
  constructor
  · rintro ⟨v, hv, hp⟩
    obtain ⟨⟨role, q⟩, hshown, rfl⟩ := Option.map_eq_some_iff.mp hp
    exact ⟨v, hv, role, hshown⟩
  · rintro ⟨v, hv, role, hshown⟩
    exact ⟨v, hv, by rw [hshown]; rfl⟩

theorem mem_plans_of_shown {role : Role} (hv : v ∈ vs) (h : v.shown? o = some (role, p)) :
    p ∈ plans o vs := mem_plans_iff.mpr ⟨v, hv, role, h⟩

theorem not_unfinished {folder : Path} {q : List String} {n : String}
    (hn : Download.IsDownload n → Download.isPartial n = false) :
    ¬ Download.Unfinished folder (q ++ [n]) := by
  rintro ⟨m, hdownload, hpartial, heq⟩
  obtain ⟨-, rfl⟩ := List.append_singleton_inj.mp heq
  rw [hn hdownload] at hpartial
  cases hpartial

theorem not_options_unfinished {cwd q : List String} {n : String}
    (hn : Download.IsDownload n → Download.isPartial n = false) :
    ¬ o.Unfinished cwd (q ++ [n]) := by
  rintro ⟨folder, -, h⟩
  exact not_unfinished hn h

namespace History

/-- All workspaces of a history are sound, in one working directory. -/
structure Sound (o : Options) (w : Workspace) (vs : List Visit) (w' : Workspace) : Prop where
  isSound : w'.IsSound
  cwd_eq : w'.cwd = w.cwd
  before : ∀ v ∈ vs, v.before.IsSound ∧ v.before.cwd = w.cwd
  directory : ∀ v ∈ vs, v.document.directory.IsResolved

theorem sound [Codec] (h : History o w vs w₁) (hw : w.IsSound) : Sound o w vs w₁ := by
  induction h with
  | start => exact ⟨hw, rfl, fun _ h ↦ absurd h List.not_mem_nil, fun _ h ↦ absurd h List.not_mem_nil⟩
  | quiet _ halike ih =>
    exact ⟨halike.isSound ih.isSound, halike.cwd_eq.trans ih.cwd_eq, ih.before, ih.directory⟩
  | @visit vs w₁ _ d hd n ih =>
    have he := Visit.evolves (o := o) (v := ⟨d, n, w₁⟩) ih.isSound hd
    refine ⟨he.isSound, he.cwd_eq.trans ih.cwd_eq, fun v hv ↦ ?_, fun v hv ↦ ?_⟩
    · rcases List.mem_append.mp hv with hv | hv
      · exact ih.before v hv
      · rw [List.mem_singleton.mp hv]
        exact ⟨ih.isSound, ih.cwd_eq⟩
    · rcases List.mem_append.mp hv with hv | hv
      · exact ih.directory v hv
      · rw [List.mem_singleton.mp hv]
        exact hd
  | @expand vs w₁ _ v c hv hc ih =>
    have hplan := Visit.isMade_of_awaiting (ih.before v hv).1 (ih.directory v hv) hc
    have he := Variant.within_ofSizes hplan.2.toIsFor c.sizes c.header w₁ ih.isSound
    exact ⟨he.isSound, he.cwd_eq.trans ih.cwd_eq, ih.before, ih.directory⟩

end History

/-- A visit leaves alone what is no copy of its image and no unfinished download. -/
theorem Visit.content?_after [Codec] (hw : v.before.IsSound) (hd : v.document.directory.IsResolved)
    {q : List String} (hunfinished : ¬ o.Unfinished v.before.cwd q)
    (hcopy : ∀ role p, v.shown? o = some (role, p) → p.path.parts ≠ q) {c : Content}
    (hc : v.before.files.content? q = some c) : (v.after o).files.content? q = some c := by
  refine (Visit.evolves hw hd).content?_of_some ?_ hc
  rintro (h | ⟨role, p, hshown, rfl⟩)
  · exact hunfinished h
  · exact hcopy role p hshown rfl

/-- A history leaves alone what is no copy of an image and no unfinished download. -/
theorem History.content?_of_some [Codec] (hw : w.IsSound) (h : History o w vs w₁) {q : List String}
    (hunfinished : ¬ o.Unfinished w.cwd q) (hcopies : ∀ p ∈ plans o vs, p.path.parts ≠ q)
    {c : Content} (hc : w.files.content? q = some c) : w₁.files.content? q = some c := by
  induction h with
  | start => exact hc
  | quiet _ halike ih =>
    rw [halike.files_eq]
    exact ih hcopies
  | @visit vs w₁ h d hd n ih =>
    have hsound := h.sound hw
    refine Visit.content?_after (v := ⟨d, n, w₁⟩) hsound.isSound hd (hsound.cwd_eq ▸ hunfinished)
      (fun role p hshown ↦ ?_) (ih fun p hp ↦ hcopies p ?_)
    · exact hcopies p (mem_plans_of_shown (List.mem_append_right _ List.mem_cons_self) hshown)
    · rw [plans, List.filterMap_append]
      exact List.mem_append_left _ hp
  | @expand vs w₁ h v c hv hc ih =>
    have hsound := h.sound hw
    have hplan := Visit.isMade_of_awaiting (hsound.before v hv).1 (hsound.directory v hv) hc
    exact (Variant.within_ofSizes hplan.2.toIsFor c.sizes c.header w₁
      hsound.isSound).content?_of_some id (ih hcopies)

/-! ## The history of a rewrite -/

section Steps

theorem looks_inSourceTree (o : Options) (p : Path) : Looks (Page.inSourceTree o p) := by
  refine (looks_ofExcept _ _).bind fun root ↦ (looks_resolve _).bind fun root ↦ ?_
  split
  · exact looks_pure _
  · exact looks_pure _

theorem reports_logUnreadable (d : Document) (e : Page.Unreadable) :
    Reports (Page.logUnreadable d e) := by
  unfold Page.logUnreadable
  dsimp only
  split
  · exact reports_log _ _ _
  · exact reports_log _ _ _

theorem reports_opened (o : Options) (d : Document) : Reports (Page.opened o d) := by
  refine Reports.bind ?_ fun nodes ↦ reports_pure _
  rw [Page.candidates]
  split
  · exact reports_pure _
  · refine (looks_inSourceTree o _).reports.bind fun b ↦ ?_
    split
    · exact reports_pure _
    · split
      · exact reports_pure _
      · exact (reports_logUnreadable _ _).bind fun _ ↦ reports_pure _

theorem reports_finalText (p : Page) : Reports p.finalText := by
  unfold Page.finalText
  dsimp only
  split
  · exact reports_pure _
  · split
    · exact (reports_log _ _ _).bind fun _ ↦ reports_pure _
    · exact (reports_logTimed _ _ _).bind fun _ ↦ reports_pure _

theorem reports_close (p : Page) : Reports p.close := by
  unfold Page.close
  split
  · exact reports_pure _
  · exact (reports_finalText p).bind fun _ ↦ reports_pure _

theorem reports_closeEarly (p : Page) : Reports p.closeEarly := by
  unfold Page.closeEarly
  split
  · exact reports_pure _
  · exact reports_close p

theorem reports_orLogged {label : NodeLabel} {t : Job Progress} (h : Reports t) :
    Reports (Progress.orLogged label t) := by
  refine h.attempt.bind fun r ↦ ?_
  split
  · exact reports_pure _
  · exact (reports_logFault _ _).bind fun _ ↦ reports_pure _

theorem reports_complete (hplaceholder : ∀ p, Looks (placeholder p)) (q : Progress) :
    Reports (Progress.complete o placeholder q) := by
  unfold Progress.complete
  split
  · refine reports_orLogged ((reports_ofExcept _ _).bind fun variants ↦
      Reports.bind ?_ fun _ ↦ reports_pure _)
    unfold Progress.componentEdits
    split
    · exact (reports_throw _).bind fun _ ↦ (hplaceholder _).reports.bind fun _ ↦
        (reports_ofExcept _ _).bind fun _ ↦ (reports_ofExcept _ _).bind fun _ ↦ reports_pure _
    · exact (hplaceholder _).reports.bind fun _ ↦
        (reports_ofExcept _ _).bind fun _ ↦ (reports_ofExcept _ _).bind fun _ ↦ reports_pure _
  · exact reports_pure _

end Steps

/-! ### Parts of a rewrite -/

/-- The edits of a component are made of its variants, if there are any, and of what is shown in its
place. -/
theorem run_componentEdits_eq_ok_iff {c : Component} {variants : List Variant} {es : List Edit} :
    ((Progress.componentEdits o placeholder c variants).run w).1 = .ok es ↔
      variants ≠ [] ∧ ∃ shown extension extra, ((placeholder c.plan.source).run w).1 = .ok shown ∧
        Progress.offeredExtension o = .ok extension ∧
        Srcset.attributes variants o.breakpoints extension = .ok extra ∧
        es = [⟨c.span.start, c.span.stop, shown.toList⟩,
          ⟨c.span.attributeStop, c.span.attributeStop, extra.toList⟩] := by
  rw [Progress.componentEdits]
  cases variants with
  | nil => exact ⟨fun h ↦ (nomatch h), fun ⟨hne, _⟩ ↦ absurd rfl hne⟩
  | cons v vs =>
    have hne : v :: vs ≠ [] := List.cons_ne_nil _ _
    rw [if_neg (by simp)]
    constructor
    · intro h
      obtain ⟨shown, w₂, hshown, hrest⟩ := run_bind_eq_ok.mp (Prod.ext h rfl)
      cases hextension : Progress.offeredExtension o with
      | error f =>
        rw [hextension, run_bind_of_error (run_ofExcept_error _ _ _)] at hrest
        cases hrest
      | ok extension =>
        rw [hextension, run_bind_of_ok (run_ofExcept_ok _ _ _)] at hrest
        cases hextra : Srcset.attributes (v :: vs) o.breakpoints extension with
        | error f =>
          rw [hextra, run_bind_of_error (run_ofExcept_error _ _ _)] at hrest
          cases hrest
        | ok extra =>
          rw [hextra, run_bind_of_ok (run_ofExcept_ok _ _ _)] at hrest
          cases hrest
          exact ⟨hne, shown, extension, extra, by rw [hshown], rfl, hextra, rfl⟩
    · rintro ⟨-, shown, extension, extra, hshown, hextension, hextra, rfl⟩
      rw [run_bind_of_ok (Prod.ext hshown rfl), hextension, run_bind_of_ok (run_ofExcept_ok _ _ _),
        hextra, run_bind_of_ok (run_ofExcept_ok _ _ _)]
      rfl

/-- What is done to each image of a page is done to all images of some pages. -/
theorem ensures_pages {P : Workspace → Prop} {R : Progress → Progress → Prop} {f : Page → Job Page}
    {pages : List Page}
    (h : ∀ p ∈ pages, Ensures P (f p) fun p' ↦ List.Forall₂ R p.progress p'.progress) :
    Ensures P (pages.mapM f) fun pages' ↦
      List.Forall₂ R (pages.flatMap (·.progress)) (pages'.flatMap (·.progress)) := by
  have hflat : ∀ {ps ps' : List Page},
      List.Forall₂ (fun p p' ↦ List.Forall₂ R p.progress p'.progress) ps ps' →
      List.Forall₂ R (ps.flatMap (·.progress)) (ps'.flatMap (·.progress)) := by
    intro ps ps' hall
    induction hall with
    | nil => exact .nil
    | cons h _ ih =>
      rw [List.flatMap_cons, List.flatMap_cons]
      exact List.rel_append h ih
  intro w hw
  obtain ⟨hw₁, hR⟩ := ensures_mapM h w hw
  exact ⟨hw₁, fun pages' hpages' ↦ hflat (hR pages' hpages')⟩

theorem ensures_advance {P : Workspace → Prop} {R : Progress → Progress → Prop}
    {step : Progress → Job Progress} {pages : List Page}
    (hstep : ∀ q ∈ pages.flatMap (·.progress), Ensures P (step q) (R q)) :
    Ensures P (pages.mapM (Page.advance step)) fun pages' ↦
      List.Forall₂ R (pages.flatMap (·.progress)) (pages'.flatMap (·.progress)) := by
  refine ensures_pages fun page hmem ↦ ?_
  refine (ensures_mapM fun q hq ↦ hstep q (List.mem_flatMap.mpr ⟨page, hmem, hq⟩)).bind ?_
  exact fun rs hrs ↦ ensures_pure hrs

theorem progress_close {p p' : Page} (h : (p.close.run w).1 = .ok p') : p'.progress = p.progress := by
  unfold Page.close at h
  split at h
  · cases h
    rfl
  · cases hrun : p.finalText.run w with
    | mk r w₁ =>
      cases r with
      | error f =>
        rw [run_bind_of_error hrun] at h
        cases h
      | ok text =>
        rw [run_bind_of_ok hrun] at h
        cases h
        rfl

theorem progress_closeEarly {p p' : Page} (h : (p.closeEarly.run w).1 = .ok p') :
    p'.progress = p.progress := by
  unfold Page.closeEarly at h
  split at h
  · cases h
    rfl
  · exact progress_close h

theorem ensures_opened (ds : List Document) :
    Ensures (Alike w) (ds.mapM (Page.opened o)) (List.Forall₂ (fun d p ↦ p.1 = d) ds) := by
  refine ensures_mapM fun d _ w₁ h ↦ ⟨h.trans (reports_opened o d w₁), fun p hp ↦ ?_⟩
  rw [Page.opened] at hp
  cases hrun : (Page.candidates o d).run w₁ with
  | mk r w₂ =>
    cases r with
    | error f =>
      rw [run_bind_of_error hrun] at hp
      cases hp
    | ok nodes =>
      rw [run_bind_of_ok hrun] at hp
      cases hp
      rfl

variable [Codec]

theorem History.quiet_of_reports {α : Type} {t : Job α} (h : History o w vs w₁) (ht : Reports t) :
    History o w vs (t.run w₁).2 := h.quiet (ht w₁)

/-- The work on an image begins without fail. -/
theorem run_start (o : Options) (d : Document) (n : Markup.Node) (w : Workspace) :
    (Progress.start o d n).run w =
      (.ok (Visit.progress o ⟨d, n, w⟩), Visit.after o ⟨d, n, w⟩) := by
  have hok : ∃ q w', (Progress.start o d n).run w = (.ok q, w') := by
    rw [Progress.start_eq, Progress.started]
    split
    · exact ⟨_, _, rfl⟩
    · rename_i reason _
      obtain ⟨w', hlog⟩ := run_logSkip (NodeLabel.ofNode d n)
        (SkipReason.notEligible.describe reason.message) w
      exact ⟨_, _, run_bind_of_ok hlog⟩
    · rename_i role extensions _
      cases hresolve : (Progress.resolve o d n role extensions).run w with
      | mk r w₁ =>
        cases r with
        | ok q => exact ⟨q, w₁, run_orLogged_of_ok hresolve⟩
        | error f =>
          obtain ⟨w', hlog⟩ := run_logFault (NodeLabel.ofNode d n) f w₁
          refine ⟨.finished [], w', ?_⟩
          rw [Progress.orLogged, run_bind_of_ok (run_attempt_eq_ok.mpr hresolve)]
          exact run_bind_of_ok hlog
  obtain ⟨q, w', hrun⟩ := hok
  obtain ⟨hprogress, hafter⟩ := Visit.progress_eq (v := ⟨d, n, w⟩) hrun
  rw [hrun, hprogress, hafter]

theorem history_nodes (hd : d.directory.IsResolved) (ns : List Markup.Node)
    (h : History o w vs w₁) :
    ∃ w₂, (ns.mapM (Progress.start o d)).run w₁ =
        (.ok ((nodeVisits o d ns w₁).map (Visit.progress o)), w₂) ∧
      History o w (vs ++ nodeVisits o d ns w₁) w₂ := by
  induction ns generalizing vs w₁ with
  | nil =>
    refine ⟨w₁, rfl, ?_⟩
    rw [nodeVisits, List.append_nil]
    exact h
  | cons n ns ih =>
    obtain ⟨w₂, hrun, hrest⟩ := ih (h.visit hd n)
    refine ⟨w₂, ?_, ?_⟩
    · rw [List.mapM_cons, run_bind_of_ok (run_start o d n w₁), run_bind_of_ok hrun]
      rfl
    · rw [nodeVisits, List.append_cons]
      exact hrest

theorem run_pageStart (o : Options) (p : Page.Opened) (w : Workspace) :
    ∃ page : Page, (Page.start o p).run w = (do
      let qs ← p.2.mapM (Progress.start o p.1)
      return { page with progress := qs } : Job Page).run w := by
  rw [Page.start]
  split
  · rename_i hnil
    rw [List.isEmpty_iff.mp hnil]
    exact ⟨Page.unchanged p.1, rfl⟩
  · exact ⟨⟨p.1, [], none⟩, rfl⟩

theorem history_pages (ps : List Page.Opened) (hps : ∀ p ∈ ps, p.1.directory.IsResolved)
    (h : History o w vs w₁) :
    ∃ pages w₂, (ps.mapM (Page.start o)).run w₁ = (.ok pages, w₂) ∧
      pages.flatMap (·.progress) = (pageVisits o ps w₁).map (Visit.progress o) ∧
      History o w (vs ++ pageVisits o ps w₁) w₂ := by
  induction ps generalizing vs w₁ with
  | nil =>
    refine ⟨[], w₁, rfl, rfl, ?_⟩
    rw [pageVisits, List.append_nil]
    exact h
  | cons p ps ih =>
    obtain ⟨hp, hps⟩ := List.forall_mem_cons.mp hps
    obtain ⟨w₂, hnodes, hvisited⟩ := history_nodes hp p.2 h
    obtain ⟨page, hpage⟩ := run_pageStart o p w₁
    rw [run_bind_of_ok hnodes, run_pure] at hpage
    obtain ⟨pages, w₃, hpages, hprogress, hrest⟩ := ih hps hvisited
    have hstart : ((Page.start o p).run w₁).2 = w₂ := by rw [hpage]
    refine ⟨{ page with progress := (nodeVisits o p.1 p.2 w₁).map (Visit.progress o) } :: pages, w₃,
      ?_, ?_, ?_⟩
    · rw [List.mapM_cons, run_bind_of_ok hpage, run_bind_of_ok hpages]
      rfl
    · rw [List.flatMap_cons, hprogress, pageVisits, hstart, List.map_append]
    · rw [pageVisits, hstart, ← List.append_assoc]
      exact hrest

/-! ### Variants and placeholders -/

/-- What becomes of an image after its visit. -/
inductive Ends (o : Options) (placeholder : Placeholder) (w : Workspace) (vs : List Visit) (v : Visit) :
    Progress → Prop
  | visited (h : (v.progress o).isPending = false) : Ends o placeholder w vs v (v.progress o)
  | failed {c : Component} (hc : v.progress o = .awaiting c) {w₁ w₂ : Workspace}
      (h₁ : History o w vs w₁) (h₂ : History o w vs w₂)
      (hfail : ∀ variants, ((Variant.ofSizes c.plan c.sizes c.header o).run w₁).1 = .ok variants →
        ∀ es, ((Progress.componentEdits o placeholder c variants).run w₂).1 ≠ .ok es) :
      Ends o placeholder w vs v (.finished [])
  | completed {c : Component} (hc : v.progress o = .awaiting c) {w₁ w₂ : Workspace}
      {variants : List Variant} {shown extension extra : String} (h₁ : History o w vs w₁)
      (hvariants : ((Variant.ofSizes c.plan c.sizes c.header o).run w₁).1 = .ok variants)
      (hne : variants ≠ []) (h₂ : History o w vs w₂)
      (hshown : ((placeholder c.plan.source).run w₂).1 = .ok shown)
      (hextension : Progress.offeredExtension o = .ok extension)
      (hextra : Srcset.attributes variants o.breakpoints extension = .ok extra) :
      Ends o placeholder w vs v (.finished [⟨c.span.start, c.span.stop, shown.toList⟩,
        ⟨c.span.attributeStop, c.span.attributeStop, extra.toList⟩])

/-- How far an image is once its variants have been made. -/
inductive Expands (o : Options) (w : Workspace) (vs : List Visit) : Progress → Progress → Prop
  | visited {q : Progress} (h : q.isPending = false) : Expands o w vs q q
  | made {c : Component} {w₁ : Workspace} (h : History o w vs w₁) :
      Expands o w vs (.awaiting c) (.made c ((Variant.ofSizes c.plan c.sizes c.header o).run w₁).1)

/-- What becomes of an image whose variants have been made. -/
inductive Completes (o : Options) (placeholder : Placeholder) (w : Workspace) (vs : List Visit) :
    Progress → Progress → Prop
  | visited {q : Progress} (h : q.isPending = false) : Completes o placeholder w vs q q
  | failed {c : Component} {outcome : Except Fault (List Variant)} {w₂ : Workspace}
      (h : History o w vs w₂)
      (hfail : ∀ variants, outcome = .ok variants →
        ∀ es, ((Progress.componentEdits o placeholder c variants).run w₂).1 ≠ .ok es) :
      Completes o placeholder w vs (.made c outcome) (.finished [])
  | completed {c : Component} {variants : List Variant} {w₂ : Workspace}
      {shown extension extra : String} (h : History o w vs w₂) (hne : variants ≠ [])
      (hshown : ((placeholder c.plan.source).run w₂).1 = .ok shown)
      (hextension : Progress.offeredExtension o = .ok extension)
      (hextra : Srcset.attributes variants o.breakpoints extension = .ok extra) :
      Completes o placeholder w vs (.made c (.ok variants))
        (.finished [⟨c.span.start, c.span.stop, shown.toList⟩,
          ⟨c.span.attributeStop, c.span.attributeStop, extra.toList⟩])

theorem Visit.progress_ne_made {v : Visit} (hw : v.before.IsSound)
    (hd : v.document.directory.IsResolved) {c : Component} {outcome : Except Fault (List Variant)} :
    v.progress o ≠ .made c outcome := by
  intro h
  cases v.course o hw hd with
  | skipped _ _ hpending _ =>
    rw [h] at hpending
    cases hpending
  | tagFailed _ _ _ hprogress =>
    rw [h] at hprogress
    cases hprogress
  | tagMade _ _ hprogress =>
    rw [h] at hprogress
    cases hprogress
  | componentFailed _ _ _ hprogress =>
    rw [h] at hprogress
    cases hprogress
  | componentOpened _ _ _ _ hprogress =>
    rw [h] at hprogress
    cases hprogress

theorem Ends.of_expands {v : Visit} {q r : Progress} (hq : Expands o w vs (v.progress o) q)
    (hr : Completes o placeholder w vs q r) : Ends o placeholder w vs v r := by
  generalize hprogress : v.progress o = first at hq
  cases hq with
  | visited h =>
    cases hr with
    | visited _ =>
      rw [← hprogress]
      exact .visited (hprogress ▸ h)
    | failed _ _ => cases h
    | completed _ _ _ _ _ => cases h
  | made h₁ =>
    generalize houtcome : (((Variant.ofSizes _ _ _ o).run _).1 : Except Fault (List Variant)) =
      outcome at hr
    cases hr with
    | visited h => cases h
    | failed h₂ hfail => exact .failed hprogress h₁ h₂ fun variants hok ↦ hfail variants (houtcome ▸ hok)
    | completed h₂ hne hshown hextension hextra =>
      exact .completed hprogress h₁ houtcome hne h₂ hshown hextension hextra

theorem ensures_expand (hw : w.IsSound) {v : Visit} (hv : v ∈ vs) :
    Ensures (History o w vs) (Progress.expand o (v.progress o)) (Expands o w vs (v.progress o)) := by
  intro w₁ h
  have hsound := h.sound hw
  cases hprogress : v.progress o with
  | awaiting c =>
    refine ⟨h.expand hv hprogress, fun q hq ↦ ?_⟩
    cases hq
    exact .made h
  | made c outcome =>
    exact absurd hprogress (Visit.progress_ne_made (hsound.before v hv).1 (hsound.directory v hv))
  | finished es => exact ensures_pure (.visited rfl) w₁ h
  | escaped f => exact ensures_pure (.visited rfl) w₁ h

theorem ensures_complete (hplaceholder : ∀ p, Looks (placeholder p))
    {first q : Progress} (hq : Expands o w vs first q) :
    Ensures (History o w vs) (Progress.complete o placeholder q) (Completes o placeholder w vs q) := by
  intro w₁ h
  refine ⟨h.quiet_of_reports (reports_complete hplaceholder q), fun r hr ↦ ?_⟩
  cases hq with
  | visited hpending =>
    cases first with
    | awaiting c => cases hpending
    | made c outcome => cases hpending
    | finished es =>
      cases hr
      exact .visited rfl
    | escaped f =>
      cases hr
      exact .visited rfl
  | @made c w₂ _ =>
    generalize ((Variant.ofSizes c.plan c.sizes c.header o).run w₂).1 = outcome at hr
    cases hrun : (do
        let variants ← ofExcept id outcome
        return .finished (← Progress.componentEdits o placeholder c variants) :
          Job Progress).run w₁ with
    | mk s w₃ =>
      cases s with
      | error f =>
        obtain ⟨w₄, hlog⟩ := run_logFault c.label f w₃
        have hcomplete : (Progress.complete o placeholder (.made c outcome)).run w₁ =
            (.ok (.finished []), w₄) := by
          rw [Progress.complete, Progress.orLogged, run_bind_of_ok (run_attempt_eq_ok.mpr hrun)]
          exact run_bind_of_ok hlog
        rw [hcomplete] at hr
        cases hr
        refine .failed h fun variants hok es hes ↦ ?_
        rw [hok, run_bind_of_ok (run_ofExcept_ok _ _ _), run_bind_of_ok (Prod.ext hes rfl)] at hrun
        cases hrun
      | ok r' =>
        have hcomplete : (Progress.complete o placeholder (.made c outcome)).run w₁ = (.ok r', w₃) :=
          run_orLogged_of_ok hrun
        rw [hcomplete] at hr
        cases hr
        cases outcome with
        | error f =>
          rw [run_bind_of_error (run_ofExcept_error _ _ _)] at hrun
          cases hrun
        | ok variants =>
          rw [run_bind_of_ok (run_ofExcept_ok _ _ _), run_bind_eq_ok] at hrun
          obtain ⟨es, w₄, hes, hrun⟩ := hrun
          cases hrun
          obtain ⟨hne, shown, extension, extra, hshown, hextension, hextra, rfl⟩ :=
            run_componentEdits_eq_ok_iff.mp (congrArg Prod.fst hes)
          exact .completed h hne hshown hextension hextra

/-! ### Whole rewrites -/

/-- Opened documents worked on up to their closing. -/
def worked (o : Options) (placeholder : Placeholder) (ps : List Page.Opened) : Job (List Page) := do
  let started ← ps.mapM (Page.start o)
  let expanded ← started.mapM (Page.advance (Progress.expand o))
  let closed ← expanded.mapM Page.closeEarly
  closed.mapM (Page.advance (Progress.complete o placeholder))

/-- Documents rewritten up to their closing. -/
def completed (o : Options) (placeholder : Placeholder) (ds : List Document) : Job (List Page) := do
  worked o placeholder (← ds.mapM (Page.opened o))

theorem documents_eq (o : Options) (placeholder : Placeholder) (ds : List Document) :
    documents o placeholder ds = (do
      let pages ← completed o placeholder ds
      match pages.findSome? (·.fault?) with
      | some f => throw f
      | none =>
        let pages ← pages.mapM Page.close
        return pages.map fun p ↦ p.result?.getD p.document.text) := by
  simp only [completed, worked, bind_assoc]
  rfl

theorem ensures_closeEarly (pages : List Page) :
    Ensures (History o w vs) (pages.mapM Page.closeEarly) fun pages' ↦
      pages.flatMap (·.progress) = pages'.flatMap (·.progress) := by
  rw [← List.forall₂_eq_eq_eq]
  refine ensures_pages fun p _ w₁ h ↦
    ⟨h.quiet_of_reports (reports_closeEarly p), fun p' hp' ↦ ?_⟩
  dsimp only
  rw [progress_closeEarly hp', List.forall₂_eq_eq_eq]

/-- Once its images have been visited, a rewrite keeps its history, and each image ends as it has
to. -/
theorem ensures_rest (hplaceholder : ∀ p, Looks (placeholder p)) (hw : w.IsSound)
    {us : List Visit} (hus : ∀ v ∈ us, v ∈ vs) {started : List Page}
    (hprogress : started.flatMap (·.progress) = us.map (Visit.progress o)) :
    Ensures (History o w vs) (do
      let expanded ← started.mapM (Page.advance (Progress.expand o))
      let closed ← expanded.mapM Page.closeEarly
      closed.mapM (Page.advance (Progress.complete o placeholder))) fun pages ↦
        List.Forall₂ (Ends o placeholder w vs) us (pages.flatMap (·.progress)) := by
  refine (ensures_advance (R := Expands o w vs) fun q hq ↦ ?_).bind fun expanded hexpanded ↦
    (ensures_closeEarly expanded).bind fun closed hclosed w₁ h ↦ ?_
  · rw [hprogress] at hq
    obtain ⟨v, hv, rfl⟩ := List.mem_map.mp hq
    exact ensures_expand hw (hus v hv)
  · rw [hprogress, List.forall₂_map_left_iff, hclosed] at hexpanded
    have hstep : ∀ q ∈ closed.flatMap (·.progress), Ensures (History o w vs)
        (Progress.complete o placeholder q) (Completes o placeholder w vs q) := by
      intro q hq
      obtain ⟨i, hi, rfl⟩ := List.mem_iff_getElem.mp hq
      have hlt : i < us.length := hexpanded.length_eq ▸ hi
      exact ensures_complete hplaceholder (hexpanded.get hlt hi)
    obtain ⟨h₁, hcompletes⟩ := ensures_advance hstep w₁ h
    refine ⟨h₁, fun pages hpages ↦ ?_⟩
    have hcompletes := hcompletes pages hpages
    rw [List.forall₂_iff_get] at hexpanded hcompletes ⊢
    refine ⟨hexpanded.1.trans hcompletes.1, fun i hi hi' ↦ ?_⟩
    have hlt : i < (closed.flatMap (·.progress)).length := hexpanded.1 ▸ hi
    exact .of_expands (hexpanded.2 i hi hlt) (hcompletes.2 i hlt hi')

/-- A rewrite goes on with a history by its visits, and each image ends as it has to. -/
theorem history_completed (hplaceholder : ∀ p, Looks (placeholder p)) (hw : w.IsSound)
    (hds : ∀ d ∈ ds, d.directory.IsResolved) (h : History o w vs w₁) :
    History o w (vs ++ visits o ds w₁) ((completed o placeholder ds).run w₁).2 ∧
      ∀ pages, ((completed o placeholder ds).run w₁).1 = .ok pages →
        List.Forall₂ (Ends o placeholder w (vs ++ visits o ds w₁)) (visits o ds w₁)
          (pages.flatMap (·.progress)) := by
  have hw₁ := (h.sound hw).isSound
  obtain ⟨hopen, hdocuments⟩ := ensures_opened (o := o) ds w₁ (.refl w₁)
  rw [completed, visits]
  cases hopened : (ds.mapM (Page.opened o)).run w₁ with
  | mk r w₂ =>
    rw [hopened] at hopen hdocuments
    cases r with
    | error f =>
      rw [run_bind_of_error hopened]
      exact ⟨by simpa using h.quiet hopen, fun pages hpages ↦ nomatch hpages⟩
    | ok ps =>
      have hps : ∀ p ∈ ps, p.1.directory.IsResolved := by
        intro p hp
        obtain ⟨i, hi, rfl⟩ := List.mem_iff_getElem.mp hp
        have hall := hdocuments ps rfl
        have hlt : i < ds.length := hall.length_eq ▸ hi
        have hd : ps[i].1 = ds[i] := hall.get hlt hi
        rw [hd]
        exact hds _ (List.getElem_mem hlt)
      obtain ⟨started, w₃, hstart, hprogress, hvisited⟩ := history_pages ps hps (h.quiet hopen)
      rw [run_bind_of_ok hopened, worked, run_bind_of_ok hstart]
      exact ensures_rest hplaceholder hw (fun v hv ↦ List.mem_append_right _ hv) hprogress w₃ hvisited

theorem history_documents (hplaceholder : ∀ p, Looks (placeholder p)) (hw : w.IsSound)
    (hds : ∀ d ∈ ds, d.directory.IsResolved) (h : History o w vs w₁) :
    History o w (vs ++ visits o ds w₁) ((documents o placeholder ds).run w₁).2 := by
  have hclose : ∀ pages : List Page, Reports (pages.mapM Page.close) :=
    fun pages ↦ reports_mapM fun p _ ↦ reports_close p
  obtain ⟨hcompleted, -⟩ := history_completed hplaceholder hw hds h
  rw [documents_eq, run_bind]
  split
  · rename_i pages w₂ hrun
    rw [hrun] at hcompleted
    refine hcompleted.quiet_of_reports ?_
    split
    · exact reports_throw _
    · exact (hclose pages).bind fun pages ↦ reports_pure _
  · rename_i f w₂ hrun
    rw [hrun] at hcompleted
    exact hcompleted

/-- Every run of rewrites has a history by its visits. -/
theorem history_leave (hplaceholder : ∀ p, Looks (placeholder p)) (hw : w.IsSound)
    {dss : List (List Document)} (hdss : ∀ ds ∈ dss, ∀ d ∈ ds, d.directory.IsResolved)
    (h : History o w vs w₁) :
    History o w (vs ++ allVisits o placeholder dss w₁) (leave o placeholder dss w₁) := by
  induction dss generalizing vs w₁ with
  | nil =>
    rw [allVisits, leave, List.append_nil]
    exact h
  | cons ds dss ih =>
    obtain ⟨hds, hdss⟩ := List.forall_mem_cons.mp hdss
    rw [allVisits, leave, ← List.append_assoc]
    exact ih hdss (history_documents hplaceholder hw hds h)

end Rewrite

end ResponsiveImage
