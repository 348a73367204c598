import ResponsiveImage.Proofs.Rewrite.Tidy

/-!
# Visiting an image again

Two visits of images that are called the same and have the same source come to the same, at whatever
time of a tidy history they are made (`Clear.agrees`): they find the same image, and either both fail,
or both replace the source by the same text, or both are opened as components with the same sizes.  What
such images end with is the same as well (`Tidy.replacements_eq`).
-/

namespace ResponsiveImage

open Workspace (Evolves)
open Job

/-- A placeholder that looks at the file of its image and at nothing else, and that comes to data. -/
structure Placeholder.IsSteady (placeholder : Placeholder) : Prop where
  looks : ∀ p, Looks (placeholder p)
  congr : ∀ {p : Path} {w x : Workspace} {c : Content}, p.IsResolved → x.cwd = w.cwd →
    w.files.content? p.parts = some c → x.files.content? p.parts = some c →
      ((placeholder p).run x).1 = ((placeholder p).run w).1
  isData : ∀ {p : Path} {w : Workspace} {shown : String}, ((placeholder p).run w).1 = .ok shown →
    Resolution.IsData shown.toList

theorem Placeholder.isSteady_label (kind : PlaceholderKind) : (label kind).IsSteady where
  looks _ := looks_pure _
  congr _ _ _ _ := rfl
  isData := by
    rintro p w shown ⟨⟩
    refine Resolution.isData_of_isPrefix ⟨(kind.text ++ ("," ++ p.name)).toList, ?_⟩
    simp [String.toList_append, toString]

/-! ## Eligibility -/

theorem Eligibility.ofNode_congr {n m : Markup.Node} {o : Options} (hname : n.name = m.name)
    (hsource : literalSource? n = literalSource? m) : ofNode n o = ofNode m o := by
  unfold ofNode ofSource isNamed
  rw [hname, hsource]

/-! ## Treating an image -/

theorem OutputPlan.run_ofImage_congr {source : Path} {o : Options} {w x : Workspace}
    (hcwd : x.cwd = w.cwd) : ((ofImage source o).run x).1 = ((ofImage source o).run w).1 := by
  have hdirectory : ((outputDirectory o).run x).1 = ((outputDirectory o).run w).1 := by
    rw [outputDirectory]
    cases o.outputPath with
    | error f => rfl
    | ok d =>
      rw [run_bind_of_ok (run_ofExcept_ok _ _ _), run_bind_of_ok (run_ofExcept_ok _ _ _),
        Resolution.run_resolve, Resolution.run_resolve, hcwd]
  rw [ofImage, run_bind, run_bind]
  cases hw : (outputDirectory o).run w with
  | mk r w₁ =>
    cases hx : (outputDirectory o).run x with
    | mk r' x₁ =>
      rw [hw, hx] at hdirectory
      obtain rfl : r' = r := hdirectory
      cases r' with
      | error f => rfl
      | ok d =>
        cases o.urlBase with
        | error f => rfl
        | ok base => cases o.altExtension <;> rfl

namespace Rewrite

/-- Two images have come equally far: they are given the same texts, or are components with the same
variants to be made. -/
inductive Progress.Agrees : Progress → Progress → Prop
  | closed {q r : Progress} (hq : q.isPending = false) (hr : r.isPending = false)
      (h : q.edits.map (·.replacement) = r.edits.map (·.replacement)) : Agrees q r
  | awaiting {c d : Component} (hplan : c.plan = d.plan) (hheader : c.header = d.header)
      (hsizes : c.sizes = d.sizes) : Agrees (.awaiting c) (.awaiting d)

theorem Progress.Agrees.symm {q r : Progress} (h : q.Agrees r) : r.Agrees q := by
  cases h with
  | closed hq hr h => exact .closed hr hq h.symm
  | awaiting hplan hheader hsizes => exact .awaiting hplan.symm hheader.symm hsizes.symm

theorem Progress.Agrees.isPending_eq {q r : Progress} (h : q.Agrees r) : q.isPending = r.isPending := by
  cases h with
  | closed hq hr _ => rw [hq, hr]
  | awaiting => rfl

theorem Progress.Agrees.replacements_eq {q r : Progress} (h : q.Agrees r) :
    q.edits.map (·.replacement) = r.edits.map (·.replacement) := by
  cases h with
  | closed _ _ h => exact h
  | awaiting => rfl

variable {o : Options} {x y x' y' : Workspace} {p : OutputPlan} {c : Content} {image : Path}
  {role : Role}
  {d e : Document} {n m : Markup.Node} {q : Progress} {w w₀ x₀ z : Workspace} {us vs : List Visit}
  {u v : Visit}

/-! ## Twins -/

namespace Visit

/-- Two visits of images that are called the same and have the same literal source, in documents in the
same directory. -/
structure Twins (u v : Visit) : Prop where
  name : u.node.name = v.node.name
  text : u.text? = v.text?
  directory : u.document.directory = v.document.directory

theorem Twins.symm (h : Twins u v) : Twins v u := ⟨h.name.symm, h.text.symm, h.directory.symm⟩

theorem literalSource?_eq (v : Visit) :
    Eligibility.literalSource? v.node = v.text?.bind fun text ↦
      if (Text.trim text).isEmpty then none else some (String.ofList (Text.trim text)) := by
  rw [Eligibility.literalSource?, text?, source?]
  cases v.node.attribute? "src".toList with
  | none => rfl
  | some a =>
    obtain ⟨start, value, stop, attributeStop⟩ := a
    cases value <;> rfl

theorem Twins.ofNode_eq (h : Twins u v) :
    Eligibility.ofNode u.node o = Eligibility.ofNode v.node o :=
  Eligibility.ofNode_congr h.name (by rw [literalSource?_eq, literalSource?_eq, h.text])

end Visit

/-- What is kept until a tidy visit is kept until it has found its image. -/
theorem Clear.kept_found (ht : Clear o w.cwd vs) (hv : v ∈ vs)
    (hd : v.document.directory.IsResolved) (hk : Kept o w (remoteUrls vs) v.before)
    (hfound : v.found? o = some (role, image, w₀)) : Kept o w (remoteUrls vs) w₀ := by
  refine hk.search (Visit.search_of_found hfound hk.isSound hd)
    (fun url hurl ↦ List.mem_filterMap.mpr ⟨v, hv, hurl⟩) ht.keys ?_
  rintro image ⟨⟩
  exact ht.whole v hv role _ w₀ hfound

/-- Twins meet the same image. -/
theorem Clear.meets (ht : Clear o w.cwd vs) (hu : u ∈ vs) (hv : v ∈ vs)
    (hd : v.document.directory.IsResolved) (hku : Kept o w (remoteUrls vs) u.before)
    (hkv : Kept o w (remoteUrls vs) v.before) (htwins : u.Twins v) (h : v.Meets o role image c) :
    u.Meets o role image c := by
  obtain ⟨extensions, text, heligible, htext, hsees⟩ := Visit.meets_iff.mp h
  have hutext : u.text? = some text := htwins.text.trans htext
  have hueligible := htwins.ofNode_eq.trans heligible
  have hagree : Resolution.Agree o v.document.directory text
      (fun p ↦ ¬ o.InOutputs w.cwd p.parts ∧ ¬ o.InDownloads w.cwd (remoteUrls vs) p.parts)
      v.before u.before := by
    refine ⟨hku.cwd_eq.trans hkv.cwd_eq.symm, fun _ p _ hp ↦ ?_, fun hexternal d hpath image c ↦ ?_⟩
    · exact (hku.content?_eq hp.1 hp.2).trans (hkv.content?_eq hp.1 hp.2).symm
    · have hurl : String.ofList (Text.trim text) ∈ remoteUrls vs := by
        refine List.mem_filterMap.mpr ⟨v, hv, ?_⟩
        rw [Visit.remoteUrl?_eq htext, if_pos hexternal]
      rw [hkv.cwd_eq]
      exact (hku.yields _ hurl d hpath image c).trans (hkv.yields _ hurl d hpath image c).symm
  rw [Visit.meets_iff]
  refine ⟨extensions, text, hueligible, hutext, ?_⟩
  rw [htwins.directory]
  refine hsees.of_agree hkv.isSound hku.isSound hd hagree fun hlocal ↦ ⟨?_, fun p e hp ↦ ?_⟩
  · obtain ⟨w₀, hfound, -⟩ := h
    refine ht.sources v hv role image w₀ hfound ?_
    rw [Visit.remoteUrl?_eq htext, hlocal]
    rfl
  · rw [← htwins.directory] at hp
    obtain ⟨w₀, hfound, -⟩ :=
      Visit.meets_iff.mpr ⟨extensions, text, hueligible, hutext, hp⟩
    refine ht.sources u hu role p w₀ hfound ?_
    rw [Visit.remoteUrl?_eq hutext, hlocal]
    rfl

theorem Visit.Meets.unique {role' : Role} {image' : Path} {e' : Content}
    (h : v.Meets o role image c) (h' : v.Meets o role' image' e') : image = image' ∧ c = e' := by
  obtain ⟨w₀, hfound, hc⟩ := h
  obtain ⟨w₁, hfound', hc'⟩ := h'
  cases hfound.symm.trans hfound'
  exact ⟨rfl, Option.some_inj.mp (hc.symm.trans hc')⟩

/-! ## Images that are treated again -/

variable [Codec]

/-- A component comes out once more where its image is there, and the directory for its variants. -/
theorem exists_run_ofComponent (hx : x.IsSound) (hy : y.IsSound) (hp : p.IsFor o)
    (hcx : x.files.content? p.source.parts = some c) (hcy : y.files.content? p.source.parts = some c)
    (hdirectory : y.files.isDirectory p.directory.parts = true) {label label' : NodeLabel}
    {span span' : SourceSpan} (hrun : (Progress.ofComponent o label span p).run x = (.ok q, x')) :
    ∃ r, (Progress.ofComponent o label' span' p).run y = (.ok r, y) ∧ q.Agrees r := by
  rw [Progress.ofComponent, run_bind_eq_ok] at hrun
  obtain ⟨h, x₁, hheader, hrun⟩ := hrun
  obtain ⟨rfl, c', hc', hh⟩ := (Picture.run_header_eq_ok_iff hx hp.source).mp hheader
  cases hcx.symm.trans hc'
  obtain ⟨u, x₂, -, hrun⟩ := run_bind_eq_ok.mp hrun
  rw [Progress.ofComponent,
    run_bind_of_ok ((Picture.run_header_eq_ok_iff hy hp.source).mpr ⟨rfl, c, hcy, hh⟩)]
  dsimp only at hrun ⊢
  rw [run_bind_of_ok (run_ensureDirectories_of_isDirectory hy hp.directory hdirectory)]
  split at hrun
  · cases hrun
  · rename_i hsizes
    cases hrun
    rw [if_neg hsizes]
    exact ⟨_, rfl, .awaiting rfl rfl rfl⟩

/-- What happened on the way to an image that comes out, and was not in the output directory: a copy of
it has been put in its place, and it has been treated as its part asks. -/
theorem run_treat_eq_ok (hx : x.IsSound) (himage : image.IsResolved)
    (hcx : x.files.content? image.parts = some c) (hout : ¬ o.InOutputs x.cwd image.parts)
    (hrun : (Progress.treat o d n role image).run x = (.ok q, x')) :
    ∃ p span x₁, (OutputPlan.ofImage image o).run x = (.ok p, x) ∧ p.IsMade o x.cwd ∧
      p.source = image ∧ p.path ≠ image ∧ p.stage.run x = (.ok (), x₁) ∧
      Progress.spanOf n = .ok span ∧ x₁.IsSound ∧ x₁.files.content? image.parts = some c ∧
      (match role with
        | .tag => Progress.ofTag o span p
        | .component => Progress.ofComponent o (NodeLabel.ofNode d n) span p).run x₁ = (.ok q, x') := by
  rw [Progress.treat, run_bind_eq_ok] at hrun
  obtain ⟨p, x₁, hstaged, hrun⟩ := hrun
  rw [OutputPlan.staged, run_bind_eq_ok] at hstaged
  obtain ⟨p', x₂, hplan, hstaged⟩ := hstaged
  obtain rfl := (OutputPlan.looks_ofImage image o).eq hplan
  rw [run_bind_eq_ok] at hstaged
  obtain ⟨u, x₃, hstage, hstaged⟩ := hstaged
  cases hstaged
  obtain ⟨hp, rfl⟩ := OutputPlan.run_ofImage_eq_ok hx himage (Tree.ne_nil_of_content? hcx) hplan
  have hpath : ¬ p.path.Here p.source.parts := fun heq ↦
    hout (heq ▸ hp.parts_path ▸ hp.inOutputs p.name)
  have he := (OutputPlan.within_stage hp.toIsFor).evolves hx hstage
  rw [run_bind_eq_ok] at hrun
  obtain ⟨span, x₄, hspanned, hrun⟩ := hrun
  obtain ⟨hspan, rfl⟩ := run_ofExcept_eq_ok.mp hspanned
  exact ⟨p, span, x₄, hplan, hp, rfl, fun heq ↦ hpath (congrArg Path.parts heq.symm), hstage, hspan,
    he.isSound, he.content?_of_some hpath hcx, hrun⟩

/-- What comes out for an image at one time comes out at another one, if its copy can be put in its place
then as well. -/
theorem exists_run_treat (hx : x.IsSound) (hy : y.IsSound) (hcwd : y.cwd = x.cwd)
    (himage : image.IsResolved) (hcx : x.files.content? image.parts = some c)
    (hcy : y.files.content? image.parts = some c)
    (hout : ¬ o.InOutputs x.cwd image.parts)
    (hcan : ∀ p : OutputPlan, p.IsMade o x.cwd → p.CanStage x → p.CanStage y)
    {span : SourceSpan} (hspan : Progress.spanOf m = .ok span)
    (hrun : (Progress.treat o d n role image).run x = (.ok q, x')) :
    ∃ r y', (Progress.treat o e m role image).run y = (.ok r, y') ∧ q.Agrees r := by
  obtain ⟨p, span', x₁, hplan, hp, rfl, hne, hstage, -, hx₁, hcx₁, hrun⟩ :=
    run_treat_eq_ok hx himage hcx hout hrun
  have hplan' : (OutputPlan.ofImage p.source o).run y = (.ok p, y) := by
    have hfirst : ((OutputPlan.ofImage p.source o).run y).1 =
        ((OutputPlan.ofImage p.source o).run x).1 := OutputPlan.run_ofImage_congr hcwd
    rw [hplan] at hfirst
    exact Prod.ext hfirst (OutputPlan.looks_ofImage p.source o y)
  obtain ⟨y₁, hstage'⟩ := OutputPlan.run_stage_of_canStage hy hp.toIsFor hne hcy
    (hcan p hp (OutputPlan.canStage_of_stage hx hp.toIsFor hne hstage))
  have hey := (OutputPlan.within_stage hp.toIsFor).evolves hy hstage'
  have hcy₁ := hey.content?_of_some (fun heq ↦ hne (hp.isResolved_path.ext himage heq.symm)) hcy
  obtain ⟨_, -, hcopied⟩ := OutputPlan.isCopied_of_stage hy hp.toIsFor hne hstage'
  have hstaged' : (OutputPlan.staged p.source o).run y = (.ok p, y₁) := by
    rw [OutputPlan.staged, run_bind_of_ok hplan', run_bind_of_ok hstage']
    rfl
  rw [Progress.treat, run_bind_of_ok hstaged', hspan, run_bind_of_ok (run_ofExcept_ok _ _ _)]
  cases role with
  | tag =>
    dsimp only at hrun ⊢
    rw [Progress.ofTag, run_bind_eq_ok] at hrun
    obtain ⟨uri, x₂, hmade, hrun⟩ := hrun
    cases hrun
    obtain ⟨y₂, hmade'⟩ := OutputPlan.run_optimizeSingle_of_isCopied hey.isSound hx₁ hp.toIsFor
      hcopied hcy₁ hcx₁ hmade
    exact ⟨_, y₂, run_bind_of_ok hmade', .closed rfl rfl rfl⟩
  | component =>
    have hready := hcopied.isDirectory hey.isSound hp.toIsFor
    obtain ⟨r, hr, hagrees⟩ : ∃ r, (Progress.ofComponent o (NodeLabel.ofNode e m) span p).run y₁ =
        (.ok r, y₁) ∧ q.Agrees r :=
      exists_run_ofComponent hx₁ hey.isSound hp.toIsFor hcx₁ hcy₁ hready hrun
    exact ⟨r, y₁, hr, hagrees⟩

/-- An image that is opened as a component is there, and so is the directory for its variants. -/
theorem ready_of_treat {k : Component} (hx : x.IsSound) (himage : image.IsResolved)
    (hcx : x.files.content? image.parts = some c) (hout : ¬ o.InOutputs x.cwd image.parts)
    (hrun : (Progress.treat o d n role image).run x = (.ok (.awaiting k), x')) :
    k.plan.source = image ∧ c.header? = some k.header ∧ k.plan.Ready c x' := by
  obtain ⟨p, span, x₁, hplan, hp, rfl, hne, hstage, -, hx₁, hcx₁, hrun⟩ :=
    run_treat_eq_ok hx himage hcx hout hrun
  cases role with
  | tag =>
    dsimp only at hrun
    rw [Progress.ofTag, run_bind_eq_ok] at hrun
    obtain ⟨uri, x₂, -, hrun⟩ := hrun
    cases hrun
  | component =>
    rcases Visit.run_ofComponent_cases hx₁ hp.toIsFor (NodeLabel.ofNode d n) span with
      ⟨f, x₂, hfail, -⟩ | ⟨k', x₂, hok, he, rfl, hheader, -⟩
    · cases hfail.symm.trans hrun
    · cases hok.symm.trans hrun
      obtain ⟨-, c', hc', hh⟩ := (Picture.run_header_eq_ok_iff hx₁ hp.source).mp hheader
      cases hcx₁.symm.trans hc'
      obtain ⟨_, -, hcopied⟩ := OutputPlan.isCopied_of_stage hx hp.toIsFor hne hstage
      exact ⟨rfl, hh, he.isSound, he.content?_of_some id hcx₁,
        he.isDirectory _ (hcopied.isDirectory hx₁ hp.toIsFor)⟩

/-! ## Visits -/

namespace Visit

theorem progress_of_found (h : v.found? o = some (role, image, w₀)) :
    v.progress o = match ((Progress.treat o v.document v.node role image).run w₀).1 with
      | .ok q => q
      | .error _ => .finished [] := by
  obtain ⟨extensions, heligible, hfind⟩ := found?_eq_some_iff.mp h
  have hresolve : (Progress.resolve o v.document v.node role extensions).run v.before =
      (Progress.treat o v.document v.node role image).run w₀ := by
    rw [Progress.resolve_eq]
    exact run_bind_of_ok hfind
  have hrun := run_orLogged (NodeLabel.ofNode v.document v.node)
    (Progress.resolve o v.document v.node role extensions) v.before
  rw [hresolve] at hrun
  cases htreat : ((Progress.treat o v.document v.node role image).run w₀).1 with
  | ok _ | error _ =>
    rw [htreat] at hrun
    rw [progress, Progress.start_of_eligible heligible, hrun]

/-- The visit of an image that is found and treated comes out with some progress. -/
def ComesTo (o : Options) (v : Visit) (q : Progress) : Prop :=
  ∃ role image w₀, v.found? o = some (role, image, w₀) ∧
    ((Progress.treat o v.document v.node role image).run w₀).1 = .ok q

theorem ComesTo.progress_eq (h : v.ComesTo o q) : v.progress o = q := by
  obtain ⟨role, image, w₀, hfound, hrun⟩ := h
  rw [progress_of_found hfound, hrun]

theorem closed_of_not_comesTo (hw : v.before.IsSound) (hd : v.document.directory.IsResolved)
    (h : ∀ q, ¬ v.ComesTo o q) : (v.progress o).isPending = false ∧ (v.progress o).edits = [] := by
  cases hfound : v.found? o with
  | some found =>
    obtain ⟨role, image, w₀⟩ := found
    rw [progress_of_found hfound]
    split
    · rename_i q hrun
      exact absurd ⟨role, image, w₀, hfound, hrun⟩ (h q)
    · exact ⟨rfl, rfl⟩
  | none =>
    have hnot : ∀ {role : Role} {p : OutputPlan}, v.shown? o ≠ some (role, p) := by
      intro role p hshown
      obtain ⟨w₁, hfound', -⟩ := exists_found_of_shown hw hd hshown
      rw [hfound] at hfound'
      cases hfound'
    cases v.course o hw hd with
    | skipped _ hedits hpending _ => exact ⟨hpending, hedits⟩
    | tagFailed hs _ _ _ => exact absurd hs.shown hnot
    | tagMade hs _ _ => exact absurd hs.shown hnot
    | componentFailed hs _ _ _ => exact absurd hs.shown hnot
    | componentOpened hs _ _ _ _ => exact absurd hs.shown hnot

end Visit

/-- What the visit of an image comes to, that of its twin comes to as well. -/
theorem Clear.exists_comesTo (ht : Clear o w.cwd vs) (hall : History.Sound o w vs z) (hu : u ∈ vs)
    (hv : v ∈ vs) (hku : Kept o w (remoteUrls vs) u.before)
    (hkv : Kept o w (remoteUrls vs) v.before) (htwins : u.Twins v) (h : v.ComesTo o q) :
    ∃ r, u.ComesTo o r ∧ q.Agrees r := by
  obtain ⟨role, image, w₀, hfound, hrun⟩ := h
  have hdu := hall.directory u hu
  have hdv := hall.directory v hv
  obtain ⟨c, hmeets⟩ := Visit.exists_meets hkv.isSound hdv hfound
  obtain ⟨x₀, hufound, hcx⟩ := ht.meets hu hv hdv hku hkv htwins hmeets
  obtain ⟨w₁, hvfound, hcw⟩ := hmeets
  cases hfound.symm.trans hvfound
  have hku₀ := ht.kept_found hu hdu hku hufound
  have hkv₀ := ht.kept_found hv hdv hkv hfound
  obtain ⟨himage, -⟩ := (Visit.search_of_found hfound hkv.isSound hdv).isFile hkv.isSound rfl
  obtain ⟨-, hout⟩ := ht.not_output hv hkv.isSound hkv.cwd_eq hdv hfound
  obtain ⟨span, hspan⟩ := Visit.exists_span_of_found hufound
  have hcan : ∀ p : OutputPlan, p.IsMade o w₀.cwd → p.CanStage w₀ → p.CanStage x₀ := by
    intro p hp
    rw [hkv₀.cwd_eq] at hp
    rw [hku₀.canStage_iff ht.apart hp, hkv₀.canStage_iff ht.apart hp]
    exact id
  obtain ⟨r, x', hr, hagrees⟩ := exists_run_treat (e := u.document) hkv₀.isSound hku₀.isSound
    (hku₀.cwd_eq.trans hkv₀.cwd_eq.symm) himage hcw hcx (hkv₀.cwd_eq.symm ▸ hout) hcan hspan
    (Prod.ext hrun rfl)
  exact ⟨r, ⟨role, image, x₀, hufound, by rw [hr]⟩, hagrees⟩

/-- Twins come equally far, at whatever time of a tidy history they are visited. -/
theorem Clear.agrees (ht : Clear o w.cwd vs) (hall : History.Sound o w vs z) (hu : u ∈ vs)
    (hv : v ∈ vs) (hku : Kept o w (remoteUrls vs) u.before)
    (hkv : Kept o w (remoteUrls vs) v.before) (htwins : u.Twins v) :
    (v.progress o).Agrees (u.progress o) := by
  by_cases hcomes : ∃ q, v.ComesTo o q
  · obtain ⟨q, hq⟩ := hcomes
    obtain ⟨r, hr, hagrees⟩ := ht.exists_comesTo hall hu hv hku hkv htwins hq
    rw [hq.progress_eq, hr.progress_eq]
    exact hagrees
  · have hnot : ∀ q, ¬ v.ComesTo o q := fun q hq ↦ hcomes ⟨q, hq⟩
    have hnot' : ∀ r, ¬ u.ComesTo o r := by
      intro r hr
      obtain ⟨q, hq, -⟩ := ht.exists_comesTo hall hv hu hkv hku htwins.symm hr
      exact hnot q hq
    obtain ⟨hpending, hedits⟩ := Visit.closed_of_not_comesTo hkv.isSound (hall.directory v hv) hnot
    obtain ⟨hpending', hedits'⟩ := Visit.closed_of_not_comesTo hku.isSound (hall.directory u hu) hnot'
    exact .closed hpending hpending' (by rw [hedits, hedits'])

/-! ## What images end with -/

theorem Clear.ready (ht : Clear o w.cwd vs) (hall : History.Sound o w vs z) (hv : v ∈ vs)
    (hkv : Kept o w (remoteUrls vs) v.before) {k : Component} (hk : v.progress o = .awaiting k) :
    ∃ role e, v.Meets o role k.plan.source e ∧ e.header? = some k.header ∧
      ¬ o.Unfinished w.cwd k.plan.source.parts ∧ ¬ o.InOutputs w.cwd k.plan.source.parts ∧
        k.plan.Ready e (v.after o) := by
  have hd := hall.directory v hv
  obtain ⟨role, image, w₀, hfound, hrun⟩ : v.ComesTo o (.awaiting k) := by
    by_contra hnot
    obtain ⟨hpending, -⟩ := Visit.closed_of_not_comesTo hkv.isSound hd fun q hq ↦ by
      rw [← hk, hq.progress_eq] at hnot
      exact hnot hq
    rw [hk] at hpending
    cases hpending
  obtain ⟨e, hmeets⟩ := Visit.exists_meets hkv.isSound hd hfound
  obtain ⟨w₁, hfound', hc⟩ := id hmeets
  cases hfound.symm.trans hfound'
  have hkv₀ := ht.kept_found hv hd hkv hfound
  obtain ⟨himage, -⟩ := (Visit.search_of_found hfound hkv.isSound hd).isFile hkv.isSound rfl
  obtain ⟨hunfinished, hout⟩ := ht.not_output hv hkv.isSound hkv.cwd_eq hd hfound
  obtain ⟨rfl, hheader, hready⟩ := ready_of_treat hkv₀.isSound himage hc (hkv₀.cwd_eq.symm ▸ hout)
    (Prod.ext hrun rfl)
  have hafter : Evolves Nowhere Nowhere _ (v.after o) :=
    (Visit.alike_after_of_found hfound).evolves hready.isSound
  exact ⟨role, e, hmeets, hheader, hunfinished, hout, hready.of_evolves hafter⟩

/-- The image of a component stays there, all along a history that has visited it. -/
theorem History.ready {e : Content} (hw : w.IsSound) (h : History o w us x) (hv : v ∈ us)
    (hunfinished : ¬ o.Unfinished w.cwd p.source.parts) (hout : ¬ o.InOutputs w.cwd p.source.parts)
    (hready : p.Ready e (v.after o)) : p.Ready e x := by
  have he := h.evolves_of_mem hw hv
  exact ⟨he.isSound, he.content?_of_some (fun hor ↦ hor.elim hunfinished hout) hready.source,
    he.isDirectory _ hready.directory⟩

theorem Clear.kept_before (ht : Clear o w.cwd vs) (hw : w.IsSound) (hsub : us ⊆ vs)
    (h : History o w us x) (hv : v ∈ us) : Kept o w (remoteUrls vs) v.before := by
  obtain ⟨us', hus', hbefore⟩ := h.exists_before hv
  exact hbefore.kept hw ht (List.Subset.trans hus' hsub)

section Ends

variable {placeholder : Placeholder} {us' : List Visit} {k l : Component} {r s : Progress}

/-- The image of two components that are twins has one content wherever they have been visited. -/
theorem Clear.ready_twins (ht : Clear o w.cwd vs) (hall : History.Sound o w vs z) (hw : w.IsSound)
    (hus : us ⊆ vs) (hus' : us' ⊆ vs) (hv : v ∈ us) (hu : u ∈ us') (htwins : u.Twins v)
    (hk : v.progress o = .awaiting k) (hl : u.progress o = .awaiting l) (hplan : k.plan = l.plan)
    (hx : History o w us x) (hy : History o w us' y) :
    ∃ e, e.header? = some k.header ∧ k.plan.Ready e x ∧ k.plan.Ready e y := by
  have hkv := ht.kept_before hw hus hx hv
  have hku := ht.kept_before hw hus' hy hu
  obtain ⟨role, e, hmeets, hheader, hunfinished, hout, hready⟩ := ht.ready hall (hus hv) hkv hk
  obtain ⟨role', e', hmeets', -, -, -, hready'⟩ := ht.ready hall (hus' hu) hku hl
  obtain ⟨-, rfl⟩ := (ht.meets (hus' hu) (hus hv) (hall.directory v (hus hv)) hku hkv htwins
    hmeets).unique hmeets'
  rw [← hplan] at hready'
  exact ⟨e, hheader, hx.ready hw hv hunfinished hout hready,
    hy.ready hw hu hunfinished hout hready'⟩

/-- Variants that come out for a component come out for its twin. -/
theorem Tidy.variants (ht : Tidy o w.cwd vs) (hall : History.Sound o w vs z) (hw : w.IsSound)
    (hname : o.NamesAlternate) (hus : us ⊆ vs) (hus' : us' ⊆ vs) (hv : v ∈ us) (hu : u ∈ us')
    (htwins : u.Twins v) (hk : v.progress o = .awaiting k) (hl : u.progress o = .awaiting l)
    (hplan : k.plan = l.plan) (hheader : k.header = l.header) (hsizes : k.sizes = l.sizes)
    (hx : History o w us x) (hy : History o w us' y) {variants : List Variant}
    (hvariants : ((Variant.ofSizes k.plan k.sizes k.header o).run x).1 = .ok variants) :
    ((Variant.ofSizes l.plan l.sizes l.header o).run y).1 = .ok variants := by
  obtain ⟨e, he, hreadyx, hreadyy⟩ := ht.ready_twins hall hw hus hus' hv hu htwins hk hl hplan hx hy
  obtain ⟨hbefore, hcwd⟩ := hall.before v (hus hv)
  have hp := (Visit.isMade_of_awaiting hbefore (hall.directory v (hus hv)) hk).2
  rw [hcwd] at hp
  have hcoupled : k.plan.Coupled o e k.header k.sizes y x :=
    OutputPlan.coupled_of_follows (hy.follows hw ht hall hname (hus hv) hk hus')
      (hx.follows hw ht hall hname (hus hv) hk hus)
      ((hy.kept hw ht.toClear hus').staysFlat ht.apart hp hname _)
      ((hx.kept hw ht.toClear hus).staysFlat ht.apart hp hname _) hreadyy hreadyx he
  obtain ⟨y', hrun⟩ := Variant.run_ofSizes_of_coupled hcoupled hp.toIsFor hname he
    (Prod.ext hvariants rfl)
  rw [← hplan, ← hheader, ← hsizes, hrun]

/-- What is shown in place of a component is shown in place of its twin. -/
theorem Clear.shown (ht : Clear o w.cwd vs) (hall : History.Sound o w vs z) (hw : w.IsSound)
    (hsteady : placeholder.IsSteady) (hus : us ⊆ vs) (hus' : us' ⊆ vs) (hv : v ∈ us) (hu : u ∈ us')
    (htwins : u.Twins v) (hk : v.progress o = .awaiting k) (hl : u.progress o = .awaiting l)
    (hplan : k.plan = l.plan) (hx : History o w us x) (hy : History o w us' y) :
    ((placeholder l.plan.source).run y).1 = ((placeholder k.plan.source).run x).1 := by
  obtain ⟨e, -, hreadyx, hreadyy⟩ := ht.ready_twins hall hw hus hus' hv hu htwins hk hl hplan hx hy
  have hp := (Visit.isMade_of_awaiting (hall.before v (hus hv)).1 (hall.directory v (hus hv)) hk).2
  rw [← hplan]
  exact hsteady.congr hp.source ((hy.sound hw).cwd_eq.trans (hx.sound hw).cwd_eq.symm)
    hreadyx.source hreadyy.source

/-- A component whose twin is completed does not fail. -/
theorem Tidy.exists_componentEdits (ht : Tidy o w.cwd vs) (hall : History.Sound o w vs z)
    (hw : w.IsSound) (hname : o.NamesAlternate) (hsteady : placeholder.IsSteady) (hus : us ⊆ vs)
    (hus' : us' ⊆ vs) (hv : v ∈ us) (hu : u ∈ us') (htwins : u.Twins v)
    (hk : v.progress o = .awaiting k) (hl : u.progress o = .awaiting l)
    (hagrees : (v.progress o).Agrees (u.progress o)) {x₂ y₂ : Workspace} (hx : History o w us x)
    (hx₂ : History o w us x₂) (hy : History o w us' y) (hy₂ : History o w us' y₂)
    {variants : List Variant} {es : List Edit}
    (hvariants : ((Variant.ofSizes k.plan k.sizes k.header o).run x).1 = .ok variants)
    (hes : ((Progress.componentEdits o placeholder k variants).run x₂).1 = .ok es) :
    ((Variant.ofSizes l.plan l.sizes l.header o).run y).1 = .ok variants ∧
      ∃ fs, ((Progress.componentEdits o placeholder l variants).run y₂).1 = .ok fs ∧
        es.map (·.replacement) = fs.map (·.replacement) := by
  rw [hk, hl] at hagrees
  cases hagrees with
  | closed hpending => cases hpending
  | awaiting hplan hheader hsizes =>
    obtain ⟨hne, shown, extension, extra, hshown, hextension, hextra, rfl⟩ :=
      run_componentEdits_eq_ok_iff.mp hes
    rw [← ht.shown hall hw hsteady hus hus' hv hu htwins hk hl hplan hx₂ hy₂] at hshown
    refine ⟨ht.variants hall hw hname hus hus' hv hu htwins hk hl hplan hheader hsizes hx hy
      hvariants, _, run_componentEdits_eq_ok_iff.mpr ⟨hne, shown, extension, extra, hshown,
        hextension, hextra, rfl⟩, rfl⟩

/-- Twins end with the same texts, at whatever time of a tidy history they are visited. -/
theorem Tidy.replacements_eq (ht : Tidy o w.cwd vs) (hall : History.Sound o w vs z)
    (hw : w.IsSound) (hname : o.NamesAlternate) (hsteady : placeholder.IsSteady) (hus : us ⊆ vs)
    (hus' : us' ⊆ vs) (hv : v ∈ us) (hu : u ∈ us') (htwins : u.Twins v) (hx : History o w us x)
    (hy : History o w us' y) (hr : Ends o placeholder w us v r)
    (hs : Ends o placeholder w us' u s) :
    r.edits.map (·.replacement) = s.edits.map (·.replacement) := by
  have hagrees := ht.agrees hall (hus' hu) (hus hv) (ht.kept_before hw hus' hy hu)
    (ht.kept_before hw hus hx hv) htwins
  have hpending := hagrees.isPending_eq
  cases hr with
  | visited hclosed =>
    rw [hclosed] at hpending
    cases hs with
    | visited _ => exact hagrees.replacements_eq
    | failed hl _ _ _ =>
      rw [hl] at hpending
      cases hpending
    | completed hl _ _ _ _ _ _ _ =>
      rw [hl] at hpending
      cases hpending
  | failed hk h₁ h₂ hfail =>
    rw [hk] at hpending
    cases hs with
    | visited hclosed =>
      rw [hclosed] at hpending
      cases hpending
    | failed _ _ _ _ => rfl
    | completed hl h₁' hvariants hne h₂' hshown hextension hextra =>
      obtain ⟨hvariants', es, hes, -⟩ := ht.exists_componentEdits hall hw hname hsteady hus' hus hu hv
        htwins.symm hl hk hagrees.symm h₁' h₂' h₁ h₂ hvariants
        (run_componentEdits_eq_ok_iff.mpr ⟨hne, _, _, _, hshown, hextension, hextra, rfl⟩)
      exact absurd hes (hfail _ hvariants' es)
  | completed hk h₁ hvariants hne h₂ hshown hextension hextra =>
    rw [hk] at hpending
    have hes := run_componentEdits_eq_ok_iff.mpr
      ⟨hne, _, _, _, hshown, hextension, hextra, rfl⟩
    cases hs with
    | visited hclosed =>
      rw [hclosed] at hpending
      cases hpending
    | failed hl h₁' h₂' hfail =>
      obtain ⟨hvariants', fs, hfs, -⟩ := ht.exists_componentEdits hall hw hname hsteady hus hus' hv hu
        htwins hk hl hagrees h₁ h₂ h₁' h₂' hvariants hes
      exact absurd hfs (hfail _ hvariants' fs)
    | completed hl h₁' hvariants' hne' h₂' hshown' hextension' hextra' =>
      obtain ⟨hvariants'', fs, hfs, heq⟩ := ht.exists_componentEdits hall hw hname hsteady hus hus' hv
        hu htwins hk hl hagrees h₁ h₂ h₁' h₂' hvariants hes
      cases hvariants'.symm.trans hvariants''
      rw [run_componentEdits_eq_ok_iff.mpr
        ⟨hne', _, _, _, hshown', hextension', hextra', rfl⟩] at hfs
      cases hfs
      exact heq

end Ends

end Rewrite

end ResponsiveImage
