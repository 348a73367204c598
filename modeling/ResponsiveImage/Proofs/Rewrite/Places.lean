import ResponsiveImage.Picture.HeaderCodec
import ResponsiveImage.Proofs.Job.Beside
import ResponsiveImage.Proofs.Rewrite.Directories
import ResponsiveImage.Proofs.Rewrite.Isolation
import ResponsiveImage.Proofs.Rewrite.SourceFiles

/-!
# The places that a rewrite writes to

The rewrite of a document makes the directories that the options need.  Else it touches nothing but
what lies directly in the output directory and, under the keys of the remote images of the document,
in the download directory; and of the files that it leaves, each was there before as it is, or is a
finished download, a copy of an image or one of its renditions (`document_confines`).
-/

namespace ResponsiveImage

open Workspace (Evolves Alike)
open Job

variable {o : Options} {w w₁ w₂ w' : Workspace} {image : Path}

/-- The places directly in the output directory. -/
def Options.InOutputs (o : Options) (cwd : List String) : List String → Prop := fun q ↦
  ∃ d n, o.outputPath = .ok d ∧ q = (d.resolve cwd).parts ++ [n]

/-- The places directly in the download directory under the keys of some URLs. -/
def Options.InDownloads (o : Options) (cwd : List String) (urls : List String) :
    List String → Prop := fun q ↦
  ∃ d url, o.downloadPath = .ok d ∧ url ∈ urls ∧
    Download.Keyed (d.resolve cwd) (Download.key url) q

theorem Options.InDownloads.mono {cwd urls urls' q : List String} (h : o.InDownloads cwd urls q)
    (hurls : urls ⊆ urls') : o.InDownloads cwd urls' q := by
  obtain ⟨d, url, hd, hurl, hq⟩ := h
  exact ⟨d, url, hd, hurls hurl, hq⟩

theorem Options.LeadsToDownloads.of_isPrefix {cwd q r : List String}
    (h : o.LeadsToDownloads cwd q) (hr : r <+: q) : o.LeadsToDownloads cwd r := by
  obtain ⟨d, hd, hq⟩ := h
  exact ⟨d, hd, hr.trans hq⟩

/-- What lies above a download leads to the downloads, unless it is the download itself. -/
theorem Options.InDownloads.of_isPrefix {cwd urls q r : List String} (h : o.InDownloads cwd urls q)
    (hr : r <+: q) : o.InDownloads cwd urls r ∨ o.LeadsToDownloads cwd r := by
  obtain ⟨d, url, hd, hurl, n, hkey, rfl⟩ := h
  rcases List.prefix_concat_iff.mp hr with rfl | hr
  · exact .inl ⟨d, url, hd, hurl, n, hkey, rfl⟩
  · exact .inr ⟨d, hd, hr⟩

/-! ## Confined changes -/

namespace Workspace

/-- A change that keeps to its places: it `touched` all that differs, `made` what files there are that
were not there as they are, and `founded` what directories are new. -/
structure Confines (touched made founded : List String → Prop) (w w' : Workspace) : Prop
    extends Evolves touched Nowhere w w' where
  kept_or_made : ∀ q, w'.files.content? q = w.files.content? q ∨ w'.files.content? q = none ∨ made q
  founds : Founds founded w w'

namespace Confines

variable {touched made founded touched' made' founded' : List String → Prop}

theorem refl (hw : w.IsSound) : Confines touched made founded w w :=
  ⟨.refl hw, fun _ ↦ .inl rfl, .refl hw⟩

theorem trans (h₁ : Confines touched made founded w w₁) (h₂ : Confines touched made founded w₁ w₂) :
    Confines touched made founded w w₂ := by
  refine ⟨h₁.toEvolves.trans h₂.toEvolves, fun q ↦ ?_, h₁.founds.trans h₂.founds⟩
  rcases h₂.kept_or_made q with h | h
  · rw [h]
    exact h₁.kept_or_made q
  · exact .inr h

theorem mono (h : Confines touched made founded w w') (htouched : ∀ q, touched q → touched' q)
    (hmade : ∀ q, made q → made' q) (hfounded : ∀ q, founded q → founded' q) :
    Confines touched' made' founded' w w' :=
  ⟨h.toEvolves.mono htouched fun _ ↦ .inr, fun q ↦ (h.kept_or_made q).imp_right (.imp_right (hmade q)),
    h.founds.mono hfounded⟩

/-- What a change touches it also makes, as far as it is there. -/
theorem of_evolves {changed created : List String → Prop} (h : Evolves changed created w w')
    (hfounds : Founds founded w w') :
    Confines (fun q ↦ changed q ∨ created q) (fun q ↦ changed q ∨ created q) founded w w' := by
  refine ⟨h.mono (fun _ ↦ .inl) fun _ hq ↦ .inl (.inr hq), fun q ↦ ?_, hfounds⟩
  rcases h.content? q with hq | hq | ⟨hq, -⟩
  · exact .inl hq
  · exact .inr (.inr (.inl hq))
  · exact .inr (.inr (.inr hq))

theorem of_alike (hw : w.IsSound) (h : Alike w w') : Confines touched made founded w w' :=
  ⟨h.evolves hw, fun q ↦ .inl (by rw [h.files_eq]), .of_alike hw h⟩

/-- Whatever differs is touched, or is a directory where there was nothing. -/
theorem get?_eq_or (h : Confines touched made founded w w') (q : List String) :
    w'.files.get? q = w.files.get? q ∨ touched q ∨
      founded q ∧ w.files.get? q = none ∧ w'.files.get? q = some .directory := by
  rcases h.content? q with hcontent | htouched | ⟨hnowhere, -⟩
  · rcases Tree.get?_eq_or hcontent (h.isDirectory q) with hget | ⟨hnone, hafter⟩
    · exact .inl hget
    · have hnot : ¬ w.files.isDirectory q = true := fun hd ↦
        nomatch hnone.symm.trans (Tree.isDirectory_iff.mp hd)
      have hfounded := (h.founds.isDirectory q (Tree.isDirectory_iff.mpr hafter)).resolve_left hnot
      exact .inr (.inr ⟨hfounded, hnone, hafter⟩)
  · exact .inr (.inl htouched)
  · exact hnowhere.elim

end Confines

end Workspace

open Workspace (Confines)

/-! ## Searches -/

namespace Resolution

variable {value : Option Markup.AttributeValue} {r : Except Fault Finding}

/-- A search keeps to the downloads of its URL, and makes none but the image that it finds. -/
theorem Search.confines (h : Search o value w r w') (hw : w.IsSound) :
    Confines (o.InDownloads w.cwd (remoteUrl? value).toList)
      (fun q ↦ ∃ url image, remoteUrl? value = some url ∧ r = .ok (.file image) ∧ q = image.parts)
      (o.LeadsToDownloads w.cwd) w w' := by
  have hfounds := h.founds hw
  cases h with
  | looked => exact .refl hw
  | @downloaded url d outcome w₁ _ hurl hd hfolder hrun hafter hfound =>
    have hleaves := Download.leaves_download hw hfolder hrun
    refine ⟨(hleaves.evolves.trans (hafter.evolves hleaves.evolves.isSound)).mono (fun q hq ↦ ?_)
      fun _ ↦ .inr, fun q ↦ ?_, hfounds⟩
    · exact ⟨d, url, hd, by rw [hurl]; exact List.mem_singleton_self url, hq⟩
    · rw [hafter.files_eq]
      refine (hleaves.kept_or_gone q).imp_right (.imp_right ?_)
      rintro ⟨image, himage, rfl⟩
      exact ⟨url, image, hurl, (hfound image).mpr himage, rfl⟩

end Resolution

/-! ## Visits -/

namespace Rewrite

namespace Progress

variable {p : OutputPlan}

theorem within_ofTag [Codec] (hp : p.IsFor o) (span : SourceSpan) :
    Within p.path.Here Nowhere (ofTag o span p) :=
  (OutputPlan.within_optimizeSingle hp).bind fun _ ↦ within_pure _

theorem within_ofComponent [Codec] (hp : p.IsFor o) (label : NodeLabel) (span : SourceSpan) :
    Within p.path.Here Nowhere (ofComponent o label span p) := by
  refine (Picture.looks_header _).within.bind fun h ↦
    ((within_ensureDirectories hp.directory).mono (fun _ ↦ False.elim) fun _ ↦ .inr).bind fun _ ↦ ?_
  split
  · exact (within_throw _).bind fun _ ↦ within_pure _
  · exact within_pure _

/-- An image is treated in the place of its output. -/
theorem evolves_treat [Codec] (hw : w.IsSound) (hp : p.IsFor o)
    (hplan : (OutputPlan.ofImage p.source o).run w = (.ok p, w)) (d : Document) (n : Markup.Node)
    (role : Role) :
    Evolves p.path.Here Nowhere w ((treat o d n role p.source).run w).2 := by
  rw [treat, OutputPlan.staged, bind_assoc, run_bind_of_ok hplan, bind_assoc]
  simp only [pure_bind]
  refine ((OutputPlan.within_stage hp).bind fun _ ↦ (within_ofExcept _ _).bind fun span ↦ ?_) w hw
  cases role with
  | tag => exact within_ofTag hp span
  | component => exact within_ofComponent hp _ span

end Progress

namespace Visit

variable {v : Visit} {role : Role} {w₀ : Workspace} {p : OutputPlan} {q : List String}

/-- A visit comes to a plan for the image that it finds. -/
def Plans (o : Options) (v : Visit) (p : OutputPlan) : Prop :=
  ∃ role w₀, v.found? o = some (role, p.source, w₀) ∧
    (OutputPlan.ofImage p.source o).run w₀ = (.ok p, w₀)

/-- The places of what a visit puts out: the copy of its image, which may give way to the optimised
picture, and the renditions of a component. -/
inductive Outputs [Codec] (o : Options) (v : Visit) : List String → Prop
  | copy {p : OutputPlan} (h : v.Plans o p) : Outputs o v p.path.parts
  | rendition {c : Component} (h : v.progress o = .awaiting c) {q : List String}
      (hq : c.plan.Rendered c.sizes q) : Outputs o v q

/-- The places of the files that a visit makes: its outputs and, for a remote image, the finished
download. -/
inductive Makes [Codec] (o : Options) (v : Visit) : List String → Prop
  | output {q : List String} (h : v.Outputs o q) : Makes o v q
  | download {role : Role} {image : Path} {w₀ : Workspace} {url : String}
      (hfound : v.found? o = some (role, image, w₀))
      (hurl : Resolution.remoteUrl? v.source? = some url) : Makes o v image.parts

theorem Plans.isMade (h : v.Plans o p) (hw : v.before.IsSound)
    (hd : v.document.directory.IsResolved) : p.IsMade o v.before.cwd := by
  obtain ⟨role, w₀, hfound, hplan⟩ := h
  have hsearch := search_of_found hfound hw hd
  obtain ⟨himage, c, hc⟩ := hsearch.isFile hw rfl
  have he := hsearch.evolves hw
  rw [← he.cwd_eq]
  exact (OutputPlan.run_ofImage_eq_ok he.isSound himage (Tree.ne_nil_of_content? hc) hplan).1

theorem plans_of_awaiting [Codec] (hw : v.before.IsSound) (hd : v.document.directory.IsResolved)
    {c : Component} (h : v.progress o = .awaiting c) : v.Plans o c.plan := by
  obtain ⟨w₀, hfound, hplan⟩ := exists_found_of_shown hw hd (isMade_of_awaiting hw hd h).1
  exact ⟨_, w₀, hfound, hplan⟩

theorem Outputs.exists_plans [Codec] (h : v.Outputs o q) (hw : v.before.IsSound)
    (hd : v.document.directory.IsResolved) : ∃ p, v.Plans o p := by
  cases h with
  | copy h => exact ⟨_, h⟩
  | rendition h => exact ⟨_, plans_of_awaiting hw hd h⟩

theorem Outputs.inOutputs [Codec] (h : v.Outputs o q) (hw : v.before.IsSound)
    (hd : v.document.directory.IsResolved) : o.InOutputs v.before.cwd q := by
  cases h with
  | @copy p h =>
    have hp := h.isMade hw hd
    obtain ⟨d, hd, hdirectory⟩ := hp.directory_eq
    exact ⟨d, p.name, hd, hdirectory ▸ hp.parts_path⟩
  | @rendition c h q hq =>
    have hp := (isMade_of_awaiting hw hd h).2
    obtain ⟨d, hd, hdirectory⟩ := hp.directory_eq
    obtain ⟨n, rfl⟩ := hq.exists_name hp.toIsFor
    exact ⟨d, n, hd, by rw [hdirectory]⟩

theorem alike_after_of_ineligible [Codec]
    (h : ∀ role extensions, Eligibility.ofNode v.node o ≠ .ok (.eligible role extensions)) :
    Alike v.before (v.after o) := by
  rw [after, Progress.start_eq, Progress.started]
  split
  · exact .refl v.before
  · exact ((reports_logSkip _ _).bind fun _ ↦ reports_pure _) v.before
  · rename_i heligible
    exact absurd heligible (h _ _)

/-- An image for which there is no plan is not treated. -/
theorem run_treat_of_unplanned [Codec] (hw : v.before.IsSound) (hd : v.document.directory.IsResolved)
    (h : ∀ p, ¬ v.Plans o p) (hfound : v.found? o = some (role, image, w₀)) :
    ∃ f, (Progress.treat o v.document v.node role image).run w₀ = (.error f, w₀) := by
  cases hplan : (OutputPlan.ofImage image o).run w₀ with
  | mk r w₁ =>
    obtain rfl := (OutputPlan.looks_ofImage image o).eq hplan
    cases r with
    | error f => exact ⟨f, run_bind_of_error (run_bind_of_error hplan)⟩
    | ok p =>
      have hsearch := search_of_found hfound hw hd
      obtain ⟨himage, c, hc⟩ := hsearch.isFile hw rfl
      obtain ⟨-, rfl⟩ := OutputPlan.run_ofImage_eq_ok (hsearch.evolves hw).isSound himage
        (Tree.ne_nil_of_content? hc) hplan
      exact absurd ⟨role, w₁, hfound, hplan⟩ (h p)

/-- A visit that comes to no plan does no more than search. -/
theorem search_of_unplanned [Codec] (hw : v.before.IsSound) (hd : v.document.directory.IsResolved)
    (h : ∀ p, ¬ v.Plans o p) :
    ∃ r w₁, Resolution.Search o v.source? v.before r w₁ ∧ Alike w₁ (v.after o) ∧
      ∀ image, r = .ok (.file image) → ∃ role, v.found? o = some (role, image, w₁) := by
  by_cases heligible : ∃ role extensions, Eligibility.ofNode v.node o = .ok (.eligible role extensions)
  · obtain ⟨role, extensions, heligible⟩ := heligible
    have hsearch := Resolution.search_find (o := o) hw hd v.source? extensions
    cases hfind : (Resolution.find v.source? v.document.directory o extensions).run v.before with
    | mk r w₁ =>
      rw [hfind] at hsearch
      have hfound : ∀ image, r = .ok (.file image) → v.found? o = some (role, image, w₁) := by
        rintro image rfl
        exact found?_eq_some_iff.mpr ⟨extensions, heligible, hfind⟩
      refine ⟨r, w₁, hsearch, ?_, fun image hr ↦ ⟨role, hfound image hr⟩⟩
      rw [after, Progress.start_of_eligible heligible, Progress.resolve_eq]
      refine Alike.trans ?_ (alike_orLogged _ _ _)
      change Alike w₁
        ((Resolution.find v.source? v.document.directory o extensions >>= _).run v.before).2
      rcases r with f | ⟨reason, detail⟩ | image
      · rw [run_bind_of_error hfind]
        exact .refl w₁
      · rw [run_bind_of_ok hfind]
        exact ((reports_logSkip _ _).bind fun _ ↦ reports_pure _) w₁
      · obtain ⟨f, htreat⟩ := run_treat_of_unplanned hw hd h (hfound image rfl)
        rw [run_bind_of_ok hfind, htreat]
        exact .refl w₁
  · have hskipped : ∀ image, (.ok (.skipped .notEligible "") : Except Fault Resolution.Finding) ≠
        .ok (.file image) := fun image h ↦ by cases h
    exact ⟨_, v.before, .of_not_file hskipped, alike_after_of_ineligible fun role extensions h ↦
      heligible ⟨role, extensions, h⟩, fun image h ↦ absurd h (hskipped image)⟩

/-- A visit searches, and then puts its output where that goes if it has found an image. -/
theorem exists_search [Codec] (hw : v.before.IsSound) (hd : v.document.directory.IsResolved) :
    ∃ r w₁, Resolution.Search o v.source? v.before r w₁ ∧
      (∀ image, r = .ok (.file image) → ∃ role, v.found? o = some (role, image, w₁)) ∧
      Evolves (fun q ↦ ∃ p, v.Plans o p ∧ q = p.path.parts) Nowhere w₁ (v.after o) ∧
      ((∀ p, ¬ v.Plans o p) → Alike w₁ (v.after o)) := by
  by_cases hplans : ∃ p, v.Plans o p
  · obtain ⟨p, hp⟩ := hplans
    obtain ⟨role, w₀, hfound, hplan⟩ := id hp
    have hsearch := search_of_found hfound hw hd
    have htreat := Progress.evolves_treat (hsearch.evolves hw).isSound (hp.isMade hw hd).toIsFor hplan
      v.document v.node role
    have hafter := htreat.trans ((alike_after_of_found hfound).evolves htreat.isSound)
    refine ⟨_, w₀, hsearch, ?_, hafter.mono ?_ fun _ ↦ .inr, fun h ↦ absurd hp (h p)⟩
    · rintro image ⟨⟩
      exact ⟨role, hfound⟩
    · rintro q rfl
      exact ⟨p, hp, rfl⟩
  · have hnot : ∀ p, ¬ v.Plans o p := fun p hp ↦ hplans ⟨p, hp⟩
    obtain ⟨r, w₁, hsearch, halike, hfound⟩ := search_of_unplanned hw hd hnot
    exact ⟨r, w₁, hsearch, hfound, halike.evolves (hsearch.evolves hw).isSound, fun _ ↦ halike⟩

/-- A visit keeps to its outputs and to the downloads of its URL. -/
theorem confines [Codec] (hw : v.before.IsSound) (hd : v.document.directory.IsResolved) :
    Confines (fun q ↦ o.InDownloads v.before.cwd (Resolution.remoteUrl? v.source?).toList q ∨
        v.Outputs o q)
      (v.Makes o)
      (fun q ↦ o.LeadsToDownloads v.before.cwd q ∨
        (∃ p, v.Plans o p) ∧ o.LeadsToOutputs v.before.cwd q)
      v.before (v.after o) := by
  obtain ⟨r, w₁, hsearch, hfound, hafter, hunplanned⟩ := exists_search (o := o) hw hd
  have h := hsearch.confines hw
  refine ⟨?_, fun q ↦ ?_, ?_⟩
  · refine (h.toEvolves.mono (fun _ ↦ .inl) fun _ ↦ .inr).trans (hafter.mono ?_ fun _ ↦ .inr)
    rintro q ⟨p, hp, rfl⟩
    exact .inr (.copy hp)
  · rcases hafter.content? q with hq | ⟨p, hp, rfl⟩ | ⟨hq, -⟩
    · rw [hq]
      refine (h.kept_or_made q).imp_right (.imp_right ?_)
      rintro ⟨url, image, hurl, hr, rfl⟩
      obtain ⟨role, hfound⟩ := hfound image hr
      exact .download hfound hurl
    · exact .inr (.inr (.output (.copy hp)))
    · exact hq.elim
  · by_cases hplans : ∃ p, v.Plans o p
    · exact (founds hw hd).mono fun q hq ↦ hq.symm.imp_right fun hq ↦ ⟨hplans, hq⟩
    · have halike := hunplanned fun p hp ↦ hplans ⟨p, hp⟩
      exact (h.founds.trans (.of_alike h.isSound halike)).mono fun _ ↦ .inl

end Visit

/-! ## Histories -/

variable {vs : List Visit} {v : Visit} {d : Document} {ns : List Markup.Node} {q : List String}

/-- The URLs of the remote images of visits. -/
def remoteUrls (vs : List Visit) : List String :=
  vs.filterMap fun v ↦ Resolution.remoteUrl? v.source?

/-- A change that keeps to the outputs of visits and to the downloads of their URLs. -/
def Keeps [Codec] (o : Options) (cwd : List String) (vs : List Visit) : Workspace → Workspace → Prop :=
  Confines (fun q ↦ o.InDownloads cwd (remoteUrls vs) q ∨ ∃ v ∈ vs, v.Outputs o q)
    (fun q ↦ ∃ v ∈ vs, v.Makes o q)
    (fun q ↦ o.LeadsToDownloads cwd q ∨
      (∃ v ∈ vs, ∃ p, v.Plans o p) ∧ o.LeadsToOutputs cwd q)

theorem Keeps.mono [Codec] {cwd : List String} {us : List Visit} (h : Keeps o cwd us w w')
    (hsub : us ⊆ vs) :
    Keeps o cwd vs w w' := by
  refine Confines.mono h (fun q hq ↦ ?_) (fun q ⟨v, hv, hq⟩ ↦ ⟨v, hsub hv, hq⟩) fun q hq ↦ ?_
  · refine hq.imp (fun hq ↦ hq.mono fun url hurl ↦ ?_) fun ⟨v, hv, hq⟩ ↦ ⟨v, hsub hv, hq⟩
    obtain ⟨v, hv, hsource⟩ := List.mem_filterMap.mp hurl
    exact List.mem_filterMap.mpr ⟨v, hsub hv, hsource⟩
  · exact hq.imp_right fun ⟨⟨v, hv, hp⟩, hq⟩ ↦ ⟨⟨v, hsub hv, hp⟩, hq⟩

theorem Visit.keeps [Codec] (hw : v.before.IsSound) (hd : v.document.directory.IsResolved) :
    Keeps o v.before.cwd [v] v.before (v.after o) := by
  have hv := List.mem_singleton_self v
  refine (v.confines hw hd).mono (fun q hq ↦ ?_) (fun q hq ↦ ⟨v, hv, hq⟩) fun q hq ↦ ?_
  · refine hq.imp (fun hq ↦ hq.mono fun url hurl ↦ ?_) fun hq ↦ ⟨v, hv, hq⟩
    exact List.mem_filterMap.mpr ⟨v, hv, Option.mem_toList.mp hurl⟩
  · exact hq.imp_right fun ⟨hp, hq⟩ ↦ ⟨⟨v, hv, hp⟩, hq⟩

/-- The making of the variants that a visit awaits puts out no more than its renditions. -/
theorem Visit.keeps_expand [Codec] (hw : v.before.IsSound) (hd : v.document.directory.IsResolved)
    {c : Component} (hc : v.progress o = .awaiting c) (hw₁ : w₁.IsSound) :
    Keeps o v.before.cwd [v] w₁ ((Variant.ofSizes c.plan c.sizes c.header o).run w₁).2 := by
  have hv := List.mem_singleton_self v
  have hp := (Visit.isMade_of_awaiting hw hd hc).2
  have hevolves := Variant.within_ofSizes hp.toIsFor c.sizes c.header w₁ hw₁
  have hfounds := Variant.founding_ofSizes hp.toIsFor (D := o.LeadsToOutputs v.before.cwd)
    (fun q hq ↦ hp.leadsToOutputs hq) c.sizes c.header w₁ hw₁
  refine (Confines.of_evolves hevolves hfounds).mono (fun q hq ↦ ?_) (fun q hq ↦ ?_) fun q hq ↦ ?_
  · exact hq.elim False.elim fun hq ↦ .inr ⟨v, hv, .rendition hc hq⟩
  · exact hq.elim False.elim fun hq ↦ ⟨v, hv, .output (.rendition hc hq)⟩
  · exact .inr ⟨⟨v, hv, c.plan, plans_of_awaiting hw hd hc⟩, hq⟩

/-- A history keeps to the outputs of its visits and to the downloads of their URLs. -/
theorem History.keeps [Codec] (hw : w.IsSound) (h : History o w vs w₁) : Keeps o w.cwd vs w w₁ := by
  induction h with
  | start => exact Confines.refl hw
  | quiet h halike ih => exact Confines.trans ih (.of_alike ih.isSound halike)
  | @visit vs w₁ h d hd n ih =>
    have hsound := h.sound hw
    have hstep := Visit.keeps (o := o) (v := ⟨d, n, w₁⟩) hsound.isSound hd
    rw [hsound.cwd_eq] at hstep
    exact Confines.trans (ih.mono (List.subset_append_left _ _))
      (hstep.mono (List.subset_append_right _ _))
  | @expand vs w₁ h v c hv hc ih =>
    have hsound := h.sound hw
    obtain ⟨hbefore, hcwd⟩ := hsound.before v hv
    have hstep := Visit.keeps_expand hbefore (hsound.directory v hv) hc hsound.isSound
    rw [hcwd] at hstep
    exact Confines.trans ih (hstep.mono fun u hu ↦ List.mem_singleton.mp hu ▸ hv)

theorem History.confines_needed [Codec] (hw : w.IsSound) (h : History o w vs w₁) :
    Confines (fun q ↦ o.InOutputs w.cwd q ∨ o.InDownloads w.cwd (remoteUrls vs) q)
      (fun q ↦ ∃ v ∈ vs, v.Makes o q) (o.Needed w.cwd) w w₁ := by
  have hsound := h.sound hw
  refine Confines.mono (h.keeps hw) (fun q hq ↦ ?_) (fun _ ↦ id) fun q hq ↦ hq.symm.imp_left And.right
  rcases hq with hq | ⟨v, hv, hq⟩
  · exact .inr hq
  · obtain ⟨hbefore, hcwd⟩ := hsound.before v hv
    exact .inl (hcwd ▸ hq.inOutputs hbefore (hsound.directory v hv))

/-- A history whose visits come to no plan keeps to the downloads. -/
theorem History.confines_of_unplanned [Codec] (hw : w.IsSound) (h : History o w vs w₁)
    (hunplanned : ∀ v ∈ vs, ∀ p, ¬ v.Plans o p) :
    Confines (o.InDownloads w.cwd (remoteUrls vs)) (fun q ↦ ∃ v ∈ vs, v.Makes o q)
      (o.LeadsToDownloads w.cwd) w w₁ := by
  have hsound := h.sound hw
  refine Confines.mono (h.keeps hw) (fun q hq ↦ ?_) (fun _ ↦ id) fun q hq ↦ ?_
  · rcases hq with hq | ⟨v, hv, hq⟩
    · exact hq
    · obtain ⟨p, hp⟩ := hq.exists_plans (hsound.before v hv).1 (hsound.directory v hv)
      exact absurd hp (hunplanned v hv p)
  · rcases hq with hq | ⟨⟨v, hv, p, hp⟩, -⟩
    · exact hq
    · exact absurd hp (hunplanned v hv p)

/-! ## Documents -/

theorem mem_of_mem_nodeVisits [Codec] (hv : v ∈ nodeVisits o d ns w) : v.document = d ∧ v.node ∈ ns := by
  induction ns generalizing w with
  | nil => cases hv
  | cons n ns ih =>
    rcases List.mem_cons.mp hv with rfl | hv
    · exact ⟨rfl, List.mem_cons_self⟩
    · exact (ih hv).imp_right (List.mem_cons_of_mem n)

theorem exists_of_mem_pageVisits [Codec] {ps : List Page.Opened} (hv : v ∈ pageVisits o ps w) :
    ∃ p ∈ ps, v.document = p.1 ∧ v.node ∈ p.2 := by
  induction ps generalizing w with
  | nil => cases hv
  | cons p ps ih =>
    rcases List.mem_append.mp hv with hv | hv
    · exact ⟨p, List.mem_cons_self, mem_of_mem_nodeVisits hv⟩
    · obtain ⟨q, hq, h⟩ := ih hv
      exact ⟨q, List.mem_cons_of_mem p hq, h⟩

/-- The nodes that are visited are images of their documents. -/
theorem mem_images_of_mem_visits [Codec] {ds : List Document} (hv : v ∈ visits o ds w) :
    v.document ∈ ds ∧ ∃ ns, Page.images v.document.text o.tagName = .ok ns ∧ v.node ∈ ns := by
  rw [visits] at hv
  split at hv
  · rename_i pages w₁ hopened
    obtain ⟨p, hp, hdocument, hnode⟩ := exists_of_mem_pageVisits hv
    have hpages := (ensures_of_run trivial (ensures_openedImages ds) hopened).2
    obtain ⟨i, hi, rfl⟩ := List.mem_iff_getElem.mp hp
    have hi' : i < ds.length := hpages.length_eq ▸ hi
    obtain ⟨hd, himages⟩ := hpages.get hi' hi
    rw [List.get_eq_getElem] at hd himages
    rw [hdocument, hd]
    refine ⟨List.getElem_mem hi', _, himages.resolve_left fun h ↦ ?_, hnode⟩
    exact List.ne_nil_of_mem hnode h
  · cases hv

/-- The URLs of the remote images of a document. -/
def documentUrls (o : Options) (text : List Char) : List String :=
  match Page.images text o.tagName with
  | .ok ns => ns.filterMap fun n ↦ Resolution.remoteUrl? ((n.attribute? "src".toList).map (·.value))
  | .error _ => []

theorem remoteUrls_visits_subset [Codec] {text : List Char} {directory : Path} :
    remoteUrls (visits o [⟨text, directory⟩] w) ⊆ documentUrls o text := by
  intro url hurl
  obtain ⟨v, hv, hsource⟩ := List.mem_filterMap.mp hurl
  obtain ⟨hdocument, ns, himages, hnode⟩ := mem_images_of_mem_visits hv
  rw [List.mem_singleton.mp hdocument] at himages
  rw [documentUrls, himages]
  exact List.mem_filterMap.mpr ⟨v.node, hnode, hsource⟩

/-- The visits of a document that is rewritten alone. -/
def documentVisits [Codec] (o : Options) (text : List Char) (file? : Option String) (w : Workspace) :
    List Visit :=
  match (directoryOf file?).run w with
  | (.ok directory, w) => visits o [⟨text, directory⟩] w
  | (.error _, _) => []

variable {placeholder : Placeholder} {text : List Char} {file? : Option String}

theorem looks_directoryOf (file? : Option String) : Looks (directoryOf file?) :=
  directoryOf_eq file? ▸ looks_resolve _

theorem isResolved_of_directoryOf {directory : Path} (hw : w.IsSound)
    (h : (directoryOf file?).run w = (.ok directory, w₁)) : directory.IsResolved := by
  rw [directoryOf_eq] at h
  obtain ⟨-, rfl⟩ := run_resolve_eq_ok h
  refine Path.resolve_isResolved hw.isName fun n hn ↦ ?_
  unfold givenDirectory at hn
  split at hn
  · exact Path.mem_parts_ofString hn
  · exact Path.mem_parts_ofString hn
  · exact Path.mem_parts_ofString (List.dropLast_subset _ hn)

theorem remoteUrls_documentVisits_subset [Codec] :
    remoteUrls (documentVisits o text file? w) ⊆ documentUrls o text := by
  rw [documentVisits]
  split
  · exact remoteUrls_visits_subset
  · exact List.nil_subset _

theorem history_document [Codec] (hplaceholder : ∀ p, Looks (placeholder p)) (hw : w.IsSound) :
    History o w (documentVisits o text file? w) ((document o placeholder text file?).run w).2 := by
  rw [documentVisits, document]
  cases hdirectory : (directoryOf file?).run w with
  | mk r w₁ =>
    obtain rfl := (looks_directoryOf file?).eq hdirectory
    cases r with
    | error f =>
      rw [run_bind_of_error hdirectory]
      exact .start
    | ok directory =>
      have hds : ∀ d ∈ [(⟨text, directory⟩ : Document)], d.directory.IsResolved := fun d hd ↦ by
        rw [List.mem_singleton.mp hd]
        exact isResolved_of_directoryOf hw hdirectory
      have h := history_documents hplaceholder hw hds (.start (o := o))
      rw [run_bind_of_ok hdirectory, run_bind]
      rw [List.nil_append] at h
      cases hrun : (documents o placeholder [⟨text, directory⟩]).run w₁ with
      | mk r w₂ =>
        rw [hrun] at h
        cases r with
        | ok texts => exact h
        | error f => exact h

/-- **A rewrite keeps to its places.**  Whatever differs afterwards is a directory that the options
need, where there was nothing, or lies directly in the output directory or, under the key of a remote
image of the document, in the download directory.  Each file that is there afterwards was there
before, or is an output or a finished download of one of the nodes; a file that is first written
beside its place leaves nothing there.  If no node comes to a plan for an image, the output directory
is as it was, with all that is below it, unless it leads to the downloads or is one of them. -/
theorem document_confines [Codec] {r : Except Fault (List Char)} (hw : w.IsSound)
    (hplaceholder : ∀ p, Looks (placeholder p))
    (h : (document o placeholder text file?).run w = (r, w')) :
    (∀ q, w'.files.get? q = w.files.get? q ∨
      (o.InOutputs w.cwd q ∨ o.InDownloads w.cwd (documentUrls o text) q) ∨
      o.Needed w.cwd q ∧ w.files.get? q = none ∧ w'.files.get? q = some .directory) ∧
    (∀ q c, w'.files.content? q = some c →
      w.files.content? q = some c ∨ ∃ v ∈ documentVisits o text file? w, v.Makes o q) ∧
    (∀ suffix, IsSuffix suffix → ∀ p, p.IsResolved → p.parts ≠ [] → ∀ x, x.IsSound →
      x.files.get? (beside p suffix).parts = none →
        ∀ c, ((writeBeside suffix p c).run x).2 = ((writeFile p c).run x).2) ∧
    ((∀ v ∈ documentVisits o text file? w, ∀ p, ¬ v.Plans o p) →
      (∀ q, w'.files.get? q = w.files.get? q ∨ o.InDownloads w.cwd (documentUrls o text) q ∨
        o.LeadsToDownloads w.cwd q ∧ w.files.get? q = none ∧ w'.files.get? q = some .directory) ∧
      ∀ d, o.outputPath = .ok d → ¬ o.LeadsToDownloads w.cwd (d.resolve w.cwd).parts →
        ¬ o.InDownloads w.cwd (documentUrls o text) (d.resolve w.cwd).parts →
          ∀ q, (d.resolve w.cwd).parts <+: q → w'.files.get? q = w.files.get? q) := by
  have hhistory : History o w (documentVisits o text file? w) _ := history_document hplaceholder hw
  rw [h] at hhistory
  have hurls : ∀ q, o.InDownloads w.cwd (remoteUrls (documentVisits o text file? w)) q →
      o.InDownloads w.cwd (documentUrls o text) q := fun q hq ↦
    hq.mono remoteUrls_documentVisits_subset
  have hneeded := hhistory.confines_needed hw
  refine ⟨(hneeded.mono (fun q ↦ .imp_right (hurls q)) (fun _ ↦ id) fun _ ↦ id).get?_eq_or,
    fun q c hc ↦ ?_, fun suffix hsuffix p hp hne x hx hfree c ↦
    (run_writeBeside hx hsuffix hp hne hfree c).1, fun hunplanned ↦ ?_⟩
  · rcases hneeded.kept_or_made q with hq | hq | hq
    · exact .inl (hq ▸ hc)
    · rw [hc] at hq
      cases hq
    · exact .inr hq
  · have hdownloads := ((hhistory.confines_of_unplanned hw hunplanned).mono hurls (fun _ ↦ id)
      fun _ ↦ id).get?_eq_or
    refine ⟨hdownloads, fun d hd hleads hdownload q hq ↦ ?_⟩
    rcases hdownloads q with h | h | ⟨h, -, -⟩
    · exact h
    · exact ((h.of_isPrefix hq).elim hdownload hleads).elim
    · exact absurd (h.of_isPrefix hq) hleads

/-! ### Downloads in the output directory -/

open scoped HeaderCodec

/-- Options with the downloads in the output directory. -/
def sharedRoot : Options := { Options.defaults with downloadDir := .string "static/g" }

/-- A host that stops in the middle of its only image. -/
def interruptingHost : Workspace where
  cwd := []
  remote := [("https://h/a.png",
    { contentType := some "image/png",
      chunks := [.bytes (HeaderCodec.padded 300 (HeaderCodec.file ⟨"PNG", 10, 10⟩).data)],
      failAfter := some 1 })]

def interruptedImage : List Char := "<img src=\"https://h/a.png\">".toList

/-- The directory is made for a download that then fails, so that its node is skipped. -/
theorem document_makes_outputs :
    Options.ofMapping [("downloadDir", .string "static/g")] = .ok sharedRoot ∧
      (∀ v ∈ documentVisits sharedRoot interruptedImage (some "src/a.svelte") interruptingHost,
        v.found? sharedRoot = none) ∧
      sharedRoot.outputPath = .ok (.ofString "static/g") ∧
      interruptingHost.files.isDirectory ["static", "g"] = false ∧
      ((document sharedRoot (Placeholder.label .trace) interruptedImage
        (some "src/a.svelte")).run interruptingHost).2.files.isDirectory ["static", "g"] = true :=
  ⟨rfl, by decide +kernel, rfl, by decide +kernel, by decide +kernel⟩

/-- A project with an image where downloads go. -/
def projectFiles : Workspace :=
  { interruptingHost with
    files := ⟨[(["src"], .directory), (["src", "x.png"], .file (HeaderCodec.file ⟨"PNG", 10, 10⟩))]⟩ }

def localAndRemote : List Char := "<img src=\"x.png\"><img src=\"https://h/a.png\">".toList

/-- The image is left as it is. -/
theorem document_confines_image :
    ((document Options.defaults (Placeholder.label .trace) localAndRemote
        (some "src/a.svelte")).run projectFiles).2.files.get? ["src", "x.png"] =
      projectFiles.files.get? ["src", "x.png"] := by
  have hsound : projectFiles.IsSound := ⟨by decide +kernel, by decide⟩
  have hplaceholder : ∀ p, Looks (Placeholder.label .trace p) := fun p ↦ looks_pure _
  have himages : Page.images localAndRemote Options.defaults.tagName = _ :=
    images_eq_ok (by decide +kernel)
  have hurls : documentUrls Options.defaults localAndRemote = ["https://h/a.png"] := by
    rw [documentUrls, himages]
    decide +kernel
  have hrun : (document Options.defaults (Placeholder.label .trace) localAndRemote
      (some "src/a.svelte")).run projectFiles = (_, _) := rfl
  obtain ⟨hplaces, -⟩ := document_confines hsound hplaceholder hrun
  rcases hplaces ["src", "x.png"] with h | (⟨d, n, hd, hq⟩ | ⟨d, url, hd, hurl, n, hkey, hq⟩) |
    ⟨-, h, -⟩
  · exact h
  · cases hd
    exact absurd (congrArg List.dropLast hq) (by rw [List.dropLast_concat]; decide)
  · cases hd
    rw [hurls, List.mem_singleton] at hurl
    subst hurl
    have hname : n = "x.png" := by
      have hlast := congrArg List.getLast? hq
      rw [List.getLast?_concat] at hlast
      exact (Option.some_inj.mp hlast).symm
    rw [hname] at hkey
    exact absurd hkey (by decide +kernel)
  · exact nomatch h

end Rewrite

end ResponsiveImage
