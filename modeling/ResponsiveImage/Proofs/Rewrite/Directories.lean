import ResponsiveImage.Proofs.Picture.Again
import ResponsiveImage.Proofs.Remote.Room
import ResponsiveImage.Proofs.Rewrite.Visits

/-!
# The directories that rewrites make

The only directories that a rewrite makes are those of its outputs and of its downloads, and those on
the way to them.  So where an output goes, none is made.
-/

namespace ResponsiveImage

open Job

/-- The directories on the way to the outputs, and their own. -/
def Options.LeadsToOutputs (o : Options) (cwd : List String) : List String → Prop := fun q ↦
  ∃ d, o.outputPath = .ok d ∧ q <+: (d.resolve cwd).parts

/-- The directories on the way to the downloads, and their own. -/
def Options.LeadsToDownloads (o : Options) (cwd : List String) : List String → Prop := fun q ↦
  ∃ d, o.downloadPath = .ok d ∧ q <+: (d.resolve cwd).parts

/-- The directories that rewrites need. -/
def Options.Needed (o : Options) (cwd : List String) : List String → Prop := fun q ↦
  o.LeadsToOutputs cwd q ∨ o.LeadsToDownloads cwd q

/-! ## Outputs -/

namespace OutputPlan

variable {p : OutputPlan} {o : Options} {D : List String → Prop} {cwd : List String}

theorem IsMade.leadsToOutputs (hp : p.IsMade o cwd) {q : List String}
    (hq : q <+: p.directory.parts) : o.LeadsToOutputs cwd q := by
  obtain ⟨d, hd, heq⟩ := hp.directory_eq
  exact ⟨d, hd, heq ▸ hq⟩

theorem IsMade.needed (hp : p.IsMade o cwd) {q : List String} (hq : q <+: p.directory.parts) :
    o.Needed cwd q := .inl (hp.leadsToOutputs hq)

theorem founding_writePath (hp : p.IsFor o) (hD : ∀ q, q <+: p.directory.parts → D q) (c : Content) :
    Founding D (writeFile p.path c) := by
  refine founding_writeFile hp.isResolved_path (fun q hq ↦ hD q ?_) c
  rwa [hp.parts_path, List.dropLast_concat] at hq

theorem founding_stage (hp : p.IsFor o) (hD : ∀ q, q <+: p.directory.parts → D q) :
    Founding D p.stage := by
  have hwrite : Founding D (do writeFile p.path (← readFile p.source)) :=
    (looks_readFile _).founding.bind fun c ↦ founding_writePath hp hD c
  intro w hw
  rw [run_stage]
  refine Founding.bind ?_ (fun _ ↦ (looks_place? _).founding.bind fun target? ↦ ?_) w hw
  · exact founding_ensureDirectories hp.directory hD
  · split
    · refine (looks_place _).founding.bind fun own ↦ ?_
      split
      · exact founding_pure _
      · exact hwrite
    · exact hwrite

theorem founding_optimizeSingle [Codec] (hp : p.IsFor o) (hD : ∀ q, q <+: p.directory.parts → D q) :
    Founding D (p.optimizeSingle o) := by
  refine (looks_fileSize _).founding.bind fun size ↦ (founding_ofExcept _ _).bind fun inlined ↦ ?_
  split
  · exact (Picture.looks_inlineData _).founding
  · refine (founding_ensureDirectories hp.directory hD).bind fun _ ↦ Founding.bind ?_ fun _ ↦
      founding_pure _
    intro w hw
    rcases Picture.run_writeOptimized_cases hw hp.source p.path o with
      ⟨f, hrun⟩ | ⟨c, h, d, -, -, -, hrun⟩
    · rw [hrun]
      exact .refl hw
    · rw [hrun]
      exact founding_writePath hp hD d w hw

end OutputPlan

/-! ## Visits -/

namespace Resolution

variable {o : Options} {w : Workspace} {parent source : Path}

theorem founds_process (hw : w.IsSound) (hsource : source.IsResolved) (hne : source.parts ≠ []) :
    Founds (o.Needed w.cwd) w ((process source o).run w).2 := by
  rw [process, OutputPlan.staged]
  cases hplan : (OutputPlan.ofImage source o).run w with
  | mk r w₁ =>
    obtain rfl := (OutputPlan.looks_ofImage source o).eq hplan
    cases r with
    | error f =>
      rw [run_bind_of_error (run_bind_of_error hplan)]
      exact .refl hw
    | ok p =>
      obtain ⟨hp, rfl⟩ := OutputPlan.run_ofImage_eq_ok hw hsource hne hplan
      have hstage : Founding (o.Needed w₁.cwd) (do p.stage; return p) :=
        (OutputPlan.founding_stage hp.toIsFor fun q ↦ hp.needed).bind fun _ ↦ founding_pure _
      rw [run_bind, run_bind_of_ok hplan]
      have h := hstage w₁ hw
      split
      · rename_i q w₂ hrun
        rw [hrun] at h
        exact h
      · rename_i f w₂ hrun
        rw [hrun] at h
        exact h

/-- A search makes no directories but those on the way to downloads. -/
theorem Search.founds {value : Option Markup.AttributeValue} {r : Except Fault Finding}
    {w' : Workspace} (h : Search o value w r w') (hw : w.IsSound) :
    Founds (o.LeadsToDownloads w.cwd) w w' := by
  cases h with
  | looked => exact .refl hw
  | @downloaded url d _ _ _ _ hd hfolder hrun hafter _ =>
    have h := (Download.founding_download (D := o.LeadsToDownloads w.cwd) hfolder
      (fun q hq ↦ ⟨d, hd, hq⟩) url o.remoteTimeout).founds hw hrun
    exact h.trans (.of_alike h.isSound hafter)

theorem founds_ofValue (hw : w.IsSound) (hparent : parent.IsResolved)
    (value : Option Markup.AttributeValue) (extensions : List Json.Value) :
    Founds (o.Needed w.cwd) w ((ofValue value parent o extensions).run w).2 := by
  have hsearch := search_find (o := o) hw hparent value extensions
  have hcwd := (hsearch.evolves hw).cwd_eq
  rw [ofValue_eq, run_bind]
  split
  · rename_i finding w₁ hfind
    rw [hfind] at hsearch hcwd
    have h : Founds (o.Needed w.cwd) w w₁ := (hsearch.founds hw).mono fun q ↦ .inr
    cases finding with
    | skipped reason detail => exact h
    | file image =>
      obtain ⟨hsource, c, hc⟩ := hsearch.isFile hw rfl
      have hprocess := founds_process (o := o) h.isSound hsource (Tree.ne_nil_of_content? hc)
      rw [hcwd] at hprocess
      exact h.trans hprocess
  · rename_i f w₁ hfind
    rw [hfind] at hsearch
    exact (hsearch.founds hw).mono fun q ↦ .inr

end Resolution

namespace Rewrite

variable {o : Options} {w : Workspace} {v : Visit} {D : List String → Prop}

theorem Progress.founds_orLogged {label : NodeLabel} {t : Job Progress}
    (h : Founds D w (t.run w).2) : Founds D w ((orLogged label t).run w).2 := by
  cases hrun : t.run w with
  | mk r w₁ =>
    rw [hrun] at h
    rw [orLogged, run_bind_of_ok (run_attempt_eq_ok.mpr hrun)]
    split
    · exact h
    · rename_i f
      have hreports := ((reports_logFault label f).bind fun _ ↦ reports_pure (Progress.finished [])) w₁
      exact h.trans (.of_alike h.isSound hreports)

theorem Progress.founding_ofTag [Codec] {p : OutputPlan} (hp : p.IsFor o)
    (hD : ∀ q, q <+: p.directory.parts → D q) (span : SourceSpan) : Founding D (ofTag o span p) :=
  (OutputPlan.founding_optimizeSingle hp hD).bind fun _ ↦ founding_pure _

theorem Progress.founding_ofComponent [Codec] {p : OutputPlan} (hp : p.IsFor o)
    (hD : ∀ q, q <+: p.directory.parts → D q) (label : NodeLabel) (span : SourceSpan) :
    Founding D (ofComponent o label span p) := by
  refine (Picture.looks_header _).founding.bind fun h ↦
    (founding_ensureDirectories hp.directory hD).bind fun _ ↦ ?_
  split
  · exact (founding_throw _).bind fun _ ↦ founding_pure _
  · exact founding_pure _

/-- A visit makes no directories but those that the options need. -/
theorem Visit.founds [Codec] (hw : v.before.IsSound) (hd : v.document.directory.IsResolved) :
    Founds (o.Needed v.before.cwd) v.before (v.after o) := by
  have hresolve : ∀ role extensions, Founds (o.Needed v.before.cwd) v.before
      ((Progress.resolve o v.document v.node role extensions).run v.before).2 := by
    intro role extensions
    have h := Resolution.founds_ofValue (o := o) hw hd v.source? extensions
    have hsettles := Resolution.settles_ofValue (o := o) hw hd v.source? extensions
    rw [Progress.resolve]
    change Founds _ _ (((Resolution.ofValue v.source? v.document.directory o extensions) >>= _).run
      v.before).2
    rw [run_bind]
    split
    · rename_i decision w₁ hrun
      rw [hrun] at h hsettles
      split
      · exact h.trans (.of_alike h.isSound (((reports_logSkip _ _).bind fun _ ↦ reports_pure _) w₁))
      · rename_i p
        obtain ⟨hnot, -⟩ | ⟨q, w₀, hq, -, -, hprocess⟩ := hsettles
        · exact absurd rfl (hnot p)
        · cases hprocess
          refine h.trans (Founding.bind (founding_ofExcept _ _) (fun span ↦ ?_) w₁ h.isSound)
          split
          · exact Progress.founding_ofTag hq.toIsFor (fun q ↦ hq.needed) span
          · exact Progress.founding_ofComponent hq.toIsFor (fun q ↦ hq.needed) _ span
    · rename_i f w₁ hrun
      rw [hrun] at h
      exact h
  rw [Visit.after, Progress.start_eq, Progress.started]
  split
  · exact .refl hw
  · exact .of_alike hw (((reports_logSkip _ _).bind fun _ ↦ reports_pure _) v.before)
  · exact Progress.founds_orLogged (hresolve _ _)

end Rewrite

end ResponsiveImage
