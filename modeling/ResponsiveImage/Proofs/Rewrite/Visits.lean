import ResponsiveImage.Proofs.Sources
import ResponsiveImage.Rewrite.Page

/-!
# Visits

The work on an image of a document begins with a visit, in which its source is resolved.  What a visit
does to the files is one of a few things (`Visit.Course`): it skips the image and leaves at most a
download; or it puts a copy of the image in its place, and then, for an image tag, writes the optimised
picture over that copy or fails, and, for a component, only looks at the picture.
-/

namespace ResponsiveImage.Rewrite

open Workspace (Evolves)
open Job

/-! ## Messages -/

section Messages

theorem run_logSkip (label : NodeLabel) (reason : String) (w : Workspace) :
    ∃ w', (Progress.logSkip label reason).run w = (.ok (), w') := ⟨_, rfl⟩

theorem reports_logSkip (label : NodeLabel) (reason : String) :
    Reports (Progress.logSkip label reason) := reports_log _ _ _

theorem run_logFault (label : NodeLabel) (f : Fault) (w : Workspace) :
    ∃ w', (Progress.logFault label f).run w = (.ok (), w') := by
  cases f <;> exact ⟨_, rfl⟩

theorem reports_logFault (label : NodeLabel) (f : Fault) : Reports (Progress.logFault label f) := by
  unfold Progress.logFault
  dsimp only
  split
  · exact reports_log _ _ _
  · exact reports_log _ _ _

end Messages

/-! ## What is logged instead of failing -/

variable {label : NodeLabel} {t : Job Progress} {w w' : Workspace} {o : Options}
  {p : OutputPlan}

theorem run_orLogged_of_ok {q : Progress} (h : t.run w = (.ok q, w')) :
    (Progress.orLogged label t).run w = (.ok q, w') := by
  rw [Progress.orLogged, run_bind_of_ok (run_attempt_eq_ok.mpr h)]
  rfl

theorem run_orLogged_of_error {l : NodeLabel} {f : Fault} (h : t.run w = (.error f, w'))
    (hw : w'.IsSound) :
    ∃ w₁, (Progress.orLogged l t).run w = (.ok (.finished []), w₁) ∧
      Evolves Nowhere Nowhere w' w₁ := by
  obtain ⟨w₁, hlog⟩ := run_logFault l f w'
  refine ⟨w₁, ?_, (reports_logFault l f).within.evolves hw hlog⟩
  rw [Progress.orLogged, run_bind_of_ok (run_attempt_eq_ok.mpr h)]
  dsimp only
  rw [run_bind_of_ok hlog]
  rfl

/-! ## Two steps at once -/

namespace Progress

variable {d : Document} {n : Markup.Node}

/-- What is logged instead of failing depends on the outcome alone. -/
theorem run_orLogged_congr {t' : Job Progress} (label : NodeLabel) (h : t.run w = t'.run w') :
    (orLogged label t).run w = (orLogged label t').run w' := by
  rw [orLogged, orLogged, run_bind, run_bind, run_attempt, run_attempt, h]

/-- A task that comes of a node is called like the node. -/
theorem label_of_locate {role : Role} {extensions : List Json.Value} {t : Task}
    (h : (locate o d n role extensions).run w = (.ok (some t), w')) :
    t.label = NodeLabel.ofNode d n := by
  rw [locate, run_bind_eq_ok] at h
  obtain ⟨decision, w₁, -, h⟩ := h
  cases decision with
  | skip reason detail =>
    dsimp only at h
    rw [run_bind_eq_ok] at h
    obtain ⟨_, w₂, -, h⟩ := h
    cases h
  | process plan =>
    dsimp only at h
    rw [run_bind_eq_ok] at h
    obtain ⟨span, w₂, -, h⟩ := h
    cases h
    rfl

variable [Codec]

/-- The first two steps of a node that may be worked on, one right after the other. -/
def resolve (o : Options) (d : Document) (n : Markup.Node) (role : Role)
    (extensions : List Json.Value) : Job Progress := do
  let label := NodeLabel.ofNode d n
  let value := (n.attribute? "src".toList).map (·.value)
  match ← Resolution.ofValue value d.directory o extensions with
  | .skip reason detail =>
    logSkip label (reason.describe detail)
    return finished []
  | .process plan =>
    let span ← ofExcept id (spanOf n)
    match role with
    | .tag => ofTag o span plan
    | .component => ofComponent o label span plan

/-- The first two steps of a node. -/
def started (o : Options) (d : Document) (n : Markup.Node) : Job Progress := do
  let label := NodeLabel.ofNode d n
  match Eligibility.ofNode n o with
  | .error f => return escaped f
  | .ok (.ineligible reason) =>
    logSkip label (SkipReason.notEligible.describe reason.message)
    return finished []
  | .ok (.eligible role extensions) => orLogged label (resolve o d n role extensions)

theorem resolve_eq_locate (role : Role) (extensions : List Json.Value) :
    resolve o d n role extensions = (do
      match ← locate o d n role extensions with
      | some t => ofTask o t
      | none => return finished []) := by
  rw [resolve, locate, bind_assoc]
  congr 1
  funext decision
  cases decision with
  | skip reason detail => rfl
  | process plan =>
    dsimp only
    rw [bind_assoc]
    rfl

theorem start_of_eligible {role : Role} {extensions : List Json.Value}
    (h : Eligibility.ofNode n o = .ok (.eligible role extensions)) :
    start o d n = orLogged (NodeLabel.ofNode d n) (resolve o d n role extensions) := by
  funext w
  change (start o d n).run w = (orLogged _ _).run w
  rw [start, begun, resolve_eq_locate, h]
  dsimp only
  cases hlocate : (locate o d n role extensions).run w with
  | mk r w₁ =>
    rw [bind_assoc, run_bind_of_ok (run_attempt_eq_ok.mpr hlocate)]
    rcases r with f | _ | t
    · obtain ⟨w₂, hlog⟩ := run_logFault (NodeLabel.ofNode d n) f w₁
      rw [orLogged, run_bind_of_ok (run_attempt_eq_ok.mpr (run_bind_of_error hlocate))]
      dsimp only
      rw [bind_assoc, run_bind_of_ok hlog, run_bind_of_ok hlog]
      rfl
    · rw [run_orLogged_congr _ (run_bind_of_ok hlocate)]
      rfl
    · rw [run_orLogged_congr _ (run_bind_of_ok hlocate), ← label_of_locate hlocate]
      rfl

/-- What the first two steps of a node do. -/
theorem start_eq (o : Options) (d : Document) (n : Markup.Node) :
    start o d n = started o d n := by
  rw [started]
  cases h : Eligibility.ofNode n o with
  | error f => rw [start, begun, h]; rfl
  | ok e =>
    cases e with
    | ineligible reason => rw [start, begun, h]; rfl
    | eligible role extensions => exact start_of_eligible h

end Progress

/-! ## Visits -/

/-- The start of the work on an image, in some workspace. -/
structure Visit where
  document : Document
  node : Markup.Node
  before : Workspace

namespace Visit

/-- How far the image is when the visit ends. -/
def progress [Codec] (o : Options) (v : Visit) : Progress :=
  match ((Progress.start o v.document v.node).run v.before).1 with
  | .ok q => q
  | .error f => .escaped f

/-- What the visit leaves. -/
def after [Codec] (o : Options) (v : Visit) : Workspace :=
  ((Progress.start o v.document v.node).run v.before).2

/-- The edits that the visit comes to by itself. -/
def edits [Codec] (o : Options) (v : Visit) : List Edit := (v.progress o).edits

/-- The value of the source of the image. -/
def source? (v : Visit) : Option Markup.AttributeValue :=
  (v.node.attribute? "src".toList).map (·.value)

/-- What is done with the source of an image that may be worked on. -/
def resolution (o : Options) (v : Visit) (extensions : List Json.Value) :
    Except Fault Decision × Workspace :=
  (Resolution.ofValue v.source? v.document.directory o extensions).run v.before

/-- The plan for the image, and the part that it plays, if it is processed. -/
def shown? (o : Options) (v : Visit) : Option (Role × OutputPlan) :=
  match Eligibility.ofNode v.node o with
  | .ok (.eligible role extensions) =>
    match (v.resolution o extensions).1 with
    | .ok (.process p) => some (role, p)
    | _ => none
  | _ => none

/-- An image of which a copy is put in its place, with what that leaves. -/
structure Stages (o : Options) (v : Visit) (role : Role) (p : OutputPlan) (w : Workspace) : Prop where
  shown : v.shown? o = some (role, p)
  isMade : p.IsMade o v.before.cwd
  staged : ∃ w₁, Evolves (o.Unfinished v.before.cwd) (o.Fetched v.before.cwd) v.before w₁ ∧
    p.stage.run w₁ = (.ok (), w)

theorem Stages.evolves {v : Visit} {role : Role} (h : v.Stages o role p w) :
    Evolves (fun q ↦ o.Unfinished v.before.cwd q ∨ p.path.Here q) (o.Fetched v.before.cwd)
      v.before w := by
  obtain ⟨w₀, he, hstage⟩ := h.staged
  have hstaged := (OutputPlan.within_stage h.isMade.toIsFor).evolves he.isSound hstage
  exact (he.mono (fun _ ↦ .inl) (fun _ ↦ .inr)).trans
    (hstaged.mono (fun _ ↦ .inr) (fun _ h ↦ h.elim))

theorem Stages.isSound {v : Visit} {role : Role} (h : v.Stages o role p w) : w.IsSound :=
  h.evolves.isSound

/-- The course of a visit. -/
inductive Course [Codec] (o : Options) (v : Visit) : Prop
  | skipped (hshown : v.shown? o = none) (hedits : v.edits o = [])
      (hpending : (v.progress o).isPending = false)
      (h : Evolves (o.Unfinished v.before.cwd) (o.Fetched v.before.cwd) v.before (v.after o))
  | tagFailed {p : OutputPlan} {w w' : Workspace} {f : Fault} (h : v.Stages o .tag p w)
      (hmade : (p.optimizeSingle o).run w = (.error f, w'))
      (hafter : Evolves Nowhere Nowhere w' (v.after o)) (hprogress : v.progress o = .finished [])
  | tagMade {p : OutputPlan} {w : Workspace} {uri : String} {span : SourceSpan}
      (h : v.Stages o .tag p w) (hmade : (p.optimizeSingle o).run w = (.ok uri, v.after o))
      (hprogress : v.progress o = .finished [⟨span.start, span.stop, uri.toList⟩])
  | componentFailed {p : OutputPlan} {w w' : Workspace} {span : SourceSpan} {f : Fault}
      (h : v.Stages o .component p w)
      (hfail : (Progress.ofComponent o (NodeLabel.ofNode v.document v.node) span p).run w =
        (.error f, w'))
      (hafter : Evolves Nowhere Nowhere w (v.after o)) (hprogress : v.progress o = .finished [])
  | componentOpened {w : Workspace} {c : Component} (h : v.Stages o .component c.plan w)
      (hafter : Evolves Nowhere Nowhere w (v.after o))
      (hheader : (Picture.header c.plan.source).run w = (.ok c.header, w))
      (hsizes : c.sizes = candidateSizes o.sizes (.int c.header.width))
      (hprogress : v.progress o = .awaiting c)

variable {v : Visit}

/-- The source of an image that is processed is a literal text. -/
theorem spanOf_of_process {n : Markup.Node} {parent : Path} {extensions : List Json.Value}
    (h : (Resolution.ofValue ((n.attribute? "src".toList).map (·.value)) parent o extensions).run w =
      (.ok (.process p), w')) : ∃ span, Progress.spanOf n = .ok span := by
  cases hsource : n.attribute? "src".toList with
  | none =>
    rw [hsource] at h
    cases h
  | some a =>
    obtain ⟨start, value, stop, attributeStop⟩ := a
    rw [hsource] at h
    cases value with
    | dynamic kind => cases h
    | static text first last =>
      rw [Progress.spanOf, hsource]
      exact ⟨_, rfl⟩

variable [Codec]

theorem progress_eq {q : Progress} (h : (Progress.start o v.document v.node).run v.before = (.ok q, w)) :
    v.progress o = q ∧ v.after o = w := by
  rw [progress, after, h]
  exact ⟨rfl, rfl⟩

/-- A component, once its copy is in place, fails or is opened. -/
theorem run_ofComponent_cases (hw : w.IsSound) (hp : p.IsFor o) (label : NodeLabel)
    (span : SourceSpan) :
    (∃ f w', (Progress.ofComponent o label span p).run w = (.error f, w') ∧
      Evolves Nowhere Nowhere w w') ∨
      ∃ c w', (Progress.ofComponent o label span p).run w = (.ok (.awaiting c), w') ∧
        Evolves Nowhere Nowhere w w' ∧ c.plan = p ∧
        (Picture.header p.source).run w = (.ok c.header, w) ∧
        c.sizes = candidateSizes o.sizes (.int c.header.width) := by
  rw [Progress.ofComponent]
  cases hheader : (Picture.header p.source).run w with
  | mk r w₁ =>
    obtain rfl := (Picture.looks_header _).eq hheader
    cases r with
    | error f => exact .inl ⟨f, w₁, run_bind_of_error hheader, .refl hw⟩
    | ok h =>
      rw [run_bind_of_ok hheader]
      dsimp only
      cases hensure : (ensureDirectories p.directory).run w₁ with
      | mk r w₂ =>
        have he := (within_ensureDirectories hp.directory).evolves hw hensure
        cases r with
        | error f => exact .inl ⟨f, w₂, run_bind_of_error hensure, he⟩
        | ok u =>
          rw [run_bind_of_ok hensure]
          split
          · exact .inl ⟨_, w₂, rfl, he⟩
          · exact .inr ⟨⟨label, span, p, h, _⟩, w₂, rfl, he, rfl, rfl, rfl⟩

/-- A source that is skipped, or cannot be resolved. -/
theorem course_of_unprocessed {role : Role} {extensions : List Json.Value}
    (heligible : Eligibility.ofNode v.node o = .ok (.eligible role extensions))
    {r : Except Fault Decision} {w₁ : Workspace} (hresolution : v.resolution o extensions = (r, w₁))
    (hnot : ∀ p, r ≠ .ok (.process p))
    (he : Evolves (o.Unfinished v.before.cwd) (o.Fetched v.before.cwd) v.before w₁) : v.Course o := by
  have hshown : v.shown? o = none := by
    rw [shown?, heligible]
    dsimp only
    rw [hresolution]
    split
    · rename_i p hp
      exact absurd hp (hnot p)
    · rfl
  cases r with
  | error f =>
    obtain ⟨w₂, hrun, he₂⟩ := run_orLogged_of_error (l := NodeLabel.ofNode v.document v.node)
      (t := Progress.resolve o v.document v.node role extensions)
      (run_bind_of_error hresolution) he.isSound
    obtain ⟨hprogress, hafter⟩ := progress_eq (Progress.start_of_eligible heligible ▸ hrun)
    refine .skipped hshown (by rw [edits, hprogress]; rfl) (by rw [hprogress]; rfl) ?_
    rw [hafter]
    exact he.trans (he₂.mono (fun _ h ↦ h.elim) (fun _ h ↦ h.elim))
  | ok decision =>
    cases decision with
    | process p => exact absurd rfl (hnot p)
    | skip reason detail =>
      obtain ⟨w₂, hlog⟩ :=
        run_logSkip (NodeLabel.ofNode v.document v.node) (reason.describe detail) w₁
      have hresolve : (Progress.resolve o v.document v.node role extensions).run v.before =
          (.ok (.finished []), w₂) := by
        rw [Progress.resolve]
        refine (run_bind_of_ok hresolution).trans ?_
        dsimp only
        rw [run_bind_of_ok hlog]
        rfl
      obtain ⟨hprogress, hafter⟩ :=
        progress_eq (Progress.start_of_eligible heligible ▸ run_orLogged_of_ok hresolve)
      refine .skipped hshown (by rw [edits, hprogress]; rfl) (by rw [hprogress]; rfl) ?_
      rw [hafter]
      exact he.trans ((reports_logSkip _ _).within.evolves he.isSound hlog)

/-- An image that is processed as a tag. -/
theorem course_of_tag {w₁ : Workspace} (h : v.Stages o .tag p w₁) (hw₁ : w₁.IsSound)
    {extensions : List Json.Value} {span : SourceSpan}
    (heligible : Eligibility.ofNode v.node o = .ok (.eligible .tag extensions))
    (hresolve : (Progress.resolve o v.document v.node .tag extensions).run v.before =
      (Progress.ofTag o span p).run w₁) : v.Course o := by
  cases hmade : (p.optimizeSingle o).run w₁ with
  | mk r w₂ =>
    have he₂ := (OutputPlan.within_optimizeSingle h.isMade.toIsFor).evolves hw₁ hmade
    cases r with
    | error f =>
      obtain ⟨w₃, hrun, he₃⟩ := run_orLogged_of_error (l := NodeLabel.ofNode v.document v.node)
        (hresolve.trans (run_bind_of_error hmade)) he₂.isSound
      obtain ⟨hprogress, hafter⟩ := progress_eq (Progress.start_of_eligible heligible ▸ hrun)
      exact .tagFailed h hmade (hafter ▸ he₃) hprogress
    | ok uri =>
      obtain ⟨hprogress, hafter⟩ := progress_eq (Progress.start_of_eligible heligible ▸
        run_orLogged_of_ok (hresolve.trans (run_bind_of_ok hmade)))
      exact .tagMade h (hafter ▸ hmade) hprogress

/-- An image that is processed as a component. -/
theorem course_of_component {w₁ : Workspace} (h : v.Stages o .component p w₁) (hw₁ : w₁.IsSound)
    {extensions : List Json.Value} {span : SourceSpan}
    (heligible : Eligibility.ofNode v.node o = .ok (.eligible .component extensions))
    (hresolve : (Progress.resolve o v.document v.node .component extensions).run v.before =
      (Progress.ofComponent o (NodeLabel.ofNode v.document v.node) span p).run w₁) : v.Course o := by
  rcases run_ofComponent_cases hw₁ h.isMade.toIsFor (NodeLabel.ofNode v.document v.node) span with
    ⟨f, w₂, hfail, he₂⟩ | ⟨c, w₂, hopened, he₂, rfl, hheader, hsizes⟩
  · obtain ⟨w₃, hrun, he₃⟩ := run_orLogged_of_error (l := NodeLabel.ofNode v.document v.node)
      (hresolve.trans hfail) he₂.isSound
    obtain ⟨hprogress, hafter⟩ := progress_eq (Progress.start_of_eligible heligible ▸ hrun)
    exact .componentFailed h hfail (hafter ▸ he₂.trans he₃) hprogress
  · obtain ⟨hprogress, hafter⟩ :=
      progress_eq (Progress.start_of_eligible heligible ▸ run_orLogged_of_ok (hresolve.trans hopened))
    exact .componentOpened h (hafter ▸ he₂) hheader hsizes hprogress

/-- An image whose source is a file is treated as its role asks. -/
theorem run_resolve_of_process {extensions : List Json.Value} {p : OutputPlan} {w₁ : Workspace}
    {span : SourceSpan} (role : Role) (hr : v.resolution o extensions = (.ok (.process p), w₁))
    (hspan : Progress.spanOf v.node = .ok span) :
    (Progress.resolve o v.document v.node role extensions).run v.before =
      (match role with
        | .tag => Progress.ofTag o span p
        | .component => Progress.ofComponent o (NodeLabel.ofNode v.document v.node) span p).run w₁ := by
  rw [Progress.resolve]
  refine (run_bind_of_ok hr).trans ?_
  dsimp only
  rw [hspan]
  refine (run_bind_of_ok (run_ofExcept_ok _ _ _)).trans ?_
  cases role <;> rfl

/-- Every visit takes one of the courses. -/
theorem course (o : Options) (hw : v.before.IsSound) (hd : v.document.directory.IsResolved) :
    v.Course o := by
  cases heligible : Eligibility.ofNode v.node o with
  | error f =>
    have hstart : (Progress.start o v.document v.node).run v.before = (.ok (.escaped f), v.before) := by
      rw [Progress.start_eq, Progress.started, heligible]
      rfl
    obtain ⟨hprogress, hafter⟩ := progress_eq hstart
    refine .skipped (by rw [shown?, heligible]) (by rw [edits, hprogress]; rfl)
      (by rw [hprogress]; rfl) ?_
    rw [hafter]
    exact .refl hw
  | ok eligibility =>
    cases eligibility with
    | ineligible reason =>
      obtain ⟨w₁, hlog⟩ := run_logSkip (NodeLabel.ofNode v.document v.node)
        (SkipReason.notEligible.describe reason.message) v.before
      have hstart : (Progress.start o v.document v.node).run v.before = (.ok (.finished []), w₁) := by
        rw [Progress.start_eq, Progress.started, heligible]
        dsimp only
        rw [run_bind_of_ok hlog]
        rfl
      obtain ⟨hprogress, hafter⟩ := progress_eq hstart
      refine .skipped (by rw [shown?, heligible]) (by rw [edits, hprogress]; rfl)
        (by rw [hprogress]; rfl) ?_
      rw [hafter]
      exact (reports_logSkip _ _).within.evolves hw hlog
    | eligible role extensions =>
      have hsettles : Resolution.Settles o v.before (v.resolution o extensions) :=
        Resolution.settles_ofValue hw hd v.source? extensions
      cases hr : v.resolution o extensions with
      | mk r w₁ =>
        rw [hr] at hsettles
        obtain ⟨hnot, he⟩ | ⟨p, w₀, hp, he, hstage, hprocess⟩ := hsettles
        · exact course_of_unprocessed heligible hr hnot he
        · obtain rfl : r = .ok (.process p) := hprocess
          have hshown : v.shown? o = some (role, p) := by simp only [shown?, heligible, hr]
          have hstages : v.Stages o role p w₁ := ⟨hshown, hp, w₀, he, hstage⟩
          have hw₁ := ((OutputPlan.within_stage hp.toIsFor).evolves he.isSound hstage).isSound
          obtain ⟨span, hspan⟩ := spanOf_of_process hr
          have hresolve := run_resolve_of_process role hr hspan
          cases role with
          | tag => exact course_of_tag hstages hw₁ heligible hresolve
          | component => exact course_of_component hstages hw₁ heligible hresolve

/-- A tag that is shown has its picture made, or fails. -/
theorem exists_of_shown_tag (hw : v.before.IsSound) (hd : v.document.directory.IsResolved)
    (h : v.shown? o = some (.tag, p)) :
    ∃ w w' r, v.Stages o .tag p w ∧ (p.optimizeSingle o).run w = (r, w') ∧
      Evolves Nowhere Nowhere w' (v.after o) ∧
      ∀ e ∈ v.edits o, ∃ uri, r = .ok uri ∧ e.replacement = uri.toList := by
  cases v.course o hw hd with
  | skipped hshown _ _ _ =>
    rw [h] at hshown
    cases hshown
  | tagFailed hs hmade hafter hprogress =>
    cases hs.shown.symm.trans h
    exact ⟨_, _, _, hs, hmade, hafter, by simp [edits, hprogress, Progress.edits]⟩
  | @tagMade p w uri span hs hmade hprogress =>
    cases hs.shown.symm.trans h
    have hafter := (OutputPlan.within_optimizeSingle hs.isMade.toIsFor).evolves hs.isSound hmade
    refine ⟨_, _, _, hs, hmade, .refl hafter.isSound, fun e he ↦ ⟨uri, rfl, ?_⟩⟩
    rw [edits, hprogress] at he
    rw [List.mem_singleton.mp he]
  | componentFailed hs _ _ _ => cases hs.shown.symm.trans h
  | componentOpened hs _ _ _ _ => cases hs.shown.symm.trans h

/-- A component that is shown changes nothing once its copy is in place. -/
theorem exists_of_shown_component (hw : v.before.IsSound) (hd : v.document.directory.IsResolved)
    (h : v.shown? o = some (.component, p)) :
    ∃ w, v.Stages o .component p w ∧ Evolves Nowhere Nowhere w (v.after o) := by
  cases v.course o hw hd with
  | skipped hshown _ _ _ =>
    rw [h] at hshown
    cases hshown
  | tagFailed hs _ _ _ => cases hs.shown.symm.trans h
  | tagMade hs _ _ => cases hs.shown.symm.trans h
  | componentFailed hs _ hafter _ =>
    cases hs.shown.symm.trans h
    exact ⟨_, hs, hafter⟩
  | componentOpened hs hafter _ _ _ =>
    cases hs.shown.symm.trans h
    exact ⟨_, hs, hafter⟩

theorem isMade_of_shown (hw : v.before.IsSound) (hd : v.document.directory.IsResolved) {role : Role}
    (h : v.shown? o = some (role, p)) : p.IsMade o v.before.cwd := by
  cases role with
  | tag =>
    obtain ⟨_, _, _, hs, -⟩ := exists_of_shown_tag hw hd h
    exact hs.isMade
  | component =>
    obtain ⟨_, hs, -⟩ := exists_of_shown_component hw hd h
    exact hs.isMade

end Visit

end ResponsiveImage.Rewrite
