import ResponsiveImage.Picture.HeaderCodec
import ResponsiveImage.Proofs.Options.Defaults
import ResponsiveImage.Proofs.Rewrite.Turns

/-!
# The file that an image is read from

The search for the image of a node finds a file, and that file is left as it is, whether the node is
edited, skipped or fails.  There is one exception: the copy of an image that lies in the output
directory is the file itself, and an image tag whose picture is not put into the document has the
optimised picture written over that copy (`content?_source_of_turns`).
-/

namespace ResponsiveImage

open Workspace (Evolves Alike)
open Job

variable {o : Options} {w w₁ : Workspace} {image : Path} {c d : Content}

/-! ## Putting a copy in its place -/

namespace OutputPlan

/-- Putting a copy of an image in its place leaves the image as it is, and changes nothing at all if
that place is the image's own. -/
theorem run_staged_cases (hw : w.IsSound) (himage : image.IsResolved)
    (hc : w.files.content? image.parts = some c) :
    (∃ f w₁, (staged image o).run w = (.error f, w₁) ∧ w₁.files.content? image.parts = some c ∧
      ∀ p, (ofImage image o).run w = (.ok p, w) → p.path ≠ image) ∨
      ∃ p w₁, (staged image o).run w = (.ok p, w₁) ∧ (ofImage image o).run w = (.ok p, w) ∧
        p.IsMade o w.cwd ∧ p.source = image ∧ w₁.IsSound ∧
        w₁.files.content? image.parts = some c ∧ (p.path = image → w₁ = w) := by
  rw [staged]
  cases hplan : (ofImage image o).run w with
  | mk r w₂ =>
    obtain rfl := (looks_ofImage image o).eq hplan
    cases r with
    | error f => exact .inl ⟨f, w₂, run_bind_of_error hplan, hc, fun p hp ↦ by cases hp⟩
    | ok p =>
      obtain ⟨hp, rfl⟩ := run_ofImage_eq_ok hw himage (Tree.ne_nil_of_content? hc) hplan
      rw [run_bind_of_ok hplan]
      by_cases hsame : p.path = p.source
      · have hstage := run_stage_of_path_eq hw hp.toIsFor hsame hc
        exact .inr ⟨p, w₂, run_bind_of_ok hstage, rfl, hp, rfl, hw, hc, fun _ ↦ rfl⟩
      · have hparts : ¬ p.path.Here p.source.parts := fun h ↦
          hsame (hp.isResolved_path.ext hp.source h.symm)
        cases hstage : p.stage.run w₂ with
        | mk s w₃ =>
          have he := (within_stage hp.toIsFor).evolves hw hstage
          have hkept := he.content?_of_some hparts hc
          cases s with
          | error f =>
            refine .inl ⟨f, w₃, run_bind_of_error hstage, hkept, fun q hq ↦ ?_⟩
            cases hq
            exact hsame
          | ok u =>
            exact .inr ⟨p, w₃, run_bind_of_ok hstage, rfl, hp, rfl, he.isSound, hkept,
              fun h ↦ absurd h hsame⟩

end OutputPlan

namespace Rewrite

namespace Progress

/-- What is done with the image of a node, once its file is found. -/
def treat [Codec] (o : Options) (d : Document) (n : Markup.Node) (role : Role) (image : Path) :
    Job Progress := do
  let plan ← OutputPlan.staged image o
  let span ← ofExcept id (spanOf n)
  match role with
  | .tag => ofTag o span plan
  | .component => ofComponent o (NodeLabel.ofNode d n) span plan

/-- A node is resolved by searching for its image and treating what is found. -/
theorem resolve_eq [Codec] (o : Options) (d : Document) (n : Markup.Node) (role : Role)
    (extensions : List Json.Value) :
    resolve o d n role extensions = (do
      match ← Resolution.find ((n.attribute? "src".toList).map (·.value)) d.directory o extensions with
      | .skipped reason detail =>
        logSkip (NodeLabel.ofNode d n) (reason.describe detail)
        return finished []
      | .file image => treat o d n role image) := by
  rw [resolve, Resolution.ofValue_eq, bind_assoc]
  congr 1
  funext finding
  cases finding with
  | skipped reason detail => rfl
  | file image =>
    dsimp only
    rw [Resolution.Finding.decide, Resolution.process, treat, bind_assoc]
    rfl

end Progress

theorem alike_orLogged (label : NodeLabel) (t : Job Progress) (w : Workspace) :
    Alike (t.run w).2 ((Progress.orLogged label t).run w).2 := by
  cases hrun : t.run w with
  | mk r w₁ =>
    cases r with
    | ok q =>
      rw [run_orLogged_of_ok hrun]
      exact .refl w₁
    | error f =>
      rw [Progress.orLogged, run_bind_of_ok (run_attempt_eq_ok.mpr hrun)]
      exact ((reports_logFault label f).bind fun _ ↦ reports_pure _) w₁

/-! ## Visits that find an image -/

namespace Visit

variable {v : Visit} {role : Role} {w₀ : Workspace}

/-- The image that a visit finds, with the part that it plays and what the search leaves; none if the
node may not be worked on or its image is not found. -/
def found? (o : Options) (v : Visit) : Option (Role × Path × Workspace) :=
  match Eligibility.ofNode v.node o with
  | .ok (.eligible role extensions) =>
    match (Resolution.find v.source? v.document.directory o extensions).run v.before with
    | (.ok (.file image), w₀) => some (role, image, w₀)
    | _ => none
  | _ => none

theorem found?_eq_some_iff :
    v.found? o = some (role, image, w₀) ↔
      ∃ extensions, Eligibility.ofNode v.node o = .ok (.eligible role extensions) ∧
        (Resolution.find v.source? v.document.directory o extensions).run v.before =
          (.ok (.file image), w₀) := by
  rw [found?]
  constructor
  · intro h
    split at h
    · rename_i heligible
      split at h
      · rename_i hfind
        cases h
        exact ⟨_, heligible, hfind⟩
      · cases h
    · cases h
  · rintro ⟨extensions, heligible, hfind⟩
    rw [heligible]
    dsimp only
    rw [hfind]

theorem search_of_found (h : v.found? o = some (role, image, w₀)) (hw : v.before.IsSound)
    (hd : v.document.directory.IsResolved) :
    Resolution.Search o v.source? v.before (.ok (.file image)) w₀ := by
  obtain ⟨extensions, -, hfind⟩ := found?_eq_some_iff.mp h
  have hsearch := Resolution.search_find (o := o) hw hd v.source? extensions
  rwa [hfind] at hsearch

/-- A visit that finds an image treats it. -/
theorem alike_after_of_found [Codec] (h : v.found? o = some (role, image, w₀)) :
    Alike ((Progress.treat o v.document v.node role image).run w₀).2 (v.after o) := by
  obtain ⟨extensions, heligible, hfind⟩ := found?_eq_some_iff.mp h
  have hresolve : (Progress.resolve o v.document v.node role extensions).run v.before =
      (Progress.treat o v.document v.node role image).run w₀ := by
    rw [Progress.resolve_eq]
    exact run_bind_of_ok hfind
  rw [after, Progress.start_of_eligible heligible, ← hresolve]
  exact alike_orLogged _ _ _

/-- The source of a node whose image is found is a literal text. -/
theorem exists_span_of_found (h : v.found? o = some (role, image, w₀)) :
    ∃ span, Progress.spanOf v.node = .ok span := by
  obtain ⟨extensions, -, hfind⟩ := found?_eq_some_iff.mp h
  rw [source?] at hfind
  cases hsource : v.node.attribute? "src".toList with
  | none =>
    rw [hsource] at hfind
    cases hfind
  | some a =>
    obtain ⟨start, value, stop, attributeStop⟩ := a
    rw [hsource] at hfind
    cases value with
    | dynamic kind => cases hfind
    | static text first last =>
      rw [Progress.spanOf, hsource]
      exact ⟨_, rfl⟩

/-- An image that is shown has been found. -/
theorem exists_found_of_shown {p : OutputPlan} (hw : v.before.IsSound)
    (hd : v.document.directory.IsResolved) (h : v.shown? o = some (role, p)) :
    ∃ w₀, v.found? o = some (role, p.source, w₀) ∧
      (OutputPlan.ofImage p.source o).run w₀ = (.ok p, w₀) := by
  rw [shown?] at h
  split at h
  · rename_i role' extensions heligible
    split at h
    · rename_i q hq
      cases h
      rw [resolution, Resolution.ofValue_eq] at hq
      have hsearch := Resolution.search_find (o := o) hw hd v.source? extensions
      cases hfind : (Resolution.find v.source? v.document.directory o extensions).run v.before with
      | mk r w₀ =>
        rw [hfind] at hsearch
        rcases r with f | ⟨reason, detail⟩ | image
        · rw [run_bind_of_error hfind] at hq
          cases hq
        · rw [run_bind_of_ok hfind] at hq
          cases hq
        · obtain ⟨himage, c, hc⟩ := hsearch.isFile hw rfl
          rw [run_bind_of_ok hfind] at hq
          rcases OutputPlan.run_staged_cases (o := o) (hsearch.evolves hw).isSound himage hc with
            ⟨f, w₁, hrun, -⟩ | ⟨q, w₁, hrun, hplan, -, rfl, -⟩
          · have hprocess : ((Resolution.process image o).run w₀).1 = .error f :=
              congrArg Prod.fst (run_bind_of_error hrun)
            cases hprocess.symm.trans hq
          · have hprocess : ((Resolution.process q.source o).run w₀).1 = .ok (.process q) :=
              congrArg Prod.fst (run_bind_of_ok hrun)
            cases hprocess.symm.trans hq
            exact ⟨w₀, found?_eq_some_iff.mpr ⟨extensions, heligible, hfind⟩, hplan⟩
    · cases h
  · cases h

end Visit

/-! ## Turns that find an image -/

namespace Visit

variable {v : Visit} {role : Role} {w₀ : Workspace}

/-- A first turn that finds an image puts a copy of it in its place, or fails to. -/
theorem alike_begins_of_found (h : v.found? o = some (role, image, w₀)) :
    Alike ((OutputPlan.staged image o).run w₀).2 (v.begins o).2 := by
  obtain ⟨extensions, heligible, hfind⟩ := found?_eq_some_iff.mp h
  obtain ⟨span, hspan⟩ := exists_span_of_found h
  have hlocate : (Progress.locate o v.document v.node role extensions).run v.before = (do
      let plan ← OutputPlan.staged image o
      return some ⟨NodeLabel.ofNode v.document v.node, role, span, plan⟩ :
        Job (Option Progress.Task)).run w₀ := by
    rw [Progress.locate, Resolution.ofValue_eq, bind_assoc]
    refine (run_bind_of_ok hfind).trans ?_
    rw [Resolution.Finding.decide, Resolution.process, bind_assoc]
    refine congrArg (fun t : Job (Option Progress.Task) ↦ t.run w₀) (congrArg _ ?_)
    funext plan
    rw [pure_bind]
    dsimp only
    rw [hspan]
    rfl
  rw [begins, Progress.begun, heligible]
  cases hstaged : (OutputPlan.staged image o).run w₀ with
  | mk r w₁ =>
    cases r with
    | error f =>
      rw [run_bind_of_error hstaged] at hlocate
      rw [run_bind_of_ok (run_attempt_eq_ok.mpr hlocate)]
      exact ((reports_logFault _ f).bind fun _ ↦ reports_pure _) w₁
    | ok p =>
      rw [run_bind_of_ok hstaged] at hlocate
      rw [run_bind_of_ok (run_attempt_eq_ok.mpr hlocate)]
      exact .refl w₁

/-- The first turn leaves the image that it finds as it is. -/
theorem content?_begins_of_found (hw : v.before.IsSound) (hd : v.document.directory.IsResolved)
    (h : v.found? o = some (role, image, w₀)) :
    ∃ c, w₀.files.content? image.parts = some c ∧
      (v.begins o).2.files.content? image.parts = some c := by
  have hsearch := search_of_found h hw hd
  obtain ⟨himage, c, hc⟩ := hsearch.isFile hw rfl
  refine ⟨c, hc, ?_⟩
  rw [(alike_begins_of_found h).files_eq]
  rcases OutputPlan.run_staged_cases (o := o) (hsearch.evolves hw).isSound himage hc with
    ⟨f, w₁, hrun, hkept, -⟩ | ⟨p, w₁, hrun, -, -, -, -, hkept, -⟩
  · rw [hrun]
    exact hkept
  · rw [hrun]
    exact hkept

/-- A task is made of the image that has been found. -/
theorem source_of_task {t : Progress.Task} (hw : v.before.IsSound)
    (hd : v.document.directory.IsResolved) (h : v.found? o = some (role, image, w₀))
    (ht : v.task? o = some t) : t.plan.source = image := by
  obtain ⟨w₁, hfound, -⟩ := exists_found_of_shown hw hd (stages_of_task hw hd ht).shown
  cases h.symm.trans hfound
  rfl

/-- A first turn leaves a file alone to which no other image is copied and that is no unfinished
download. -/
theorem content?_begins (hw : v.before.IsSound) (hd : v.document.directory.IsResolved)
    (himage : image.IsResolved) (hunfinished : ¬ o.Unfinished v.before.cwd image.parts)
    (hsole : ∀ t, v.task? o = some t → t.plan.path = image → t.plan.source = image)
    (hc : v.before.files.content? image.parts = some c) :
    (v.begins o).2.files.content? image.parts = some c := by
  cases begins_cases o hw hd with
  | reached _ _ he => exact he.content?_of_some hunfinished hc
  | @located t hbegun hs =>
    obtain ⟨w₁, he, hstage⟩ := hs.staged
    have hkept := he.content?_of_some hunfinished hc
    by_cases hpath : t.plan.path = image
    · have hsource := hsole t (by rw [task?, hbegun]) hpath
      rw [OutputPlan.run_stage_of_path_eq he.isSound hs.isMade.toIsFor (hpath.trans hsource.symm)
        (hsource ▸ hkept)] at hstage
      rw [← (Prod.mk.inj hstage).2]
      exact hkept
    · refine ((OutputPlan.within_stage hs.isMade.toIsFor).evolves he.isSound hstage).content?_of_some
        (fun hhere ↦ hpath ?_) hkept
      exact hs.isMade.isResolved_path.ext himage hhere.symm

end Visit

/-! ## Images that are written over -/

section Recoded

variable [Codec] {h : Header}

/-- What the file of an image becomes that is optimised in its own place: the optimised picture, if there
is one and it does not go into the document. -/
def recoded (o : Options) (c : Content) : Content :=
  match OutputPlan.isInlined o c.size, c.header? with
  | .ok false, some h =>
    match Picture.optimizedOf o c h with
    | .ok d => d
    | .error _ => c
  | _, _ => c

theorem recoded_of_optimizedOf (hlarge : OutputPlan.isInlined o c.size = .ok false)
    (hheader : c.header? = some h) (hd : Picture.optimizedOf o c h = .ok d) : recoded o c = d := by
  rw [recoded, hlarge, hheader]
  dsimp only
  rw [hd]

theorem recoded_eq_self (hnot : ∀ h d, OutputPlan.isInlined o c.size = .ok false →
    c.header? = some h → Picture.optimizedOf o c h ≠ .ok d) : recoded o c = c := by
  rw [recoded]
  split
  · rename_i h hlarge hheader
    split
    · rename_i d hd
      exact absurd hd (hnot h d hlarge hheader)
    · rfl
  · rfl

end Recoded

/-- A task of a tag whose image lies where its copy is to be, under a name that leaves room for the
temporary name of a file that is being written. -/
def Progress.Task.InPlace (image : Path) (t : Progress.Task) : Prop :=
  t.role = .tag ∧ t.plan.source = image ∧ t.plan.path = image ∧
    image.name.utf8ByteSize + temporaryExtra ≤ Tree.greatestName

instance (image : Path) (t : Progress.Task) : Decidable (t.InPlace image) :=
  inferInstanceAs (Decidable (_ ∧ _))

/-- The turns that write over an image. -/
def Turn.recodes (image : Path) : Turn → Bool
  | .resolve _ => false
  | .perform t _ => t.InPlace image

/-- A second turn leaves an image as it is to whose place no other one is copied, unless it is optimised
in place. -/
theorem Progress.Task.content?_after [Codec] {t : Progress.Task} (hw : w.IsSound)
    (hp : t.plan.IsFor o) (himage : image.IsResolved)
    (hsole : t.plan.path = image → t.plan.source = image)
    (hc : w.files.content? image.parts = some c) :
    (t.after o w).files.content? image.parts =
      some (if t.InPlace image then recoded o c else c) := by
  by_cases hpath : t.plan.path = image
  · obtain rfl := hsole hpath
    cases course hw hp with
    | componentFailed hrole hafter _ =>
      rw [if_neg fun h ↦ (nomatch h.1.symm.trans hrole)]
      exact hafter.content?_of_some id hc
    | componentOpened hrole hafter _ _ =>
      rw [if_neg fun h ↦ (nomatch h.1.symm.trans hrole)]
      exact hafter.content?_of_some id hc
    | tagFailed hrole hmade hafter _ =>
      have hkept : (if t.InPlace t.plan.source then recoded o c else c) = c := by
        split
        · rename_i hinPlace
          refine recoded_eq_self fun h d hlarge hheader hd ↦ ?_
          have hrun := OutputPlan.run_optimizeSingle_of_staged hw hp hc hheader hlarge hd
            (hpath ▸ hc) (hpath ▸ hinPlace.2.2.2)
          cases hmade.symm.trans hrun
        · rfl
      rw [hkept]
      rcases OutputPlan.run_optimizeSingle_cases hw hp with
        ⟨f, w₁, hfail, he⟩ | ⟨c', uri, -, -, hok⟩ | ⟨c', h, d, w₁, -, -, -, -, hok, -, -, -⟩
      · rw [hmade] at hfail
        cases hfail
        exact hafter.content?_of_some id (he.content?_of_some id hc)
      · cases hmade.symm.trans hok
      · cases hmade.symm.trans hok
    | tagMade hrole hmade _ =>
      rcases OutputPlan.run_optimizeSingle_cases hw hp with
        ⟨f, w₁, hfail, -⟩ | ⟨c', uri, hc', hinlined, hok⟩ |
          ⟨c', h, d, w₁, hc', hheader, hlarge, hd, hok, hcopy, hshort, -⟩
      · cases hmade.symm.trans hfail
      · cases hc.symm.trans hc'
        have hkept : recoded o c = c := recoded_eq_self fun h d hlarge _ _ ↦ by
          cases hinlined.symm.trans hlarge
        rw [(Prod.mk.inj (hmade.symm.trans hok)).2, hkept, ite_self]
        exact hc
      · cases hc.symm.trans hc'
        rw [(Prod.mk.inj (hmade.symm.trans hok)).2, if_pos ⟨hrole, rfl, hpath, hpath ▸ hshort⟩,
          recoded_of_optimizedOf hlarge hheader hd, ← hpath]
        exact hcopy
  · rw [if_neg fun h ↦ hpath h.2.2.1]
    refine (evolves hw hp).content?_of_some (fun hhere ↦ hpath ?_) hc
    exact hp.isResolved_path.ext himage hhere.symm

/-! ## Turns in any order -/

section Runs

variable {ts : List Turn} {v : Visit} {role : Role} {w₀ : Workspace}

/-- No other image is copied to the place of an image. -/
def Sole (o : Options) (image : Path) (ts : List Turn) : Prop :=
  ∀ p ∈ copiedPlans o ts, p.path = image → p.source = image

theorem Sole.of_append {us : List Turn} (h : Sole o image (ts ++ us)) : Sole o image ts := by
  intro p hp
  refine h p ?_
  rw [copiedPlans, List.filterMap_append]
  exact List.mem_append_left _ hp

variable [Codec]

/-- A file to which no other image is copied is encoded again by every turn that writes over it, and by
no other. -/
theorem Turns.content?_image (hturns : Turns o w ts w₁) (hw : w.IsSound) (himage : image.IsResolved)
    (hsole : Sole o image ts) (hunfinished : ¬ o.Unfinished w.cwd image.parts)
    (hc : w.files.content? image.parts = some c) :
    w₁.files.content? image.parts = some ((recoded o)^[ts.countP (Turn.recodes image)] c) := by
  induction hturns with
  | start => exact hc
  | quiet _ halike ih =>
    rw [halike.files_eq]
    exact ih hsole
  | make hturns ht hc' hk ih => exact (hturns.evolves_make hw ht hc' hk).content?_of_some id (ih hsole)
  | @resolve ts w₁ hturns d hd n ih =>
    have hsound := hturns.sound hw
    have hcount : (ts ++ [Turn.resolve ⟨d, n, w₁⟩]).countP (Turn.recodes image) =
        ts.countP (Turn.recodes image) := by simp [Turn.recodes]
    rw [hcount]
    refine Visit.content?_begins (v := ⟨d, n, w₁⟩) hsound.isSound hd himage
      (hsound.cwd_eq ▸ hunfinished) (fun t ht ↦ ?_) (ih hsole.of_append)
    exact hsole _ (mem_copiedPlans (List.mem_append_right _ List.mem_cons_self) ht)
  | @perform ts w₁ hturns v t hv ht ih =>
    have hsound := hturns.sound hw
    have hstep := Progress.Task.content?_after hsound.isSound (hsound.isMade_of_task hv ht).toIsFor
      himage (hsole _ (mem_copiedPlans (List.mem_append_left _ hv) ht)) (ih hsole.of_append)
    rw [hstep, List.countP_append, List.countP_singleton, Turn.recodes]
    by_cases hinPlace : t.InPlace image
    · simp only [hinPlace, decide_true, if_true, Function.iterate_succ_apply']
    · simp only [hinPlace, decide_false, if_false, Bool.false_eq_true, Nat.add_zero]

end Runs

/-! ### An image in the output directory -/

open scoped HeaderCodec

/-- Options with the output directory below the source directory, with which every image tag is given a
URL. -/
def overlapOptions : Options :=
  { Options.defaults with publicDir := .string "./src/", inlineBelow := .int 0 }

/-- A picture with some bytes behind it. -/
def overlapPicture : Content :=
  .bytes (HeaderCodec.padded 40 (HeaderCodec.file ⟨"PNG", 1000, 500⟩).data)

/-- That picture in the output directory. -/
def overlapFiles : Workspace where
  cwd := []
  files := ⟨[(["src"], .directory), (["src", "g"], .directory),
    (["src", "g", "x.png"], .file overlapPicture)]⟩

def overlapImage : Path := .ofParts ["src", "g", "x.png"]

/-- A document that shows the picture, rewritten twice. -/
def overlapDocuments : List (List Document) :=
  [[⟨"<img src=\"g/x.png\">".toList, .ofParts ["src"]⟩],
    [⟨"<img src=\"g/x.png\">".toList, .ofParts ["src"]⟩]]

def overlapVisits : List Visit :=
  allVisits overlapOptions (Placeholder.label .trace) overlapDocuments overlapFiles

end Rewrite

end ResponsiveImage
