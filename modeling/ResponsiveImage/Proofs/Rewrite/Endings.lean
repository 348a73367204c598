import ResponsiveImage.Proofs.Markup.SpanTexts
import ResponsiveImage.Proofs.Rewrite.ComponentAttributes
import ResponsiveImage.Proofs.Rewrite.Conflicts
import ResponsiveImage.Proofs.Rewrite.Rereading

/-!
# What a rewrite of a document comes to

A rewrite of a document alone comes to edits for each of its images (`documentEdits`).  If the images are
known, it is a pass over them (`Pass`), and if none of them is misconfigured, the text that comes out is
the source with all these edits made, or the source as it is if they conflict (`exists_pass`).  Which
images there are depends on the text and on the working directory alone, and what an image tag is given
stands in place of its source.
-/

namespace ResponsiveImage.Rewrite

open Job

variable {o : Options} {placeholder : Placeholder} {text text₁ : List Char} {file? : Option String}
  {w w₁ x : Workspace} {vs : List Visit} {u v : Visit} {es : List Edit} {n : Markup.Node}
  {ns : List Markup.Node} {directory : Path}

/-! ## What a document comes to -/

/-- The edits that a rewrite of a document alone comes to for each of its images. -/
def documentEdits [Codec] (o : Options) (placeholder : Placeholder) (text : List Char)
    (file? : Option String)
    (w : Workspace) : List (List Edit) :=
  match (directoryOf file?).run w with
  | (.ok directory, w) => nodeEdits o placeholder ⟨text, directory⟩ w
  | (.error _, _) => []

theorem map_node_nodeVisits [Codec] (d : Document) (ns : List Markup.Node) (w : Workspace) :
    (nodeVisits o d ns w).map (·.node) = ns := by
  induction ns generalizing w with
  | nil => rfl
  | cons n ns ih => rw [nodeVisits, List.map_cons, ih]

theorem document_of_mem_documentVisits [Codec]
    (hdirectory : (directoryOf file?).run w = (.ok directory, w))
    (hv : v ∈ documentVisits o text file? w) : v.document = ⟨text, directory⟩ := by
  rw [documentVisits, hdirectory] at hv
  exact List.mem_singleton.mp (mem_images_of_mem_visits hv).1

/-- A pass over the images of a text, in files that have a past: each image ends as it has to, and is
given all that it is to be given or nothing. -/
structure Pass [Codec] (o : Options) (placeholder : Placeholder) (w : Workspace) (past : List Visit)
    (text : List Char) (vs : List Visit) (qs : List Progress) : Prop where
  images : vs = [] ∨ Page.images text o.tagName = .ok (vs.map (·.node))
  ends : List.Forall₂ (fun v q ↦ Ends o placeholder w (past ++ vs) v q ∧ IsWhole o v.node q.edits) vs qs
  history : ∃ x, History o w (past ++ vs) x

/-- A rewrite of a document whose images are known is a pass over them. If none of them is misconfigured,
the text is spliced with all their edits. -/
theorem exists_pass [Codec] (hplaceholder : ∀ p, Looks (placeholder p)) (hw : w.IsSound)
    (hpast : History o w vs x) (hdirectory : (directoryOf file?).run x = (.ok directory, x))
    (hns : (Page.candidates o ⟨text, directory⟩).run x = (.ok ns, w₁)) :
    ∃ qs, Pass o placeholder w vs text (documentVisits o text file? x) qs ∧
      documentEdits o placeholder text file? x = qs.map (·.edits) ∧
      (documentVisits o text file? x).map (·.node) = ns ∧
      ∀ text', ((document o placeholder text file?).run x).1 = .ok text' ↔
        (∀ n ∈ ns, ¬ Eligibility.IsMisconfigured n o) ∧
          text' = Edit.spliced text (Edit.sort (qs.map (·.edits)).flatten) := by
  have hx := (hpast.sound hw).isSound
  have hopen : ([⟨text, directory⟩].mapM (Page.opened o)).run x = (.ok [(⟨text, directory⟩, ns)], w₁) :=
    run_mapM_singleton (run_bind_of_ok hns)
  have hvisits : documentVisits o text file? x = nodeVisits o ⟨text, directory⟩ ns w₁ := by
    rw [documentVisits, hdirectory]
    dsimp only
    rw [visits, hopen]
    exact List.append_nil _
  obtain ⟨page, w₂, hworked, -, hprogress, -⟩ :=
    run_worked_singleton o placeholder ⟨text, directory⟩ ns w₁
  have hcompleted : (completed o placeholder [⟨text, directory⟩]).run x = (.ok [page], w₂) :=
    (run_bind_of_ok hopen).trans hworked
  have hdocuments : ∀ d ∈ [(⟨text, directory⟩ : Document)], d.directory.IsResolved :=
    List.forall_mem_singleton.mpr (isResolved_of_directoryOf hx hdirectory)
  have heq : documentVisits o text file? x = visits o [⟨text, directory⟩] x := by
    rw [documentVisits, hdirectory]
  obtain ⟨hhistory, hends⟩ := history_completed hplaceholder hw hdocuments hpast
  have hends := hends [page] (by rw [hcompleted])
  rw [← heq] at hhistory
  rw [List.flatMap_cons, List.flatMap_nil, List.append_nil, hprogress, ← heq] at hends
  have hwhole : List.Forall₂ (IsWhole o) ((documentVisits o text file? x).map (·.node))
      ((settled o placeholder ⟨text, directory⟩ ns w₁).map (·.edits)) := by
    rw [map_edits_settled, hvisits, map_node_nodeVisits]
    exact forall₂_isWhole _ _ _ _ _
  rw [List.forall₂_map_left_iff, List.forall₂_map_right_iff] at hwhole
  have hmap : (documentVisits o text file? x).map (·.node) = ns := by
    rw [hvisits, map_node_nodeVisits]
  refine ⟨settled o placeholder ⟨text, directory⟩ ns w₁, ⟨?_,
    List.Forall₂.mp (fun _ _ h h' ↦ ⟨h, h'⟩) hends hwhole, _, hhistory⟩, ?_, hmap, fun text' ↦ ?_⟩
  · rw [hmap, ← List.map_eq_nil_iff (f := (·.node)), hmap]
    exact images_eq_of_candidates hns
  · rw [documentEdits, hdirectory]
    dsimp only
    rw [nodeEdits, hcompleted, editsOf, List.flatMap_cons, List.flatMap_nil, List.append_nil, hprogress]
  · rw [run_document_eq placeholder text hdirectory, run_documents_singleton placeholder hns,
      map_edits_settled]
    have hfault : (∃ f, (settled o placeholder ⟨text, directory⟩ ns w₁).findSome? Progress.fault? =
        some f) ↔ ∃ n ∈ ns, Eligibility.IsMisconfigured n o := findSome?_settled_eq_some_iff
    cases hfind : (settled o placeholder ⟨text, directory⟩ ns w₁).findSome? Progress.fault? with
    | some f =>
      obtain ⟨n, hn, hmisconfigured⟩ := hfault.mp ⟨f, hfind⟩
      constructor
      · rintro ⟨⟩
      · rintro ⟨hnone, -⟩
        exact absurd hmisconfigured (hnone n hn)
    | none =>
      have hnone : ∀ n ∈ ns, ¬ Eligibility.IsMisconfigured n o := by
        intro n hn hmisconfigured
        obtain ⟨f, hf⟩ := hfault.mpr ⟨n, hn, hmisconfigured⟩
        cases hfind.symm.trans hf
      constructor
      · rintro ⟨⟩
        exact ⟨hnone, rfl⟩
      · rintro ⟨-, rfl⟩
        rfl

theorem run_directoryOf_congr (hcwd : w₁.cwd = w.cwd) :
    ((directoryOf file?).run w₁).1 = ((directoryOf file?).run w).1 := by
  rw [directoryOf_eq, Resolution.run_resolve, Resolution.run_resolve, hcwd]

/-- Which images of a document are worked on has to do with the working directory alone. -/
theorem run_candidates_congr (hcwd : w₁.cwd = w.cwd) (d : Document) :
    ((Page.candidates o d).run w₁).1 = ((Page.candidates o d).run w).1 := by
  have hinside : ((Page.inSourceTree o d.directory).run w₁).1 =
      ((Page.inSourceTree o d.directory).run w).1 := by
    rw [Page.inSourceTree]
    cases Options.path o.sourceDir with
    | error f => rfl
    | ok p =>
      rw [run_bind_of_ok (run_ofExcept_ok _ _ _), run_bind_of_ok (run_ofExcept_ok _ _ _), run_bind,
        run_bind, Resolution.run_resolve, Resolution.run_resolve, hcwd]
      cases p.hasNul with
      | true => rfl
      | false =>
        simp only [Bool.false_eq_true, if_false]
        split <;> rfl
  rw [Page.candidates]
  split
  · rfl
  · rw [run_bind, run_bind]
    cases hw₁ : (Page.inSourceTree o d.directory).run w₁ with
    | mk b x =>
      cases hw : (Page.inSourceTree o d.directory).run w with
      | mk b' x' =>
        rw [hw₁, hw] at hinside
        obtain rfl : b = b' := hinside
        cases b with
        | error f => rfl
        | ok inside =>
          dsimp only
          split
          · rfl
          · split
            · rfl
            · rename_i e _
              cases e <;> rfl

/-- A document that is rewritten without fail has a directory, and its images are known. -/
theorem exists_candidates_of_ok [Codec] (h : ((document o placeholder text file?).run x).1 = .ok text₁) :
    ∃ directory ns w₁, (directoryOf file?).run x = (.ok directory, x) ∧
      (Page.candidates o ⟨text, directory⟩).run x = (.ok ns, w₁) := by
  cases hdirectory : (directoryOf file?).run x with
  | mk d x₁ =>
    obtain rfl := (looks_directoryOf file?).eq hdirectory
    cases d with
    | error f =>
      rw [document, run_bind_of_error hdirectory] at h
      cases h
    | ok directory =>
      cases hcandidates : (Page.candidates o ⟨text, directory⟩).run x₁ with
      | mk r w₁ =>
        cases r with
        | ok ns => exact ⟨directory, ns, w₁, rfl, hcandidates⟩
        | error f =>
          rw [run_document_eq placeholder text hdirectory,
            run_documents_of_error placeholder (congrArg Prod.fst hcandidates)] at h
          cases h

/-! ## Edits at sources -/

/-- The only edit that an image is given replaces its source. -/
theorem IsWhole.exists_span {e : Edit} (h : IsWhole o n [e]) :
    ∃ span, Progress.spanOf n = .ok span ∧ e.start = span.start ∧ e.stop = span.stop := by
  cases h with
  | tag _ hspan => exact ⟨_, hspan, rfl, rfl⟩

/-- The literal text of a source stands where the source does. -/
theorem span_source (himages : Page.images text o.tagName = .ok ns) (hu : u.node ∈ ns)
    {source : List Char} (htext : u.text? = some source) {s : SourceSpan}
    (hspan : Progress.spanOf u.node = .ok s) : Edit.span text s.start s.stop = source := by
  unfold Page.images at himages
  split at himages
  · split at himages
    · rename_i root hroot
      cases himages
      rw [Visit.text?, Visit.source?] at htext
      rw [Progress.spanOf] at hspan
      split at hspan
      · rename_i text' start stop first last hattribute
        cases hspan
        rw [hattribute] at htext
        cases htext
        have hstands := Markup.standsIn_of_mem_candidates hroot hu
          (List.mem_of_find?_eq_some hattribute)
        rw [← Edit.extract_eq_span]
        exact (hstands.literal _ _ _ rfl).extract_eq
      · cases hspan
    · cases himages
  · split at himages <;> cases himages

/-- What an image is given is known by its texts. -/
theorem IsWhole.ext {fs : List Edit} (h : IsWhole o n es) (h' : IsWhole o n fs)
    (heq : es.map (·.replacement) = fs.map (·.replacement)) : es = fs := by
  cases h with
  | nothing => exact (List.map_eq_nil_iff.mp heq.symm).symm
  | tag _ hspan =>
    cases h' with
    | nothing => cases heq
    | tag _ hspan' =>
      cases hspan.symm.trans hspan'
      cases heq
      rfl
    | component => cases heq
  | component _ hspan =>
    cases h' with
    | nothing => cases heq
    | tag => cases heq
    | component _ hspan' =>
      cases hspan.symm.trans hspan'
      cases heq
      rfl

end ResponsiveImage.Rewrite
