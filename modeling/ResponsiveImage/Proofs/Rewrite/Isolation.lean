import ResponsiveImage.Picture.HeaderCodec
import ResponsiveImage.Proofs.Options.Defaults
import ResponsiveImage.Proofs.Rewrite.Pages

/-!
# Failures of single images

The work on an image may fail wherever it resolves the source, makes the variants or shows something
in their place.  What fails there is logged and the image is left as it is, and all others are given
what they would be given anyway: the text of a document is spliced with the edits of exactly those
images whose work succeeds (`document_isolates`).

Whether an image may be worked on at all is looked at outside of that guard, and so is whether the
document lies in the source tree.  There settings that are no texts let a fault escape (`Escapes`),
and nothing else does.
-/

namespace ResponsiveImage

open Job
open Json (Value)

/-! ## Settings that are no texts -/

namespace Eligibility

/-- The extensions that are looked at for a node. -/
def looked (n : Markup.Node) (o : Options) : List Value :=
  if n.name == "img".toList && o.optimizeAll.truthy then o.imgTagExtensions
  else if isNamed n o.tagName then o.componentExtensions
  else []

/-- A node with a literal source whose extension is looked up among values that are not all texts. -/
def IsMisconfigured (n : Markup.Node) (o : Options) : Prop :=
  literalSource? n ≠ none ∧ ∃ v ∈ looked n o, ∀ s, v ≠ .string s

theorem text_eq_error_iff {v : Value} :
    (∃ f, Options.text v = .error f) ↔ ∀ s, v ≠ .string s := by
  cases v <;> simp [Options.text]

theorem mapM_eq_error_iff {α β : Type} {f : α → Except Fault β} {as : List α} :
    (∃ e, as.mapM f = .error e) ↔ ∃ a ∈ as, ∃ e, f a = .error e := by
  induction as with
  | nil => simp [pure, Except.pure]
  | cons a as ih =>
    rw [List.mapM_cons, List.exists_mem_cons_iff, ← ih]
    cases ha : f a with
    | error e => simp [bind, Except.bind]
    | ok b =>
      cases has : as.mapM f with
      | error e => simp [bind, Except.bind]
      | ok bs => simp [bind, Except.bind, pure, Except.pure]

theorem ofSource_eq_error_iff {n : Markup.Node} {role : Role} {extensions : List Value} :
    (∃ f, ofSource n role extensions = .error f) ↔
      literalSource? n ≠ none ∧ ∃ v ∈ extensions, ∀ s, v ≠ .string s := by
  have hmapM : (∃ e, extensions.mapM Options.text = .error e) ↔
      ∃ v ∈ extensions, ∀ s, v ≠ .string s := by
    rw [mapM_eq_error_iff]
    exact exists_congr fun v ↦ and_congr_right fun _ ↦ text_eq_error_iff
  rw [← hmapM, ofSource]
  cases literalSource? n with
  | none => simp [pure, Except.pure]
  | some source =>
    simp only [isAllowed]
    cases extensions.mapM Options.text with
    | error e => simp [bind, Except.bind]
    | ok texts =>
      cases hallowed : FileName.isAllowed source texts <;>
        simp [bind, Except.bind, pure, Except.pure, hallowed]

/-- Whether a node may be worked on is known unless it is misconfigured. -/
theorem ofNode_eq_error_iff {n : Markup.Node} {o : Options} :
    (∃ f, ofNode n o = .error f) ↔ IsMisconfigured n o := by
  rw [IsMisconfigured, looked, ofNode]
  split
  · exact ofSource_eq_error_iff
  · split
    · exact ofSource_eq_error_iff
    · split <;> simp

end Eligibility

namespace Rewrite

variable {o : Options} {placeholder : Placeholder} {w w₁ w₂ w₃ : Workspace} {d : Document}
  {n : Markup.Node} {ns : List Markup.Node}

/-! ## The work on one image -/

/-- The edits that the work on an image comes to, and the fault if it fails: its source is resolved
in one workspace, its variants are made in another, and in a third something is shown in their
place. -/
def work [Codec] (o : Options) (placeholder : Placeholder) (d : Document) (n : Markup.Node)
    (w₁ w₂ w₃ : Workspace) : Except Fault (List Edit) :=
  match Eligibility.ofNode n o with
  | .error f => .error f
  | .ok (.ineligible _) => .ok []
  | .ok (.eligible role extensions) =>
    match ((Progress.resolve o d n role extensions).run w₁).1 with
    | .error f => .error f
    | .ok (.awaiting c) =>
      match ((Variant.ofSizes c.plan c.sizes c.header o).run w₂).1 with
      | .error f => .error f
      | .ok variants => ((Progress.componentEdits o placeholder c variants).run w₃).1
    | .ok q => .ok q.edits

/-- Of work that fails nothing is kept. -/
def kept (r : Except Fault (List Edit)) : List Edit := r.toOption.getD []

/-- An image is given all that it is to be given, or nothing. -/
theorem isWhole_kept_work [Codec] : IsWhole o n (kept (work o placeholder d n w₁ w₂ w₃)) := by
  rw [work]
  split
  · exact .nothing
  · exact .nothing
  · rename_i role extensions hrole
    split
    · exact .nothing
    · rename_i c hresolve
      cases resolved_of_run hresolve with
      | component hspan =>
        split
        · exact .nothing
        · rename_i variants _
          cases hrun : (Progress.componentEdits o placeholder c variants).run w₃ with
          | mk r w₄ =>
            cases r with
            | error f => exact .nothing
            | ok es =>
              obtain ⟨-, shown, extension, extra, -, -, -, rfl⟩ :=
                run_componentEdits_eq_ok_iff.mp (congrArg Prod.fst hrun)
              exact .component hrole hspan
    · rename_i q _ hresolve
      cases resolved_of_run hresolve with
      | skipped => exact .nothing
      | tag hspan => exact .tag hrole hspan
      | component hspan => exact .nothing

/-- An image that is not pending is left as it is by the later steps. -/
theorem eq_of_not_isPending [Codec] {q r s : Progress} (h : q.isPending = false)
    (hexpand : ((Progress.expand o q).run w₂).1 = .ok r)
    (hcomplete : ((Progress.complete o placeholder r).run w₃).1 = .ok s) : s = q := by
  cases q with
  | finished es =>
    cases hexpand
    cases hcomplete
    rfl
  | escaped f =>
    cases hexpand
    cases hcomplete
    rfl
  | awaiting c => cases h
  | made c outcome => cases h

/-- What becomes of a component that has been opened. -/
theorem complete_of_awaiting [Codec] {c : Component} {r s : Progress}
    (hexpand : ((Progress.expand o (.awaiting c)).run w₂).1 = .ok r)
    (hcomplete : ((Progress.complete o placeholder r).run w₃).1 = .ok s) :
    s = .finished (kept (match ((Variant.ofSizes c.plan c.sizes c.header o).run w₂).1 with
      | .error f => .error f
      | .ok variants => ((Progress.componentEdits o placeholder c variants).run w₃).1)) := by
  obtain rfl : r = .made c ((Variant.ofSizes c.plan c.sizes c.header o).run w₂).1 :=
    (Except.ok.inj hexpand).symm
  rw [Progress.complete, run_orLogged] at hcomplete
  rw [← Except.ok.inj hcomplete]
  cases ((Variant.ofSizes c.plan c.sizes c.header o).run w₂).1 with
  | error f => rfl
  | ok variants =>
    rw [run_bind_of_ok (run_ofExcept_ok _ _ _)]
    cases hrun : (Progress.componentEdits o placeholder c variants).run w₃ with
    | mk outcome w₄ =>
      cases outcome with
      | error f =>
        rw [run_bind_of_error hrun]
        dsimp only
        rw [hrun]
        rfl
      | ok es =>
        rw [run_bind_of_ok hrun]
        dsimp only
        rw [hrun]
        rfl

/-- The three steps of the work on an image, each in a workspace of its own, come to the edits that
are kept of the work.  A fault is left only where it is not known whether the image may be worked
on. -/
theorem eq_of_steps [Codec] {q r s : Progress} (hstart : ((Progress.start o d n).run w₁).1 = .ok q)
    (hexpand : ((Progress.expand o q).run w₂).1 = .ok r)
    (hcomplete : ((Progress.complete o placeholder r).run w₃).1 = .ok s) :
    s = match Eligibility.ofNode n o with
      | .error f => .escaped f
      | .ok _ => .finished (kept (work o placeholder d n w₁ w₂ w₃)) := by
  rw [Progress.start_eq, Progress.started] at hstart
  rw [work]
  cases heligible : Eligibility.ofNode n o with
  | error f =>
    rw [heligible] at hstart
    cases hstart
    exact eq_of_not_isPending rfl hexpand hcomplete
  | ok eligibility =>
    rw [heligible] at hstart
    cases eligibility with
    | ineligible reason =>
      cases hstart
      exact eq_of_not_isPending rfl hexpand hcomplete
    | eligible role extensions =>
      dsimp only at hstart ⊢
      rw [run_orLogged] at hstart
      cases hresolve : ((Progress.resolve o d n role extensions).run w₁).1 with
      | error f =>
        rw [hresolve] at hstart
        cases hstart
        exact eq_of_not_isPending rfl hexpand hcomplete
      | ok q' =>
        rw [hresolve] at hstart
        obtain rfl : q' = q := Except.ok.inj hstart
        cases resolved_of_run hresolve with
        | skipped => exact eq_of_not_isPending rfl hexpand hcomplete
        | tag hspan => exact eq_of_not_isPending rfl hexpand hcomplete
        | component hspan => exact complete_of_awaiting hexpand hcomplete

/-! ## The images of a document -/

/-- The workspace in which the source of an image is resolved, known by the number of the image. -/
def resolvedIn [Codec] (o : Options) (d : Document) (ns : List Markup.Node) (w : Workspace) (i : Nat) :
    Workspace := reached (Progress.start o d) ns i w

/-- The workspace in which the variants of an image are made. -/
def madeIn [Codec] (o : Options) (d : Document) (ns : List Markup.Node) (w : Workspace) (i : Nat) :
    Workspace :=
  ((do
    let started ← ns.mapM (Progress.start o d)
    (started.take i).mapM (Progress.expand o)).run w).2

/-- The workspace in which something is shown in place of an image. -/
def shownIn [Codec] (o : Options) (placeholder : Placeholder) (d : Document) (ns : List Markup.Node)
    (w : Workspace) (i : Nat) : Workspace :=
  ((do
    let started ← ns.mapM (Progress.start o d)
    let expanded ← started.mapM (Progress.expand o)
    (expanded.take i).mapM (Progress.complete o placeholder)).run w).2

/-- The edits that one of the images of a document is given. -/
def contribution [Codec] (o : Options) (placeholder : Placeholder) (d : Document) (ns : List Markup.Node)
    (w : Workspace) (i : Nat) (n : Markup.Node) : List Edit :=
  kept (work o placeholder d n (resolvedIn o d ns w i) (madeIn o d ns w i)
    (shownIn o placeholder d ns w i))

/-- The edits that each of the images of a document is given. -/
def contributions [Codec] (o : Options) (placeholder : Placeholder) (d : Document)
    (ns : List Markup.Node) (w : Workspace) : List (List Edit) :=
  ns.mapIdx (contribution o placeholder d ns w)

/-- How the images of a document end. -/
def settled [Codec] (o : Options) (placeholder : Placeholder) (d : Document) (ns : List Markup.Node)
    (w : Workspace) : List Progress :=
  ns.mapIdx fun i n ↦
    match Eligibility.ofNode n o with
    | .error f => .escaped f
    | .ok _ => .finished (contribution o placeholder d ns w i n)

theorem map_edits_settled [Codec] :
    (settled o placeholder d ns w).map Progress.edits = contributions o placeholder d ns w := by
  refine List.ext_getElem? fun i ↦ ?_
  rw [settled, contributions, List.getElem?_map, List.getElem?_mapIdx, List.getElem?_mapIdx,
    Option.map_map]
  congr 1
  funext n
  dsimp only [Function.comp]
  cases heligible : Eligibility.ofNode n o with
  | ok e => rfl
  | error f =>
    rw [contribution, work, heligible]
    rfl

theorem exists_run_start [Codec] (o : Options) (d : Document) (n : Markup.Node) (w : Workspace) :
    ∃ q w', (Progress.start o d n).run w = (.ok q, w') := ⟨_, _, run_start o d n w⟩

theorem exists_run_expand [Codec] (o : Options) (q : Progress) (w : Workspace) :
    ∃ r w', (Progress.expand o q).run w = (.ok r, w') := by
  cases q <;> exact ⟨_, _, rfl⟩

theorem exists_run_complete (o : Options) (placeholder : Placeholder) (r : Progress)
    (w : Workspace) : ∃ s w', (Progress.complete o placeholder r).run w = (.ok s, w') := by
  cases r with
  | made c outcome => exact ⟨_, _, Prod.ext (run_orLogged _ _ _) rfl⟩
  | _ => exact ⟨_, _, rfl⟩

/-- The three steps for all images of a document settle them. -/
theorem run_steps [Codec] (o : Options) (placeholder : Placeholder) (d : Document)
    (ns : List Markup.Node) (w : Workspace) :
    ∃ started w₁ expanded w₂, (ns.mapM (Progress.start o d)).run w = (.ok started, w₁) ∧
      (started.mapM (Progress.expand o)).run w₁ = (.ok expanded, w₂) ∧
      ((expanded.mapM (Progress.complete o placeholder)).run w₂).1 =
        .ok (settled o placeholder d ns w) := by
  obtain ⟨started, w₁, hstart, hlength₁, hall₁⟩ := run_mapM_of_total (exists_run_start o d) ns w
  obtain ⟨expanded, w₂, hexpand, hlength₂, hall₂⟩ :=
    run_mapM_of_total (exists_run_expand o) started w₁
  obtain ⟨completed, w₃, hcomplete, hlength₃, hall₃⟩ :=
    run_mapM_of_total (exists_run_complete o placeholder) expanded w₂
  refine ⟨started, w₁, expanded, w₂, hstart, hexpand, ?_⟩
  rw [hcomplete]
  refine congrArg Except.ok (List.ext_getElem? fun i ↦ ?_)
  rw [settled, List.getElem?_mapIdx]
  cases hn : ns[i]? with
  | none =>
    rw [List.getElem?_eq_none_iff] at hn
    rw [Option.map_none, List.getElem?_eq_none_iff, hlength₃, hlength₂, hlength₁]
    exact hn
  | some n =>
    have hi : i < ns.length := (List.getElem?_eq_some_iff.mp hn).1
    have hq : started[i]? = some started[i] := List.getElem?_eq_getElem (hlength₁ ▸ hi)
    have hr : expanded[i]? = some expanded[i] :=
      List.getElem?_eq_getElem (hlength₂ ▸ hlength₁ ▸ hi)
    have hs : completed[i]? = some completed[i] :=
      List.getElem?_eq_getElem (hlength₃ ▸ hlength₂ ▸ hlength₁ ▸ hi)
    have hmade : madeIn o d ns w i = reached (Progress.expand o) started i w₁ := by
      rw [madeIn, run_bind_of_ok hstart]
      rfl
    have hshown : shownIn o placeholder d ns w i =
        reached (Progress.complete o placeholder) expanded i w₂ := by
      rw [shownIn, run_bind_of_ok hstart, run_bind_of_ok hexpand]
      rfl
    rw [hs, Option.map_some, contribution, hmade, hshown]
    exact congrArg some (eq_of_steps (hall₁ i _ _ hn hq) (hall₂ i _ _ hq hr) (hall₃ i _ _ hr hs))

/-! ## The text of a document -/

theorem run_mapM_singleton {α β : Type} {f : α → Job β} {a : α} {b : β}
    (h : (f a).run w = (.ok b, w₁)) : ([a].mapM f).run w = (.ok [b], w₁) := by
  rw [run_mapM_cons_of_ok h]
  rfl

/-- The images of a document are worked on up to its closing, and settled. -/
theorem run_worked_singleton [Codec] (o : Options) (placeholder : Placeholder) (d : Document)
    (ns : List Markup.Node) (w : Workspace) :
    ∃ page w', (worked o placeholder [(d, ns)]).run w = (.ok [page], w') ∧ page.document = d ∧
      page.progress = settled o placeholder d ns w ∧ page.IsTrue := by
  obtain ⟨started, w₁, expanded, w₂, hstart, hexpand, hcomplete⟩ := run_steps o placeholder d ns w
  by_cases hns : ns = []
  · subst hns
    have hedits : (Page.unchanged d).edits = [] := List.mergeSort_nil
    refine ⟨Page.unchanged d, w, rfl, rfl, rfl, ?_⟩
    rintro text ⟨⟩
    rw [hedits, Edit.spliced_nil]
    rfl
  have hpage : ([(d, ns)].mapM (Page.start o)).run w = (.ok [⟨d, started, none⟩], w₁) := by
    refine run_mapM_singleton ?_
    rw [Page.start, if_neg (by simpa using hns)]
    exact run_bind_of_ok hstart
  have hadvance : ([⟨d, started, none⟩].mapM (Page.advance (Progress.expand o))).run w₁ =
      (.ok [⟨d, expanded, none⟩], w₂) := run_mapM_singleton (run_bind_of_ok hexpand)
  rw [worked, run_bind_of_ok hpage, run_bind_of_ok hadvance]
  by_cases hopen : (Page.isPending ⟨d, expanded, none⟩ ||
      (Page.fault? ⟨d, expanded, none⟩).isSome) = true
  · have hclose : ([⟨d, expanded, none⟩].mapM Page.closeEarly).run w₂ =
        (.ok [⟨d, expanded, none⟩], w₂) := by
      refine run_mapM_singleton ?_
      rw [Page.closeEarly, if_pos hopen]
      rfl
    rw [run_bind_of_ok hclose]
    refine ⟨⟨d, settled o placeholder d ns w, none⟩, _,
      run_mapM_singleton (run_bind_of_ok (Prod.ext hcomplete rfl)), rfl, rfl, ?_⟩
    rintro text ⟨⟩
  · -- what is closed early is settled already
    have hpending : ∀ r ∈ expanded, r.isPending = false := by
      intro r hr
      rw [Bool.or_eq_true, not_or, Page.isPending] at hopen
      simpa using fun h ↦ hopen.1 (List.any_eq_true.mpr ⟨r, hr, h⟩)
    obtain rfl : expanded = settled o placeholder d ns w := by
      rw [(isStep_complete o placeholder).run_mapM hpending] at hcomplete
      exact Except.ok.inj hcomplete
    have htrue : Page.IsTrue ⟨d, settled o placeholder d ns w, none⟩ := by
      rintro text ⟨⟩
    obtain ⟨w₃, hclosed⟩ := run_close_of_isTrue htrue w₂
    have hearly : Page.closeEarly ⟨d, settled o placeholder d ns w, none⟩ =
        Page.close ⟨d, settled o placeholder d ns w, none⟩ := by
      rw [Page.closeEarly, if_neg hopen]
    rw [← hearly] at hclosed
    rw [run_bind_of_ok (run_mapM_singleton hclosed)]
    refine ⟨_, w₃, run_mapM_singleton
      (run_bind_of_ok ((isStep_complete o placeholder).run_mapM hpending w₃)), rfl, rfl, ?_⟩
    rintro text ⟨⟩
    rfl

/-- A document is given the text that the edits of its images make, unless a fault escapes. -/
theorem run_documents_singleton [Codec] (placeholder : Placeholder)
    (hcandidates : (Page.candidates o d).run w = (.ok ns, w₁)) :
    ((documents o placeholder [d]).run w).1 =
      match (settled o placeholder d ns w₁).findSome? Progress.fault? with
      | some f => .error f
      | none =>
        .ok [Edit.spliced d.text (Edit.sort (contributions o placeholder d ns w₁).flatten)] := by
  have hopen : ([d].mapM (Page.opened o)).run w = (.ok [(d, ns)], w₁) :=
    run_mapM_singleton (run_bind_of_ok hcandidates)
  obtain ⟨page, w₂, hworked, rfl, hprogress, htrue⟩ :=
    run_worked_singleton o placeholder d ns w₁
  have hcompleted : (completed o placeholder [page.document]).run w = (.ok [page], w₂) :=
    (run_bind_of_ok hopen).trans hworked
  have hfault : [page].findSome? Page.fault? = page.progress.findSome? Progress.fault? := by
    rw [List.findSome?_singleton]
    rfl
  have hedits : page.edits =
      Edit.sort (contributions o placeholder page.document ns w₁).flatten := by
    rw [Page.edits, List.flatMap_def, hprogress, map_edits_settled]
  rw [documents_eq, run_bind_of_ok hcompleted, hfault, hprogress]
  cases (settled o placeholder page.document ns w₁).findSome? Progress.fault? with
  | some f => rfl
  | none =>
    obtain ⟨w₃, hclose⟩ := run_close_of_isTrue htrue w₂
    dsimp only
    rw [run_bind_of_ok (run_mapM_singleton hclose), ← hedits]
    rfl

/-! ## What escapes -/

theorem run_resolve_cases (p : Path) (w : Workspace) :
    p.hasNul = true ∧ (resolve p).run w = (.error .embeddedNul, w) ∨
      p.hasNul = false ∧ (resolve p).run w = (.ok (p.resolve w.cwd), w) := by
  rw [resolve]
  cases p.hasNul with
  | true => exact .inl ⟨rfl, rfl⟩
  | false => exact .inr ⟨rfl, rfl⟩

/-- A source directory that is no path of a file. -/
def NamesNoPath (v : Value) : Prop := ∀ p, Options.path v = .ok p → p.hasNul = true

theorem run_inSourceTree_eq_error_iff (o : Options) (directory : Path) (w : Workspace) :
    (∃ f, ((Page.inSourceTree o directory).run w).1 = .error f) ↔ NamesNoPath o.sourceDir := by
  rw [Page.inSourceTree, NamesNoPath]
  cases hpath : Options.path o.sourceDir with
  | error f =>
    rw [run_bind_of_error (run_ofExcept_error _ _ _)]
    exact ⟨fun _ p hp ↦ (nomatch hp), fun _ ↦ ⟨_, rfl⟩⟩
  | ok p =>
    rw [run_bind_of_ok (run_ofExcept_ok _ _ _)]
    rcases run_resolve_cases p w with ⟨hnul, hrun⟩ | ⟨hnul, hrun⟩
    · rw [run_bind_of_error hrun]
      exact ⟨fun _ q hq ↦ Except.ok.inj hq ▸ hnul, fun _ ↦ ⟨_, rfl⟩⟩
    · rw [run_bind_of_ok hrun]
      refine ⟨fun ⟨f, hf⟩ ↦ ?_, fun h ↦ ?_⟩
      · split at hf <;> cases hf
      · rw [h p rfl] at hnul
        cases hnul

/-- The images of a document are known, unless its source directory is looked for and is no path. -/
theorem run_candidates_eq_error_iff (o : Options) (d : Document) (w : Workspace) :
    (∃ f, ((Page.candidates o d).run w).1 = .error f) ↔
      Markup.hasMarkers d.text o.tagName.text.toList = true ∧ NamesNoPath o.sourceDir := by
  rw [← run_inSourceTree_eq_error_iff o d.directory w, Page.candidates]
  cases hmarkers : Markup.hasMarkers d.text o.tagName.text.toList with
  | false => simp
  | true =>
    simp only [Bool.not_true, Bool.false_eq_true, if_false, true_and]
    cases hrun : (Page.inSourceTree o d.directory).run w with
    | mk r w₁ =>
      cases r with
      | error f =>
        rw [run_bind_of_error hrun]
        exact ⟨fun _ ↦ ⟨f, rfl⟩, fun _ ↦ ⟨f, rfl⟩⟩
      | ok b =>
        rw [run_bind_of_ok hrun]
        constructor
        · rintro ⟨f, hf⟩
          split at hf
          · cases hf
          · split at hf
            · cases hf
            · rename_i e _
              cases e <;> cases hf
        · rintro ⟨f, ⟨⟩⟩

/-- The directory of the file of a document as it is given, the working directory if there is no
file. -/
def givenDirectory : Option String → Path
  | none | some "" => .ofString "."
  | some file => (Path.ofString file).parent

theorem directoryOf_eq (file? : Option String) :
    directoryOf file? = resolve (givenDirectory file?) := by
  unfold directoryOf
  split
  · rfl
  · rfl
  · rename_i file hne
    rw [givenDirectory]
    exact hne

/-- A fault in rewriting a document that no guard catches: its directory or the source directory is
no path, or one of the images is misconfigured. -/
inductive Escapes (o : Options) (text : List Char) (file? : Option String) (w : Workspace) : Prop
  | directory (h : (givenDirectory file?).hasNul = true)
  | sourceDirectory (hmarkers : Markup.hasMarkers text o.tagName.text.toList = true)
      (h : NamesNoPath o.sourceDir)
  | extensions {directory : Path} {ns : List Markup.Node} {n : Markup.Node}
      (hdirectory : (directoryOf file?).run w = (.ok directory, w))
      (hns : ((Page.candidates o ⟨text, directory⟩).run w).1 = .ok ns) (hn : n ∈ ns)
      (h : Eligibility.IsMisconfigured n o)

theorem findSome?_settled_eq_some_iff [Codec] :
    (∃ f, (settled o placeholder d ns w).findSome? Progress.fault? = some f) ↔
      ∃ n ∈ ns, Eligibility.IsMisconfigured n o := by
  rw [← Option.isSome_iff_exists, List.isSome_findSome?, List.any_eq_true]
  have hsettled : ∀ q, q ∈ settled o placeholder d ns w ↔ ∃ i, ∃ h : i < ns.length,
      (match Eligibility.ofNode ns[i] o with
        | .error f => Progress.escaped f
        | .ok _ => .finished (contribution o placeholder d ns w i ns[i])) = q :=
    fun q ↦ List.mem_mapIdx
  constructor
  · rintro ⟨q, hq, hfault⟩
    obtain ⟨i, hi, rfl⟩ := (hsettled q).mp hq
    refine ⟨ns[i], List.getElem_mem hi, Eligibility.ofNode_eq_error_iff.mp ?_⟩
    cases heligible : Eligibility.ofNode ns[i] o with
    | error f => exact ⟨f, rfl⟩
    | ok e =>
      rw [heligible] at hfault
      cases hfault
  · rintro ⟨n, hn, hmisconfigured⟩
    obtain ⟨i, hi, rfl⟩ := List.mem_iff_getElem.mp hn
    obtain ⟨f, hf⟩ := Eligibility.ofNode_eq_error_iff.mpr hmisconfigured
    exact ⟨.escaped f, (hsettled _).mpr ⟨i, hi, by rw [hf]⟩, rfl⟩

theorem forall₂_isWhole [Codec] (o : Options) (placeholder : Placeholder) (d : Document)
    (ns : List Markup.Node) (w : Workspace) :
    List.Forall₂ (IsWhole o) ns (contributions o placeholder d ns w) := by
  rw [contributions, List.forall₂_iff_get]
  refine ⟨List.length_mapIdx.symm, fun i h₁ h₂ ↦ ?_⟩
  simp only [List.get_eq_getElem, List.getElem_mapIdx]
  exact isWhole_kept_work

/-- A document whose images are not known is not rewritten. -/
theorem run_documents_of_error [Codec] {f : Fault} (placeholder : Placeholder)
    (hcandidates : ((Page.candidates o d).run w).1 = .error f) :
    ((documents o placeholder [d]).run w).1 = .error f := by
  have hopened : (Page.opened o d).run w = (.error f, _) :=
    run_bind_of_error (Prod.ext hcandidates rfl)
  have hcompleted : (completed o placeholder [d]).run w =
      (.error f, ((Page.candidates o d).run w).2) := by
    rw [completed, List.mapM_cons]
    exact run_bind_of_error (run_bind_of_error hopened)
  rw [documents_eq, run_bind_of_error hcompleted]

/-- A document in a known directory is rewritten like any document. -/
theorem run_document_eq [Codec] {directory : Path} (placeholder : Placeholder) (text : List Char)
    {file? : Option String} (hdirectory : (directoryOf file?).run w = (.ok directory, w)) :
    ((document o placeholder text file?).run w).1 =
      ((documents o placeholder [⟨text, directory⟩]).run w).1.map fun texts ↦
        texts.head?.getD text := by
  rw [document, run_bind_of_ok hdirectory, run_bind]
  split
  · rename_i texts w₁ hrun
    rw [hrun]
    rfl
  · rename_i f w₁ hrun
    rw [hrun]
    rfl

/-- **Failures are isolated.**  A fault escapes the rewriting of a document exactly if one of the
settings that are looked at without a guard is no text or no path.  Otherwise the document is spliced
with the edits of the images whose work succeeds, unless they conflict; each image is given all that
it is to be given or nothing; and a document that cannot be parsed keeps its text. -/
theorem document_isolates [Codec] (o : Options) (placeholder : Placeholder) (text : List Char)
    (file? : Option String) (w : Workspace) :
    ((∃ f, ((document o placeholder text file?).run w).1 = .error f) ↔ Escapes o text file? w) ∧
      ∀ result, ((document o placeholder text file?).run w).1 = .ok result →
        ∃ directory ns w₁, (directoryOf file?).run w = (.ok directory, w) ∧
          (Page.candidates o ⟨text, directory⟩).run w = (.ok ns, w₁) ∧
          result = Edit.spliced text
            (Edit.sort (contributions o placeholder ⟨text, directory⟩ ns w₁).flatten) ∧
          List.Forall₂ (IsWhole o) ns (contributions o placeholder ⟨text, directory⟩ ns w₁) ∧
          ∀ e, Page.images text o.tagName = .error e → result = text := by
  rcases run_resolve_cases (givenDirectory file?) w with ⟨hnul, hresolve⟩ | ⟨hnul, hresolve⟩
  · have hdirectory := hresolve
    rw [← directoryOf_eq] at hdirectory
    rw [document, run_bind_of_error hdirectory]
    exact ⟨⟨fun _ ↦ .directory hnul, fun _ ↦ ⟨_, rfl⟩⟩, fun _ h ↦ (nomatch h)⟩
  · rw [← directoryOf_eq] at hresolve
    have hnotNul : (givenDirectory file?).hasNul ≠ true := by simp [hnul]
    -- the directory is known, so that what escapes has to do with the settings
    rw [run_document_eq placeholder text hresolve]
    cases hcandidates : (Page.candidates o ⟨text, (givenDirectory file?).resolve w.cwd⟩).run w with
    | mk r w₁ =>
      cases r with
      | error f =>
        have hsource := (run_candidates_eq_error_iff o _ w).mp ⟨f, congrArg Prod.fst hcandidates⟩
        rw [run_documents_of_error placeholder (congrArg Prod.fst hcandidates)]
        exact ⟨⟨fun _ ↦ .sourceDirectory hsource.1 hsource.2, fun _ ↦ ⟨_, rfl⟩⟩,
          fun _ h ↦ (nomatch h)⟩
      | ok ns =>
        have hescapes : Escapes o text file? w ↔ ∃ n ∈ ns, Eligibility.IsMisconfigured n o := by
          constructor
          · rintro (h | ⟨hmarkers, hsource⟩ | ⟨hdirectory, hns, hn, h⟩)
            · exact absurd h hnotNul
            · obtain ⟨f, hf⟩ := (run_candidates_eq_error_iff o
                ⟨text, (givenDirectory file?).resolve w.cwd⟩ w).mpr ⟨hmarkers, hsource⟩
              rw [hcandidates] at hf
              cases hf
            · cases hresolve.symm.trans hdirectory
              rw [hcandidates] at hns
              cases hns
              exact ⟨_, hn, h⟩
          · rintro ⟨n, hn, h⟩
            exact .extensions hresolve (congrArg Prod.fst hcandidates) hn h
        rw [run_documents_singleton placeholder hcandidates, hescapes,
          ← findSome?_settled_eq_some_iff]
        cases (settled o placeholder _ ns w₁).findSome? Progress.fault? with
        | some f => exact ⟨⟨fun _ ↦ ⟨f, rfl⟩, fun _ ↦ ⟨f, rfl⟩⟩, fun _ h ↦ (nomatch h)⟩
        | none =>
          refine ⟨⟨fun ⟨f, hf⟩ ↦ (nomatch hf), fun ⟨f, hf⟩ ↦ (nomatch hf)⟩, fun result hresult ↦ ?_⟩
          cases hresult
          refine ⟨_, ns, w₁, hresolve, hcandidates, rfl, forall₂_isWhole _ _ _ _ _, fun e he ↦ ?_⟩
          rcases images_eq_of_candidates hcandidates with rfl | himages
          · exact congrArg (Edit.spliced text) List.mergeSort_nil
          · rw [he] at himages
            cases himages

/-! ### An extension that is a number -/

/-- Options that allow image tags a number for an extension. -/
def numberedExtension : Options := { Options.defaults with imgTagExtensions := [.int 1] }

open scoped HeaderCodec in
/-- The options are accepted, and what is wrong with the only image of a document takes the document
down. -/
theorem document_isolates_numbered :
    Options.ofMapping [("imgTagExtensions", .array [.int 1])] = .ok numberedExtension ∧
      (∃ f, ((document numberedExtension (Placeholder.label .trace) "<img src='x.png'>".toList
        (some "src/a.svelte")).run { cwd := [] }).1 = .error f) ∧
      Escapes numberedExtension "<img src='x.png'>".toList (some "src/a.svelte") { cwd := [] } := by
  have hfails : ((document numberedExtension (Placeholder.label .trace) "<img src='x.png'>".toList
      (some "src/a.svelte")).run { cwd := [] }).1.toOption = none := by decide +kernel
  have herror := exists_eq_error_of_toOption hfails
  exact ⟨rfl, herror, (document_isolates _ _ _ _ _).1.mp herror⟩

end Rewrite

end ResponsiveImage
