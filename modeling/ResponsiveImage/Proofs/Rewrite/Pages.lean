import ResponsiveImage.Proofs.Edit.WriteOut
import ResponsiveImage.Proofs.Rewrite.Histories

/-!
# What becomes of pages

Documents that are rewritten together go through the steps of the rewriting side by side.  Whatever
fails on the way, every image of a page is given all that it is to be given or nothing at all
(`IsWhole`), a page that has been closed is not worked on any more, and its text is the one that its
edits make (`run_documents_eq_ok`).
-/

namespace ResponsiveImage

open Job
open Json (Value)

namespace Edit

/-- A text with some edits made, or as it is if they conflict. -/
def spliced (text : List Char) (es : List Edit) : List Char :=
  match conflict? text es with
  | none => writeOut text es
  | some _ => text

theorem spliced_nil (text : List Char) : spliced text [] = text := rfl

theorem applyAll_eq_spliced (text : List Char) (es : List Edit) :
    (∃ e, applyAll text es = .error e ∧ spliced text es = text) ∨
      applyAll text es = .ok (spliced text es) := by
  rw [applyAll, spliced]
  cases hconflict : conflict? text es with
  | some e => exact .inl ⟨e, rfl, rfl⟩
  | none =>
    have horder : InOrder text.length 0 es := conflictFrom_eq_none_iff.mp hconflict
    exact .inr (congrArg Except.ok (spliceFrom_eq_writeOut horder))

end Edit

namespace Rewrite

variable {o : Options} {placeholder : Placeholder} {w w₁ w₂ w₃ : Workspace} {d : Document}
  {n : Markup.Node} {ns : List Markup.Node}

/-! ## What an image is given -/

/-- All that an image is given, or nothing: the source of an image tag gives way to a URL; that of a
component to what is shown in its place, and the attributes of its variants are put behind it. -/
inductive IsWhole (o : Options) (n : Markup.Node) : List Edit → Prop
  | nothing : IsWhole o n []
  | tag {extensions : List Value} {span : SourceSpan} {uri : List Char}
      (hrole : Eligibility.ofNode n o = .ok (.eligible .tag extensions))
      (hspan : Progress.spanOf n = .ok span) : IsWhole o n [⟨span.start, span.stop, uri⟩]
  | component {extensions : List Value} {span : SourceSpan} {shown extra : List Char}
      (hrole : Eligibility.ofNode n o = .ok (.eligible .component extensions))
      (hspan : Progress.spanOf n = .ok span) :
      IsWhole o n [⟨span.start, span.stop, shown⟩, ⟨span.attributeStop, span.attributeStop, extra⟩]

/-- How far an image is that has been resolved. -/
inductive Resolved (n : Markup.Node) : Role → Progress → Prop
  | skipped {role : Role} : Resolved n role (.finished [])
  | tag {span : SourceSpan} {uri : List Char} (hspan : Progress.spanOf n = .ok span) :
      Resolved n .tag (.finished [⟨span.start, span.stop, uri⟩])
  | component {c : Component} (hspan : Progress.spanOf n = .ok c.span) :
      Resolved n .component (.awaiting c)

theorem resolved_of_run [Codec] {role : Role} {extensions : List Value} {q : Progress}
    (h : ((Progress.resolve o d n role extensions).run w).1 = .ok q) : Resolved n role q := by
  have hrun : (Progress.resolve o d n role extensions).run w =
      (.ok q, ((Progress.resolve o d n role extensions).run w).2) := Prod.ext h rfl
  rw [Progress.resolve, run_bind_eq_ok] at hrun
  obtain ⟨decision, w₁, -, hrun⟩ := hrun
  cases decision with
  | skip reason detail =>
    dsimp only at hrun
    rw [run_bind_eq_ok] at hrun
    obtain ⟨u, w₂, -, hrun⟩ := hrun
    cases hrun
    exact .skipped
  | process plan =>
    dsimp only at hrun
    cases hspan : Progress.spanOf n with
    | error f =>
      rw [hspan, run_bind_of_error (run_ofExcept_error _ _ _)] at hrun
      cases hrun
    | ok span =>
      rw [hspan, run_bind_of_ok (run_ofExcept_ok _ _ _)] at hrun
      cases role with
      | tag =>
        dsimp only at hrun
        rw [Progress.ofTag, run_bind_eq_ok] at hrun
        obtain ⟨uri, w₂, -, hrun⟩ := hrun
        cases hrun
        exact .tag hspan
      | component =>
        dsimp only at hrun
        rw [Progress.ofComponent, run_bind_eq_ok] at hrun
        obtain ⟨h, w₂, -, hrun⟩ := hrun
        dsimp only at hrun
        rw [run_bind_eq_ok] at hrun
        obtain ⟨u, w₃, -, hrun⟩ := hrun
        split at hrun
        · rw [run_bind_of_error (run_throw _ _)] at hrun
          cases hrun
        · cases hrun
          exact .component hspan

/-- What fails is logged, and the image is finished without edits. -/
theorem run_orLogged (label : NodeLabel) (t : Job Progress) (w : Workspace) :
    ((Progress.orLogged label t).run w).1 =
      .ok (match (t.run w).1 with
        | .ok q => q
        | .error _ => .finished []) := by
  rw [Progress.orLogged, run_bind_of_ok (run_attempt _ _)]
  cases hrun : (t.run w).1 with
  | ok q => rfl
  | error f =>
    obtain ⟨w', hlog⟩ := run_logFault label f (t.run w).2
    dsimp only
    rw [run_bind_of_ok hlog]
    rfl

/-! ## Closing -/

/-- A page is given the text that its edits make, unless they conflict. -/
theorem run_finalText (p : Page) (w : Workspace) :
    ∃ w', p.finalText.run w = (.ok (Edit.spliced p.document.text p.edits), w') := by
  rw [Page.finalText]
  dsimp only
  split
  · rename_i hnil
    rw [List.isEmpty_iff.mp hnil]
    exact ⟨w, rfl⟩
  · rcases Edit.applyAll_eq_spliced p.document.text p.edits with ⟨e, happly, hsame⟩ | happly
    · rw [happly, hsame]
      exact ⟨_, rfl⟩
    · rw [happly]
      exact ⟨_, rfl⟩

/-- A page whose text, if it is known, is the one that its edits make. -/
def Page.IsTrue (p : Page) : Prop :=
  ∀ text, p.result? = some text → text = Edit.spliced p.document.text p.edits

/-- Closing a page gives it the text that its edits make. -/
theorem run_close_of_isTrue {p : Page} (h : p.IsTrue) (w : Workspace) :
    ∃ w', p.close.run w =
      (.ok { p with result? := some (Edit.spliced p.document.text p.edits) }, w') := by
  obtain ⟨d, progress, result?⟩ := p
  cases result? with
  | some text =>
    refine ⟨w, ?_⟩
    rw [← h text rfl]
    rfl
  | none =>
    obtain ⟨w', hfinal⟩ := run_finalText ⟨d, progress, none⟩ w
    exact ⟨w', run_bind_of_ok hfinal⟩

/-! ## Images -/

/-- The images that are worked on are those of the document, if there are any. -/
theorem images_eq_of_candidates (h : (Page.candidates o d).run w = (.ok ns, w₁)) :
    ns = [] ∨ Page.images d.text o.tagName = .ok ns := by
  rw [Page.candidates] at h
  split at h
  · cases h
    exact .inl rfl
  · rw [run_bind_eq_ok] at h
    obtain ⟨b, w₂, -, h⟩ := h
    split at h
    · cases h
      exact .inl rfl
    · cases himages : Page.images d.text o.tagName with
      | ok nodes =>
        rw [himages] at h
        cases h
        exact .inr rfl
      | error e =>
        rw [himages, run_bind_eq_ok] at h
        obtain ⟨u, w₃, -, h⟩ := h
        cases h
        exact .inl rfl

/-! ## Images on their way -/

/-- How far an image may be: what it is given is whole, and of a component that is not finished the
span of its source is known. -/
inductive Progress.IsOf (o : Options) (n : Markup.Node) : Progress → Prop
  | finished {es : List Edit} (h : IsWhole o n es) : IsOf o n (.finished es)
  | awaiting {extensions : List Value} {c : Component}
      (hrole : Eligibility.ofNode n o = .ok (.eligible .component extensions))
      (hspan : Progress.spanOf n = .ok c.span) : IsOf o n (.awaiting c)
  | made {extensions : List Value} {c : Component} {outcome : Except Fault (List Variant)}
      (hrole : Eligibility.ofNode n o = .ok (.eligible .component extensions))
      (hspan : Progress.spanOf n = .ok c.span) : IsOf o n (.made c outcome)
  | escaped {f : Fault} : IsOf o n (.escaped f)

theorem Progress.IsOf.isWhole {q : Progress} (h : q.IsOf o n) : IsWhole o n q.edits := by
  cases h with
  | finished h => exact h
  | awaiting => exact .nothing
  | made => exact .nothing
  | escaped => exact .nothing

theorem isOf_start [Codec] {q : Progress}
    (h : ((Progress.start o d n).run w).1 = .ok q) : q.IsOf o n := by
  rw [Progress.start_eq, Progress.started] at h
  cases heligible : Eligibility.ofNode n o with
  | error f =>
    rw [heligible] at h
    cases h
    exact .escaped
  | ok eligibility =>
    rw [heligible] at h
    cases eligibility with
    | ineligible reason =>
      cases h
      exact .finished .nothing
    | eligible role extensions =>
      dsimp only at h
      rw [run_orLogged] at h
      cases hresolve : ((Progress.resolve o d n role extensions).run w).1 with
      | error f =>
        rw [hresolve] at h
        cases h
        exact .finished .nothing
      | ok r =>
        rw [hresolve] at h
        obtain rfl : r = q := Except.ok.inj h
        cases resolved_of_run hresolve with
        | skipped => exact .finished .nothing
        | tag hspan => exact .finished (.tag heligible hspan)
        | component hspan => exact .awaiting heligible hspan

theorem isOf_expand [Codec] {q r : Progress} (hq : q.IsOf o n)
    (h : ((Progress.expand o q).run w).1 = .ok r) : r.IsOf o n := by
  cases hq with
  | awaiting hrole hspan =>
    cases h
    exact .made hrole hspan
  | finished hes =>
    cases h
    exact .finished hes
  | made hrole hspan =>
    cases h
    exact .made hrole hspan
  | escaped =>
    cases h
    exact .escaped

theorem isOf_complete {q r : Progress} (hq : q.IsOf o n)
    (h : ((Progress.complete o placeholder q).run w).1 = .ok r) : r.IsOf o n := by
  cases hq with
  | awaiting hrole hspan =>
    cases h
    exact .awaiting hrole hspan
  | finished hes =>
    cases h
    exact .finished hes
  | escaped =>
    cases h
    exact .escaped
  | @made extensions c outcome hrole hspan =>
    rw [Progress.complete, run_orLogged] at h
    obtain rfl := Except.ok.inj h
    split
    · rename_i q' hq'
      -- nothing but the edits of the component is ever made of it
      obtain ⟨variants, w₁, -, hrun⟩ := run_bind_eq_ok.mp (Prod.ext hq' rfl)
      rw [run_bind_eq_ok] at hrun
      obtain ⟨es, w₂, hes, hrun⟩ := hrun
      cases hrun
      obtain ⟨-, shown, extension, extra, -, -, -, rfl⟩ :=
        run_componentEdits_eq_ok_iff.mp (congrArg Prod.fst hes)
      exact .finished (.component hrole hspan)
    · exact .finished .nothing

/-- A step of the work on images that leaves alone what is not pending, and keeps the images what they
are. -/
structure IsStep (o : Options) (step : Progress → Job Progress) : Prop where
  settled : ∀ q w, q.isPending = false → (step q).run w = (.ok q, w)
  isOf : ∀ {n q r w}, Progress.IsOf o n q → ((step q).run w).1 = .ok r → Progress.IsOf o n r

theorem isStep_expand [Codec] (o : Options) : IsStep o (Progress.expand o) := by
  refine ⟨fun q w hq ↦ ?_, isOf_expand⟩
  cases q with
  | awaiting c => cases hq
  | made c outcome => cases hq
  | finished es => rfl
  | escaped f => rfl

theorem isStep_complete (o : Options) (placeholder : Placeholder) :
    IsStep o (Progress.complete o placeholder) := by
  refine ⟨fun q w hq ↦ ?_, isOf_complete⟩
  cases q with
  | awaiting c => cases hq
  | made c outcome => cases hq
  | finished es => rfl
  | escaped f => rfl

theorem IsStep.run_mapM {step : Progress → Job Progress} (hstep : IsStep o step)
    {qs : List Progress} (h : ∀ q ∈ qs, q.isPending = false) (w : Workspace) :
    (qs.mapM step).run w = (.ok qs, w) := by
  induction qs with
  | nil => rfl
  | cons q qs ih =>
    obtain ⟨hq, hqs⟩ := List.forall_mem_cons.mp h
    rw [run_mapM_cons_of_ok (hstep.settled q w hq), ih hqs]
    rfl

/-! ## Pages on their way -/

/-- A page of an opened document, on its way: its images are those of the document, and once it is
closed nothing is left to do for them and it has the text that its edits make. -/
structure Page.IsOf (o : Options) (p : Opened) (page : Page) : Prop where
  document : page.document = p.1
  progress : List.Forall₂ (Progress.IsOf o) p.2 page.progress
  isTrue : page.IsTrue
  settled : page.result? ≠ none → ∀ q ∈ page.progress, q.isPending = false

/-- Nothing is asked of the workspace. -/
abbrev Anywhere : Workspace → Prop := fun _ ↦ True

theorem ensures_anywhere {α : Type} {t : Job α} {Q : α → Prop}
    (h : ∀ w a, (t.run w).1 = .ok a → Q a) : Ensures Anywhere t Q :=
  fun w _ ↦ ⟨trivial, h w⟩

theorem ensures_pageStart [Codec] (p : Page.Opened) :
    Ensures Anywhere (Page.start o p) (Page.IsOf o p) := by
  obtain ⟨d, ns⟩ := p
  rw [Page.start]
  split
  · rename_i hnil
    obtain rfl := List.isEmpty_iff.mp hnil
    refine ensures_pure ⟨rfl, .nil, ?_, ?_⟩
    · rintro text ⟨⟩
      exact (congrArg (Edit.spliced d.text) List.mergeSort_nil).symm
    · rintro _ q ⟨⟩
  · have hstart : Ensures Anywhere (ns.mapM (Progress.start o d))
        (List.Forall₂ (Progress.IsOf o) ns) :=
      ensures_mapM fun n _ ↦ ensures_anywhere fun w q hq ↦ isOf_start hq
    refine hstart.bind fun qs hqs ↦ ensures_pure ⟨rfl, hqs, ?_, fun h ↦ absurd rfl h⟩
    rintro text ⟨⟩

theorem forall₂_of_forall₂ {α β γ : Type} {R : α → β → Prop} {S : β → γ → Prop} {T : α → γ → Prop}
    (h : ∀ a b c, R a b → S b c → T a c) {as : List α} {bs : List β} {cs : List γ}
    (hR : List.Forall₂ R as bs) (hS : List.Forall₂ S bs cs) : List.Forall₂ T as cs := by
  induction hR generalizing cs with
  | nil =>
    cases hS
    exact .nil
  | cons hab _ ih =>
    cases hS with
    | cons hbc hS => exact .cons (h _ _ _ hab hbc) (ih hS)

theorem ensures_pageAdvance {step : Progress → Job Progress} (hstep : IsStep o step)
    {p : Page.Opened} {page : Page} (h : page.IsOf o p) :
    Ensures Anywhere (Page.advance step page) (Page.IsOf o p) := by
  by_cases hresult : page.result? = none
  · have hqs : Ensures Anywhere (page.progress.mapM step)
        (List.Forall₂ (fun q r ↦ ∀ n, Progress.IsOf o n q → Progress.IsOf o n r) page.progress) :=
      ensures_mapM fun q _ ↦ ensures_anywhere fun w r hr n hq ↦ hstep.isOf hq hr
    refine hqs.bind fun rs hrs ↦ ensures_pure ⟨h.document, ?_, ?_, ?_⟩
    · exact forall₂_of_forall₂ (fun n q r hq hr ↦ hr n hq) h.progress hrs
    · intro text htext
      rw [hresult] at htext
      cases htext
    · exact fun hne ↦ absurd hresult hne
  · refine ensures_anywhere fun w page' hpage' ↦ ?_
    rw [Page.advance, run_bind_of_ok (hstep.run_mapM (h.settled hresult) w)] at hpage'
    cases hpage'
    exact h

theorem ensures_pageCloseEarly {p : Page.Opened} {page : Page} (h : page.IsOf o p) :
    Ensures Anywhere page.closeEarly (Page.IsOf o p) := by
  rw [Page.closeEarly]
  split
  · exact ensures_pure h
  · rename_i hopen
    refine ensures_anywhere fun w page' hpage' ↦ ?_
    obtain ⟨w', hclose⟩ := run_close_of_isTrue h.isTrue w
    rw [hclose] at hpage'
    cases hpage'
    refine ⟨h.document, h.progress, ?_, fun _ q hq ↦ ?_⟩
    · rintro text ⟨⟩
      rfl
    · rw [Bool.or_eq_true, not_or, Page.isPending, List.any_eq_true] at hopen
      simpa using fun hpending ↦ hopen.1 ⟨q, hq, hpending⟩

/-- What is done to each page of some documents keeps them the pages of these documents. -/
theorem ensures_mapM_pages {f : Page → Job Page}
    (hf : ∀ p page, Page.IsOf o p page → Ensures Anywhere (f page) (Page.IsOf o p))
    {ps : List Page.Opened} {pages : List Page} (h : List.Forall₂ (Page.IsOf o) ps pages) :
    Ensures Anywhere (pages.mapM f) (List.Forall₂ (Page.IsOf o) ps) := by
  have hpages : Ensures Anywhere (pages.mapM f)
      (List.Forall₂ (fun page page' ↦ ∀ p, Page.IsOf o p page → Page.IsOf o p page') pages) :=
    ensures_mapM fun page _ ↦ ensures_anywhere fun w page' hpage' p hp ↦
      (hf p page hp w trivial).2 page' hpage'
  exact fun w hw ↦ ⟨trivial, fun pages' hpages' ↦
    forall₂_of_forall₂ (fun p page page' hp hstep ↦ hstep p hp) h
      ((hpages w hw).2 pages' hpages')⟩

/-- Opened documents come to pages of theirs. -/
theorem ensures_worked [Codec] (ps : List Page.Opened) :
    Ensures Anywhere (worked o placeholder ps) (List.Forall₂ (Page.IsOf o) ps) := by
  rw [worked]
  refine (ensures_mapM fun p _ ↦ ensures_pageStart p).bind fun started hstarted ↦ ?_
  refine (ensures_mapM_pages (fun p page hp ↦ ensures_pageAdvance (isStep_expand o) hp)
    hstarted).bind fun expanded hexpanded ↦ ?_
  refine (ensures_mapM_pages (fun p page hp ↦ ensures_pageCloseEarly hp)
    hexpanded).bind fun closed hclosed ↦ ?_
  exact ensures_mapM_pages (fun p page hp ↦ ensures_pageAdvance (isStep_complete o placeholder) hp)
    hclosed

/-- A page of a document, with its images if it is worked on. -/
structure Page.Treats (o : Options) (d : Document) (ns : List Markup.Node) (page : Page) : Prop where
  images : ns = [] ∨ Page.images d.text o.tagName = .ok ns
  isOf : page.IsOf o (d, ns)

/-- The images of a page that is opened are none or all those of its document. -/
theorem ensures_openedImages (ds : List Document) :
    Ensures Anywhere (ds.mapM (Page.opened o))
      (List.Forall₂ (fun d p ↦ p.1 = d ∧ (p.2 = [] ∨ Page.images d.text o.tagName = .ok p.2)) ds) := by
  refine ensures_mapM fun d _ ↦ ensures_anywhere fun w p hp ↦ ?_
  cases hrun : (Page.candidates o d).run w with
  | mk r w₁ =>
    cases r with
    | error f =>
      rw [Page.opened, run_bind_of_error hrun] at hp
      cases hp
    | ok ns =>
      rw [Page.opened, run_bind_of_ok hrun] at hp
      cases hp
      exact ⟨rfl, images_eq_of_candidates hrun⟩

/-- Documents come to pages of theirs. -/
theorem ensures_completed [Codec] (ds : List Document) :
    Ensures Anywhere (completed o placeholder ds)
      (List.Forall₂ (fun d page ↦ ∃ ns, Page.Treats o d ns page) ds) := by
  rw [completed]
  refine (ensures_openedImages ds).bind fun ps hps w hw ↦ ⟨trivial, fun pages hpages ↦ ?_⟩
  refine forall₂_of_forall₂ ?_ hps ((ensures_worked ps w hw).2 pages hpages)
  rintro d ⟨_, ns⟩ page ⟨rfl, himages⟩ hpage
  exact ⟨ns, himages, hpage⟩

/-- The text that the edits of a page make. -/
def Page.text (p : Page) : List Char := Edit.spliced p.document.text p.edits

theorem run_mapM_close {pages : List Page} (h : ∀ p ∈ pages, p.IsTrue) (w : Workspace) :
    ∃ w', (pages.mapM Page.close).run w =
      (.ok (pages.map fun p ↦ { p with result? := some p.text }), w') := by
  induction pages generalizing w with
  | nil => exact ⟨w, rfl⟩
  | cons p pages ih =>
    obtain ⟨hp, hpages⟩ := List.forall_mem_cons.mp h
    obtain ⟨w₁, hclose⟩ := run_close_of_isTrue hp w
    obtain ⟨w₂, hrest⟩ := ih hpages w₁
    refine ⟨w₂, ?_⟩
    rw [run_mapM_cons_of_ok hclose, hrest]
    rfl

/-- Every document that is rewritten comes to a page of its own, and is given the text of it. -/
theorem run_documents_eq_ok [Codec] {ds : List Document} {texts : List (List Char)} {w' : Workspace}
    (h : (documents o placeholder ds).run w = (.ok texts, w')) :
    ∃ pages w₁, (completed o placeholder ds).run w = (.ok pages, w₁) ∧
      List.Forall₂ (fun d page ↦ ∃ ns, Page.Treats o d ns page) ds pages ∧
      texts = pages.map Page.text := by
  rw [documents_eq, run_bind_eq_ok] at h
  obtain ⟨pages, w₁, hcompleted, h⟩ := h
  have htreats := (ensures_of_run trivial (ensures_completed ds) hcompleted).2
  refine ⟨pages, w₁, hcompleted, htreats, ?_⟩
  have htrue : ∀ p ∈ pages, p.IsTrue := by
    intro p hp
    obtain ⟨i, hi, rfl⟩ := List.mem_iff_getElem.mp hp
    obtain ⟨ns, hns⟩ := htreats.get (htreats.length_eq ▸ hi) hi
    exact hns.isOf.isTrue
  split at h
  · cases h
  · obtain ⟨w₂, hclose⟩ := run_mapM_close htrue w₁
    rw [run_bind_of_ok hclose] at h
    cases h
    exact List.map_map

end Rewrite

end ResponsiveImage
