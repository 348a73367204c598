import ResponsiveImage.Picture.HeaderCodec
import ResponsiveImage.Proofs.Edit.Collisions
import ResponsiveImage.Proofs.Markup.Spans
import ResponsiveImage.Proofs.Rewrite.Closing
import ResponsiveImage.Proofs.Rewrite.Isolation

/-!
# Images in each other's way

What an image is given goes where its source stands, which is inside its tag.  The edits of a document
conflict exactly if two of its images clash, that is, if an edit of one collides with an edit of the
other (`conflict?_edits_eq_none_iff`).  Of two images that clash the later one begins before the source
of the earlier one ends: what is an attribute to the reader of start tags was markup to the tokenizer,
for which that tag had ended before.
-/

namespace ResponsiveImage.Rewrite

open Job

variable {o : Options} {placeholder : Placeholder} {d : Document} {m n : Markup.Node}
  {es fs : List Edit} {length : Nat}

/-! ## Where an image is edited -/

/-- Two images that are in each other's way: some edit of one and some edit of the other cannot both be
made. -/
def Progress.Clashes (q r : Progress) : Prop := ∃ e ∈ q.edits, ∃ f ∈ r.edits, e.Collides f

/-- A span of a source that lies in the tag of a node. -/
structure SourceSpan.LiesIn (s : SourceSpan) (n : Markup.Node) : Prop where
  lt_start : n.start < s.start
  start_le_stop : s.start ≤ s.stop
  stop_le : s.stop ≤ s.attributeStop
  attributeStop_lt : s.attributeStop < n.stop

theorem liesIn_of_spanOf {span : SourceSpan} (hn : n.Spans length)
    (h : Progress.spanOf n = .ok span) : span.LiesIn n := by
  rw [Progress.spanOf] at h
  split at h
  · rename_i text start stop attributeStart attributeStop hattribute
    cases h
    have ha := hn.liesIn _ (List.mem_of_find?_eq_some hattribute)
    obtain ⟨hstart, hle, hstop⟩ := ha.value text start stop rfl
    have hlow := ha.low_le
    have hhigh := ha.stop_le
    have hopen := hn.start_lt_stop
    dsimp only at hlow hhigh hstart hstop
    exact ⟨by dsimp only; omega, hle, hstop, by dsimp only; omega⟩
  · cases h

/-- The edits of an image lie between the start of its source and the end of that attribute. -/
theorem IsWhole.bounds (h : IsWhole o n es) (hn : n.Spans length) {e : Edit} (he : e ∈ es) :
    ∃ span, Progress.spanOf n = .ok span ∧ span.LiesIn n ∧ (span.start : Int) ≤ e.start ∧
      e.start ≤ e.stop ∧ e.stop ≤ span.attributeStop := by
  cases h with
  | nothing => cases he
  | tag hrole hspan =>
    have hlies := liesIn_of_spanOf hn hspan
    have hle := hlies.start_le_stop
    have hstop := hlies.stop_le
    obtain rfl := List.mem_singleton.mp he
    exact ⟨_, hspan, hlies, Int.le_refl _, by dsimp only; omega, by dsimp only; omega⟩
  | component hrole hspan =>
    have hlies := liesIn_of_spanOf hn hspan
    have hle := hlies.start_le_stop
    have hstop := hlies.stop_le
    rcases List.mem_pair.mp he with rfl | rfl
    · exact ⟨_, hspan, hlies, Int.le_refl _, by dsimp only; omega, by dsimp only; omega⟩
    · exact ⟨_, hspan, hlies, by dsimp only; omega, Int.le_refl _, Int.le_refl _⟩

theorem IsWhole.fits (h : IsWhole o n es) (hn : n.Spans length) : ∀ e ∈ es, e.Fits length := by
  intro e he
  obtain ⟨span, -, hlies, hstart, hle, hstop⟩ := h.bounds hn he
  have hlt := hlies.attributeStop_lt
  have hlength := hn.stop_le
  exact ⟨by omega, hle, by omega⟩

/-- What one image is given does not collide. -/
theorem IsWhole.pairwise (h : IsWhole o n es) (hn : n.Spans length) :
    es.Pairwise fun e f ↦ ¬ e.Collides f := by
  cases h with
  | nothing => exact .nil
  | tag hrole hspan => exact List.pairwise_singleton _ _
  | component hrole hspan =>
    have hstop := (liesIn_of_spanOf hn hspan).stop_le
    refine List.pairwise_pair.mpr fun hcollides ↦ ?_
    have hlt : (_ : Int) < _ := hcollides.2
    dsimp only at hlt
    omega

/-- An image that begins behind another and collides with it begins before the source of that one
ends. -/
theorem start_lt_of_collides (hm : m.Spans length) (hn : n.Spans length)
    (hes : IsWhole o m es) (hfs : IsWhole o n fs) {e f : Edit} (he : e ∈ es) (hf : f ∈ fs)
    (h : e.Collides f) :
    ∃ span, Progress.spanOf m = .ok span ∧ n.start < span.attributeStop := by
  obtain ⟨span, hspan, -, -, -, hstop⟩ := hes.bounds hm he
  obtain ⟨span', -, hlies, hstart, -, -⟩ := hfs.bounds hn hf
  have hlow := hlies.lt_start
  have hlt := h.2
  exact ⟨span, hspan, by omega⟩

/-! ## The edits of a document -/

/-- The images that a page treats lie in the text of its document, one beginning behind the other. -/
theorem Page.Treats.spans {ns : List Markup.Node} {page : Page} (h : Page.Treats o d ns page) :
    (∀ n ∈ ns, n.Spans d.text.length) ∧ ns.Pairwise fun m n ↦ m.start < n.start := by
  rcases h.images with rfl | himages
  · exact ⟨fun n hn ↦ (nomatch hn), .nil⟩
  · rw [Page.images.eq_def] at himages
    split at himages
    · split at himages
      · rename_i root hroot
        cases himages
        exact Markup.spans_candidates hroot
      · cases himages
    · split at himages <;> cases himages

/-- **The edits of a document conflict exactly if two of its images clash**, the later of which then
begins before the source of the earlier one ends. -/
theorem conflict?_edits_eq_none_iff [Codec] {ds : List Document} {pages : List Page} {w w' : Workspace}
    (hrun : (completed o placeholder ds).run w = (.ok pages, w')) :
    List.Forall₂ (fun d page ↦ ∃ ns, Page.Treats o d ns page ∧
      (Edit.conflict? d.text page.edits = none ↔
        page.progress.Pairwise fun q r ↦ ¬ q.Clashes r) ∧
      (ns.zip page.progress).Pairwise fun a b ↦ a.1.start < b.1.start ∧ (a.2.Clashes b.2 →
        ∃ span, Progress.spanOf a.1 = .ok span ∧ b.1.start < span.attributeStop)) ds pages := by
  refine ((ensures_of_run trivial (ensures_completed ds) hrun).2).imp ?_
  rintro d page ⟨ns, htreats⟩
  obtain ⟨hspans, hstarts⟩ := htreats.spans
  have hlength : ns.length = page.progress.length := htreats.isOf.progress.length_eq
  have hwhole : ∀ a ∈ ns.zip page.progress, a.1.Spans d.text.length ∧ IsWhole o a.1 a.2.edits := by
    rintro ⟨n, q⟩ hnq
    exact ⟨hspans n (List.of_mem_zip hnq).1,
      (List.forall₂_iff_zip.mp htreats.isOf.progress).2 hnq |>.isWhole⟩
  have hprogress : ∀ q ∈ page.progress, ∃ n, (n, q) ∈ ns.zip page.progress := by
    intro q hq
    obtain ⟨i, hi, rfl⟩ := List.mem_iff_getElem.mp hq
    have hi' : i < ns.length := hlength ▸ hi
    have hzip : i < (ns.zip page.progress).length := by
      rw [List.length_zip]
      exact Nat.lt_min.mpr ⟨hi', hi⟩
    exact ⟨ns[i], List.mem_iff_getElem.mpr ⟨i, hzip, List.getElem_zip⟩⟩
  refine ⟨ns, htreats, ?_, ?_⟩
  · have hfits : ∀ e ∈ page.progress.flatMap (·.edits), e.Fits d.text.length := by
      intro e he
      obtain ⟨q, hq, he⟩ := List.mem_flatMap.mp he
      obtain ⟨n, hnq⟩ := hprogress q hq
      exact (hwhole _ hnq).2.fits (hwhole _ hnq).1 e he
    rw [Page.edits, Edit.conflict?_sort_eq_none_iff hfits, List.pairwise_flatMap]
    constructor
    · rintro ⟨-, hacross⟩
      refine hacross.imp ?_
      rintro q r h ⟨e, he, f, hf, hcollides⟩
      exact h e he f hf hcollides
    · intro hacross
      refine ⟨fun q hq ↦ ?_, hacross.imp fun h e he f hf hcollides ↦ h ⟨e, he, f, hf, hcollides⟩⟩
      obtain ⟨n, hnq⟩ := hprogress q hq
      exact (hwhole _ hnq).2.pairwise (hwhole _ hnq).1
  · have hzip : (ns.zip page.progress).Pairwise fun a b ↦ a.1.start < b.1.start := by
      rw [← List.map_fst_zip (Nat.le_of_eq hlength), List.pairwise_map] at hstarts
      exact hstarts
    refine hzip.imp_of_mem fun {a b} ha hb hlt ↦ ⟨hlt, ?_⟩
    rintro ⟨e, he, f, hf, hcollides⟩
    obtain ⟨hspans₁, hwhole₁⟩ := hwhole a ha
    obtain ⟨hspans₂, hwhole₂⟩ := hwhole b hb
    exact start_lt_of_collides hspans₁ hspans₂ hwhole₁ hwhole₂ he hf hcollides

/-! ### A tag in the source of another -/

open scoped HeaderCodec

/-- A source directory with two pictures, the name of one of which is a tag that shows the other. -/
def nestedFiles : Workspace where
  cwd := []
  files := ⟨[(["src"], .directory),
    (["src", "x.png"], .file (HeaderCodec.file ⟨"PNG", 10, 10⟩)),
    (["src", "<img src=\"x.png\">.png"], .file (HeaderCodec.file ⟨"PNG", 10, 10⟩))]⟩

/-- A tag that shows the second picture, behind an expression with a bracket in it. -/
def nestedDocument : Document :=
  ⟨"<img alt={a > b} src='<img src=\"x.png\">.png'>".toList, .ofParts ["src"]⟩

/-- Options with which no picture is put into the text. -/
def linkingOptions : Options := { Options.defaults with inlineBelow := .int 0 }

def nestedImages : List Markup.Node := Markup.imagesOf nestedDocument.text "Image".toList

/-- What the outer and the inner tag are given. -/
theorem contributions_nested :
    contributions linkingOptions (Placeholder.label .trace) nestedDocument nestedImages nestedFiles =
      [[⟨22, 43, "g/<img src=\"x.png\">.png".toList⟩], [⟨32, 37, "g/x.png".toList⟩]] := by
  decide +kernel

/-- Both tags are images of the document, and their edits conflict. -/
theorem conflict?_edits_nested :
    ∃ page w', (completed linkingOptions (Placeholder.label .trace) [nestedDocument]).run
        nestedFiles = (.ok [page], w') ∧ Edit.conflict? nestedDocument.text page.edits ≠ none := by
  have hopened : ([nestedDocument].mapM (Page.opened linkingOptions)).run nestedFiles =
      (.ok [(nestedDocument, nestedImages)], nestedFiles) :=
    run_opened_singleton (by decide +kernel) rfl (images_eq_ok (by decide +kernel))
  obtain ⟨page, w', hworked, -, hprogress, -⟩ := run_worked_singleton linkingOptions
    (Placeholder.label .trace) nestedDocument nestedImages nestedFiles
  have hrun := (run_completed_singleton hopened).trans hworked
  have hedits : page.progress.map (·.edits) =
      [[⟨22, 43, "g/<img src=\"x.png\">.png".toList⟩], [⟨32, 37, "g/x.png".toList⟩]] := by
    rw [hprogress, ← contributions_nested]
    exact map_edits_settled
  cases conflict?_edits_eq_none_iff hrun with
  | cons h _ =>
    obtain ⟨ns, -, hiff, -⟩ := h
    refine ⟨page, w', hrun, fun hnone ↦ ?_⟩
    have hapart := hiff.mp hnone
    obtain ⟨q, r, hqr, hq, hr⟩ : ∃ q r, page.progress = [q, r] ∧
        q.edits = [⟨22, 43, "g/<img src=\"x.png\">.png".toList⟩] ∧
        r.edits = [⟨32, 37, "g/x.png".toList⟩] := by
      obtain ⟨q, rest, hcons, hq, hrest⟩ := List.map_eq_cons_iff.mp hedits
      obtain ⟨r, rfl, hr⟩ := List.map_eq_singleton_iff.mp hrest
      exact ⟨q, r, hcons, hq, hr⟩
    rw [hqr, List.pairwise_pair] at hapart
    refine hapart ⟨_, hq ▸ List.mem_singleton_self _, _, hr ▸ List.mem_singleton_self _, ?_⟩
    decide

end ResponsiveImage.Rewrite
