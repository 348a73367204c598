import ResponsiveImage.Proofs.Markup.Agreement
import ResponsiveImage.Proofs.Markup.EditedTags
import ResponsiveImage.Proofs.Rewrite.Endings

/-!
# Images found again

What an image is given goes into its tag.  If it can stand there (`Stands`), and the tags of a document
do not overlap (`Legible`), then every tag is a tag of the same name after the edits, wherever it has
come to lie, with what was written as its source (`Legible.exists_front`).  So an image that is found
where one has landed is read back from it (`Legible.readsBack`).

No image is found anywhere else if every place that looks like the beginning of one is one, and no
bracket is written (`Legible.exists_lands`): a bracket of the edited text is then one of the text, and
nothing in its name has changed.
-/

namespace ResponsiveImage.Rewrite

open Markup (literalOf nodeAt)

variable {o : Options} {text : List Char} {n m : Markup.Node} {es : List Edit}

/-! ## The images of a text -/

/-- The images of a text are read where they begin, one behind the other, and called like images. -/
theorem read_of_images {ns : List Markup.Node} (h : Page.images text o.tagName = .ok ns) :
    (∀ n ∈ ns, nodeAt text n.start = some n.bare ∧
      n.name ∈ ["img".toList, o.tagName.text.toList]) ∧ ns.Pairwise fun m n ↦ m.start < n.start := by
  unfold Page.images at h
  split at h
  · rename_i tagName htagName
    split at h
    · rename_i root hroot
      cases h
      obtain ⟨os, hlisting⟩ := Markup.exists_isListing hroot
      refine ⟨fun n hn ↦ ?_, hlisting.increasing⟩
      obtain ⟨himage, -⟩ := hlisting.imageAt_candidate hn
      obtain ⟨hread, hname⟩ := Option.filter_eq_some_iff.mp himage
      rw [Markup.Node.isImage, Bool.or_eq_true, beq_iff_eq, beq_iff_eq] at hname
      exact ⟨hread, htagName ▸ List.mem_pair.mpr hname⟩
    · cases h
  · split at h <;> cases h

/-! ## What can stand in a tag -/

/-- Edits of an image that can be read where they are made: the text in place of the source can stand
there and is data or is looked up as it stands, and behind the source go attributes that are plain. -/
structure Stands (text : List Char) (n : Markup.Node) (es : List Edit) : Prop where
  source : ∀ e ∈ es.head?, ∀ span, Progress.spanOf n = .ok span →
    Markup.CanStand text span.stop span.attributeStop e.replacement
  lookedUp : ∀ e ∈ es.head?, ¬ Resolution.IsData e.replacement → Resolution.IsPlain e.replacement
  attributes : ∀ e ∈ es.tail, ∃ ps, e.replacement = Markup.written ps ∧ ∀ p ∈ ps, Markup.IsWritable p

/-- The literal source of an image after its edits. -/
def sourceAfter (n : Markup.Node) (es : List Edit) : Option (List Char) :=
  match es with
  | [] => literalOf "src".toList n.attributes
  | e :: _ => some e.replacement

/-- An image of a text with its edits: its tag is read where it begins, and it is given all that it is to
be given or nothing. -/
structure Given (o : Options) (text : List Char) (n : Markup.Node) (es : List Edit) : Prop where
  nodeAt_eq : nodeAt text n.start = some n.bare
  isWhole : IsWhole o n es
  literalSource? : es ≠ [] → Eligibility.literalSource? n ≠ none

theorem Given.spans (h : Given o text n es) : n.Spans text.length :=
  .of_bare (Markup.spans_of_nodeAt h.nodeAt_eq)

theorem exists_readAt_of_nodeAt {k : Nat} (h : nodeAt text k = some n) :
    ∃ tag, Markup.StartTag.readAt text k = .ok tag ∧ tag.name = n.name ∧
      tag.attributes = n.attributes ∧ tag.stop = n.stop := by
  rw [nodeAt] at h
  split at h
  · rename_i tag htag
    cases h
    exact ⟨tag, htag, rfl, rfl, rfl⟩
  · cases h

/-- The source of an image among its attributes. -/
theorem exists_source_of_spanOf {span : SourceSpan} (h : Progress.spanOf n = .ok span) :
    ∃ before a after t, n.attributes = before ++ a :: after ∧ a.name = "src".toList ∧
      (∀ b ∈ before, b.name ≠ "src".toList) ∧ a.value = .static t span.start span.stop ∧
      a.stop = span.attributeStop ∧ literalOf "src".toList n.attributes = some t := by
  rw [Progress.spanOf] at h
  split at h
  · rename_i name t start stop first last hattribute
    cases h
    obtain ⟨hname, before, after, has, hbefore⟩ := List.find?_eq_some_iff_append.mp hattribute
    refine ⟨before, _, after, t, has, by simpa using hname, fun b hb ↦ by simpa using hbefore b hb, rfl,
      rfl, ?_⟩
    rw [literalOf, show n.attributes.find? _ = some _ from hattribute]
  · cases h

theorem ne_nil_of_literalSource? {t : List Char} (h : Eligibility.literalSource? n ≠ none)
    (ht : literalOf "src".toList n.attributes = some t) : t ≠ [] := by
  rintro rfl
  obtain ⟨label, start, stop, first, last, hfind⟩ := Markup.exists_find?_of_literalOf ht
  refine h ?_
  rw [Eligibility.literalSource?, Markup.Node.attribute?, hfind]
  rfl

/-- **The tag of an image is a tag of the same name after its edits, wherever it is put**, with what was
written as its source. -/
theorem Given.reads (h : Given o text n es) (hstands : Stands text n es) :
    Edit.InOrder text.length 0 es ∧ Edit.Between n.start n.stop es ∧
      Markup.Reads (Edit.rewritten text n.start n.stop es) n.name "src".toList (sourceAfter n es) := by
  obtain ⟨tag, hread, hname, hattributes, hstop⟩ := exists_readAt_of_nodeAt h.nodeAt_eq
  have hspans := h.spans
  cases hes : es with
  | nil =>
    have horder : Edit.InOrder text.length 0 [] := trivial
    have hbetween := Edit.between_nil n.start n.stop
    have hreads := Markup.reads_rewritten horder hbetween (Nat.le_of_lt hspans.start_lt_stop)
      hspans.stop_le hread (by rw [hstop]; simp [Drift.after, Markup.Node.bare]) "src".toList
    rw [hname, hattributes] at hreads
    exact ⟨horder, hbetween, hreads⟩
  | cons e fs =>
    have hne : es ≠ [] := hes ▸ List.cons_ne_nil e fs
    obtain ⟨span, hspan, hshape⟩ : ∃ span, Progress.spanOf n = .ok span ∧
        ∃ new, e = ⟨span.start, span.stop, new⟩ ∧
          (fs = [] ∨ ∃ extra, fs = [⟨span.attributeStop, span.attributeStop, extra⟩]) := by
      have hwhole := hes ▸ h.isWhole
      cases hwhole with
      | tag _ hspan => exact ⟨_, hspan, _, rfl, .inl rfl⟩
      | component _ hspan => exact ⟨_, hspan, _, rfl, .inr ⟨_, rfl⟩⟩
    obtain ⟨new, rfl, hfs⟩ := hshape
    obtain ⟨before, a, after, t, has, hsrc, hbefore, hvalue, hend, hliteral⟩ :=
      exists_source_of_spanOf hspan
    have ht : t ≠ [] := ne_nil_of_literalSource? (h.literalSource? hne) hliteral
    have hnew := hstands.source _ (by rw [hes]; rfl) span hspan
    rw [← hend] at hnew
    obtain ⟨ps, hps, hshape⟩ : ∃ ps, (∀ p ∈ ps, Markup.IsWritable p) ∧
        (es = [⟨span.start, span.stop, new⟩] ∨
          es = [⟨span.start, span.stop, new⟩, ⟨a.stop, a.stop, Markup.written ps⟩]) := by
      rcases hfs with rfl | ⟨extra, rfl⟩
      · exact ⟨[], List.forall_mem_nil _, .inl hes⟩
      · obtain ⟨ps, hwritten, hps⟩ := hstands.attributes ⟨span.attributeStop, span.attributeStop, extra⟩
          (by rw [hes]; exact List.mem_singleton_self _)
        refine ⟨ps, hps, .inr ?_⟩
        rw [hes, hend, ← hwritten]
    have has' : tag.attributes = before ++ a :: after := hattributes.trans has
    obtain ⟨horder, hbetween, hreads⟩ := Markup.reads_stood hread has'
      (fun b hb ↦ hsrc ▸ hbefore b hb) hvalue ht hnew hps hshape
    rw [hstop] at hbetween hreads
    rw [hname, hsrc] at hreads
    have hsource : sourceAfter n es = some new := by rw [hes, sourceAfter]
    rw [← hes, hsource]
    exact ⟨horder, hbetween, hreads⟩

/-! ## Tags that do not overlap -/

/-- The images of a text with their edits, where no tag reaches into the next one, and all edits can be
read where they are made. -/
structure Legible (text : List Char) (as : List (Markup.Node × List Edit)) : Prop where
  apart : as.Pairwise fun a b ↦ a.1.stop ≤ b.1.start
  stands : ∀ a ∈ as, Stands text a.1 a.2

section Apart

variable {as : List (Markup.Node × List Edit)}

theorem Given.bounds (h : Given o text n es) {e : Edit} (he : e ∈ es) :
    (n.start : Int) < e.start ∧ e.start ≤ e.stop ∧ e.stop < n.stop := by
  obtain ⟨span, -, hlies, hstart, hle, hstop⟩ := h.isWhole.bounds h.spans he
  have hlow := hlies.lt_start
  have hhigh := hlies.attributeStop_lt
  omega

theorem Given.fits (h : Given o text n es) : ∀ e ∈ es, e.Fits text.length := h.isWhole.fits h.spans

variable (hgiven : ∀ a ∈ as, Given o text a.1 a.2)
include hgiven

theorem fits_of_given : ∀ e ∈ as.flatMap (·.2), e.Fits text.length := by
  intro e he
  obtain ⟨a, ha, he⟩ := List.mem_flatMap.mp he
  exact (hgiven a ha).fits e he

/-- The edits of images lie where the images do. -/
theorem between_of_given {low high : Nat} (h : ∀ a ∈ as, low ≤ a.1.start ∧ a.1.stop ≤ high) :
    Edit.Between low high (as.flatMap (·.2)) := by
  intro e he
  obtain ⟨a, ha, he⟩ := List.mem_flatMap.mp he
  obtain ⟨hlow, hhigh⟩ := h a ha
  have hbounds := (hgiven a ha).bounds he
  omega

/-- Edits in tags that do not overlap do not conflict. -/
theorem conflict?_eq_none_of_apart (hapart : as.Pairwise fun a b ↦ a.1.stop ≤ b.1.start) :
    Edit.conflict? text (Edit.sort (as.flatMap (·.2))) = none := by
  rw [Edit.conflict?_sort_eq_none_iff (fits_of_given hgiven), List.pairwise_flatMap]
  refine ⟨fun a ha ↦ (hgiven a ha).isWhole.pairwise (hgiven a ha).spans, ?_⟩
  refine hapart.imp_of_mem fun {a b} ha hb hle e he f hf hcollides ↦ ?_
  obtain ⟨-, -, hstop⟩ := (hgiven a ha).bounds he
  obtain ⟨hstart, -, -⟩ := (hgiven b hb).bounds hf
  have := hcollides.2
  omega

end Apart

namespace Legible

variable {as front back : List (Markup.Node × List Edit)} {a b : Markup.Node × List Edit}
  (h : Legible text as) (hgiven : ∀ a ∈ as, Given o text a.1 a.2)
include h hgiven

/-- Edits in tags that do not overlap are sorted already, and in order. -/
theorem inOrder : Edit.sort (as.flatMap (·.2)) = as.flatMap (·.2) ∧
    Edit.InOrder text.length 0 (as.flatMap (·.2)) := by
  have hfits := fits_of_given hgiven
  have hpairwise : (as.flatMap (·.2)).Pairwise fun e f ↦ e.stop ≤ f.start := by
    refine List.pairwise_flatMap.mpr ⟨fun a ha ↦ ?_, ?_⟩
    · have hown := (hgiven a ha).fits
      exact (Edit.inOrder_iff_pairwise hown fun e he ↦ (hown e he).nonneg).mp
        ((hgiven a ha).reads (h.stands a ha)).1
    · refine h.apart.imp_of_mem fun {a b} ha hb hle e he f hf ↦ ?_
      obtain ⟨-, -, hstop⟩ := (hgiven a ha).bounds he
      obtain ⟨hstart, -, -⟩ := (hgiven b hb).bounds hf
      omega
  refine ⟨List.mergeSort_of_pairwise (hpairwise.imp_of_mem fun {e f} he hf hle ↦ ?_), ?_⟩
  · have := (hfits e he).start_le_stop
    have := (hfits f hf).start_le_stop
    rw [Edit.le_iff]
    omega
  · exact (Edit.inOrder_iff_pairwise hfits fun e he ↦ (hfits e he).nonneg).mpr hpairwise

/-- What stands before an image, what it is, and what stands behind it, in the text with all edits
made. -/
theorem exists_front (has : as = front ++ a :: back) :
    Edit.landing (as.flatMap (·.2)) a.1.start =
        a.1.start + (Drift.after (front.flatMap (·.2))).delta ∧
      ∃ before behind, Edit.writeOut text (as.flatMap (·.2)) =
          before ++ Edit.rewritten text a.1.start a.1.stop a.2 ++ behind ∧
        (before.length : Int) = Edit.landing (as.flatMap (·.2)) a.1.start := by
  obtain ⟨-, horder⟩ := h.inOrder hgiven
  have hedits : as.flatMap (·.2) = front.flatMap (·.2) ++ (a.2 ++ back.flatMap (·.2)) := by
    rw [has, List.flatMap_append, List.flatMap_cons]
  have hapart := h.apart
  rw [has, List.pairwise_append, List.pairwise_cons] at hapart
  obtain ⟨-, ⟨hbehind, -⟩, hbefore⟩ := hapart
  have ha : a ∈ as := has ▸ List.mem_append_right front List.mem_cons_self
  have hfront : ∀ b ∈ front, b ∈ as := fun b hb ↦ has ▸ List.mem_append_left _ hb
  have hback : ∀ b ∈ back, b ∈ as := fun b hb ↦
    has ▸ List.mem_append_right front (List.mem_cons_of_mem a hb)
  have hspans := (hgiven a ha).spans
  have hlt := hspans.start_lt_stop
  have hstop := hspans.stop_le
  have hfirst : Edit.Between (0 : Nat) a.1.start (front.flatMap (·.2)) :=
    between_of_given (fun b hb ↦ hgiven b (hfront b hb))
      fun b hb ↦ ⟨Nat.zero_le _, hbefore b hb a List.mem_cons_self⟩
  have hlast : Edit.Between a.1.stop text.length (back.flatMap (·.2)) :=
    between_of_given (fun b hb ↦ hgiven b (hback b hb))
      fun b hb ↦ ⟨hbehind b hb, (hgiven b (hback b hb)).spans.stop_le⟩
  have hown : Edit.Between a.1.start a.1.stop a.2 := fun e he ↦ by
    have := (hgiven a ha).bounds he
    omega
  have hlanding : Edit.landing (as.flatMap (·.2)) a.1.start =
      a.1.start + (Drift.after (front.flatMap (·.2))).delta := by
    rw [Edit.landing, hedits, Edit.before_append fun e he ↦ (hfirst e he).2]
    intro e he
    rcases List.mem_append.mp he with he | he
    · have := (hgiven a ha).bounds he
      omega
    · have := (hlast e he).1
      have := (horder.start_le e (hedits ▸ List.mem_append_right _ (List.mem_append_right _ he))).1
      omega
  rw [hedits] at horder
  have hlength := Edit.length_rewritten (Edit.inOrder_append.mp horder).1 hfirst (Int.le_refl 0)
    (by omega) (by omega)
  refine ⟨hlanding, Edit.rewritten text 0 a.1.start (front.flatMap (·.2)),
    Edit.writtenOn text a.1.stop (back.flatMap (·.2)), ?_, by omega⟩
  rw [hedits, Edit.writeOut_append horder (fun e he ↦ (hfirst e he).2) hown
    (fun e he ↦ (hlast e he).1) (by omega) (by omega) (by omega), List.append_assoc]

/-- An image that is found where one has landed is called like that one, has what was written for it as
its source, and ends where the other has ended. -/
theorem found (ha : a ∈ as) (hm : nodeAt (Edit.writeOut text (as.flatMap (·.2))) m.start = some m.bare)
    (hland : (m.start : Int) = Edit.landing (as.flatMap (·.2)) a.1.start) :
    m.name = a.1.name ∧ literalOf "src".toList m.attributes = sourceAfter a.1 a.2 ∧
      (m.stop : Int) = m.start + (a.1.stop - a.1.start) + (Drift.after a.2).delta := by
  obtain ⟨front, back, has⟩ := List.append_of_mem ha
  obtain ⟨hinside, hbetween, hreads⟩ := (hgiven a ha).reads (h.stands a ha)
  have hspans := (hgiven a ha).spans
  have hlt := hspans.start_lt_stop
  have hle := hspans.stop_le
  obtain ⟨-, before, behind, hwritten, hlength⟩ := h.exists_front hgiven has
  obtain ⟨tag, hread, hname, hstop, hliteral⟩ := hreads before behind
  obtain ⟨tag', hread', hname', hattributes', hstop'⟩ := exists_readAt_of_nodeAt hm
  have hstart : before.length = m.start := by omega
  rw [← hwritten, hstart] at hread
  obtain rfl := Except.ok.inj (hread.symm.trans hread')
  have hown := Edit.length_rewritten (hinside.since fun e he ↦ (hbetween e he).1) hbetween (by omega)
    (by omega) (by omega)
  refine ⟨hname'.symm.trans hname, ?_, ?_⟩
  · rw [← hliteral, hattributes']
    rfl
  · have hbare : tag.stop = m.stop := hstop'
    omega

/-- Images have landed in order, and none reaches into the next one. -/
theorem landing_le (hpair : ∃ front mid back, as = front ++ a :: (mid ++ b :: back)) :
    Edit.landing (as.flatMap (·.2)) a.1.start + (a.1.stop - a.1.start) + (Drift.after a.2).delta ≤
      Edit.landing (as.flatMap (·.2)) b.1.start := by
  obtain ⟨front, mid, back, has⟩ := hpair
  obtain ⟨hlanda, -⟩ := h.exists_front hgiven has
  have has' : as = (front ++ a :: mid) ++ b :: back := by
    rw [has]
    simp
  obtain ⟨hlandb, -⟩ := h.exists_front hgiven has'
  have ha : a ∈ as := has ▸ List.mem_append_right front List.mem_cons_self
  have hb : b ∈ as := has' ▸ List.mem_append_right _ List.mem_cons_self
  have hmid : ∀ c ∈ mid, c ∈ as := fun c hc ↦
    has ▸ List.mem_append_right front (List.mem_cons_of_mem a (List.mem_append_left _ hc))
  have hapart := h.apart
  rw [has] at hapart
  obtain ⟨hbehind, hrest⟩ := List.pairwise_cons.mp (List.pairwise_append.mp hapart).2.1
  have hbefore := (List.pairwise_append.mp hrest).2.2
  have hbetween : Edit.Between a.1.stop b.1.start (mid.flatMap (·.2)) :=
    between_of_given (fun c hc ↦ hgiven c (hmid c hc))
      fun c hc ↦ ⟨hbehind c (List.mem_append_left _ hc), hbefore c hc b List.mem_cons_self⟩
  have horder := (h.inOrder hgiven).2
  rw [has, List.flatMap_append, List.flatMap_cons, List.flatMap_append, ← List.append_assoc] at horder
  have hinner := (Edit.inOrder_append.mp (Edit.inOrder_append.mp horder).2).1
  have hgap := hbehind b (List.mem_append_right _ List.mem_cons_self)
  have hstop := (hgiven b hb).spans.stop_le
  have hlt := (hgiven b hb).spans.start_lt_stop
  have hlength := Edit.length_rewritten (hinner.since fun e he ↦ (hbetween e he).1) hbetween (by omega)
    (by omega) (by omega)
  rw [hlanda, hlandb, List.flatMap_append, List.flatMap_cons, Edit.delta_after_append,
    Edit.delta_after_append]
  omega

/-- Images that are found where some have landed do not overlap. -/
theorem apart_again {ms : List Markup.Node}
    (hms : ∀ m ∈ ms, nodeAt (Edit.writeOut text (as.flatMap (·.2))) m.start = some m.bare ∧
      ∃ a ∈ as, (m.start : Int) = Edit.landing (as.flatMap (·.2)) a.1.start)
    (hstarts : ms.Pairwise fun m n ↦ m.start < n.start) :
    ms.Pairwise fun m n ↦ m.stop ≤ n.start := by
  refine hstarts.imp_of_mem fun {m n} hm hn hlt ↦ ?_
  obtain ⟨hread, a, ha, hlanda⟩ := hms m hm
  obtain ⟨hread', b, hb, hlandb⟩ := hms n hn
  obtain ⟨-, -, hstop⟩ := h.found hgiven ha hread hlanda
  obtain ⟨-, -, hstop'⟩ := h.found hgiven hb hread' hlandb
  have hspans := (Markup.Node.Spans.of_bare (Markup.spans_of_nodeAt hread')).start_lt_stop
  obtain ⟨front, back, has⟩ := List.append_of_mem ha
  have hmem := has ▸ hb
  rcases List.mem_append.mp hmem with hb' | hb'
  · -- the second image would have landed before the first one
    obtain ⟨front, mid, rfl⟩ := List.append_of_mem hb'
    have hle := h.landing_le hgiven (a := b) (b := a) ⟨front, mid, back, by rw [has]; simp⟩
    omega
  · rcases List.mem_cons.mp hb' with rfl | hb'
    · omega
    · obtain ⟨mid, back, rfl⟩ := List.append_of_mem hb'
      have hle := h.landing_le hgiven ⟨front, mid, back, has⟩
      omega

end Legible

/-! ## Nothing but what has landed -/

/-- What stands before the source of an image could not stand in the name of a tag, and no bracket stands
behind it in its attribute. -/
theorem Given.around (h : Given o text n es) {span : SourceSpan} (hspan : Progress.spanOf n = .ok span)
    (hsource : Eligibility.literalSource? n ≠ none) :
    (∃ c, text[span.start - 1]? = some c ∧ c ≠ '<' ∧ Markup.isNameRest c = false) ∧
      span.start < span.stop ∧ span.stop ≤ span.attributeStop ∧
      ∀ k : Nat, span.stop ≤ k → k < span.attributeStop → text[k]? ≠ some '<' := by
  obtain ⟨tag, hread, -, hattributes, -⟩ := exists_readAt_of_nodeAt h.nodeAt_eq
  obtain ⟨before, b, after, t, has, -, -, hvalue, hend, ht⟩ := exists_source_of_spanOf hspan
  have hb : b ∈ tag.attributes := by
    rw [hattributes, show n.bare.attributes = _ from has]
    exact List.mem_append_right before List.mem_cons_self
  have hne := ne_nil_of_literalSource? hsource ht
  obtain ⟨hlead, hclose⟩ := Markup.around_literal hread hb hvalue hne
  have hlength := Markup.stop_eq_of_literal hread hb hvalue
  have hpos := List.length_pos_iff.mpr hne
  exact ⟨hlead, by omega, (liesIn_of_spanOf h.spans hspan).stop_le, hend ▸ hclose⟩

/-- Where an edit is the first to begin behind a bracket, no name of a tag reaches up to it. -/
theorem Given.not_isPrefix (h : Given o text n es) {name : List Char}
    (hname : ∀ c ∈ name, Markup.isNameRest c = true) {e : Edit} (he : e ∈ es) {k : Nat}
    (hk : (k : Int) < e.start) (hfirst : ∀ f ∈ es, f.stop ≤ (k : Int) ∨ e.start ≤ f.start) :
    ¬ Edit.span text k e.start <+: '<' :: name := by
  intro hbegins
  have hsource := h.literalSource? (List.ne_nil_of_mem he)
  -- the characters from the bracket up to the edit
  have hmem : ∀ j : Nat, k ≤ j → (j : Int) < e.start → ∀ c, text[j]? = some c → c ∈ '<' :: name := by
    intro j hj hlt c hc
    have hget : (Edit.span text k e.start)[j - k]? = some c := by
      rw [Edit.span, List.getElem?_drop, List.getElem?_take, if_pos (by omega), ← hc]
      congr 1
      omega
    exact hbegins.subset (List.mem_of_getElem? hget)
  have hbracket : text[k]? = some '<' := by
    obtain ⟨-, hle, hstop⟩ := h.bounds he
    have hlength := h.spans.stop_le
    have hspan : ((Edit.span text k e.start).length : Int) = e.start - k :=
      Edit.length_span (by omega) (Int.le_of_lt hk) (by omega)
    obtain ⟨rest, hrest⟩ := hbegins
    have hzero := congrArg (·[0]?) hrest
    simp only [List.getElem?_cons_zero] at hzero
    rw [List.getElem?_append_left (by omega), Edit.span, List.getElem?_drop, List.getElem?_take,
      if_pos (by omega)] at hzero
    exact hzero
  have hsourceEdit : ∀ span : SourceSpan, Progress.spanOf n = .ok span →
      e.start = span.start → False := by
    intro span hspan hstart
    obtain ⟨⟨c, hc, hne, hquiet⟩, -⟩ := h.around hspan hsource
    rcases List.mem_cons.mp (hmem (span.start - 1) (by omega) (by omega) c hc) with rfl | hin
    · exact hne rfl
    · rw [hname c hin] at hquiet
      cases hquiet
  have hwhole := h.isWhole
  cases hwhole with
  | nothing => cases he
  | tag _ hspan => exact hsourceEdit _ hspan (List.mem_singleton.mp he ▸ rfl)
  | @component _ span shown extra _ hspan =>
    rcases List.mem_pair.mp he with rfl | rfl
    · exact hsourceEdit _ hspan rfl
    · -- the edit of the source has been passed already
      obtain ⟨-, hlt, hle, hclose⟩ := h.around hspan hsource
      have hpassed := hfirst _ List.mem_cons_self
      dsimp only at hpassed hk
      exact hclose k (by omega) (by omega) hbracket

/-- **No image is found but where one has landed**, if every place that looks like the beginning of an
image is the beginning of one, and no bracket is written. -/
theorem Legible.exists_lands {as : List (Markup.Node × List Edit)} (h : Legible text as)
    (hgiven : ∀ a ∈ as, Given o text a.1 a.2) {name : List Char}
    (hname : ∀ c ∈ name, Markup.isNameRest c = true)
    (hlooks : ∀ k, '<' :: name <+: text.drop k → ∃ a ∈ as, a.1.start = k)
    (hbracket : ∀ a ∈ as, ∀ e ∈ a.2, '<' ∉ e.replacement) {i : Nat}
    (hi : '<' :: name <+: (Edit.writeOut text (as.flatMap (·.2))).drop i) :
    ∃ a ∈ as, (i : Int) = Edit.landing (as.flatMap (·.2)) a.1.start := by
  have horder := (h.inOrder hgiven).2
  have hhead : (Edit.writeOut text (as.flatMap (·.2)))[i]? = some '<' := by
    obtain ⟨rest, hrest⟩ := hi
    rw [← List.head?_drop, ← hrest]
    rfl
  rcases Edit.exists_landing horder hhead with ⟨e, he, hin⟩ | ⟨k, hk, hland, htouch⟩
  · obtain ⟨a, ha, he⟩ := List.mem_flatMap.mp he
    exact absurd hin (hbracket a ha e he)
  · rcases Edit.prefix_of_landing horder hland htouch (Nat.le_of_lt hk) hi with
      hat | ⟨e, he, hstart, -, hfirst, hbegins⟩
    · obtain ⟨a, ha, rfl⟩ := hlooks k hat
      exact ⟨a, ha, hland⟩
    · obtain ⟨a, ha, he⟩ := List.mem_flatMap.mp he
      exact absurd hbegins ((hgiven a ha).not_isPrefix hname he hstart fun f hf ↦
        hfirst f (List.mem_flatMap_of_mem ha hf))

end ResponsiveImage.Rewrite
