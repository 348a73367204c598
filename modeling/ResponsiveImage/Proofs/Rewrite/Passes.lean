import ResponsiveImage.Proofs.Rewrite.FoundAgain

/-!
# What is left of an image

A pass over the images of a text reads all of them in it and gives each of them edits (`Pass.given`).
When the document is rewritten once more, an image that is read back is left of one of the first pass
(`Leaves`): with what that one was given, or without it.  It is the twin of that image, or it is data,
or the URL of a copy.  So the second pass puts nothing out that the first pass has not put out, and if
the outputs of the first pass have names of their own, so have those of both (`Distinct.again`).
-/

namespace ResponsiveImage.Rewrite

open Markup (literalOf nodeAt)

variable {o : Options} {placeholder : Placeholder} {text : List Char} {w x y : Workspace}
  {past vs us : List Visit} {u v : Visit} {q : Progress} {qs : List Progress}

/-! ## The images of a pass -/

/-- The images of some visits, each with the edits that it is given. -/
def edited (vs : List Visit) (ess : List (List Edit)) : List (Markup.Node × List Edit) :=
  (vs.map (·.node)).zip ess

theorem edited_eq (vs : List Visit) (qs : List Progress) :
    edited vs (qs.map (·.edits)) = (vs.zip qs).map fun x ↦ (x.1.node, x.2.edits) := by
  rw [edited, List.zip_map]
  rfl

/-- The literal source of the image that is visited. -/
theorem Visit.text?_eq (v : Visit) : v.text? = literalOf "src".toList v.node.attributes := by
  rw [text?, source?, Markup.Node.attribute?, literalOf]
  cases v.node.attributes.find? (·.name == "src".toList) with
  | none => rfl
  | some a =>
    obtain ⟨_, value, _, _⟩ := a
    cases value <;> rfl

theorem exists_mem_of_forall₂ {α β : Type} {R : α → β → Prop} {as : List α} {bs : List β}
    (h : List.Forall₂ R as bs) {a : α} (ha : a ∈ as) : ∃ b ∈ bs, (a, b) ∈ as.zip bs ∧ R a b := by
  induction h with
  | nil => cases ha
  | @cons c d cs ds hcd _ ih =>
    rcases List.mem_cons.mp ha with rfl | ha
    · exact ⟨d, List.mem_cons_self, List.mem_cons_self, hcd⟩
    · obtain ⟨b, hb, hzip, hab⟩ := ih ha
      exact ⟨b, List.mem_cons_of_mem d hb, List.mem_cons_of_mem _ hzip, hab⟩

variable [Codec]

/-- The visits of a history start in sound workspaces, and their documents have directories. -/
theorem resolved_of_mem (hw : w.IsSound) (hx : History o w vs x) (hv : v ∈ vs) :
    v.before.IsSound ∧ v.before.cwd = w.cwd ∧ v.document.directory.IsResolved := by
  obtain ⟨hbefore, hcwd⟩ := (hx.sound hw).before v hv
  exact ⟨hbefore, hcwd, (hx.sound hw).directory v hv⟩

namespace Pass

variable (h : Pass o placeholder w past text vs qs)
include h

/-- An image of a pass is read where it begins, and called like an image. -/
theorem read (hv : v ∈ vs) : nodeAt text v.node.start = some v.node.bare ∧
    v.node.name ∈ ["img".toList, o.tagName.text.toList] := by
  rcases h.images with hnil | himages
  · rw [hnil] at hv
    cases hv
  · exact (read_of_images himages).1 v.node (List.mem_map_of_mem hv)

theorem increasing : (vs.map (·.node)).Pairwise fun m n ↦ m.start < n.start := by
  rcases h.images with hnil | himages
  · rw [hnil]
    exact .nil
  · exact (read_of_images himages).2

theorem exists_of_mem_edited {a : Markup.Node × List Edit} (ha : a ∈ edited vs (qs.map (·.edits))) :
    ∃ v ∈ vs, ∃ q ∈ qs, (Ends o placeholder w (past ++ vs) v q ∧ IsWhole o v.node q.edits) ∧
      a = (v.node, q.edits) := by
  rw [edited_eq] at ha
  obtain ⟨⟨v, q⟩, hx, rfl⟩ := List.mem_map.mp ha
  obtain ⟨hv, hq⟩ := List.of_mem_zip hx
  exact ⟨v, hv, q, hq, (List.forall₂_iff_zip.mp h.ends).2 hx, rfl⟩

theorem map_fst_edited : (edited vs (qs.map (·.edits))).map Prod.fst = vs.map (·.node) := by
  rw [edited, List.map_fst_zip]
  simp [h.ends.length_eq]

theorem flatMap_edited :
    (edited vs (qs.map (·.edits))).flatMap (·.2) = (qs.map (·.edits)).flatten := by
  rw [List.flatMap_def, edited, List.map_snd_zip]
  simp [h.ends.length_eq]

/-- The images of a pass with their edits, as they are read in the text. -/
theorem given (hw : w.IsSound) :
    ∀ a ∈ edited vs (qs.map (·.edits)), Given o text a.1 a.2 := by
  intro a ha
  obtain ⟨v, hv, q, -, ⟨hends, hwhole⟩, rfl⟩ := h.exists_of_mem_edited ha
  obtain ⟨x, hx⟩ := h.history
  obtain ⟨hbefore, -, hdirectory⟩ := resolved_of_mem hw hx (List.mem_append_right past hv)
  exact ⟨(h.read hv).1, hwhole, hends.literalSource?_ne_none hbefore hdirectory⟩

end Pass

/-! ## Images that are left -/

/-- An image that is visited is left of one that a pass has visited: it is read back with what that one
was given, or without it. -/
structure Leaves (o : Options) (placeholder : Placeholder) (w : Workspace) (vs : List Visit) (v : Visit)
    (q : Progress) (u : Visit) : Prop where
  mem : v ∈ vs
  ends : Ends o placeholder w vs v q
  directory : u.document.directory = v.document.directory
  reads : ReadsBack q.edits v u ∨ ReadsBack [] v u

namespace Leaves

section Shapes

variable (h : Leaves o placeholder w vs v q u)
include h

theorem name : u.node.name = v.node.name := h.reads.elim ReadsBack.name ReadsBack.name

/-- What is left of an image is its twin, or data, or the URL of a copy. -/
theorem shapes (hsteady : placeholder.IsSteady) (hv : v.before.IsSound)
    (hd : v.document.directory.IsResolved) :
    u.Twins v ∨ (∃ text, u.text? = some text ∧ Resolution.IsData text) ∨
      ∃ p, v.shown? o = some (.tag, p) ∧ u.text? = some p.url.toList ∧
        Resolution.IsPlain p.url.toList := by
  rcases h.reads with hreads | hreads
  · cases hhead : q.edits.head? with
    | none => exact .inl ⟨h.name, hreads.kept (List.head?_eq_none_iff.mp hhead), h.directory⟩
    | some e =>
      have htext := hreads.written e hhead
      by_cases hdata : Resolution.IsData e.replacement
      · exact .inr (.inl ⟨_, htext, hdata⟩)
      · obtain ⟨p, hshown, hurl⟩ := (h.ends.written hsteady hv hd hhead).resolve_left hdata
        exact .inr (.inr ⟨p, hshown, hurl ▸ htext, hurl ▸ hreads.isPlain e hhead hdata⟩)
  · exact .inl ⟨h.name, hreads.kept rfl, h.directory⟩

/-- What is left of an image is misconfigured only if the image is. -/
theorem isMisconfigured (hv : v.before.IsSound) (hd : v.document.directory.IsResolved)
    (hu : Eligibility.IsMisconfigured u.node o) : Eligibility.IsMisconfigured v.node o :=
  h.reads.elim (·.isMisconfigured (h.ends.literalSource?_ne_none hv hd) hu)
    (·.isMisconfigured (absurd rfl) hu)

end Shapes

section Outputs

variable (h : Leaves o placeholder w vs v q u) (hsteady : placeholder.IsSteady) (hw : w.IsSound)
  (hclear : Clear o w.cwd (vs ++ us)) (hy : History o w (vs ++ us) y) (hu : u ∈ us)
include h hsteady hw hclear hy hu

/-- A copy that is planned for what is left of an image was planned for the image. -/
theorem exists_plans {p : OutputPlan} (hp : u.Plans o p) : ∃ p', v.Plans o p' ∧ p'.path = p.path := by
  have hmemv := List.mem_append_left us h.mem
  have hmemu := List.mem_append_right vs hu
  obtain ⟨hvw, hvcwd, hvd⟩ := resolved_of_mem hw hy hmemv
  obtain ⟨huw, hucwd, hud⟩ := resolved_of_mem hw hy hmemu
  obtain ⟨role, w₀, hfound, hplan⟩ := id hp
  rcases h.shapes hsteady hvw hvd with htwins | ⟨text, htext, hdata⟩ | ⟨p', hshown, htext, hplain⟩
  · have hkept := fun {v} ↦ hclear.kept_before (v := v) hw (List.Subset.refl _) hy
    obtain ⟨c, hmeets⟩ := Visit.exists_meets huw hud hfound
    obtain ⟨w₁, hfound', -⟩ :=
      hclear.meets hmemv hmemu hud (hkept hmemv) (hkept hmemu) htwins.symm hmeets
    refine ⟨p, ⟨role, w₁, hfound', Prod.ext ?_ (OutputPlan.looks_ofImage _ _ w₁)⟩, rfl⟩
    have hcwd : w₁.cwd = w₀.cwd := by
      rw [((Visit.search_of_found hfound' hvw hvd).evolves hvw).cwd_eq, hvcwd,
        ((Visit.search_of_found hfound huw hud).evolves huw).cwd_eq, hucwd]
    rw [OutputPlan.run_ofImage_congr hcwd, hplan]
  · exact absurd hdata (Visit.not_isData_of_found htext hfound)
  · -- the copy has the place of the one whose URL has been written
    obtain ⟨w₁, hplans⟩ := Visit.exists_found_of_shown hvw hvd hshown
    have hmade' := Visit.isMade_of_shown hvw hvd hshown
    have hmade := hp.isMade huw hud
    obtain ⟨hplace, -⟩ := Visit.of_found_plain huw hud htext hplain hfound
    have hname : p.name = p'.name := Resolution.name_of_mem_localPlaces hplace
      (OutputPlan.partsOf_urlOf p' hmade'.toIsFor.isName) hmade'.toIsFor.isName.ne_dots
    refine ⟨p', ⟨_, w₁, hplans⟩, ?_⟩
    rw [hvcwd] at hmade'
    rw [hucwd] at hmade
    rw [OutputPlan.path, OutputPlan.path, hname, hmade'.directory_eq_directory hmade]

/-- A component that is left and waits for renditions is the twin of one that waited for the same ones.
-/
theorem exists_awaiting {c : Component} (hc : u.progress o = .awaiting c) :
    ∃ c', v.progress o = .awaiting c' ∧ c'.plan = c.plan ∧ c'.sizes = c.sizes := by
  have hmemv := List.mem_append_left us h.mem
  have hmemu := List.mem_append_right vs hu
  obtain ⟨hvw, hvcwd, hvd⟩ := resolved_of_mem hw hy hmemv
  obtain ⟨huw, hucwd, hud⟩ := resolved_of_mem hw hy hmemu
  have hclosed : (u.progress o).isPending = false → False := by
    rw [hc]
    rintro ⟨⟩
  rcases h.shapes hsteady hvw hvd with htwins | ⟨text, htext, hdata⟩ | ⟨p, hshown, htext, hplain⟩
  · have hkept := fun {v} ↦ hclear.kept_before (v := v) hw (List.Subset.refl _) hy
    have hagrees := hclear.agrees (hy.sound hw) hmemv hmemu (hkept hmemv) (hkept hmemu) htwins.symm
    rw [hc] at hagrees
    generalize hq : v.progress o = r at hagrees
    cases hagrees with
    | closed hpending => cases hpending
    | awaiting hplan _ hsizes => exact ⟨_, rfl, hplan.symm, hsizes.symm⟩
  · exact (hclosed (Visit.closed_of_isData huw hud htext hdata).1).elim
  · refine (hclosed (Visit.reread huw hud hvw hvd h.name hshown htext hplain ?_).1).elim
    exact fun role image w₀ hfound ↦ hucwd ▸ hclear.not_output hmemu huw hucwd hud hfound

end Outputs

end Leaves

/-- If the outputs of a pass have names of their own, so have those of a second pass over what is left.
-/
theorem Distinct.again (hdistinct : Distinct o vs) (hsteady : placeholder.IsSteady) (hw : w.IsSound)
    (hclear : Clear o w.cwd (vs ++ us)) (hy : History o w (vs ++ us) y)
    (hleaves : ∀ u ∈ us, ∃ v q, Leaves o placeholder w vs v q u) : Distinct o (vs ++ us) := by
  have hplans : ∀ u ∈ vs ++ us, ∀ p, u.Plans o p → ∃ v ∈ vs, ∃ p', v.Plans o p' ∧ p'.path = p.path := by
    intro u hu p hp
    rcases List.mem_append.mp hu with hu | hu
    · exact ⟨u, hu, p, hp, rfl⟩
    · obtain ⟨v, q, hleft⟩ := hleaves u hu
      exact ⟨v, hleft.mem, hleft.exists_plans hsteady hw hclear hy hu hp⟩
  have hawaiting : ∀ u ∈ vs ++ us, ∀ c, u.progress o = .awaiting c →
      ∃ v ∈ vs, ∃ c', v.progress o = .awaiting c' ∧ c'.plan = c.plan ∧ c'.sizes = c.sizes := by
    intro u hu c hc
    rcases List.mem_append.mp hu with hu | hu
    · exact ⟨u, hu, c, hc, rfl, rfl⟩
    · obtain ⟨v, q, hleft⟩ := hleaves u hu
      exact ⟨v, hleft.mem, hleft.exists_awaiting hsteady hw hclear hy hu hc⟩
  refine ⟨fun v hv c hc k hk q hq u hu p hp ↦ ?_, fun v hv c hc u hu d hd k hk ↦ ?_⟩
  · obtain ⟨v', hv', c', hc', hplan, hsizes⟩ := hawaiting v hv c hc
    obtain ⟨u', hu', p', hp', hpath⟩ := hplans u hu p hp
    rw [← hpath]
    exact hdistinct.copies v' hv' c' hc' k (hsizes ▸ hk) q (hplan ▸ hq) u' hu' p' hp'
  · obtain ⟨v', hv', c', hc', hplan, hsizes⟩ := hawaiting v hv c hc
    obtain ⟨u', hu', d', hd', hplan', hsizes'⟩ := hawaiting u hu d hd
    rw [← hplan, ← hsizes, ← hplan']
    exact hdistinct.renditions v' hv' c' hc' u' hu' d' hd' k (hsizes' ▸ hk)

end ResponsiveImage.Rewrite
