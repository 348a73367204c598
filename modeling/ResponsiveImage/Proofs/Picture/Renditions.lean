import ResponsiveImage.Proofs.Picture.Outputs
import ResponsiveImage.Proofs.Picture.SourceSet

/-!
# The renditions of one image

A rendition that is there already is used again, whatever it was made from.  As long as nothing but an
image's own renditions stands where these go, what its variants come to is nevertheless told by the
image alone: by its dimensions, not by what is in the directory.
-/

namespace ResponsiveImage

open Workspace (Evolves)
open Job

namespace OutputPlan

variable {p q : OutputPlan} {o : Options} {w w₁ : Workspace} {sizes : List Number} {k : Number}

/-- Whatever stands where the renditions of an image go has the dimensions of such a rendition. -/
def Owns [Codec] (p : OutputPlan) (sizes : List Number) (w : Workspace) : Prop :=
  ∀ k ∈ sizes, ∀ d, w.files.content? (p.sizedPath k).parts = some d →
    ∃ c h e, w.files.content? p.source.parts = some c ∧ c.header? = some h ∧ d.header? = some e ∧
      resizedSize h k = .ok (e.width, e.height)

/-- A rendition of an image does not go where those of another go: if it has the place of one, it is
that one. -/
def Avoids (p : OutputPlan) (sizes : List Number) (q : OutputPlan) (k : Number) : Prop :=
  ∀ l ∈ sizes, (q.sizedPath k).parts = (p.sizedPath l).parts ∨
    (q.sizedAlternatePath k).parts = (p.sizedPath l).parts → q.source = p.source ∧ k = l

instance (p : OutputPlan) (sizes : List Number) (q : OutputPlan) (k : Number) :
    Decidable (p.Avoids sizes q k) :=
  inferInstanceAs (Decidable (∀ l ∈ sizes, _ → _))

/-- Steps that put nothing where the renditions go and leave the image as it is. -/
theorem Owns.of_evolves [Codec] {changed created : List String → Prop} (h : p.Owns sizes w)
    (he : Evolves changed created w w₁)
    (hsource : ∀ c, w.files.content? p.source.parts = some c →
      w₁.files.content? p.source.parts = some c)
    (hchanged : ∀ k ∈ sizes, ¬ changed (p.sizedPath k).parts)
    (hcreated : ∀ k ∈ sizes, ¬ created (p.sizedPath k).parts) : p.Owns sizes w₁ := by
  intro k hk d hd
  rw [he.content?_eq (hchanged k hk) (hcreated k hk)] at hd
  obtain ⟨c, h', e, hc, hrest⟩ := h k hk d hd
  exact ⟨c, h', e, hsource c hc, hrest⟩

/-- A step that makes one file. -/
theorem Owns.of_created [Codec] {target : Path} (h : p.Owns sizes w)
    (he : Evolves Nowhere target.Here w w₁)
    (hnew : ∀ l ∈ sizes, target.parts = (p.sizedPath l).parts →
      ∀ d, w₁.files.content? target.parts = some d →
      ∃ c h e, w.files.content? p.source.parts = some c ∧ c.header? = some h ∧ d.header? = some e ∧
        resizedSize h l = .ok (e.width, e.height)) : p.Owns sizes w₁ := by
  intro l hl d hd
  by_cases hplace : target.parts = (p.sizedPath l).parts
  · rw [← hplace] at hd
    obtain ⟨c, h', e, hc, hrest⟩ := hnew l hl hplace d hd
    exact ⟨c, h', e, he.content?_of_some id hc, hrest⟩
  · have hother : ¬ target.Here (p.sizedPath l).parts := fun hhere ↦ hplace (Eq.symm hhere)
    rw [he.content?_eq id hother] at hd
    obtain ⟨c, h', e, hc, hrest⟩ := h l hl d hd
    exact ⟨c, h', e, he.content?_of_some id hc, hrest⟩

end OutputPlan

namespace Variant

variable {p q : OutputPlan} {o : Options} {w w₁ : Workspace} {sizes : List Number} {k : Number}
  {h : Header}

theorem looks_gathered (outcomes : List (Except Fault (Option Variant))) : Looks (do
    let variants ← ofExcept id (gather outcomes)
    return variants.filterMap id : Job (List Variant)) :=
  (looks_ofExcept _ _).bind fun _ ↦ looks_pure _

section Owns

variable [Codec]

theorem owns_ensureSized (hw : w.IsSound) (hp : p.Owns sizes w) (hq : q.IsFor o)
    (ha : p.Avoids sizes q k) : p.Owns sizes ((ensureSized q k o).run w).2 := by
  rcases run_ensureSized_cases hw hq k with
    ⟨f, w₁, hrun, he⟩ | ⟨d, e, -, -, hrun⟩ | ⟨c, h, d, e, w₁, hc, hh, hd, he, -, hrun, hnew, hev⟩
  · rw [hrun]
    exact hp.of_evolves he (fun c hc ↦ he.content?_of_some id hc) (fun _ _ ↦ id) (fun _ _ ↦ id)
  · rw [hrun]
    exact hp
  · rw [hrun]
    refine hp.of_created hev fun l hl hplace d' hd' ↦ ?_
    obtain ⟨hsource, rfl⟩ := ha l hl (.inl hplace)
    cases hnew.symm.trans hd'
    obtain ⟨e', -, -, hsize, _, hheader⟩ := Picture.sizedOf_eq_ok hd
    exact ⟨c, h, _, by rw [← hsource, hc], hh, hheader, hsize⟩

theorem owns_ensureAlternate (hw : w.IsSound) (hp : p.Owns sizes w) (hq : q.IsFor o)
    (ha : p.Avoids sizes q k) : p.Owns sizes ((ensureAlternate q k o).run w).2 := by
  rcases run_ensureAlternate_cases hw hq k with
    ⟨f, w₁, hrun, he⟩ | ⟨b, hrun⟩ | ⟨a, c, h, d, w₁, hc, hh, hd, -, -, -, hrun, hnew, hev⟩
  · rw [hrun]
    exact hp.of_evolves he (fun c hc ↦ he.content?_of_some id hc) (fun _ _ ↦ id) (fun _ _ ↦ id)
  · rw [hrun]
    exact hp
  · rw [hrun]
    refine hp.of_created hev fun l hl hplace d' hd' ↦ ?_
    obtain ⟨hsource, rfl⟩ := ha l hl (.inr hplace)
    cases hnew.symm.trans hd'
    obtain ⟨_, _, _, -, -, hsize, _, hheader⟩ := Picture.alternateOf_eq_ok hd
    exact ⟨c, h, _, by rw [← hsource, hc], hh, hheader, hsize⟩

theorem owns_ofSize (hw : w.IsSound) (hp : p.Owns sizes w) (hq : q.IsFor o)
    (ha : p.Avoids sizes q k) (h : Header) : p.Owns sizes ((ofSize q k h o).run w).2 := by
  have halternate := owns_ensureAlternate hw hp hq ha
  have hsound := (within_ensureAlternate hq k w hw).isSound
  rw [ofSize]
  split
  · exact hp
  · cases hrun : (ensureAlternate q k o).run w with
    | mk r w₁ =>
      rw [hrun] at halternate hsound
      cases r with
      | error f =>
        rw [run_bind_of_error hrun]
        exact halternate
      | ok b =>
        have hsized := owns_ensureSized hsound halternate hq ha
        rw [run_bind_of_ok hrun]
        cases hrun₁ : (ensureSized q k o).run w₁ with
        | mk r w₂ =>
          rw [hrun₁] at hsized
          cases r with
          | error f =>
            rw [run_bind_of_error hrun₁]
            exact hsized
          | ok e =>
            rw [run_bind_of_ok hrun₁]
            exact hsized

/-- Variants of any image leave the renditions of an image alone whose places they avoid. -/
theorem owns_ofSizes (hw : w.IsSound) (hp : p.Owns sizes w) (hq : q.IsFor o) {ks : List Number}
    (ha : ∀ k ∈ ks, p.Avoids sizes q k) (h : Header) :
    p.Owns sizes ((ofSizes q ks h o).run w).2 := by
  have hofSize : ∀ k ∈ ks, Ensures (fun w ↦ w.IsSound ∧ p.Owns sizes w)
      (attempt (ofSize q k h o)) fun _ ↦ True := fun k hk w hw ↦
    ⟨⟨(within_ofSize hq hk h w hw.1).isSound, owns_ofSize hw.1 hw.2 hq (ha k hk) h⟩,
      fun _ _ ↦ trivial⟩
  have hall := (ensures_mapM (R := fun _ _ ↦ True) hofSize).bind
    fun outcomes _ ↦ (looks_gathered outcomes).ensures
  exact (hall w ⟨hw, hp⟩).1.2

end Owns

/-! ## Variants told by the image -/

/-- The variant of a size, as the picture alone tells it. -/
def told (p : OutputPlan) (h : Header) (o : Options) (k : Number) : Except Fault (Option Variant) := do
  if (Number.int h.width).lt k then return none
  let dims ← resizedSize h k
  return some ⟨k, dims.1, dims.2, p.sizedUrl k, o.altFormat.truthy⟩

/-- The variants of some sizes, as the picture alone tells them. -/
def toldOfSizes (p : OutputPlan) (sizes : List Number) (h : Header) (o : Options) :
    Except Fault (List Variant) :=
  (gather (sizes.map (told p h o))).map (·.filterMap id)

variable [Codec]

theorem eq_truthy_of_ensureAlternate {b : Bool} (h : (ensureAlternate p k o).run w = (.ok b, w₁)) :
    b = o.altFormat.truthy := by
  rw [ensureAlternate] at h
  split at h
  · rename_i htruthy
    obtain ⟨there, w₂, -, h⟩ := run_bind_eq_ok.mp h
    rw [htruthy]
    split at h
    · obtain ⟨settings, w₃, -, h⟩ := run_bind_eq_ok.mp h
      obtain ⟨_, w₄, -, h⟩ := run_bind_eq_ok.mp h
      cases h
      rfl
    · cases h
      rfl
  · rename_i htruthy
    cases h
    exact (Bool.eq_false_iff.mpr htruthy).symm

/-- A rendition that is made, or found where nothing but an image's own stands, has the dimensions of
the image resized. -/
theorem resizedSize_of_ensureSized (hw : w.IsSound) (hp : p.IsFor o) (howns : p.Owns sizes w)
    (hk : k ∈ sizes) {c : Content} (hc : w.files.content? p.source.parts = some c)
    (hh : c.header? = some h) {e : Header} (hrun : (ensureSized p k o).run w = (.ok e, w₁)) :
    resizedSize h k = .ok (e.width, e.height) := by
  rcases run_ensureSized_cases hw hp k with
    ⟨f, w₂, hfail, -⟩ | ⟨d, e', hd, he', hok⟩ |
      ⟨c', h', d, e', w₂, hc', hh', -, hsize, -, hok, -, -⟩
  · rw [hfail] at hrun
    cases hrun
  · rw [hok] at hrun
    cases hrun
    obtain ⟨c', h', e'', hc', hh', he'', hsize⟩ := howns k hk d hd
    cases hc.symm.trans hc'
    cases hh.symm.trans hh'
    cases he'.symm.trans he''
    exact hsize
  · rw [hok] at hrun
    cases hrun
    cases hc.symm.trans hc'
    cases hh.symm.trans hh'
    exact hsize

/-- A workspace in which an image with a certain header owns its renditions. -/
structure Tells (p : OutputPlan) (sizes : List Number) (h : Header) (w : Workspace) : Prop where
  isSound : w.IsSound
  owns : p.Owns sizes w
  header : ∃ c, w.files.content? p.source.parts = some c ∧ c.header? = some h

theorem told_of_ofSize (hw : Tells p sizes h w) (hp : p.IsFor o) (ha : p.Avoids sizes p k)
    (hk : k ∈ sizes) {r : Option Variant} (hrun : (ofSize p k h o).run w = (.ok r, w₁)) :
    told p h o k = .ok r := by
  rw [ofSize] at hrun
  rw [told]
  split at hrun
  · rename_i hlt
    cases hrun
    rw [if_pos hlt]
    rfl
  · rename_i hlt
    rw [if_neg hlt]
    obtain ⟨b, w₂, halternate, hrun⟩ := run_bind_eq_ok.mp hrun
    obtain ⟨e, w₃, hsized, hrun⟩ := run_bind_eq_ok.mp hrun
    cases hrun
    have howns := owns_ensureAlternate hw.isSound hw.owns hp ha
    have he := (within_ensureAlternate hp k).evolves hw.isSound halternate
    rw [halternate] at howns
    obtain ⟨c, hc, hh⟩ := hw.header
    have hc₂ := he.content?_of_some id hc
    rw [resizedSize_of_ensureSized he.isSound hp howns hk hc₂ hh hsized,
      eq_truthy_of_ensureAlternate halternate]
    rfl

/-- The variants of an image that owns its renditions are as the image tells them. -/
theorem told_of_ofSizes (hw : Tells p sizes h w) (hp : p.IsFor o)
    (ha : ∀ k ∈ sizes, p.Avoids sizes p k) {variants : List Variant}
    (hrun : ((ofSizes p sizes h o).run w).1 = .ok variants) :
    toldOfSizes p sizes h o = .ok variants := by
  have hofSize : ∀ k ∈ sizes, Ensures (Tells p sizes h) (attempt (ofSize p k h o))
      fun r ↦ ∀ v, r = .ok v → told p h o k = .ok v := by
    intro k hk w hw
    have he := within_ofSize hp hk h w hw.isSound
    obtain ⟨c, hc, hh⟩ := hw.header
    refine ⟨⟨he.isSound, owns_ofSize hw.isSound hw.owns hp (ha k hk) h, c,
      he.content?_of_some id hc, hh⟩, fun r hr v hv ↦ ?_⟩
    cases hr
    exact told_of_ofSize hw hp (ha k hk) hk (Prod.ext hv rfl)
  have hrun' : (ofSizes p sizes h o).run w = (.ok variants, ((ofSizes p sizes h o).run w).2) :=
    Prod.ext hrun rfl
  rw [ofSizes] at hrun'
  obtain ⟨outcomes, w₁, houtcomes, hrest⟩ := run_bind_eq_ok.mp hrun'
  obtain ⟨-, hR⟩ := ensures_of_run hw (ensures_mapM hofSize) houtcomes
  cases hgather : gather outcomes with
  | error f =>
    rw [hgather] at hrest
    cases hrest
  | ok found =>
    rw [hgather] at hrest
    cases hrest
    have hoks := gather_eq_ok hgather
    rw [hoks, List.forall₂_map_right_iff] at hR
    have htold : List.Forall₂ (fun k v ↦ told p h o k = .ok v) sizes found :=
      hR.imp fun _ v h ↦ h v rfl
    rw [← List.forall₂_map_right_iff (f := Except.ok), ← hoks,
      ← List.forall₂_map_left_iff (f := told p h o), List.forall₂_eq_eq_eq] at htold
    rw [toldOfSizes, htold, hgather]
    rfl

end Variant

end ResponsiveImage
