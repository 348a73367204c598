import ResponsiveImage.Proofs.Picture.Missing

/-!
# The variants of an image at two times

The variants of an image may be asked for at two times, and a rendition that is there at one of them
may be missing at the other.  As long as the two workspaces differ by nothing but such renditions where
these go (`Coupled`), the variants that come out in one of them come out in the other as well
(`run_ofSizes_of_coupled`): what one run finds the other makes, and each rendition leaves the two
coupled.
-/

namespace ResponsiveImage

open Workspace (Evolves)
open Job

namespace OutputPlan

variable {p : OutputPlan} {o : Options} {c d : Content} {h : Header} {sizes : List Number}
  {k : Number} {q : List String} {P : Path} {x x' y y' : Workspace}

/-- A rendition of an image that is there in the second of two workspaces, and nothing in the first. -/
structure Adds [Codec] (p : OutputPlan) (o : Options) (c : Content) (h : Header) (k : Number)
    (q : List String) (x y : Workspace) : Prop where
  absent : x.files.get? q = none
  made : ∃ d, y.files.content? q = some d ∧ p.Rendition o c h k q d

/-- Two workspaces in which an image is there, with the directory that its renditions go to, and which
differ, where these go, by renditions that only one of them has. -/
structure Coupled [Codec] (p : OutputPlan) (o : Options) (c : Content) (h : Header) (sizes : List Number)
    (x y : Workspace) : Prop where
  left : p.Ready c x
  right : p.Ready c y
  places : ∀ k ∈ sizes, ∀ q, p.Place o k q →
    x.files.get? q = y.files.get? q ∨ p.Adds o c h k q x y ∨ p.Adds o c h k q y x

theorem Ready.of_evolves {created : List String → Prop} (hx : p.Ready c x)
    (he : Evolves Nowhere created x x') : p.Ready c x' :=
  ⟨he.isSound, he.content?_of_some id hx.source, he.isDirectory _ hx.directory⟩

/-- Where a rendition goes, a step that makes another file leaves all as it is. -/
theorem Place.get?_eq (hq : p.Place o k q) (hp : p.IsFor o) (hname : o.NamesAlternate)
    (he : Evolves Nowhere P.Here x x') (hfounds : Founds (· <+: p.directory.parts) x x')
    (hne : q ≠ P.parts) : x'.files.get? q = x.files.get? q := by
  rcases Tree.get?_eq_or (he.content?_eq id hne) (he.isDirectory q) with hget | ⟨hnone, hdir⟩
  · exact hget
  · obtain ⟨n, rfl⟩ := hq.exists_name hp hname
    rcases hfounds.isDirectory _ (Tree.isDirectory_iff.mpr hdir) with hbefore | hprefix
    · rw [Tree.isDirectory_iff, hnone] at hbefore
      cases hbefore
    · have hle := hprefix.length_le
      rw [List.length_append, List.length_singleton] at hle
      omega

/-- Steps that make a file at one place in both workspaces, or in one of them, after which the two have
the same there. -/
theorem Coupled.of_made [Codec] (hxy : p.Coupled o c h sizes x y) (hp : p.IsFor o)
    (hname : o.NamesAlternate) (hx : Evolves Nowhere P.Here x x')
    (hfx : Founds (· <+: p.directory.parts) x x') (hy : Evolves Nowhere P.Here y y')
    (hfy : Founds (· <+: p.directory.parts) y y')
    (hP : x'.files.get? P.parts = y'.files.get? P.parts) : p.Coupled o c h sizes x' y' := by
  refine ⟨hxy.left.of_evolves hx, hxy.right.of_evolves hy, fun k hk q hq ↦ ?_⟩
  by_cases hne : q = P.parts
  · exact .inl (hne ▸ hP)
  · have hxq := hq.get?_eq hp hname hx hfx hne
    have hyq := hq.get?_eq hp hname hy hfy hne
    have hxc : x'.files.content? q = x.files.content? q := hx.content?_eq id hne
    have hyc : y'.files.content? q = y.files.content? q := hy.content?_eq id hne
    rw [hxq, hyq]
    refine (hxy.places k hk q hq).imp_right (.imp ?_ ?_)
    · rintro ⟨habsent, d, hd, hmade⟩
      exact ⟨hxq ▸ habsent, d, hyc ▸ hd, hmade⟩
    · rintro ⟨habsent, d, hd, hmade⟩
      exact ⟨hyq ▸ habsent, d, hxc ▸ hd, hmade⟩

/-- Workspaces that are coupled by chance have the same rendition where both have one. -/
theorem Adds.get?_eq [Codec] (hadds : p.Adds o c h k q x y) (hd : p.Rendition o c h k q d)
    (hx' : x'.files.content? q = some d) : x'.files.get? q = y.files.get? q := by
  obtain ⟨-, d', hd', hmade⟩ := hadds
  obtain rfl := hd.unique hmade
  rw [Tree.content?_eq_some_iff.mp hx', Tree.content?_eq_some_iff.mp hd']

end OutputPlan

namespace Variant

open OutputPlan

variable {p : OutputPlan} {o : Options} {c : Content} {h : Header} {sizes ks : List Number}
  {k : Number} {x x' y y' : Workspace}

/-- What is made for an image keeps to one place and to the directories on the way there. -/
theorem coupled_ensureAlternate [Codec] (hxy : p.Coupled o c h sizes x y) (hp : p.IsFor o)
    (hname : o.NamesAlternate) {r s : Except Fault Bool}
    (hx : (ensureAlternate p k o).run x = (r, x')) (hy : (ensureAlternate p k o).run y = (s, y'))
    (hP : x'.files.get? (p.sizedAlternatePath k).parts =
      y'.files.get? (p.sizedAlternatePath k).parts) : p.Coupled o c h sizes x' y' :=
  hxy.of_made hp hname
    (((within_ensureAlternate hp k).evolves hxy.left.isSound hx).mono (fun _ ↦ id) fun _ h ↦ .inr h.2)
    ((founding_ensureAlternate hp (fun _ ↦ id) k).founds hxy.left.isSound hx)
    (((within_ensureAlternate hp k).evolves hxy.right.isSound hy).mono (fun _ ↦ id) fun _ h ↦ .inr h.2)
    ((founding_ensureAlternate hp (fun _ ↦ id) k).founds hxy.right.isSound hy) hP

/-- An alternate rendition that comes out in one of two coupled workspaces comes out in the other. -/
theorem run_ensureAlternate_of_coupled [Codec] (hxy : p.Coupled o c h sizes x y) (hp : p.IsFor o)
    (hname : o.NamesAlternate) (hh : c.header? = some h) (hk : k ∈ sizes) {b : Bool}
    (hrun : (ensureAlternate p k o).run y = (.ok b, y')) :
    ∃ x', (ensureAlternate p k o).run x = (.ok b, x') ∧ p.Coupled o c h sizes x' y' := by
  by_cases htruthy : o.altFormat.truthy = true
  · have hq : p.Place o k (p.sizedAlternatePath k).parts := .inr ⟨htruthy, rfl⟩
    have hplaces := hxy.places k hk _ hq
    obtain rfl : b = true := (eq_truthy_of_ensureAlternate hrun).trans htruthy
    by_cases hget : x.files.get? (p.sizedAlternatePath k).parts = none
    · by_cases hgety : y.files.get? (p.sizedAlternatePath k).parts = none
      · rcases run_ensureAlternate_cases hxy.right.isSound hp k with
          ⟨f, y₁, hfail, -⟩ | ⟨b', hsame⟩ |
            ⟨a, c', h', d, y₁, hc', hh', hd, ha, -, hvacant, hok, hnew, -⟩
        · rw [hfail] at hrun
          cases hrun
        · have hthere := get?_of_ensureAlternate hxy.right.isSound hp hname hsame htruthy
          exact absurd hgety hthere
        · cases hxy.right.source.symm.trans hc'
          cases hh.symm.trans hh'
          cases hok.symm.trans hrun
          have hmade := run_ensureAlternate_of_none hxy.left hp hname hh htruthy hvacant.isWritable
            ha hd hget
          refine ⟨_, hmade, coupled_ensureAlternate hxy hp hname hmade hok ?_⟩
          rw [Tree.content?_eq_some_iff.mp hnew]
          exact Tree.content?_eq_some_iff.mp (Tree.content?_put_self hvacant.isWritable.ne_nil d)
      · have hsame := run_ensureAlternate_of_get? hxy.right.isSound hp hname htruthy hgety
        cases hsame.symm.trans hrun
        rcases hplaces with heq | hadds | hadds
        · exact absurd (heq ▸ hget) hgety
        · obtain ⟨-, d, -, hd⟩ := id hadds
          cases hd with
          | sized hsame _ _ hne => exact absurd hsame.symm (hne htruthy)
          | alternate _ _ hwritable ha hd' =>
            have hmade := run_ensureAlternate_of_none hxy.left hp hname hh htruthy hwritable ha hd'
              hget
            refine ⟨_, hmade, coupled_ensureAlternate hxy hp hname hmade hsame ?_⟩
            exact hadds.get?_eq (.alternate rfl htruthy hwritable ha hd')
              (Tree.content?_put_self hwritable.ne_nil d)
        · exact absurd hadds.absent hgety
    · have hsame := run_ensureAlternate_of_get? hxy.left.isSound hp hname htruthy hget
      refine ⟨x, hsame, coupled_ensureAlternate hxy hp hname hsame hrun ?_⟩
      rcases hplaces with heq | hadds | hadds
      · rw [heq] at hget
        cases (run_ensureAlternate_of_get? hxy.right.isSound hp hname htruthy hget).symm.trans hrun
        exact heq
      · exact absurd hadds.absent hget
      · -- the first workspace has a rendition that the second one makes now
        rcases run_ensureAlternate_cases hxy.right.isSound hp k with
          ⟨f, y₁, hfail, -⟩ | ⟨b', hsame'⟩ |
            ⟨a, c', h', d, y₁, hc', hh', hd, ha, -, hvacant, hok, hnew, -⟩
        · rw [hfail] at hrun
          cases hrun
        · exact absurd hadds.absent (get?_of_ensureAlternate hxy.right.isSound hp hname hsame' htruthy)
        · cases hxy.right.source.symm.trans hc'
          cases hh.symm.trans hh'
          cases hok.symm.trans hrun
          exact (hadds.get?_eq (.alternate rfl htruthy hvacant.isWritable ha hd) hnew).symm
  · have hskip : ∀ z, (ensureAlternate p k o).run z = (.ok false, z) := fun z ↦ by
      rw [ensureAlternate, if_neg htruthy]
      rfl
    cases (hskip y).symm.trans hrun
    exact ⟨x, hskip x, hxy⟩

theorem coupled_ensureSized [Codec] (hxy : p.Coupled o c h sizes x y) (hp : p.IsFor o)
    (hname : o.NamesAlternate) {r s : Except Fault Header}
    (hx : (ensureSized p k o).run x = (r, x')) (hy : (ensureSized p k o).run y = (s, y'))
    (hP : x'.files.get? (p.sizedPath k).parts = y'.files.get? (p.sizedPath k).parts) :
    p.Coupled o c h sizes x' y' :=
  hxy.of_made hp hname ((within_ensureSized hp k).evolves hxy.left.isSound hx)
    ((founding_ensureSized hp (fun _ ↦ id) k).founds hxy.left.isSound hx)
    ((within_ensureSized hp k).evolves hxy.right.isSound hy)
    ((founding_ensureSized hp (fun _ ↦ id) k).founds hxy.right.isSound hy) hP

/-- A sized rendition that comes out in one of two coupled workspaces comes out in the other, once the
alternate one is there in both. -/
theorem run_ensureSized_of_coupled [Codec] (hxy : p.Coupled o c h sizes x y) (hp : p.IsFor o)
    (hname : o.NamesAlternate) (hh : c.header? = some h) (hk : k ∈ sizes)
    (halternate : o.altFormat.truthy = true → x.files.get? (p.sizedAlternatePath k).parts ≠ none ∧
      y.files.get? (p.sizedAlternatePath k).parts ≠ none) {e : Header}
    (hrun : (ensureSized p k o).run y = (.ok e, y')) :
    ∃ e' x', (ensureSized p k o).run x = (.ok e', x') ∧ p.Coupled o c h sizes x' y' ∧
      (e'.width, e'.height) = (e.width, e.height) := by
  have hplaces := hxy.places k hk _ (.inl rfl)
  have hne {z : Workspace} (hz : z.files.get? (p.sizedPath k).parts = none)
      (hthere : o.altFormat.truthy = true → z.files.get? (p.sizedAlternatePath k).parts ≠ none) :
      o.altFormat.truthy = true → (p.sizedPath k).parts ≠ (p.sizedAlternatePath k).parts :=
    fun htruthy heq ↦ hthere htruthy (heq ▸ hz)
  rcases run_ensureSized_cases hxy.right.isSound hp k with
    ⟨f, y₁, hfail, -⟩ | ⟨d, e', hd, he, hsame⟩ |
      ⟨c', h', d, e', y₁, hc', hh', hd, hsize, hvacant, hok, hnew, -⟩
  · rw [hfail] at hrun
    cases hrun
  · cases hsame.symm.trans hrun
    have hget := Tree.content?_eq_some_iff.mp hd
    rcases hplaces with heq | hadds | hadds
    · have hx := run_ensureSized_of_content? hxy.left.isSound hp
        (Tree.content?_eq_some_iff.mpr (heq.trans hget)) he
      exact ⟨_, x, hx, coupled_ensureSized hxy hp hname hx hsame heq, rfl⟩
    · -- the first workspace lacks what the second one has
      obtain ⟨habsent, d', hd', hmade⟩ := id hadds
      cases hd.symm.trans hd'
      cases hmade with
      | alternate heq htruthy _ _ _ => exact absurd (heq ▸ habsent) (halternate htruthy).1
      | sized _ hwritable hsized hne' =>
        obtain ⟨e₁, hsize₁, hx⟩ :=
          run_ensureSized_of_none hxy.left hp hname hh hwritable hsized habsent
        obtain ⟨e₂, he₂, hsize₂⟩ := Rendition.exists_header (.sized rfl hwritable hsized hne')
        cases he.symm.trans he₂
        refine ⟨e₁, _, hx, coupled_ensureSized hxy hp hname hx hsame ?_,
          Except.ok.inj (hsize₁.symm.trans hsize₂)⟩
        exact hadds.get?_eq (.sized rfl hwritable hsized hne')
          (Tree.content?_put_self hwritable.ne_nil d)
    · exact absurd hget (hadds.absent ▸ nofun)
  · cases hxy.right.source.symm.trans hc'
    cases hh.symm.trans hh'
    cases hok.symm.trans hrun
    have hrendition : p.Rendition o c h k (p.sizedPath k).parts d :=
      .sized rfl hvacant.isWritable hd (hne hvacant.get? fun htruthy ↦ (halternate htruthy).2)
    rcases hplaces with heq | hadds | hadds
    · obtain ⟨e₁, hsize₁, hx⟩ := run_ensureSized_of_none hxy.left hp hname hh hvacant.isWritable hd
        (heq.trans hvacant.get?)
      refine ⟨e₁, _, hx, coupled_ensureSized hxy hp hname hx hok ?_,
        Except.ok.inj (hsize₁.symm.trans hsize)⟩
      rw [Tree.content?_eq_some_iff.mp hnew]
      exact Tree.content?_eq_some_iff.mp (Tree.content?_put_self hvacant.isWritable.ne_nil d)
    · obtain ⟨-, d', hd', -⟩ := hadds
      rw [Tree.content?_eq_some_iff, hvacant.get?] at hd'
      cases hd'
    · obtain ⟨-, d', hd', hmade⟩ := id hadds
      obtain rfl := hrendition.unique hmade
      obtain ⟨e₁, he₁, hsize₁⟩ := hrendition.exists_header
      have hx := run_ensureSized_of_content? hxy.left.isSound hp hd' he₁
      refine ⟨e₁, x, hx, coupled_ensureSized hxy hp hname hx hok ?_,
        Except.ok.inj (hsize₁.symm.trans hsize)⟩
      exact (hadds.get?_eq hrendition hnew).symm

/-- A size that comes out in one of two coupled workspaces comes out in the other. -/
theorem run_ofSize_of_coupled [Codec] (hxy : p.Coupled o c h sizes x y) (hp : p.IsFor o)
    (hname : o.NamesAlternate) (hh : c.header? = some h) (hk : k ∈ sizes) {v? : Option Variant}
    (hrun : (ofSize p k h o).run y = (.ok v?, y')) :
    ∃ x', (ofSize p k h o).run x = (.ok v?, x') ∧ p.Coupled o c h sizes x' y' := by
  rw [ofSize] at hrun ⊢
  split at hrun
  · rename_i hlarge
    rw [if_pos hlarge]
    cases hrun
    exact ⟨x, rfl, hxy⟩
  · rename_i hfits
    rw [if_neg hfits]
    obtain ⟨b, y₁, halternate, hrun⟩ := run_bind_eq_ok.mp hrun
    obtain ⟨e, y₂, hsized, hrun⟩ := run_bind_eq_ok.mp hrun
    cases hrun
    obtain ⟨x₁, halternate', hxy₁⟩ := run_ensureAlternate_of_coupled hxy hp hname hh hk halternate
    have hboth : o.altFormat.truthy = true → x₁.files.get? (p.sizedAlternatePath k).parts ≠ none ∧
        y₁.files.get? (p.sizedAlternatePath k).parts ≠ none := fun htruthy ↦
      ⟨get?_of_ensureAlternate hxy.left.isSound hp hname halternate' htruthy,
        get?_of_ensureAlternate hxy.right.isSound hp hname halternate htruthy⟩
    obtain ⟨e', x₂, hsized', hxy₂, hdimensions⟩ :=
      run_ensureSized_of_coupled hxy₁ hp hname hh hk hboth hsized
    obtain ⟨hwidth, hheight⟩ := Prod.mk.inj hdimensions
    refine ⟨x₂, (run_bind_of_ok halternate').trans ((run_bind_of_ok hsized').trans ?_), hxy₂⟩
    rw [hwidth, hheight]
    rfl

/-- Sizes that come out in one of two coupled workspaces come out in the other. -/
theorem exists_runs_of_coupled [Codec] (hp : p.IsFor o) (hname : o.NamesAlternate)
    (hh : c.header? = some h)
    (hks : ∀ k ∈ ks, k ∈ sizes) (hxy : p.Coupled o c h sizes x y) {found : List (Option Variant)}
    (hruns : Runs (fun k ↦ attempt (ofSize p k h o)) y ks (found.map .ok) y') :
    ∃ x', Runs (fun k ↦ attempt (ofSize p k h o)) x ks (found.map .ok) x' := by
  induction ks generalizing x y found with
  | nil =>
    cases found with
    | cons v? found => cases hruns
    | nil => exact ⟨x, .nil⟩
  | cons k ks ih =>
    obtain ⟨hk, hks⟩ := List.forall_mem_cons.mp hks
    cases found with
    | nil => cases hruns
    | cons v? found =>
      cases hruns with
      | cons hrun hruns =>
        obtain ⟨x₁, hrun', hxy₁⟩ :=
          run_ofSize_of_coupled hxy hp hname hh hk (run_attempt_eq_ok.mp hrun)
        obtain ⟨x', hruns'⟩ := ih hks hxy₁ hruns
        exact ⟨x', .cons (run_attempt_eq_ok.mpr hrun') hruns'⟩

/-- Variants that come out in one of two coupled workspaces come out in the other. -/
theorem run_ofSizes_of_coupled [Codec] (hxy : p.Coupled o c h sizes x y) (hp : p.IsFor o)
    (hname : o.NamesAlternate) (hh : c.header? = some h) {variants : List Variant}
    (hrun : (ofSizes p sizes h o).run y = (.ok variants, y')) :
    ∃ x', (ofSizes p sizes h o).run x = (.ok variants, x') := by
  obtain ⟨found, rfl, hruns⟩ := run_ofSizes_eq_ok_iff.mp hrun
  obtain ⟨x', hruns'⟩ := exists_runs_of_coupled hp hname hh (fun _ ↦ id) hxy hruns
  exact ⟨x', run_ofSizes_eq_ok_iff.mpr ⟨found, rfl, hruns'⟩⟩

end Variant

namespace OutputPlan

variable {p : OutputPlan} {o : Options} {c : Content} {h : Header} {sizes : List Number}
  {w x y : Workspace}

/-- No directory has come to be where the renditions of an image go. -/
def StaysFlat (p : OutputPlan) (o : Options) (sizes : List Number) (w x : Workspace) : Prop :=
  ∀ k ∈ sizes, ∀ q, p.Place o k q → x.files.isDirectory q = true → w.files.isDirectory q = true

/-- What is known of a workspace that follows an earlier one, entry by entry. -/
theorem get?_eq_or_adds [Codec] (hx : Variant.Follows p o sizes w x) (hflat : p.StaysFlat o sizes w x)
    (hc : x.files.content? p.source.parts = some c) (hh : c.header? = some h) {k : Number}
    (hk : k ∈ sizes) {q : List String} (hq : p.Place o k q) :
    x.files.get? q = w.files.get? q ∨ p.Adds o c h k q w x := by
  rcases hx.fits k hk q hq with heq | ⟨hnone, c', h', d, hc', hh', hd, hmade⟩
  · rcases Tree.get?_eq_or heq (hx.isDirectory q) with hget | ⟨hnone, hdir⟩
    · exact .inl hget
    · have hbefore := hflat k hk q hq (Tree.isDirectory_iff.mpr hdir)
      rw [Tree.isDirectory_iff, hnone] at hbefore
      cases hbefore
  · cases hc.symm.trans hc'
    cases hh.symm.trans hh'
    exact .inr ⟨hnone, d, hd, hmade⟩

/-- Two workspaces that follow a third one are coupled, once the image is there in both. -/
theorem coupled_of_follows [Codec] (hx : Variant.Follows p o sizes w x)
    (hy : Variant.Follows p o sizes w y)
    (hxf : p.StaysFlat o sizes w x) (hyf : p.StaysFlat o sizes w y) (hxr : p.Ready c x)
    (hyr : p.Ready c y) (hh : c.header? = some h) : p.Coupled o c h sizes x y := by
  refine ⟨hxr, hyr, fun k hk q hq ↦ ?_⟩
  rcases get?_eq_or_adds hx hxf hxr.source hh hk hq with hxq | hxq
  · rcases get?_eq_or_adds hy hyf hyr.source hh hk hq with hyq | ⟨hnone, hyq⟩
    · exact .inl (hxq.trans hyq.symm)
    · exact .inr (.inl ⟨hxq.trans hnone, hyq⟩)
  · rcases get?_eq_or_adds hy hyf hyr.source hh hk hq with hyq | hyq
    · exact .inr (.inr ⟨hyq.trans hxq.absent, hxq.made⟩)
    · obtain ⟨-, d, hd, hmade⟩ := hxq
      exact .inl (hyq.get?_eq hmade hd)

end OutputPlan

end ResponsiveImage
