import ResponsiveImage.Proofs.Job.Making
import ResponsiveImage.Proofs.Picture.Renditions

/-!
# Making the files of an image again

What has been made of an image could have been made before: the same picture, at any time at which it
was there, gives the same files, as long as nothing else has the place of one of them.
-/

namespace ResponsiveImage

open Workspace (Evolves)
open Job

variable {p : OutputPlan} {o : Options} {w w' x x' : Workspace} {c : Content}

/-! ## Copies -/

namespace OutputPlan

/-- What a copy in its place tells: it can be written, and its directory can be made. -/
structure IsCopied (p : OutputPlan) (c : Content) (w : Workspace) : Prop where
  isWritable : IsWritable p.path
  copy : w.files.content? p.path.parts = some c

theorem isCopied_of_stage (hw : w.IsSound) (hp : p.IsFor o) (hne : p.path ≠ p.source) {u : Unit}
    (hrun : p.stage.run w = (.ok u, w')) :
    ∃ c, w.files.content? p.source.parts = some c ∧ p.IsCopied c w' := by
  obtain ⟨c, hc, hcopy, hshort⟩ := content?_of_stage hw hp hne hrun
  have hget := Tree.content?_eq_some_iff.mp hcopy
  have hw' := ((within_stage hp).evolves hw hrun).isSound
  refine ⟨c, hc, ⟨by simp [hp.parts_path], fun n hn ↦ ?_, hshort⟩, hcopy⟩
  exact hw'.files.isEntryName_of_get? hget n (List.mem_of_getLast? hn)

theorem IsCopied.isDirectory (h : p.IsCopied c w) (hw : w.IsSound) (hp : p.IsFor o) :
    w.files.isDirectory p.directory.parts = true := by
  have hdir := hw.files.isDirectory_dropLast (Tree.content?_eq_some_iff.mp h.copy)
  rwa [hp.parts_path, List.dropLast_concat] at hdir

/-- The copy of an image can be put in its place: the directory can be made, and no directory stands
where the copy goes. -/
structure CanStage (p : OutputPlan) (w : Workspace) : Prop where
  clear : IsClear w p.directory
  isWritable : IsWritable p.path
  free : w.files.isDirectory p.path.parts = false

theorem canStage_of_stage (hw : w.IsSound) (hp : p.IsFor o) (hne : p.path ≠ p.source) {u : Unit}
    (hrun : p.stage.run w = (.ok u, w')) : p.CanStage w := by
  obtain ⟨c, -, hcopied⟩ := isCopied_of_stage hw hp hne hrun
  have he := (within_stage hp).evolves hw hrun
  rw [run_stage, run_bind_eq_ok] at hrun
  obtain ⟨v, w₁, hensure, -⟩ := hrun
  refine ⟨isClear_of_ensureDirectories hw hp.directory hensure, hcopied.isWritable, ?_⟩
  rw [← Bool.not_eq_true]
  intro hdir
  have hafter := he.isDirectory _ hdir
  rw [Tree.not_isDirectory_of_content? hcopied.copy] at hafter
  cases hafter

/-- An image that can be copied is. -/
theorem run_stage_of_canStage (hw : w.IsSound) (hp : p.IsFor o) (hne : p.path ≠ p.source)
    (hc : w.files.content? p.source.parts = some c) (h : p.CanStage w) :
    ∃ w', p.stage.run w = (.ok (), w') := by
  obtain ⟨w₁, hensure⟩ := run_ensureDirectories_of_clear hw hp.directory h.clear
  have he₁ := (within_ensureDirectories hp.directory).evolves hw hensure
  have hparent : w₁.files.isDirectory p.path.parts.dropLast = true := by
    rw [hp.parts_path, List.dropLast_concat]
    exact isDirectory_of_ensureDirectories hw hp.directory hensure
  have hdir : w₁.files.isDirectory p.path.parts = false := by
    have hfounds := (founding_ensureDirectories (D := (· <+: p.directory.parts)) hp.directory
      fun _ ↦ id).founds hw hensure
    rw [← Bool.not_eq_true]
    intro htrue
    rcases hfounds.isDirectory _ htrue with hbefore | hon
    · rw [h.free] at hbefore
      cases hbefore
    · have hle := hon.length_le
      rw [hp.parts_path, List.length_append, List.length_singleton] at hle
      omega
  have hsource := he₁.content?_of_some id hc
  have hread : (readFile p.source).run w₁ = (.ok c, w₁) :=
    (run_readFile_eq_ok_iff he₁.isSound hp.source).mpr ⟨rfl, hsource⟩
  have hwrite : (do writeFile p.path (← readFile p.source) : Job Unit).run w₁ =
      (.ok (), { w₁ with files := w₁.files.put p.path.parts (.file c) }) := by
    rw [run_bind_of_ok hread]
    exact run_writeFile_of_isWritable he₁.isSound hp.isResolved_path h.isWritable hparent hdir c
  have hplace := run_place?_of_isWritable he₁.isSound hp.isResolved_path h.isWritable hparent
  rw [run_stage, run_bind_of_ok hensure, run_bind_of_ok hplace]
  split
  · rename_i target htarget
    have hown : (place p.source).run w₁ = (.ok p.source.parts, w₁) :=
      (run_place_eq_ok_iff he₁.isSound hp.source).mpr
        ⟨rfl, rfl, Option.isSome_of_eq_some (Tree.content?_eq_some_iff.mp hsource)⟩
    obtain ⟨e, -, rfl⟩ := Option.map_eq_some_iff.mp htarget
    rw [run_bind_of_ok hown, if_neg fun heq ↦ hne (hp.isResolved_path.ext hp.source heq.symm)]
    exact ⟨_, hwrite⟩
  · exact ⟨_, hwrite⟩

/-! ## Optimised pictures -/

theorem run_inlineData_of_content? {q : Path} (hw : w.IsSound) (hq : q.IsResolved)
    (hc : w.files.content? q.parts = some c) :
    (Picture.inlineData q).run w =
      ((match Picture.mimeType? q.name c with
        | some mime => .ok (Picture.dataUri mime c.data)
        | none => .error (.picture (.untyped q.toString))), w) := by
  have hread : (readFile q).run w = (.ok c, w) := (run_readFile_eq_ok_iff hw hq).mpr ⟨rfl, hc⟩
  rw [Picture.inlineData, run_bind_of_ok hread]
  cases Picture.mimeType? q.name c with
  | some mime => rfl
  | none => rfl

variable [Codec]

theorem run_optimizeSingle_of_isInlined (hw : w.IsSound) (hp : p.IsFor o)
    (hc : w.files.content? p.source.parts = some c) (h : isInlined o c.size = .ok true) :
    (p.optimizeSingle o).run w = (Picture.inlineData p.source).run w := by
  rw [optimizeSingle, run_bind_of_ok (run_fileSize_of_content? hw hp.source hc), h,
    run_bind_of_ok (run_ofExcept_ok _ _ _), if_pos rfl]

/-- What replaces an image tag is the same at all times at which there is a copy of the image. -/
theorem run_optimizeSingle_of_isCopied (hw : w.IsSound) (hx : x.IsSound) (hp : p.IsFor o)
    {d : Content} (hcopied : p.IsCopied d w) (hcw : w.files.content? p.source.parts = some c)
    (hcx : x.files.content? p.source.parts = some c) {uri : String}
    (hrun : (p.optimizeSingle o).run x = (.ok uri, x')) :
    ∃ w', (p.optimizeSingle o).run w = (.ok uri, w') := by
  rcases run_optimizeSingle_cases hx hp with
    ⟨f, x₁, hfail, -⟩ | ⟨c₁, uri₁, hc₁, hinlined, -⟩ |
      ⟨c₁, h, d₁, x₁, hc₁, hheader, hlarge, hd₁, hok, -, -, -⟩
  · rw [hfail] at hrun
    cases hrun
  · cases hcx.symm.trans hc₁
    rw [run_optimizeSingle_of_isInlined hx hp hcx hinlined,
      run_inlineData_of_content? hx hp.source hcx] at hrun
    rw [run_optimizeSingle_of_isInlined hw hp hcw hinlined,
      run_inlineData_of_content? hw hp.source hcw]
    exact ⟨w, Prod.ext (Prod.ext_iff.mp hrun).1 rfl⟩
  · cases hcx.symm.trans hc₁
    rw [hok] at hrun
    cases hrun
    exact ⟨_, run_optimizeSingle_of_staged hw hp hcw hheader hlarge hd₁ hcopied.copy
      hcopied.isWritable.short⟩

/-! ## Renditions -/

variable {h : Header} {k : Number} {sizes : List Number} {q : List String} {d : Content}

/-- The places of the renditions of one size. -/
def Place (p : OutputPlan) (o : Options) (k : Number) (q : List String) : Prop :=
  q = (p.sizedPath k).parts ∨ o.altFormat.truthy = true ∧ q = (p.sizedAlternatePath k).parts

/-- What is made for one size at one of its places.  Where both places are one, it is the rendition in
the alternate format, which comes first. -/
inductive Rendition (p : OutputPlan) (o : Options) (c : Content) (h : Header) (k : Number)
    (q : List String) (d : Content) : Prop
  | sized (hq : q = (p.sizedPath k).parts) (hwritable : IsWritable (p.sizedPath k))
      (hd : Picture.sizedOf o c h k = .ok d)
      (hne : o.altFormat.truthy = true → (p.sizedPath k).parts ≠ (p.sizedAlternatePath k).parts)
  | alternate (hq : q = (p.sizedAlternatePath k).parts) (htruthy : o.altFormat.truthy = true)
      (hwritable : IsWritable (p.sizedAlternatePath k)) {a : AltFormat}
      (ha : o.altSettings = .ok a) (hd : Picture.alternateOf a c h k = .ok d)

theorem Rendition.unique {d' : Content} (hd : p.Rendition o c h k q d)
    (hd' : p.Rendition o c h k q d') : d = d' := by
  cases hd with
  | sized hq _ hd hne =>
    cases hd' with
    | sized _ _ hd' _ => exact Except.ok.inj (hd.symm.trans hd')
    | alternate hq' htruthy _ _ _ => exact absurd (hq.symm.trans hq') (hne htruthy)
  | alternate hq htruthy _ ha hd =>
    cases hd' with
    | sized hq' _ _ hne => exact absurd (hq'.symm.trans hq) (hne htruthy)
    | alternate _ _ _ ha' hd' =>
      cases ha.symm.trans ha'
      exact Except.ok.inj (hd.symm.trans hd')

/-- Where the renditions of an image go, the files are those of an earlier workspace, or renditions of
the image where nothing was. -/
def Fits (p : OutputPlan) (o : Options) (sizes : List Number) (w x : Workspace) : Prop :=
  ∀ k ∈ sizes, ∀ q, p.Place o k q → x.files.content? q = w.files.content? q ∨
    w.files.get? q = none ∧ ∃ c h d, x.files.content? p.source.parts = some c ∧
      c.header? = some h ∧ x.files.content? q = some d ∧ p.Rendition o c h k q d

theorem Fits.refl : p.Fits o sizes w w := fun _ _ _ _ ↦ .inl rfl

/-- Steps that put nothing where the renditions go and leave the image as it is. -/
theorem Fits.of_evolves {changed created : List String → Prop} (hfits : p.Fits o sizes w x)
    (he : Evolves changed created x x')
    (hsource : ∀ c, x.files.content? p.source.parts = some c →
      x'.files.content? p.source.parts = some c)
    (hplaces : ∀ k ∈ sizes, ∀ q, p.Place o k q → ¬ changed q ∧ ¬ created q) :
    p.Fits o sizes w x' := by
  intro k hk q hq
  have heq := he.content?_eq (hplaces k hk q hq).1 (hplaces k hk q hq).2
  rw [heq]
  exact (hfits k hk q hq).imp_right fun ⟨hnone, c, h, d, hc, hrest⟩ ↦
    ⟨hnone, c, h, d, hsource c hc, hrest⟩

/-- A step that makes a rendition where nothing was. -/
theorem Fits.of_created {target : Path} (hfits : p.Fits o sizes w x)
    (hdirs : ∀ q, w.files.isDirectory q = true → x.files.isDirectory q = true)
    (he : Evolves Nowhere target.Here x x') (hvacant : x.files.get? target.parts = none)
    (hd : x'.files.content? target.parts = some d)
    (hmade : ∀ k ∈ sizes, p.Place o k target.parts → ∃ c h,
      x.files.content? p.source.parts = some c ∧ c.header? = some h ∧
        p.Rendition o c h k target.parts d) :
    p.Fits o sizes w x' := by
  intro k hk q hq
  by_cases htarget : q = target.parts
  · subst htarget
    obtain ⟨c, h, hc, hh, hmade⟩ := hmade k hk hq
    have hnone : w.files.get? target.parts = none := by
      cases hget : w.files.get? target.parts with
      | none => rfl
      | some e =>
        cases e with
        | directory =>
          have hdir := hdirs _ (Tree.isDirectory_iff.mpr hget)
          rw [Tree.isDirectory_iff, hvacant] at hdir
          cases hdir
        | file c' =>
          have hempty : x.files.content? target.parts = none := by simp [Tree.content?, hvacant]
          rcases hfits k hk _ hq with heq | ⟨hnone, -⟩
          · rw [hempty, Tree.content?_eq_some_iff.mpr hget] at heq
            cases heq
          · rw [hget] at hnone
            cases hnone
    exact .inr ⟨hnone, c, h, d, he.content?_of_some id hc, hh, hd, hmade⟩
  · rw [he.content?_eq id htarget]
    refine (hfits k hk q hq).imp_right ?_
    rintro ⟨hnone, c, h, d, hc, hrest⟩
    exact ⟨hnone, c, h, d, he.content?_of_some id hc, hrest⟩

/-- A rendition of an image has the place of one of another image, or of another size, in no case. -/
def Spares (p : OutputPlan) (o : Options) (sizes : List Number) (q : OutputPlan) (k : Number) : Prop :=
  ∀ l ∈ sizes, ∀ r, q.Place o k r → p.Place o l r → q = p ∧ k = l

end OutputPlan

/-- The alternate format, if one is wanted, has the name of one and is no path. -/
def Options.NamesAlternate (o : Options) : Prop :=
  o.altFormat.truthy = true → ∀ e, o.altExtension = .ok e → '/' ∉ e.toList

namespace Variant

open OutputPlan

variable {k : Number} {sizes : List Number} {q : OutputPlan} {D : List String → Prop}

variable [Codec]

theorem founding_ensureSized (hp : p.IsFor o) (hD : ∀ q, q <+: p.directory.parts → D q)
    (k : Number) : Founding D (ensureSized p k o) := by
  refine (looks_exists? _).founding.bind fun there ↦ ?_
  split
  · exact (Picture.looks_header _).founding
  · intro w hw
    rcases Picture.run_derive_cases hw hp.source k (p.sizedPath k) o with
      ⟨f, hrun⟩ | ⟨c, h, d, e, -, -, -, -, hrun⟩
    · rw [hrun]
      exact .refl hw
    · rw [hrun]
      refine ((founding_writeFile (hp.isResolved_sizedPath k) (fun q hq ↦ hD q ?_) d).bind
        fun _ ↦ founding_pure e) w hw
      rw [OutputPlan.sizedPath_eq hp.isName] at hq
      simpa using hq

theorem founding_ensureAlternate (hp : p.IsFor o) (hD : ∀ q, q <+: p.directory.parts → D q)
    (k : Number) : Founding D (ensureAlternate p k o) := by
  rw [ensureAlternate]
  split
  · refine (looks_exists? _).founding.bind fun there ↦ ?_
    dsimp only
    split
    · cases ha : o.altSettings with
      | error f =>
        intro w hw
        rw [run_bind_of_error (run_ofExcept_error _ _ _)]
        exact .refl hw
      | ok a =>
        intro w hw
        rw [run_bind_of_ok (run_ofExcept_ok _ _ _)]
        refine Founding.bind (fun w hw ↦ ?_) (fun _ ↦ founding_pure _) w hw
        rcases Picture.run_encodeAlternate_cases hw hp.source k (p.sizedAlternatePath k) a with
          ⟨f, hrun⟩ | ⟨c, h, d, -, -, hd, hrun⟩
        · rw [hrun]
          exact .refl hw
        · obtain ⟨format, _, _, hformat, hupper, -, -⟩ := Picture.alternateOf_eq_ok hd
          have heq := OutputPlan.sizedAlternatePath_eq hp.isName
            (OutputPlan.slash_not_mem_altExtension hp ha hformat hupper) k
          have hname := OutputPlan.isName_sizedAlternateName hp.isName
            (OutputPlan.slash_not_mem_altExtension hp ha hformat hupper) k
          rw [hrun, heq]
          refine founding_writeFile (hp.directory.child hname) (fun q hq ↦ hD q ?_) d w hw
          simpa using hq
    · exact founding_pure _
  · exact founding_pure _

theorem founding_ofSize (hp : p.IsFor o) (hD : ∀ q, q <+: p.directory.parts → D q) (k : Number)
    (h : Header) : Founding D (ofSize p k h o) := by
  rw [ofSize]
  split
  · exact founding_pure _
  · exact (founding_ensureAlternate hp hD k).bind fun _ ↦
      (founding_ensureSized hp hD k).bind fun _ ↦ founding_pure _

theorem founding_ofSizes (hp : p.IsFor o) (hD : ∀ q, q <+: p.directory.parts → D q)
    (sizes : List Number) (h : Header) : Founding D (ofSizes p sizes h o) :=
  (founding_mapM fun k _ ↦ (founding_ofSize hp hD k h).attempt).bind fun outcomes ↦
    (looks_gathered outcomes).founding

theorem get?_of_ensureAlternate (hx : x.IsSound) (hq : q.IsFor o) (hname : o.NamesAlternate)
    {b : Bool} (hrun : (ensureAlternate q k o).run x = (.ok b, x'))
    (htruthy : o.altFormat.truthy = true) :
    x'.files.get? (q.sizedAlternatePath k).parts ≠ none := by
  have hresolved := hq.isResolved_sizedAlternatePath (hname htruthy _ hq.altExtension) k
  rw [ensureAlternate, if_pos htruthy] at hrun
  obtain ⟨there, x₁, hexists, hrun⟩ := run_bind_eq_ok.mp hrun
  obtain ⟨rfl, hthere⟩ := run_exists?_eq_ok hx hresolved hexists
  cases there with
  | true =>
    cases hrun
    exact Option.isSome_iff_ne_none.mp hthere.symm
  | false =>
    dsimp only at hrun
    rw [if_pos (by decide)] at hrun
    cases ha : o.altSettings with
    | error f =>
      rw [ha, run_bind_of_error (run_ofExcept_error _ _ _)] at hrun
      cases hrun
    | ok a =>
      rw [ha, run_bind_of_ok (run_ofExcept_ok _ _ _)] at hrun
      obtain ⟨u, x₂, hencode, hrun⟩ := run_bind_eq_ok.mp hrun
      cases hrun
      rcases Picture.run_encodeAlternate_cases hx hq.source k (q.sizedAlternatePath k) a with
        ⟨f, hfail⟩ | ⟨c, h, d, -, -, -, hwrite⟩
      · rw [hfail] at hencode
        cases hencode
      · have hd := content?_of_writeFile hx hresolved (hwrite.symm.trans hencode)
        rw [Tree.content?_eq_some_iff.mp hd]
        exact Option.some_ne_none _

/-- What is known of a workspace all along the making of variants of some image: it comes after another
one, and the renditions of an image fit that. -/
structure Follows (p : OutputPlan) (o : Options) (sizes : List Number) (w x : Workspace) : Prop where
  isSound : x.IsSound
  isDirectory : ∀ q, w.files.isDirectory q = true → x.files.isDirectory q = true
  fits : p.Fits o sizes w x

theorem Follows.ensureAlternate (hx : Follows p o sizes w x) (hq : q.IsFor o)
    (hspares : p.Spares o sizes q k) : Follows p o sizes w ((ensureAlternate q k o).run x).2 := by
  have he := within_ensureAlternate hq k x hx.isSound
  refine ⟨he.isSound, fun r hr ↦ he.isDirectory r (hx.isDirectory r hr), ?_⟩
  rcases run_ensureAlternate_cases hx.isSound hq k with
    ⟨f, x₁, hrun, he⟩ | ⟨b, hrun⟩ |
      ⟨a, c, h, d, x₁, hc, hh, hd, ha, htruthy, hvacant, hrun, hnew, he⟩
  · rw [hrun]
    exact hx.fits.of_evolves he (fun c hc ↦ he.content?_of_some id hc) fun _ _ _ _ ↦ ⟨id, id⟩
  · rw [hrun]
    exact hx.fits
  · rw [hrun]
    refine hx.fits.of_created hx.isDirectory he hvacant.get? hnew fun l hl hplace ↦ ?_
    obtain ⟨rfl, rfl⟩ := hspares l hl _ (.inr ⟨htruthy, rfl⟩) hplace
    exact ⟨c, h, hc, hh, .alternate rfl htruthy hvacant.isWritable ha hd⟩

theorem Follows.ensureSized (hx : Follows p o sizes w x) (hq : q.IsFor o)
    (hspares : p.Spares o sizes q k)
    (halternate : o.altFormat.truthy = true → x.files.get? (q.sizedAlternatePath k).parts ≠ none) :
    Follows p o sizes w ((ensureSized q k o).run x).2 := by
  have he := within_ensureSized hq k x hx.isSound
  refine ⟨he.isSound, fun r hr ↦ he.isDirectory r (hx.isDirectory r hr), ?_⟩
  rcases run_ensureSized_cases hx.isSound hq k with
    ⟨f, x₁, hrun, he⟩ | ⟨d, e, -, -, hrun⟩ |
      ⟨c, h, d, e, x₁, hc, hh, hd, -, hvacant, hrun, hnew, he⟩
  · rw [hrun]
    exact hx.fits.of_evolves he (fun c hc ↦ he.content?_of_some id hc) fun _ _ _ _ ↦ ⟨id, id⟩
  · rw [hrun]
    exact hx.fits
  · rw [hrun]
    refine hx.fits.of_created hx.isDirectory he hvacant.get? hnew fun l hl hplace ↦ ?_
    obtain ⟨rfl, rfl⟩ := hspares l hl _ (.inl rfl) hplace
    refine ⟨c, h, hc, hh, .sized rfl hvacant.isWritable hd fun htruthy heq ↦ ?_⟩
    exact halternate htruthy (heq ▸ hvacant.get?)

/-- The variants of an image make renditions of that image only. -/
theorem Follows.ofSize (hx : Follows p o sizes w x) (hq : q.IsFor o) (hname : o.NamesAlternate)
    (hspares : p.Spares o sizes q k) (h : Header) :
    Follows p o sizes w ((ofSize q k h o).run x).2 := by
  rw [Variant.ofSize]
  split
  · exact hx
  · have halternate := hx.ensureAlternate hq hspares
    cases hrun : (Variant.ensureAlternate q k o).run x with
    | mk r x₁ =>
      rw [hrun] at halternate
      cases r with
      | error f =>
        rw [run_bind_of_error hrun]
        exact halternate
      | ok b =>
        have hsized := halternate.ensureSized hq hspares
          (get?_of_ensureAlternate hx.isSound hq hname hrun)
        rw [run_bind_of_ok hrun]
        cases hrun₁ : (Variant.ensureSized q k o).run x₁ with
        | mk r x₂ =>
          rw [hrun₁] at hsized
          cases r with
          | error f =>
            rw [run_bind_of_error hrun₁]
            exact hsized
          | ok e =>
            rw [run_bind_of_ok hrun₁]
            exact hsized

theorem Follows.ofSizes (hx : Follows p o sizes w x) (hq : q.IsFor o) (hname : o.NamesAlternate)
    {ks : List Number} (hspares : ∀ k ∈ ks, p.Spares o sizes q k) (h : Header) :
    Follows p o sizes w ((ofSizes q ks h o).run x).2 := by
  have hofSize : ∀ k ∈ ks, Ensures (Follows p o sizes w) (attempt (Variant.ofSize q k h o))
      fun _ ↦ True := fun k hk x hx ↦ ⟨hx.ofSize hq hname (hspares k hk) h, fun _ _ ↦ trivial⟩
  have hall := (ensures_mapM (R := fun _ _ ↦ True) hofSize).bind
    fun outcomes _ ↦ (looks_gathered outcomes).ensures
  exact (hall x hx).1

end Variant

end ResponsiveImage
