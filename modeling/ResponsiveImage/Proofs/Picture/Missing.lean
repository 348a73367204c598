import ResponsiveImage.Proofs.Picture.WholeSizes

/-!
# Making the renditions that are missing

While the renditions of an image are made, some of them may be there already.  As long as nothing
else stands where they go (`Working`), every size leaves it so, whether it comes out or fails; a size
that comes out leaves all its renditions; and a size whose renditions can be made comes out, wherever
some of them are (`run_ofSize_of_canMake`).  The same then holds of any number of sizes.
-/

namespace ResponsiveImage

open Workspace (Evolves)
open Job

/-! ## Pictures that come out -/

namespace Picture

variable {source : Path} {w : Workspace} {c d : Content} {h : Header} {o : Options}
  {k : Number} {a : AltFormat}

variable [Codec]

theorem run_derive_of_sizedOf (target : Path) (hw : w.IsSound) (hs : source.IsResolved)
    (hc : w.files.content? source.parts = some c) (hh : c.header? = some h)
    (hd : sizedOf o c h k = .ok d) :
    ∃ e : Header, resizedSize h k = .ok (e.width, e.height) ∧ (derive source k target o).run w =
      (do writeFile target d; return e : Job Header).run w := by
  have hread := (run_read_eq_ok_iff hw hs).mpr ⟨rfl, hc, hh⟩
  obtain ⟨e, he, hencode, hsize, -⟩ := sizedOf_eq_ok hd
  refine ⟨⟨e.format, e.width, e.height⟩, hsize, ?_⟩
  rw [derive, run_bind_of_ok hread]
  dsimp only
  rw [he, run_bind_of_ok (run_ofExcept_ok _ _ _), hencode, run_bind_of_ok (run_ofExcept_ok _ _ _)]

theorem run_encodeAlternate_of_alternateOf (target : Path) (hw : w.IsSound) (hs : source.IsResolved)
    (hc : w.files.content? source.parts = some c) (hh : c.header? = some h)
    (hd : alternateOf a c h k = .ok d) :
    (encodeAlternate source k target a).run w = (writeFile target d).run w := by
  have hread := (run_read_eq_ok_iff hw hs).mpr ⟨rfl, hc, hh⟩
  obtain ⟨format, hformat, hd⟩ := Options.exists_of_bind_eq_ok hd
  obtain ⟨e, he, hencode⟩ := Options.exists_of_bind_eq_ok hd
  rw [encodeAlternate, hformat, run_bind_of_ok (run_ofExcept_ok _ _ _), run_bind_of_ok hread]
  dsimp only
  rw [he, run_bind_of_ok (run_ofExcept_ok _ _ _), hencode, run_bind_of_ok (run_ofExcept_ok _ _ _)]

end Picture

/-! ## What is left of earlier runs -/

namespace OutputPlan

variable {p : OutputPlan} {o : Options} {c d : Content} {h : Header} {sizes : List Number}
  {k : Number} {q : List String} {w x x' : Workspace}

/-- Whatever is found under the name of a rendition of an image is that rendition. -/
def FindsOwn [Codec] (p : OutputPlan) (o : Options) (c : Content) (h : Header) (sizes : List Number)
    (w : Workspace) : Prop :=
  ∀ k ∈ sizes, ∀ i, o.Wants k i → ((exists? (p.placeOf i)).run w).1 = .ok true →
    ∃ d, w.files.content? (p.placeOf i).parts = some d ∧
      p.Rendition o c h k (p.placeOf i).parts d

/-- Whatever stands where a rendition of an image goes is that rendition. -/
def KeepsOwn [Codec] (p : OutputPlan) (o : Options) (c : Content) (h : Header) (sizes : List Number)
    (w : Workspace) : Prop :=
  ∀ k ∈ sizes, ∀ q, p.Place o k q → w.files.get? q ≠ none →
    ∃ d, w.files.content? q = some d ∧ p.Rendition o c h k q d

/-- An image that is to be made in some whole sizes, none of them larger than it is. -/
structure Making [Codec] (p : OutputPlan) (o : Options) (c : Content) (h : Header)
    (sizes : List Number) :
    Prop where
  isFor : p.IsFor o
  namesAlternate : o.NamesAlternate
  header : c.header? = some h
  whole : ∀ k ∈ sizes, ∃ n : Nat, k = .int n
  le : ∀ k ∈ sizes, k.le (.int h.width) = true

/-- The image is there, and so is the directory that its renditions go to. -/
structure Ready (p : OutputPlan) (c : Content) (x : Workspace) : Prop where
  isSound : x.IsSound
  source : x.files.content? p.source.parts = some c
  directory : x.files.isDirectory p.directory.parts = true

/-- What is known of a workspace all along the making: the image is there, the directory is, and
whatever stands where a rendition goes is that rendition. -/
structure Working [Codec] (p : OutputPlan) (o : Options) (c : Content) (h : Header) (sizes : List Number)
    (x : Workspace) : Prop where
  isSound : x.IsSound
  source : x.files.content? p.source.parts = some c
  directory : x.files.isDirectory p.directory.parts = true
  keepsOwn : p.KeepsOwn o c h sizes x

theorem Working.ready [Codec] (hx : p.Working o c h sizes x) : p.Ready c x :=
  ⟨hx.isSound, hx.source, hx.directory⟩

/-- All renditions of a size are there. -/
def IsFilled (p : OutputPlan) (o : Options) (k : Number) (x : Workspace) : Prop :=
  ∀ q, p.Place o k q → x.files.get? q ≠ none

/-- All renditions of a size can be made. -/
def CanMake [Codec] (p : OutputPlan) (o : Options) (c : Content) (h : Header) (k : Number) : Prop :=
  ∀ q, p.Place o k q → ∃ d, p.Rendition o c h k q d

theorem IsFor.slash_not_mem (hp : p.IsFor o) (hname : o.NamesAlternate)
    (htruthy : o.altFormat.truthy = true) : '/' ∉ p.altExtension.toList :=
  hname htruthy _ hp.altExtension

/-- A rendition goes below the directory, under one name. -/
theorem IsFor.exists_name (hp : p.IsFor o) (hname : o.NamesAlternate) {i : Output}
    (hi : o.Wants k i) : ∃ n, IsName n ∧ p.placeOf i = p.directory.child n := by
  cases hi with
  | sized => exact ⟨_, isName_sizedName hp.isName k, sizedPath_eq hp.isName k⟩
  | alternate htruthy =>
    have hext := hp.slash_not_mem hname htruthy
    exact ⟨_, isName_sizedAlternateName hp.isName hext k, sizedAlternatePath_eq hp.isName hext k⟩

theorem IsFor.isResolved_placeOf (hp : p.IsFor o) (hname : o.NamesAlternate) {i : Output}
    (hi : o.Wants k i) : (p.placeOf i).IsResolved := by
  obtain ⟨n, hn, heq⟩ := hp.exists_name hname hi
  rw [heq]
  exact hp.directory.child hn

theorem Place.exists_name (hp : p.IsFor o) (hname : o.NamesAlternate) (hq : p.Place o k q) :
    ∃ n, q = p.directory.parts ++ [n] := by
  obtain ⟨i, hi, rfl⟩ := place_iff.mp hq
  obtain ⟨n, -, heq⟩ := hp.exists_name hname hi
  exact ⟨n, by rw [heq, Path.parts_child]⟩

/-- Where nothing stands, nothing is found and a rendition can be written. -/
theorem Ready.run_of_none (hx : p.Ready c x) (hp : p.IsFor o) (hname : o.NamesAlternate) {i : Output}
    (hi : o.Wants k i) {P : Path} (hP : p.placeOf i = P) (hwritable : IsWritable P)
    (hnone : x.files.get? P.parts = none) :
    (exists? P).run x = (.ok false, x) ∧
      ∀ d, (writeFile P d).run x =
        (.ok (), { x with files := x.files.put P.parts (.file d) }) := by
  have hresolved : P.IsResolved := hP ▸ hp.isResolved_placeOf hname hi
  have hparent : x.files.isDirectory P.parts.dropLast = true := by
    obtain ⟨n, -, heq⟩ := hp.exists_name hname hi
    rw [← hP, heq, Path.parts_child, List.dropLast_concat]
    exact hx.directory
  have hdir : x.files.isDirectory P.parts = false := by
    rw [← Bool.not_eq_true, Tree.isDirectory_iff, hnone]
    exact nofun
  exact ⟨run_exists?_of_none hx.isSound hresolved hwritable hparent hnone,
    run_writeFile_of_isWritable hx.isSound hresolved hwritable hparent hdir⟩

variable [Codec]

theorem findsOwn_iff_keepsOwn (hw : w.IsSound) (hp : p.IsFor o) (hname : o.NamesAlternate) :
    p.FindsOwn o c h sizes w ↔ p.KeepsOwn o c h sizes w := by
  constructor
  · intro hfinds k hk q hq hget
    obtain ⟨i, hi, rfl⟩ := place_iff.mp hq
    obtain ⟨e, he⟩ := Option.ne_none_iff_exists'.mp hget
    exact hfinds k hk i hi (by rw [run_exists?_of_get? hw (hp.isResolved_placeOf hname hi) he])
  · intro hkeeps k hk i hi hexists
    have hP := hp.isResolved_placeOf hname hi
    obtain ⟨-, hsome⟩ := run_exists?_eq_ok hw hP (Prod.ext hexists rfl)
    exact hkeeps k hk _ (place_iff.mpr ⟨i, hi, rfl⟩) (Option.isSome_iff_ne_none.mp hsome.symm)

/-- A rendition is a picture that has the dimensions of its size. -/
theorem Rendition.exists_header (hd : p.Rendition o c h k q d) :
    ∃ e, d.header? = some e ∧ resizedSize h k = .ok (e.width, e.height) := by
  cases hd with
  | sized _ _ hd _ =>
    obtain ⟨e, -, -, hsize, _, he⟩ := Picture.sizedOf_eq_ok hd
    exact ⟨_, he, hsize⟩
  | alternate _ _ _ _ hd =>
    obtain ⟨_, _, _, -, -, hsize, _, he⟩ := Picture.alternateOf_eq_ok hd
    exact ⟨_, he, hsize⟩

/-- Steps that make renditions and no directories but those on the way to them. -/
theorem Working.of_follows {created : List String → Prop} (hm : p.Making o c h sizes)
    (hx : p.Working o c h sizes x) (hfollows : Variant.Follows p o sizes x x')
    (he : Evolves Nowhere created x x') (hfounds : Founds (· <+: p.directory.parts) x x') :
    p.Working o c h sizes x' := by
  refine ⟨he.isSound, he.content?_of_some id hx.source, he.isDirectory _ hx.directory,
    fun k hk q hq hget ↦ ?_⟩
  cases hafter : x'.files.get? q with
  | none => exact absurd hafter hget
  | some e =>
    cases e with
    | file d =>
      have hd := Tree.content?_eq_some_iff.mpr hafter
      rcases hfollows.fits k hk q hq with heq | ⟨-, c', h', d', hc', hh', hd', hmade⟩
      · rw [heq] at hd ⊢
        exact hx.keepsOwn k hk q hq (Tree.get?_ne_none_of_content? hd)
      · cases (he.content?_of_some id hx.source).symm.trans hc'
        cases hm.header.symm.trans hh'
        exact ⟨d', hd', hmade⟩
    | directory =>
      obtain ⟨n, hn⟩ := hq.exists_name hm.isFor hm.namesAlternate
      rcases hfounds.isDirectory q (Tree.isDirectory_iff.mpr hafter) with hdir | hprefix
      · have hbefore := Tree.isDirectory_iff.mp hdir
        have hget' := Option.ne_none_iff_exists'.mpr ⟨_, hbefore⟩
        obtain ⟨d, hd, -⟩ := hx.keepsOwn k hk q hq hget'
        rw [Tree.not_isDirectory_of_content? hd] at hdir
        cases hdir
      · have hle := hprefix.length_le
        rw [hn, List.length_append, List.length_singleton] at hle
        omega

theorem IsFilled.of_evolves {created : List String → Prop} (hfilled : p.IsFilled o k x)
    (hx : p.Working o c h sizes x) (hk : k ∈ sizes) (he : Evolves Nowhere created x x') :
    p.IsFilled o k x' := by
  intro q hq
  obtain ⟨d, hd, -⟩ := hx.keepsOwn k hk q hq (hfilled q hq)
  exact Tree.get?_ne_none_of_content? (he.content?_of_some id hd)

end OutputPlan

/-! ## Making what is missing -/

namespace Variant

open OutputPlan

variable {p : OutputPlan} {o : Options} {c : Content} {h : Header} {sizes ks : List Number}
  {k : Number} {w w₁ w' x x' : Workspace}

theorem gather_map_ok {α : Type} (as : List α) : gather (as.map .ok) = .ok as := by
  induction as with
  | nil => rfl
  | cons a as ih =>
    rw [List.map_cons, gather, ih]
    rfl

variable [Codec]

theorem working_ensureAlternate (hm : p.Making o c h sizes) (hx : p.Working o c h sizes x)
    (hk : k ∈ sizes) {r : Except Fault Bool} (hrun : (ensureAlternate p k o).run x = (r, x')) :
    p.Working o c h sizes x' := by
  have hspares := spares_of_whole (o := o) hm.isFor.isName hm.whole hk
  have hfollows := Follows.ensureAlternate ⟨hx.isSound, fun _ ↦ id, .refl⟩ hm.isFor hspares
  rw [hrun] at hfollows
  exact hx.of_follows hm hfollows ((within_ensureAlternate hm.isFor k).evolves hx.isSound hrun)
    ((founding_ensureAlternate hm.isFor (fun _ ↦ id) k).founds hx.isSound hrun)

theorem working_ofSize (hm : p.Making o c h sizes) (hx : p.Working o c h sizes x) (hk : k ∈ sizes)
    {r : Except Fault (Option Variant)} (hrun : (ofSize p k h o).run x = (r, x')) :
    p.Working o c h sizes x' := by
  have hspares := spares_of_whole (o := o) hm.isFor.isName hm.whole hk
  have hfollows := Follows.ofSize ⟨hx.isSound, fun _ ↦ id, .refl⟩ hm.isFor hm.namesAlternate
    hspares h
  rw [hrun] at hfollows
  exact hx.of_follows hm hfollows ((within_ofSize hm.isFor hk h).evolves hx.isSound hrun)
    ((founding_ofSize hm.isFor (fun _ ↦ id) k h).founds hx.isSound hrun)

/-- A size that has come out has all its renditions. -/
theorem isFilled_of_ofSize (hm : p.Making o c h sizes) (hx : p.Working o c h sizes x)
    (hk : k ∈ sizes) {r : Option Variant} (hrun : (ofSize p k h o).run x = (.ok r, x')) :
    p.IsFilled o k x' := by
  rw [ofSize, if_neg (by simp [Number.not_lt_of_le (hm.le k hk)])] at hrun
  obtain ⟨b, x₁, halternate, hrun⟩ := run_bind_eq_ok.mp hrun
  obtain ⟨e, x₂, hsized, hrun⟩ := run_bind_eq_ok.mp hrun
  cases hrun
  have hx₁ := working_ensureAlternate hm hx hk halternate
  rintro q (hq | ⟨htruthy, hq⟩)
  · rw [hq]
    rcases run_ensureSized_cases hx₁.isSound hm.isFor k with
      ⟨f, x₃, hfail, -⟩ | ⟨d, e', hd, -, hok⟩ | ⟨c', h', d, e', x₃, -, -, -, -, -, hok, hd, -⟩
    · rw [hfail] at hsized
      cases hsized
    · rw [hok] at hsized
      cases hsized
      exact Tree.get?_ne_none_of_content? hd
    · rw [hok] at hsized
      cases hsized
      exact Tree.get?_ne_none_of_content? hd
  · have hget := get?_of_ensureAlternate hx.isSound hm.isFor hm.namesAlternate halternate htruthy
    obtain ⟨d, hd, -⟩ := hx₁.keepsOwn k hk q (.inr ⟨htruthy, hq⟩) (hq ▸ hget)
    have he := (within_ensureSized hm.isFor k).evolves hx₁.isSound hsized
    exact Tree.get?_ne_none_of_content? (he.content?_of_some id hd)

/-! ### One rendition -/

/-- An alternate rendition that is there is used. -/
theorem run_ensureAlternate_of_get? (hx : x.IsSound) (hp : p.IsFor o) (hname : o.NamesAlternate)
    (htruthy : o.altFormat.truthy = true)
    (hget : x.files.get? (p.sizedAlternatePath k).parts ≠ none) :
    (ensureAlternate p k o).run x = (.ok true, x) := by
  obtain ⟨e, he⟩ := Option.ne_none_iff_exists'.mp hget
  have hP := hp.isResolved_sizedAlternatePath (hp.slash_not_mem hname htruthy) k
  rw [ensureAlternate, if_pos htruthy, run_bind_of_ok (run_exists?_of_get? hx hP he)]
  rfl

/-- An alternate rendition that is not there is made. -/
theorem run_ensureAlternate_of_none (hx : p.Ready c x) (hp : p.IsFor o) (hname : o.NamesAlternate)
    (hh : c.header? = some h) (htruthy : o.altFormat.truthy = true)
    (hwritable : IsWritable (p.sizedAlternatePath k)) {a : AltFormat} (ha : o.altSettings = .ok a)
    {d : Content} (hd : Picture.alternateOf a c h k = .ok d)
    (hnone : x.files.get? (p.sizedAlternatePath k).parts = none) :
    (ensureAlternate p k o).run x =
      (.ok true, { x with files := x.files.put (p.sizedAlternatePath k).parts (.file d) }) := by
  obtain ⟨hexists, hwrite⟩ := hx.run_of_none (P := p.sizedAlternatePath k) hp hname
    (.alternate htruthy) rfl hwritable hnone
  have hencode := Picture.run_encodeAlternate_of_alternateOf (p.sizedAlternatePath k) hx.isSound
    hp.source hx.source hh hd
  rw [ensureAlternate, if_pos htruthy, run_bind_of_ok hexists]
  dsimp only
  rw [if_pos (by decide), ha, run_bind_of_ok (run_ofExcept_ok _ _ _),
    run_bind_of_ok (hencode.trans (hwrite d))]
  rfl

/-- A sized rendition that is there is used. -/
theorem run_ensureSized_of_content? (hx : x.IsSound) (hp : p.IsFor o) {d : Content} {e : Header}
    (hd : x.files.content? (p.sizedPath k).parts = some d) (he : d.header? = some e) :
    (ensureSized p k o).run x = (.ok e, x) := by
  have hP := hp.isResolved_sizedPath k
  rw [ensureSized, run_bind_of_ok (run_exists?_of_get? hx hP (Tree.content?_eq_some_iff.mp hd)),
    if_pos rfl]
  exact (Picture.run_header_eq_ok_iff hx hP).mpr ⟨rfl, d, hd, he⟩

/-- A sized rendition that is not there is made. -/
theorem run_ensureSized_of_none (hx : p.Ready c x) (hp : p.IsFor o) (hname : o.NamesAlternate)
    (hh : c.header? = some h) (hwritable : IsWritable (p.sizedPath k)) {d : Content}
    (hd : Picture.sizedOf o c h k = .ok d) (hnone : x.files.get? (p.sizedPath k).parts = none) :
    ∃ e, resizedSize h k = .ok (e.width, e.height) ∧ (ensureSized p k o).run x =
      (.ok e, { x with files := x.files.put (p.sizedPath k).parts (.file d) }) := by
  obtain ⟨hexists, hwrite⟩ :=
    hx.run_of_none (P := p.sizedPath k) hp hname .sized rfl hwritable hnone
  obtain ⟨e, hsize, hderive⟩ := Picture.run_derive_of_sizedOf (p.sizedPath k) hx.isSound hp.source
    hx.source hh hd
  refine ⟨e, hsize, ?_⟩
  rw [ensureSized, run_bind_of_ok hexists, if_neg Bool.false_ne_true, hderive,
    run_bind_of_ok (hwrite d)]
  rfl

/-! ### One size -/

/-- An alternate rendition that can be made is there afterwards, and nothing is done if it is there
before. -/
theorem run_ensureAlternate_of_canMake (hm : p.Making o c h sizes) (hx : p.Working o c h sizes x)
    (hmade : p.CanMake o c h k) :
    ∃ x', (ensureAlternate p k o).run x = (.ok o.altFormat.truthy, x') ∧
      (p.IsFilled o k x → x' = x) := by
  by_cases htruthy : o.altFormat.truthy = true
  · have hq : p.Place o k (p.sizedAlternatePath k).parts := .inr ⟨htruthy, rfl⟩
    rw [htruthy]
    by_cases hget : x.files.get? (p.sizedAlternatePath k).parts = none
    · obtain ⟨d, hd⟩ := hmade _ hq
      cases hd with
      | sized hsame _ _ hne => exact absurd hsame.symm (hne htruthy)
      | alternate _ _ hwritable ha hd =>
        exact ⟨_, run_ensureAlternate_of_none hx.ready hm.isFor hm.namesAlternate hm.header htruthy
          hwritable ha hd hget, fun hfilled ↦ absurd hget (hfilled _ hq)⟩
    · exact ⟨x, run_ensureAlternate_of_get? hx.isSound hm.isFor hm.namesAlternate htruthy hget,
        fun _ ↦ rfl⟩
  · rw [ensureAlternate, if_neg htruthy, (Bool.not_eq_true _).mp htruthy]
    exact ⟨x, rfl, fun _ ↦ rfl⟩

/-- A sized rendition that can be made is there afterwards, once the alternate one is. -/
theorem run_ensureSized_of_canMake (hm : p.Making o c h sizes) (hx : p.Working o c h sizes x)
    (hk : k ∈ sizes) (hmade : p.CanMake o c h k)
    (halternate : o.altFormat.truthy = true → x.files.get? (p.sizedAlternatePath k).parts ≠ none) :
    ∃ e x', (ensureSized p k o).run x = (.ok e, x') ∧ (p.IsFilled o k x → x' = x) := by
  have hq : p.Place o k (p.sizedPath k).parts := .inl rfl
  by_cases hget : x.files.get? (p.sizedPath k).parts = none
  · obtain ⟨d, hd⟩ := hmade _ hq
    cases hd with
    | alternate hsame htruthy _ _ _ => exact absurd (hsame ▸ hget) (halternate htruthy)
    | sized _ hwritable hd _ =>
      obtain ⟨e, -, hrun⟩ := run_ensureSized_of_none hx.ready hm.isFor hm.namesAlternate hm.header
        hwritable hd hget
      exact ⟨e, _, hrun, fun hfilled ↦ absurd hget (hfilled _ hq)⟩
  · obtain ⟨d, hd, hrendition⟩ := hx.keepsOwn k hk _ hq hget
    obtain ⟨e, he, -⟩ := hrendition.exists_header
    exact ⟨e, x, run_ensureSized_of_content? hx.isSound hm.isFor hd he, fun _ ↦ rfl⟩

/-- A size whose renditions can be made comes out, and nothing is done if they are there. -/
theorem run_ofSize_of_canMake (hm : p.Making o c h sizes) (hx : p.Working o c h sizes x)
    (hk : k ∈ sizes) (hmade : p.CanMake o c h k) :
    ∃ r x', (ofSize p k h o).run x = (.ok r, x') ∧ (p.IsFilled o k x → x' = x) := by
  obtain ⟨x₁, halternate, hsame⟩ := run_ensureAlternate_of_canMake hm hx hmade
  have hx₁ := working_ensureAlternate hm hx hk halternate
  obtain ⟨e, x₂, hsized, hsame₁⟩ := run_ensureSized_of_canMake hm hx₁ hk hmade
    (get?_of_ensureAlternate hx.isSound hm.isFor hm.namesAlternate halternate)
  refine ⟨some ⟨k, e.width, e.height, p.sizedUrl k, o.altFormat.truthy⟩, x₂, ?_, fun hfilled ↦ ?_⟩
  · rw [ofSize, if_neg (by simp [Number.not_lt_of_le (hm.le k hk)]), run_bind_of_ok halternate,
      run_bind_of_ok hsized]
    rfl
  · obtain rfl := hsame hfilled
    exact hsame₁ hfilled

/-! ## Making all sizes -/

/-- The variants of some sizes come out if every size does. -/
theorem run_ofSizes_eq_ok_iff {variants : List Variant} :
    (ofSizes p sizes h o).run x = (.ok variants, x') ↔
      ∃ found : List (Option Variant), variants = found.filterMap id ∧
        Runs (fun k ↦ attempt (ofSize p k h o)) x sizes (found.map .ok) x' := by
  rw [ofSizes, run_bind_eq_ok]
  constructor
  · rintro ⟨outcomes, x₁, houtcomes, hrun⟩
    cases hgather : gather outcomes with
    | error f =>
      rw [hgather] at hrun
      cases hrun
    | ok found =>
      rw [hgather] at hrun
      cases hrun
      rw [gather_eq_ok hgather] at houtcomes
      exact ⟨found, rfl, run_mapM_eq_ok.mp houtcomes⟩
  · rintro ⟨found, rfl, hruns⟩
    refine ⟨_, _, run_mapM_eq_ok.mpr hruns, ?_⟩
    rw [gather_map_ok]
    rfl

/-- Sizes whose renditions can be made come out, and nothing is done if they are there. -/
theorem exists_runs_of_canMake (hm : p.Making o c h sizes) (hx : p.Working o c h sizes x)
    (hks : ∀ k ∈ ks, k ∈ sizes) (hmade : ∀ k ∈ ks, p.CanMake o c h k) :
    ∃ (found : List (Option Variant)) (x' : Workspace),
      Runs (fun k ↦ attempt (ofSize p k h o)) x ks (found.map .ok) x' ∧
        ((∀ k ∈ ks, p.IsFilled o k x) → x' = x) := by
  induction ks generalizing x with
  | nil => exact ⟨[], x, .nil, fun _ ↦ rfl⟩
  | cons k ks ih =>
    obtain ⟨hk, hks⟩ := List.forall_mem_cons.mp hks
    obtain ⟨hfirst, hrest⟩ := List.forall_mem_cons.mp hmade
    obtain ⟨r, x₁, hrun, hsame⟩ := run_ofSize_of_canMake hm hx hk hfirst
    obtain ⟨found, x', hruns, hsame'⟩ := ih (working_ofSize hm hx hk hrun) hks hrest
    refine ⟨r :: found, x', .cons (run_attempt_eq_ok.mpr hrun) hruns, fun hfilled ↦ ?_⟩
    obtain ⟨hfilled₁, hfilled'⟩ := List.forall_mem_cons.mp hfilled
    obtain rfl := hsame hfilled₁
    exact hsame' hfilled'

/-- Sizes that have come out have all their renditions. -/
theorem isFilled_of_runs (hm : p.Making o c h sizes) (hx : p.Working o c h sizes x)
    {found : List (Option Variant)} (hks : ∀ k ∈ ks, k ∈ sizes)
    (hruns : Runs (fun k ↦ attempt (ofSize p k h o)) x ks (found.map .ok) x') :
    p.Working o c h sizes x' ∧ ∀ k ∈ ks, p.IsFilled o k x' := by
  induction ks generalizing x found with
  | nil =>
    cases found with
    | cons r found => cases hruns
    | nil =>
      cases hruns
      exact ⟨hx, fun _ hk ↦ nomatch hk⟩
  | cons k ks ih =>
    obtain ⟨hk, hks⟩ := List.forall_mem_cons.mp hks
    cases found with
    | nil => cases hruns
    | cons r found =>
      cases hruns with
      | cons hrun hruns =>
        rename_i x₁
        have hrun' := run_attempt_eq_ok.mp hrun
        have hx₁ := working_ofSize hm hx hk hrun'
        obtain ⟨hx', hfilled⟩ := ih hx₁ hks hruns
        refine ⟨hx', List.forall_mem_cons.mpr ⟨?_, hfilled⟩⟩
        have hwithin : Within Nowhere (p.Rendered ks) (ks.mapM fun k ↦ attempt (ofSize p k h o)) :=
          within_mapM fun k hk ↦ (within_ofSize hm.isFor hk h).attempt
        have he := hwithin.evolves hx₁.isSound (run_mapM_eq_ok.mpr hruns)
        exact (isFilled_of_ofSize hm hx hk hrun').of_evolves hx₁ hk he

end Variant

end ResponsiveImage
