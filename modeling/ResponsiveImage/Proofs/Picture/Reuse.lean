import ResponsiveImage.Picture.HeaderCodec
import ResponsiveImage.Proofs.Picture.Missing

/-!
# Using renditions again

The renditions of an image that are left by an earlier run are used again.  Each of them is what
the next run would have made, so that this comes to the same variants as where nothing is left, makes
the renditions that are missing, and leaves nothing to be made (`generate_reuses`).
-/

namespace ResponsiveImage

open Workspace (Evolves)
open Job

namespace Variant

open OutputPlan

variable {p : OutputPlan} {o : Options} {c : Content} {h : Header} {sizes : List Number}
  {k : Number} {variants : List Variant} {w w₁ w' x x' : Workspace}

theorem run_generate_eq_ok_iff [Codec] (hw : w.IsSound) (hp : p.IsFor o)
    (hc : w.files.content? p.source.parts = some c) (hh : c.header? = some h) :
    (generate p o).run w = (.ok variants, w') ↔
      ∃ w₁, (ensureDirectories p.directory).run w = (.ok (), w₁) ∧
        (ofSizes p (candidateSizes o.sizes (.int h.width)) h o).run w₁ = (.ok variants, w') := by
  have hheader := (Picture.run_header_eq_ok_iff hw hp.source).mpr ⟨rfl, c, hc, hh⟩
  rw [generate, run_bind_of_ok hheader, run_bind_eq_ok]
  constructor
  · rintro ⟨⟨⟩, w₁, hrun⟩
    exact ⟨w₁, hrun⟩
  · rintro ⟨w₁, hrun⟩
    exact ⟨(), w₁, hrun⟩

/-- Renditions in the alternate format that come out have a name without slashes: an extension with
slashes belongs to no format, and the directories it leads to are not there. -/
theorem namesAlternate_of_ensureAlternate [Codec] (hw : w.IsSound) (hp : p.IsFor o)
    (hown : p.FindsOwn o c h sizes w) (hk : k ∈ sizes)
    (hensure : (ensureDirectories p.directory).run w = (.ok (), w₁)) {b : Bool}
    (hrun : (ensureAlternate p k o).run w₁ = (.ok b, x')) : o.NamesAlternate := by
  intro htruthy e he
  obtain rfl : p.altExtension = e := Except.ok.inj (hp.altExtension.symm.trans he)
  have hmade : ∀ {a : AltFormat} {c d : Content} {h : Header}, o.altSettings = .ok a →
      Picture.alternateOf a c h k = .ok d → '/' ∉ p.altExtension.toList := by
    intro a c d h ha hd
    obtain ⟨format, _, _, hformat, hupper, -, -⟩ := Picture.alternateOf_eq_ok hd
    exact slash_not_mem_altExtension hp ha hformat hupper
  rw [ensureAlternate, if_pos htruthy] at hrun
  obtain ⟨there, x₁, hexists, hrun⟩ := run_bind_eq_ok.mp hrun
  obtain rfl := (looks_exists? _).eq hexists
  cases there with
  | true =>
    have hplace : p.sizedAlternatePath k = _ := placeOf_eq hp.isName (.alternate k)
    obtain ⟨q, entry, hstat⟩ := exists_stat_of_exists? (congrArg Prod.fst hexists)
    rw [hplace, hp.directory.anchor_eq] at hstat
    have hfirst := FileName.isName_sizedAlternate hp.isName k.slash_not_mem_text
      (FileName.slash_not_mem_firstSegment p.altExtension)
    have hdots : ∀ m ∈ p.directory.parts, m ≠ ".." := fun m hm ↦ (hp.directory.isName m hm).ne_dots
    have hget := Tree.get?_of_stat hdots hfirst.ne_dots hstat
    -- So nothing has been made, and what is found is a rendition.
    obtain rfl := eq_of_ensureDirectories hw hp.directory hensure hget
    obtain ⟨d, -, hd⟩ := hown k hk (.alternate k) (.alternate htruthy) (congrArg Prod.fst hexists)
    cases hd with
    | sized hsame _ _ hne => exact absurd hsame.symm (hne htruthy)
    | alternate _ _ _ ha hd => exact hmade ha hd
  | false =>
    dsimp only at hrun
    rw [if_pos (by decide)] at hrun
    cases ha : o.altSettings with
    | error f =>
      rw [ha, run_bind_of_error (run_ofExcept_error _ _ _)] at hrun
      cases hrun
    | ok a =>
      rw [ha, run_bind_of_ok (run_ofExcept_ok _ _ _)] at hrun
      obtain ⟨u, x₂, hencode, -⟩ := run_bind_eq_ok.mp hrun
      have hx₁ := ((within_ensureDirectories hp.directory).evolves hw hensure).isSound
      rcases Picture.run_encodeAlternate_cases hx₁ hp.source k (p.sizedAlternatePath k) a with
        ⟨f, hfail⟩ | ⟨c, h, d, -, -, hd, -⟩
      · rw [hfail] at hencode
        cases hencode
      · exact hmade ha hd

theorem keepsOwn_of_ensureDirectories [Codec] (hm : p.Making o c h sizes) (hw : w.IsSound)
    (hkeeps : p.KeepsOwn o c h sizes w) {r : Except Fault Unit}
    (hrun : (ensureDirectories p.directory).run w = (r, w₁)) : p.KeepsOwn o c h sizes w₁ := by
  intro k hk q hq hget
  obtain ⟨n, rfl⟩ := hq.exists_name hm.isFor hm.namesAlternate
  obtain rfl := eq_of_ensureDirectories hw hm.isFor.directory hrun hget
  exact hkeeps k hk _ hq hget

theorem working_of_ensureDirectories [Codec] (hm : p.Making o c h sizes) (hw : w.IsSound)
    (hc : w.files.content? p.source.parts = some c) (hkeeps : p.KeepsOwn o c h sizes w)
    (hrun : (ensureDirectories p.directory).run w = (.ok (), w₁)) : p.Working o c h sizes w₁ := by
  have he := (within_ensureDirectories hm.isFor.directory).evolves hw hrun
  exact ⟨he.isSound, he.content?_of_some id hc,
    isDirectory_of_ensureDirectories hw hm.isFor.directory hrun,
    keepsOwn_of_ensureDirectories hm hw hkeeps hrun⟩

theorem tells_of_working [Codec] (hm : p.Making o c h sizes) (hx : p.Working o c h sizes x) :
    Tells p sizes h x := by
  refine ⟨hx.isSound, fun k hk d hd ↦ ?_, c, hx.source, hm.header⟩
  have hget := Tree.get?_ne_none_of_content? hd
  obtain ⟨d', hd', hrendition⟩ := hx.keepsOwn k hk _ (.inl rfl) hget
  cases hd.symm.trans hd'
  obtain ⟨e, he, hsize⟩ := hrendition.exists_header
  exact ⟨c, h, e, hx.source, hm.header, he, hsize⟩

/-- The variants of an image come out as the image tells them, and nothing is done if all renditions
are there. -/
theorem run_ofSizes_of_canMake [Codec] (hm : p.Making o c h sizes) (hx : p.Working o c h sizes x)
    (hmade : ∀ k ∈ sizes, p.CanMake o c h k) (htold : toldOfSizes p sizes h o = .ok variants) :
    ∃ x', (ofSizes p sizes h o).run x = (.ok variants, x') ∧
      ((∀ k ∈ sizes, p.IsFilled o k x) → x' = x) := by
  obtain ⟨found, x', hruns, hsame⟩ := exists_runs_of_canMake hm hx (fun _ ↦ id) hmade
  have hrun := run_ofSizes_eq_ok_iff.mpr ⟨found, rfl, hruns⟩
  have htold' := told_of_ofSizes (tells_of_working hm hx) hm.isFor
    (fun k hk ↦ avoids_of_whole hm.isFor.isName hm.whole hk) (congrArg Prod.fst hrun)
  cases htold.symm.trans htold'
  exact ⟨x', hrun, hsame⟩

/-- An image that comes out has all its renditions, each of which can be made. -/
theorem canMake_of_ofSizes [Codec] (hm : p.Making o c h sizes) (hx : p.Working o c h sizes x)
    (hrun : (ofSizes p sizes h o).run x = (.ok variants, x')) :
    p.Working o c h sizes x' ∧ (∀ k ∈ sizes, p.IsFilled o k x') ∧
      ∀ k ∈ sizes, p.CanMake o c h k := by
  obtain ⟨found, -, hruns⟩ := run_ofSizes_eq_ok_iff.mp hrun
  obtain ⟨hx', hfilled⟩ := isFilled_of_runs hm hx (fun _ ↦ id) hruns
  refine ⟨hx', hfilled, fun k hk q hq ↦ ?_⟩
  obtain ⟨d, -, hd⟩ := hx'.keepsOwn k hk q hq (hfilled k hk q hq)
  exact ⟨d, hd⟩

/-- New files are renditions that the options call for. -/
theorem within_ofSizes_place [Codec] (hp : p.IsFor o) (sizes : List Number) (h : Header) :
    Within Nowhere (fun q ↦ ∃ k ∈ sizes, p.Place o k q) (ofSizes p sizes h o) := by
  have halternate : ∀ k, Within Nowhere (p.Place o k) (ensureAlternate p k o) := by
    intro k
    by_cases htruthy : o.altFormat.truthy = true
    · exact (within_ensureAlternate hp k).mono (fun _ ↦ id) fun q hq ↦ .inr (.inr ⟨htruthy, hq.2⟩)
    · rw [ensureAlternate, if_neg htruthy]
      exact within_pure _
  have hsized : ∀ k, Within Nowhere (p.Place o k) (ensureSized p k o) := fun k ↦
    (within_ensureSized hp k).mono (fun _ ↦ id) fun q hq ↦ .inr (.inl hq)
  have hofSize : ∀ k, Within Nowhere (p.Place o k) (ofSize p k h o) := by
    intro k
    rw [ofSize]
    split
    · exact within_pure _
    · exact (halternate k).bind fun _ ↦ (hsized k).bind fun _ ↦ within_pure _
  refine Within.bind (within_mapM fun k hk ↦ ?_) fun outcomes ↦ (looks_gathered outcomes).within
  exact ((hofSize k).mono (fun _ ↦ id) fun q hq ↦ .inr ⟨k, hk, hq⟩).attempt

/-- The variants make renditions that are missing, and no other content changes. -/
theorem content?_of_ensured [Codec] (hp : p.IsFor o) (hw : w.IsSound) (hkeeps : p.KeepsOwn o c h sizes w)
    (hensure : (ensureDirectories p.directory).run w = (.ok (), w₁))
    (hrun : (ofSizes p sizes h o).run w₁ = (.ok variants, w')) (q : List String) :
    w'.files.content? q = w.files.content? q ∨ w.files.get? q = none ∧
      ∃ k ∈ sizes, ∃ i, o.Wants k i ∧ q = (p.placeOf i).parts := by
  have he := (within_ensureDirectories hp.directory).evolves hw hensure
  have he₁ := (within_ofSizes_place hp sizes h).evolves he.isSound hrun
  rw [← he.content?_eq id id]
  rcases he₁.content? q with hsame | hnot | ⟨⟨k, hk, hq⟩, hnone⟩
  · exact .inl hsame
  · exact hnot.elim
  · refine .inr ⟨?_, k, hk, place_iff.mp hq⟩
    by_contra hget
    obtain ⟨d, hd, -⟩ := hkeeps k hk q hq hget
    rw [← he.content?_eq id id, hnone] at hd
    cases hd

theorem isDirectory_of_ensured [Codec] (hp : p.IsFor o) (hw : w.IsSound)
    (hensure : (ensureDirectories p.directory).run w = (.ok (), w₁))
    (hrun : (ofSizes p sizes h o).run w₁ = (.ok variants, w')) {q : List String}
    (hq : w'.files.isDirectory q = true) :
    w.files.isDirectory q = true ∨ q <+: p.directory.parts := by
  have hw₁ := ((within_ensureDirectories hp.directory).evolves hw hensure).isSound
  have hfounds := (founding_ensureDirectories (D := (· <+: p.directory.parts)) hp.directory
    fun _ ↦ id).founds hw hensure
  have hfounds₁ := (founding_ofSizes hp (fun _ ↦ id) sizes h).founds hw₁ hrun
  exact (hfounds.trans hfounds₁).isDirectory q hq

/-- A run on an image, whether it comes out or fails, leaves nothing but its own renditions where
these go. -/
theorem findsOwn_generate [Codec] (hm : p.Making o c h (candidateSizes o.sizes (.int h.width)))
    (hx : x.IsSound) (hc : x.files.content? p.source.parts = some c)
    (hown : p.FindsOwn o c h (candidateSizes o.sizes (.int h.width)) x) :
    p.FindsOwn o c h (candidateSizes o.sizes (.int h.width)) ((generate p o).run x).2 := by
  have hkeeps := (findsOwn_iff_keepsOwn hx hm.isFor hm.namesAlternate).mp hown
  have hheader := (Picture.run_header_eq_ok_iff hx hm.isFor.source).mpr ⟨rfl, c, hc, hm.header⟩
  rw [generate, run_bind_of_ok hheader]
  cases hensure : (ensureDirectories p.directory).run x with
  | mk r x₁ =>
    have hx₁ := ((within_ensureDirectories hm.isFor.directory).evolves hx hensure).isSound
    cases r with
    | error f =>
      rw [run_bind_of_error hensure]
      exact (findsOwn_iff_keepsOwn hx₁ hm.isFor hm.namesAlternate).mpr
        (keepsOwn_of_ensureDirectories hm hx hkeeps hensure)
    | ok u =>
      rw [run_bind_of_ok hensure]
      have hofSize : ∀ k ∈ candidateSizes o.sizes (.int h.width),
          Ensures (p.Working o c h (candidateSizes o.sizes (.int h.width)))
            (attempt (ofSize p k h o)) fun _ ↦ True :=
        fun k hk y hy ↦ ⟨working_ofSize hm hy hk rfl, fun _ _ ↦ trivial⟩
      have hall := (ensures_mapM (R := fun _ _ ↦ True) hofSize).bind
        fun outcomes _ ↦ (looks_gathered outcomes).ensures
      have hworking := (hall x₁ (working_of_ensureDirectories hm hx hc hkeeps hensure)).1
      exact (findsOwn_iff_keepsOwn hworking.isSound hm.isFor hm.namesAlternate).mpr
        hworking.keepsOwn

/-- What the picture tells of a variant in a whole size. -/
theorem dimensions_of_told {n : Nat} (hn : n = h.width ∨ 0 < n) {v : Variant}
    (htold : told p h o (.int n) = .ok (some v)) :
    v.size = .int v.width ∧ v.url = p.sizedUrl v.size ∧ v.altAvailable = o.altFormat.truthy ∧
      (h.IsExact ∨ v.width ≠ h.width →
        scaledSize (.int h.width) (.int h.height) v.size = .ok (v.width, v.height)) := by
  rw [told] at htold
  split at htold
  · cases htold
  · obtain ⟨⟨width, height⟩, hsize, hv⟩ := Options.exists_of_bind_eq_ok htold
    cases hv
    obtain ⟨rfl, hscaled⟩ := dimensions_of_resizedSize hn hsize
    refine ⟨rfl, rfl, rfl, fun hor ↦ hscaled (hor.imp_right fun hne heq ↦ ?_)⟩
    exact hne (congrArg Int.ofNat heq)

theorem exists_told_of_mem {v : Variant} (htold : toldOfSizes p sizes h o = .ok variants)
    (hv : v ∈ variants) : ∃ k ∈ sizes, told p h o k = .ok (some v) := by
  rw [toldOfSizes] at htold
  cases hgather : gather (sizes.map (told p h o)) with
  | error f =>
    rw [hgather] at htold
    cases htold
  | ok found =>
    rw [hgather] at htold
    cases htold
    obtain ⟨r, hr, rfl⟩ := List.mem_filterMap.mp hv
    have hmem : (.ok (some v) : Except Fault (Option Variant)) ∈ sizes.map (told p h o) := by
      rw [gather_eq_ok hgather]
      exact List.mem_map_of_mem hr
    exact List.mem_map.mp hmem

/-- An image whose variants come out in accepted whole sizes, of which there is always one. -/
theorem making_of_generate [Codec] {ns : List Int} (haccepted : o.IsAccepted)
    (hsizes : o.sizes = ns.map .int) (hp : p.IsFor o) (hw : w.IsSound)
    (hc : w.files.content? p.source.parts = some c)
    (hh : c.header? = some h) (hown : p.FindsOwn o c h (candidateSizes o.sizes (.int h.width)) w)
    (hrun : (generate p o).run w = (.ok variants, w')) :
    p.Making o c h (candidateSizes o.sizes (.int h.width)) := by
  have hle : ∀ k ∈ candidateSizes o.sizes (.int h.width), k.le (.int h.width) = true :=
    fun _ ↦ le_of_mem_candidateSizes
  refine ⟨hp, ?_, hh, fun k hk ↦ ?_, hle⟩
  · obtain ⟨w₁, hensure, hofSizes⟩ := (run_generate_eq_ok_iff hw hp hc hh).mp hrun
    obtain ⟨found, -, hruns⟩ := run_ofSizes_eq_ok_iff.mp hofSizes
    obtain ⟨k, ks, hks⟩ := List.exists_cons_of_ne_nil (candidateSizes_ne_nil ns h.width)
    rw [← hsizes] at hks
    rw [hks] at hruns hown hle
    cases found with
    | nil => cases hruns
    | cons r found =>
      cases hruns with
      | cons hfirst _ =>
        have hofSize := run_attempt_eq_ok.mp hfirst
        rw [ofSize, if_neg (by simp [Number.not_lt_of_le (hle k List.mem_cons_self)])] at hofSize
        obtain ⟨b, x₁, halternate, -⟩ := run_bind_eq_ok.mp hofSize
        exact namesAlternate_of_ensureAlternate hw hp hown List.mem_cons_self hensure halternate
  · rw [hsizes] at hk
    obtain ⟨n, hn, -⟩ := exists_nat_of_mem_candidateSizes (haccepted.pos hsizes) hk
    exact ⟨n, hn⟩

end Variant

open Variant OutputPlan

/-- **Variants of an image in whole sizes come out the same wherever renditions of it are left by
earlier runs: one of each size, in order, with the size as its width and the height that scaling
gives.  The renditions that are missing are made, nothing else changes, and another run does
nothing.  What runs leave, also those that fail, is of that kind.** -/
theorem generate_reuses [Codec] {p : OutputPlan} {o : Options} {c : Content} {h : Header}
    {sizes : List Int}
    {variants : List Variant} {w w' : Workspace}
    (ho : (∃ members, Options.ofMapping members = .ok o) ∨
      ∃ o' overrides, Options.withOverrides o' overrides = .ok o)
    (hsizes : o.sizes = sizes.map .int) (hp : p.IsFor o) (hw : w.IsSound)
    (hc : w.files.content? p.source.parts = some c) (hh : c.header? = some h)
    (hown : p.FindsOwn o c h (candidateSizes o.sizes (.int h.width)) w)
    (hrun : (generate p o).run w = (.ok variants, w')) :
    variants.map (·.size) = candidateSizes o.sizes (.int h.width) ∧
      (∀ v ∈ variants, v.size = .int v.width ∧ v.url = p.sizedUrl v.size ∧
        v.altAvailable = o.altFormat.truthy ∧ (h.IsExact ∨ v.width ≠ h.width →
          scaledSize (.int h.width) (.int h.height) v.size = .ok (v.width, v.height))) ∧
      (∀ x, x.IsSound → x.files.content? p.source.parts = some c →
        p.FindsOwn o c h (candidateSizes o.sizes (.int h.width)) x →
        ((ensureDirectories p.directory).run x).1 = .ok () →
          ((generate p o).run x).1 = .ok variants) ∧
      (∀ k ∈ candidateSizes o.sizes (.int h.width), ∀ i, o.Wants k i →
        ∃ d, w'.files.content? (p.placeOf i).parts = some d ∧
          p.Rendition o c h k (p.placeOf i).parts d) ∧
      (∀ q, w'.files.content? q = w.files.content? q ∨ w.files.get? q = none ∧
        ∃ k ∈ candidateSizes o.sizes (.int h.width), ∃ i, o.Wants k i ∧ q = (p.placeOf i).parts) ∧
      (∀ q, w'.files.isDirectory q = true →
        w.files.isDirectory q = true ∨ q <+: p.directory.parts) ∧
      (generate p o).run w' = (.ok variants, w') ∧
      ∀ x, x.IsSound → x.files.content? p.source.parts = some c →
        p.FindsOwn o c h (candidateSizes o.sizes (.int h.width)) x →
          p.FindsOwn o c h (candidateSizes o.sizes (.int h.width)) ((generate p o).run x).2 := by
  have haccepted := Options.isAccepted_of_ofMapping_or_withOverrides ho
  have hm := making_of_generate haccepted hsizes hp hw hc hh hown hrun
  have hkeeps := (findsOwn_iff_keepsOwn hw hp hm.namesAlternate).mp hown
  obtain ⟨w₁, hensure, hofSizes⟩ := (run_generate_eq_ok_iff hw hp hc hh).mp hrun
  have hw₁ := working_of_ensureDirectories hm hw hc hkeeps hensure
  obtain ⟨hw', hfilled, hmade⟩ := canMake_of_ofSizes hm hw₁ hofSizes
  have htold := told_of_ofSizes (tells_of_working hm hw₁) hp
    (fun k hk ↦ avoids_of_whole hp.isName hm.whole hk) (congrArg Prod.fst hofSizes)
  refine ⟨sizes_of_ofSizes hm.le hofSizes, fun v hv ↦ ?_, fun x hx hcx hownx hdirectory ↦ ?_,
    fun k hk i hi ↦ ?_, fun q ↦ ?_, fun q hq ↦ ?_, ?_, fun x ↦ findsOwn_generate hm⟩
  · obtain ⟨k, hk, hv⟩ := exists_told_of_mem htold hv
    rw [hsizes] at hk
    obtain ⟨n, rfl, hn⟩ := exists_nat_of_mem_candidateSizes (haccepted.pos hsizes) hk
    exact dimensions_of_told hn hv
  · have hkeepsx := (findsOwn_iff_keepsOwn hx hp hm.namesAlternate).mp hownx
    have hensurex : (ensureDirectories p.directory).run x = (.ok (), _) := Prod.ext hdirectory rfl
    have hx₁ := working_of_ensureDirectories hm hx hcx hkeepsx hensurex
    obtain ⟨x', hrunx, -⟩ := run_ofSizes_of_canMake hm hx₁ hmade htold
    rw [(run_generate_eq_ok_iff hx hp hcx hh).mpr ⟨_, hensurex, hrunx⟩]
  · have hq : p.Place o k (p.placeOf i).parts := place_iff.mpr ⟨i, hi, rfl⟩
    exact hw'.keepsOwn k hk _ hq (hfilled k hk _ hq)
  · exact content?_of_ensured hp hw hkeeps hensure hofSizes q
  · exact isDirectory_of_ensured hp hw hensure hofSizes hq
  · obtain ⟨x', hagain, hsame⟩ := run_ofSizes_of_canMake hm hw' hmade htold
    obtain rfl := hsame hfilled
    exact (run_generate_eq_ok_iff hw'.isSound hp hw'.source hh).mpr
      ⟨_, run_ensureDirectories_of_isDirectory hw'.isSound hp.directory hw'.directory, hagain⟩

/-! ## A picture of which one rendition is left -/

open scoped HeaderCodec

/-- The alternate rendition of a small picture. -/
def leftRendition : Content := HeaderCodec.file ⟨"WEBP", 8, 4⟩

/-- A tree with that picture and that rendition, left by a run that failed after it. -/
def halfMade : Workspace where
  cwd := []
  files := ⟨[(["src"], .directory), (["src", "x.png"], .file (HeaderCodec.file ⟨"PNG", 8, 4⟩)),
    (["static"], .directory), (["static", "g"], .directory),
    (["static", "g", "x-8.webp"], .file leftRendition)]⟩

theorem findsOwn_halfMade :
    onePlan.FindsOwn .defaults (HeaderCodec.file ⟨"PNG", 8, 4⟩) ⟨"PNG", 8, 4⟩ [8] halfMade := by
  have hpath : onePlan.sizedAlternatePath 8 = .ofParts ["static", "g", "x-8.webp"] := by
    decide +kernel
  intro k hk i hi hexists
  obtain rfl := List.mem_singleton.mp hk
  cases hi with
  | sized =>
    have hnot : ((exists? (onePlan.placeOf (.sized 8))).run halfMade).1 = .ok false :=
      eq_ok_of_toOption (by decide +kernel)
    rw [hnot] at hexists
    cases hexists
  | alternate htruthy =>
    have hplace : onePlan.placeOf (.alternate 8) = .ofParts ["static", "g", "x-8.webp"] := hpath
    rw [hplace]
    refine ⟨leftRendition, rfl, .alternate (congrArg Path.parts hpath.symm) htruthy ?_ rfl rfl⟩
    rw [hpath]
    exact ⟨by decide, by decide, by decide⟩

/-- What is missing is made, and nothing after that. -/
theorem generate_reuses_halfMade :
    ∃ w', (generate onePlan .defaults).run halfMade =
        (.ok [⟨8, 8, 4, "g/x-8.png", true⟩], w') ∧
      (generate onePlan .defaults).run w' = (.ok [⟨8, 8, 4, "g/x-8.png", true⟩], w') := by
  have hsizes : Options.defaults.sizes = ([400, 800, 1200] : List Int).map .int := rfl
  have hw : halfMade.IsSound := ⟨by decide, by decide⟩
  have hext : Options.defaults.altExtension = .ok "webp" := eq_ok_of_toOption (by decide +kernel)
  have hp : onePlan.IsFor .defaults := ⟨by decide, by decide, by decide, hext⟩
  have hok : ((generate onePlan .defaults).run halfMade).1 =
      .ok [⟨8, 8, 4, "g/x-8.png", true⟩] := eq_ok_of_toOption (by decide +kernel)
  obtain ⟨w', hrun⟩ : ∃ w', (generate onePlan .defaults).run halfMade =
      (.ok [⟨8, 8, 4, "g/x-8.png", true⟩], w') := ⟨_, by rw [← hok]⟩
  have hcandidates : candidateSizes Options.defaults.sizes (.int (8 : Nat)) = [8] := by
    decide +kernel
  have hown := findsOwn_halfMade
  rw [← hcandidates] at hown
  obtain ⟨-, -, -, -, -, -, hagain, -⟩ := generate_reuses (.inl ⟨[], Options.ofMapping_nil⟩) hsizes
    hp hw rfl rfl hown hrun
  exact ⟨w', hrun, hagain⟩

end ResponsiveImage
