import ResponsiveImage.Proofs.Picture.Coupled
import ResponsiveImage.Proofs.Rewrite.Places
import ResponsiveImage.Proofs.Searches

/-!
# Tidy visits

Visits are tidy if what they read and what they write does not get mixed up (`Tidy`): the directories
for outputs and for downloads lie apart, no image is found among the outputs, and no output is named
like one of another image or of another size.  What tidy visits read stays the same all along their
history (`Kept`): the files outside of both directories, what a download comes out with, and the
renditions of a component, apart from those that have been made meanwhile.
-/

namespace ResponsiveImage

open Workspace (Evolves Alike Confines)
open Job

variable {o : Options} {cwd q urls : List String}

/-! ## Directories that lie apart -/

namespace Options

/-- The places directly in the download directory. -/
def InFolder (o : Options) (cwd : List String) : List String → Prop := fun q ↦
  ∃ d n, o.downloadPath = .ok d ∧ q = (d.resolve cwd).parts ++ [n]

/-- The directories for outputs and for downloads lie apart: neither is, or contains, the other. -/
def Apart (o : Options) (cwd : List String) : Prop :=
  ∀ d f, o.outputPath = .ok d → o.downloadPath = .ok f →
    ¬ (d.resolve cwd).parts <+: (f.resolve cwd).parts ∧
      ¬ (f.resolve cwd).parts <+: (d.resolve cwd).parts

theorem InDownloads.inFolder (h : o.InDownloads cwd urls q) : o.InFolder cwd q := by
  obtain ⟨d, url, hd, -, n, -, rfl⟩ := h
  exact ⟨d, n, hd, rfl⟩

theorem Fetched.inFolder (h : o.Fetched cwd q) : o.InFolder cwd q := by
  obtain ⟨d, hd, n, -, rfl⟩ := h
  exact ⟨d, n, hd, rfl⟩

theorem Unfinished.inFolder (h : o.Unfinished cwd q) : o.InFolder cwd q := by
  obtain ⟨d, hd, n, -, -, rfl⟩ := h
  exact ⟨d, n, hd, rfl⟩

theorem not_concat_isPrefix (ns : List String) (n : String) : ¬ ns ++ [n] <+: ns := by
  intro h
  have hle := h.length_le
  rw [List.length_append, List.length_singleton] at hle
  omega

theorem LeadsToOutputs.not_inOutputs (h : o.LeadsToOutputs cwd q) : ¬ o.InOutputs cwd q := by
  obtain ⟨d, hd, hq⟩ := h
  rintro ⟨d', n, hd', rfl⟩
  cases hd.symm.trans hd'
  exact not_concat_isPrefix _ n hq

theorem LeadsToDownloads.not_inFolder (h : o.LeadsToDownloads cwd q) : ¬ o.InFolder cwd q := by
  obtain ⟨d, hd, hq⟩ := h
  rintro ⟨d', n, hd', rfl⟩
  cases hd.symm.trans hd'
  exact not_concat_isPrefix _ n hq

namespace Apart

variable (h : o.Apart cwd)
include h

theorem not_inFolder_of_leadsToOutputs (hq : o.LeadsToOutputs cwd q) : ¬ o.InFolder cwd q := by
  obtain ⟨d, hd, hq⟩ := hq
  rintro ⟨f, n, hf, rfl⟩
  exact (h d f hd hf).2 ((List.prefix_append _ _).trans hq)

theorem not_inOutputs_of_leadsToDownloads (hq : o.LeadsToDownloads cwd q) :
    ¬ o.InOutputs cwd q := by
  obtain ⟨f, hf, hq⟩ := hq
  rintro ⟨d, n, hd, rfl⟩
  exact (h d f hd hf).1 ((List.prefix_append _ _).trans hq)

theorem not_inFolder_of_inOutputs (hq : o.InOutputs cwd q) : ¬ o.InFolder cwd q := by
  obtain ⟨d, n, hd, rfl⟩ := hq
  rintro ⟨f, m, hf, heq⟩
  obtain ⟨heq, -⟩ := List.append_singleton_inj.mp heq
  exact (h d f hd hf).1 (heq ▸ List.prefix_refl _)

theorem not_needed_of_inOutputs (hq : o.InOutputs cwd q) : ¬ o.Needed cwd q := by
  rintro (hleads | hleads)
  · exact hleads.not_inOutputs hq
  · exact h.not_inOutputs_of_leadsToDownloads hleads hq

theorem not_needed_of_inFolder (hq : o.InFolder cwd q) : ¬ o.Needed cwd q := by
  rintro (hleads | hleads)
  · exact h.not_inFolder_of_leadsToOutputs hleads hq
  · exact hleads.not_inFolder hq

end Apart

end Options

theorem OutputPlan.IsMade.inOutputs {p : OutputPlan} (hp : p.IsMade o cwd) (n : String) :
    o.InOutputs cwd (p.directory.parts ++ [n]) := by
  obtain ⟨d, hd, heq⟩ := hp.directory_eq
  exact ⟨d, n, hd, by rw [heq]⟩

namespace Rewrite

variable {w w₁ x y : Workspace} {us vs : List Visit} {u v : Visit} {role : Role} {image : Path}
  {w₀ : Workspace} {c : Component}

/-! ## The image that a visit meets -/

namespace Visit

/-- The literal text of the source of an image. -/
def text? (v : Visit) : Option (List Char) :=
  match v.source? with
  | some (.static text _ _) => some text
  | _ => none

theorem remoteUrl?_eq {text : List Char} (h : v.text? = some text) :
    Resolution.remoteUrl? v.source? =
      if Url.isExternal (Text.trim text) then some (String.ofList (Text.trim text)) else none := by
  rw [text?] at h
  split at h
  · rename_i hsource
    cases h
    rw [hsource, Resolution.remoteUrl?]
  · cases h

/-- The search that a visit makes for the literal text of its source. -/
theorem found?_eq_some_iff_findText :
    v.found? o = some (role, image, w₀) ↔ ∃ extensions text,
      Eligibility.ofNode v.node o = .ok (.eligible role extensions) ∧ v.text? = some text ∧
        (Resolution.findText text v.document.directory o extensions).run v.before =
          (.ok (.file image), w₀) := by
  rw [found?_eq_some_iff]
  constructor
  · rintro ⟨extensions, heligible, hfind⟩
    unfold Resolution.find at hfind
    split at hfind
    · cases hfind
    · cases hfind
    · rename_i text first last hsource
      exact ⟨extensions, text, heligible, by rw [text?, hsource], hfind⟩
  · rintro ⟨extensions, text, heligible, htext, hfind⟩
    refine ⟨extensions, heligible, ?_⟩
    rw [text?] at htext
    split at htext
    · rename_i hsource
      cases htext
      rw [hsource]
      exact hfind
    · cases htext

/-- A visit finds an image with some content. -/
def Meets (o : Options) (v : Visit) (role : Role) (image : Path) (c : Content) : Prop :=
  ∃ w₀, v.found? o = some (role, image, w₀) ∧ w₀.files.content? image.parts = some c

theorem exists_meets (hw : v.before.IsSound) (hd : v.document.directory.IsResolved)
    (h : v.found? o = some (role, image, w₀)) : ∃ c, v.Meets o role image c := by
  obtain ⟨-, c, hc⟩ := (search_of_found h hw hd).isFile hw rfl
  exact ⟨c, w₀, h, hc⟩

theorem meets_iff {d : Content} :
    v.Meets o role image d ↔ ∃ extensions text,
      Eligibility.ofNode v.node o = .ok (.eligible role extensions) ∧ v.text? = some text ∧
        Resolution.Sees o v.document.directory extensions text v.before image d := by
  constructor
  · rintro ⟨w₀, hfound, hc⟩
    obtain ⟨extensions, text, heligible, htext, hfind⟩ := found?_eq_some_iff_findText.mp hfound
    exact ⟨extensions, text, heligible, htext, w₀, hfind, hc⟩
  · rintro ⟨extensions, text, heligible, htext, w₀, hfind, hc⟩
    exact ⟨w₀, found?_eq_some_iff_findText.mpr ⟨extensions, text, heligible, htext, hfind⟩, hc⟩

/-- An image on another host is where its download is. -/
theorem exists_download_of_found (hw : v.before.IsSound) (hd : v.document.directory.IsResolved)
    {url : String} (hurl : Resolution.remoteUrl? v.source? = some url)
    (h : v.found? o = some (role, image, w₀)) :
    ∃ d, o.downloadPath = .ok d ∧ (d.resolve v.before.cwd).IsResolved ∧
      (Download.download url (d.resolve v.before.cwd) o.remoteTimeout).run v.before =
        (.ok (some image), w₀) := by
  obtain ⟨-, c, hc⟩ := (search_of_found h hw hd).isFile hw rfl
  obtain ⟨extensions, text, heligible, htext, hfind⟩ := found?_eq_some_iff_findText.mp h
  rw [remoteUrl?_eq htext] at hurl
  split_ifs at hurl with hexternal
  cases hurl
  rw [Resolution.findText_of_sees ⟨w₀, hfind, hc⟩, if_pos hexternal] at hfind
  exact Resolution.exists_download_of_findExternal hw hfind

end Visit

/-! ## Tidiness -/

/-- Visits that find no image where outputs or downloads go. -/
structure Clear (o : Options) (cwd : List String) (vs : List Visit) : Prop where
  apart : o.Apart cwd
  /-- No image is found in the file tree where outputs or downloads go. -/
  sources : ∀ v ∈ vs, ∀ role image w₀, v.found? o = some (role, image, w₀) →
    Resolution.remoteUrl? v.source? = none →
      ¬ o.InOutputs cwd image.parts ∧ ¬ o.InDownloads cwd (remoteUrls vs) image.parts
  /-- No image that has been downloaded looks unfinished. -/
  whole : ∀ v ∈ vs, ∀ role image w₀, v.found? o = some (role, image, w₀) →
    ¬ o.Unfinished cwd image.parts
  /-- Downloads of distinct URLs have distinct names. -/
  keys : ∀ url ∈ remoteUrls vs, ∀ url' ∈ remoteUrls vs,
    Download.key url = Download.key url' → url = url'

/-- Visits whose outputs have names of their own. -/
structure Distinct [Codec] (o : Options) (vs : List Visit) : Prop where
  /-- No copy is named like a rendition. -/
  copies : ∀ v ∈ vs, ∀ c, v.progress o = .awaiting c → ∀ k ∈ c.sizes, ∀ q, c.plan.Place o k q →
    ∀ u ∈ vs, ∀ p, u.Plans o p → p.path.parts ≠ q
  /-- No rendition is named like one of another image or of another size. -/
  renditions : ∀ v ∈ vs, ∀ c, v.progress o = .awaiting c → ∀ u ∈ vs, ∀ c',
    u.progress o = .awaiting c' → ∀ k ∈ c'.sizes, c.plan.Spares o c.sizes c'.plan k

/-- Visits whose reading and writing does not get mixed up. -/
structure Tidy [Codec] (o : Options) (cwd : List String) (vs : List Visit) : Prop
    extends Clear o cwd vs, Distinct o vs

/-! ## What is kept -/

/-- What a workspace has in common with an earlier one: all but outputs, downloads of some URLs and
directories that the options need, and what those downloads come out with. -/
structure Kept (o : Options) (w : Workspace) (urls : List String) (x : Workspace) : Prop where
  confined : Confines (fun q ↦ o.InOutputs w.cwd q ∨ o.InDownloads w.cwd urls q) (fun _ ↦ True)
    (o.Needed w.cwd) w x
  yields : ∀ url ∈ urls, ∀ d, o.downloadPath = .ok d → ∀ image c,
    Download.Yields x (d.resolve w.cwd) url image c ↔ Download.Yields w (d.resolve w.cwd) url image c

namespace Kept

theorem refl (hw : w.IsSound) : Kept o w urls w := ⟨.refl hw, fun _ _ _ _ _ _ ↦ Iff.rfl⟩

theorem isSound (h : Kept o w urls x) : x.IsSound := h.confined.isSound

theorem cwd_eq (h : Kept o w urls x) : x.cwd = w.cwd := h.confined.cwd_eq

theorem content?_eq (h : Kept o w urls x) (hq : ¬ o.InOutputs w.cwd q)
    (hq' : ¬ o.InDownloads w.cwd urls q) : x.files.content? q = w.files.content? q :=
  h.confined.content?_eq (fun hor ↦ hor.elim hq hq') id

theorem isDirectory_eq (h : Kept o w urls x) (hq : ¬ o.Needed w.cwd q) :
    x.files.isDirectory q = w.files.isDirectory q :=
  Bool.eq_iff_iff.mpr ⟨fun hx ↦ (h.confined.founds.isDirectory q hx).resolve_right hq,
    h.confined.isDirectory q⟩

/-- A step that leaves all downloads as they are. -/
theorem of_step (h : Kept o w urls x) (hapart : o.Apart w.cwd)
    (hy : Confines (fun q ↦ o.InOutputs w.cwd q ∨ o.InDownloads w.cwd urls q) (fun _ ↦ True)
      (o.Needed w.cwd) w y)
    (hstep : ∀ q, o.InFolder w.cwd q → y.files.content? q = x.files.content? q) :
    Kept o w urls y := by
  refine ⟨hy, fun url hurl d hd image c ↦ ?_⟩
  have hsame : Download.SameFor (d.resolve w.cwd) url x y := by
    refine ⟨hy.remote_eq.trans h.confined.remote_eq.symm, fun n _ _ ↦ hstep _ ⟨d, n, hd, rfl⟩,
      fun q hq ↦ ?_, fun n _ ↦ ?_⟩
    · have hleads : o.LeadsToDownloads w.cwd q := ⟨d, hd, hq⟩
      have huntouched : ¬ (o.InOutputs w.cwd q ∨ o.InDownloads w.cwd urls q) := fun hor ↦
        hor.elim (hapart.not_inOutputs_of_leadsToDownloads hleads)
          fun hin ↦ hleads.not_inFolder hin.inFolder
      rw [hy.content?_eq huntouched id, h.confined.content?_eq huntouched id]
    · have hneeded := hapart.not_needed_of_inFolder ⟨d, n, hd, rfl⟩
      rw [h.isDirectory_eq hneeded]
      exact Bool.eq_iff_iff.mpr ⟨fun hx ↦ (hy.founds.isDirectory _ hx).resolve_right hneeded,
        hy.isDirectory _⟩
  exact hsame.yields_iff.trans (h.yields url hurl d hd image c)

/-- A search keeps what its URL comes out with, unless its image looks unfinished, and what others do. -/
theorem search {value : Option Markup.AttributeValue} {r : Except Fault Resolution.Finding}
    (h : Kept o w urls x) (hsearch : Resolution.Search o value x r y)
    (hurls : ∀ url, Resolution.remoteUrl? value = some url → url ∈ urls)
    (hkeys : ∀ url ∈ urls, ∀ url' ∈ urls, Download.key url = Download.key url' → url = url')
    (hwhole : ∀ image, r = .ok (.file image) → ¬ o.Unfinished w.cwd image.parts) :
    Kept o w urls y := by
  have hconfined := hsearch.confines h.isSound
  rw [h.cwd_eq] at hconfined
  have hstep : Confines (fun q ↦ o.InOutputs w.cwd q ∨ o.InDownloads w.cwd urls q) (fun _ ↦ True)
      (o.Needed w.cwd) x y := by
    refine hconfined.mono (fun q hq ↦ .inr (hq.mono fun url hurl ↦ ?_)) (fun _ _ ↦ trivial) fun q ↦ .inr
    exact hurls url (Option.mem_toList.mp hurl)
  refine ⟨h.confined.trans hstep, fun url' hurl' d' hd' image c ↦ ?_⟩
  rw [← h.yields url' hurl' d' hd' image c]
  cases hsearch with
  | looked => exact Iff.rfl
  | @downloaded url d outcome w₁ _ hurl hd hfolder hrun hafter hfound =>
    cases hd.symm.trans hd'
    rw [h.cwd_eq] at hfolder hrun
    have hx₁ := (Download.leaves_download h.isSound hfolder hrun).evolves.isSound
    rw [(Download.sameFor_of_alike hx₁ hafter).yields_iff]
    by_cases hsame : url' = url
    · subst hsame
      refine Download.yields_iff_of_download h.isSound hfolder hrun fun image houtcome ↦ ?_
      subst houtcome
      obtain ⟨n, -, rfl, hkey, -⟩ := Download.exists_child_of_download h.isSound hfolder hrun
      rw [Path.name_child, ← Bool.not_eq_true]
      intro hpartial
      exact hwhole _ ((hfound _).mpr rfl) ⟨d', hd', n, ⟨url', hkey⟩, hpartial, Path.parts_child _ _⟩
    · exact (Download.sameFor_of_download h.isSound hfolder (fun hkey ↦
        hsame (hkeys url' hurl' url (hurls url hurl) hkey.symm)) hrun).yields_iff

end Kept

/-- An image that is found where nothing gets mixed up is neither an output nor an unfinished download.
-/
theorem Clear.not_output (ht : Clear o w.cwd vs) (hv : v ∈ vs) (hbefore : v.before.IsSound)
    (hcwd : v.before.cwd = w.cwd) (hd : v.document.directory.IsResolved)
    (hfound : v.found? o = some (role, image, w₀)) :
    ¬ o.Unfinished w.cwd image.parts ∧ ¬ o.InOutputs w.cwd image.parts := by
  refine ⟨ht.whole v hv role image w₀ hfound, ?_⟩
  cases hurl : Resolution.remoteUrl? v.source? with
  | none => exact (ht.sources v hv role image w₀ hfound hurl).1
  | some url =>
    obtain ⟨d, hpath, hfolder, hrun⟩ := Visit.exists_download_of_found hbefore hd hurl hfound
    obtain ⟨n, -, rfl, -, -⟩ := Download.exists_child_of_download hbefore hfolder hrun
    exact fun hin ↦ ht.apart.not_inFolder_of_inOutputs hin
      ⟨d, n, hpath, by rw [Path.parts_child, hcwd]⟩

/-! ## Where outputs go -/

namespace Kept

variable {p : OutputPlan}

/-- The copy of an image can be put in its place, or cannot, as before. -/
theorem canStage_iff (h : Kept o w urls x) (hapart : o.Apart w.cwd) (hp : p.IsMade o w.cwd) :
    p.CanStage x ↔ p.CanStage w := by
  have hway : ∀ q, q <+: p.directory.parts → x.files.content? q = w.files.content? q := by
    intro q hq
    have hleads := hp.leadsToOutputs hq
    exact h.content?_eq hleads.not_inOutputs fun hin ↦
      hapart.not_inFolder_of_leadsToOutputs hleads hin.inFolder
  have hcopy := h.isDirectory_eq
    (hapart.not_needed_of_inOutputs (hp.parts_path ▸ hp.inOutputs p.name))
  constructor
  · rintro ⟨hclear, hwritable, hfree⟩
    exact ⟨⟨hclear.isEntryName, fun q hq ↦ (hway q hq).symm.trans (hclear.content? q hq)⟩, hwritable,
      hcopy.symm.trans hfree⟩
  · rintro ⟨hclear, hwritable, hfree⟩
    exact ⟨⟨hclear.isEntryName, fun q hq ↦ (hway q hq).trans (hclear.content? q hq)⟩, hwritable,
      hcopy.trans hfree⟩

/-- No directory comes to be where renditions go. -/
theorem staysFlat (h : Kept o w urls x) (hapart : o.Apart w.cwd) (hp : p.IsMade o w.cwd)
    (hname : o.NamesAlternate) (sizes : List Number) : p.StaysFlat o sizes w x := by
  intro k _ q hq hdir
  obtain ⟨n, rfl⟩ := hq.exists_name hp.toIsFor hname
  rw [← h.isDirectory_eq (hapart.not_needed_of_inOutputs (hp.inOutputs n))]
  exact hdir

end Kept

/-! ## What a history keeps -/

variable [Codec]

/-- What a visit does after its search has to do with outputs only. -/
theorem History.kept (hw : w.IsSound) (ht : Clear o w.cwd vs) (hsub : us ⊆ vs) (h : History o w us x) :
    Kept o w (remoteUrls vs) x := by
  have hurls : ∀ v ∈ vs, ∀ url, Resolution.remoteUrl? v.source? = some url → url ∈ remoteUrls vs :=
    fun v hv url hurl ↦ List.mem_filterMap.mpr ⟨v, hv, hurl⟩
  have hconfined : ∀ {us x}, us ⊆ vs → History o w us x →
      Confines (fun q ↦ o.InOutputs w.cwd q ∨ o.InDownloads w.cwd (remoteUrls vs) q) (fun _ ↦ True)
        (o.Needed w.cwd) w x := by
    intro us x hsub h
    refine (h.confines_needed hw).mono (fun q hq ↦ hq.imp_right fun hq ↦ hq.mono fun url hurl ↦ ?_)
      (fun _ _ ↦ trivial) fun _ ↦ id
    obtain ⟨v, hv, hsource⟩ := List.mem_filterMap.mp hurl
    exact hurls v (hsub hv) url hsource
  induction h with
  | start => exact .refl hw
  | @quiet us x y h halike ih =>
    exact (ih hsub).of_step ht.apart (hconfined hsub (h.quiet halike)) fun q _ ↦ by rw [halike.files_eq]
  | @visit us x h d hd n ih =>
    have hx := ih (List.append_subset.mp hsub).1
    have hv : (⟨d, n, x⟩ : Visit) ∈ vs := hsub (List.mem_append_right _ List.mem_cons_self)
    obtain ⟨r, x₁, hsearch, hfound, hafter, -⟩ :=
      Visit.exists_search (o := o) (v := ⟨d, n, x⟩) hx.isSound hd
    have hx₁ : Kept o w (remoteUrls vs) x₁ := by
      refine hx.search hsearch (hurls _ hv) ht.keys fun image hr ↦ ?_
      obtain ⟨role, hfound⟩ := hfound image hr
      exact ht.whole _ hv role image x₁ hfound
    refine hx₁.of_step ht.apart (hconfined hsub (h.visit hd n)) fun q hq ↦ ?_
    refine hafter.content?_eq ?_ id
    rintro ⟨p, hp, rfl⟩
    have hmade := hp.isMade hx.isSound hd
    rw [hx.cwd_eq] at hmade
    exact ht.apart.not_inFolder_of_inOutputs (hmade.parts_path ▸ hmade.inOutputs p.name) hq
  | @expand us x h v c hv hc ih =>
    have hx := ih hsub
    have hsound := h.sound hw
    obtain ⟨hbefore, hcwd⟩ := hsound.before v hv
    have hp := (Visit.isMade_of_awaiting hbefore (hsound.directory v hv) hc).2
    refine hx.of_step ht.apart (hconfined hsub (h.expand hv hc)) fun q hq ↦ ?_
    refine (Variant.within_ofSizes hp.toIsFor c.sizes c.header x hx.isSound).content?_eq id fun hq' ↦ ?_
    obtain ⟨n, rfl⟩ := hq'.exists_name hp.toIsFor
    rw [hcwd] at hp
    exact ht.apart.not_inFolder_of_inOutputs (hp.inOutputs n) hq

/-! ## Before and after a visit -/

/-- What comes before a visit of a history is a history. -/
theorem History.exists_before (h : History o w us x) (hv : v ∈ us) :
    ∃ us' ⊆ us, History o w us' v.before := by
  induction h with
  | start => cases hv
  | quiet _ _ ih => exact ih hv
  | @visit us x h d hd n ih =>
    rcases List.mem_append.mp hv with hv | hv
    · obtain ⟨us', hsub, hbefore⟩ := ih hv
      exact ⟨us', List.subset_append_of_subset_left _ hsub, hbefore⟩
    · rw [List.mem_singleton.mp hv]
      exact ⟨us, List.subset_append_left _ _, h⟩
  | expand _ _ _ ih => exact ih hv

/-- What comes after a visit of a history changes outputs and unfinished downloads, and no more. -/
theorem History.evolves_of_mem (hw : w.IsSound) (h : History o w us x) (hv : v ∈ us) :
    Evolves (fun q ↦ o.Unfinished w.cwd q ∨ o.InOutputs w.cwd q) (fun _ ↦ True) (v.after o) x := by
  have hvisited : ∀ {us : List Visit} {x : Workspace}, History o w us x → ∀ {d : Document},
      d.directory.IsResolved → ∀ n : Markup.Node,
      Evolves (fun q ↦ o.Unfinished w.cwd q ∨ o.InOutputs w.cwd q) (fun _ ↦ True) x
        (Visit.after o ⟨d, n, x⟩) := by
    intro us x h d hd n
    have hsound := h.sound hw
    have he := Visit.evolves (o := o) (v := ⟨d, n, x⟩) hsound.isSound hd
    refine he.mono (fun q hq ↦ ?_) fun _ _ ↦ .inr trivial
    rcases hq with hq | ⟨role, p, hshown, rfl⟩
    · exact .inl (hsound.cwd_eq ▸ hq)
    · have hp := Visit.isMade_of_shown (v := ⟨d, n, x⟩) hsound.isSound hd hshown
      rw [hsound.cwd_eq] at hp
      exact .inr (hp.parts_path ▸ hp.inOutputs p.name)
  induction h with
  | start => cases hv
  | quiet h halike ih => exact (ih hv).trans (halike.evolves (h.sound hw).isSound)
  | @visit us x h d hd n ih =>
    rcases List.mem_append.mp hv with hv | hv
    · exact (ih hv).trans (hvisited h hd n)
    · rw [List.mem_singleton.mp hv]
      exact .refl ((h.visit hd n).sound hw).isSound
  | @expand us x h u c hu hc ih =>
    have hsound := h.sound hw
    have hp := (Visit.isMade_of_awaiting (hsound.before u hu).1 (hsound.directory u hu) hc).2
    refine (ih hv).trans ?_
    exact (Variant.within_ofSizes hp.toIsFor c.sizes c.header x hsound.isSound).mono
      (fun _ h ↦ h.elim) fun _ _ ↦ .inr trivial

/-! ## Where renditions go -/

/-- Where the renditions of a component go, the files are those of before, or its renditions. -/
theorem History.follows {z : Workspace} (hw : w.IsSound) (ht : Tidy o w.cwd vs)
    (hall : History.Sound o w vs z) (hname : o.NamesAlternate) (hv : v ∈ vs)
    (hc : v.progress o = .awaiting c) (hsub : us ⊆ vs) (h : History o w us x) :
    Variant.Follows c.plan o c.sizes w x := by
  obtain ⟨hbefore, hcwd⟩ := hall.before v hv
  have hplan := (Visit.isMade_of_awaiting hbefore (hall.directory v hv) hc).2
  obtain ⟨role, w₀, hfound, -⟩ := Visit.plans_of_awaiting hbefore (hall.directory v hv) hc
  obtain ⟨hunfinished, houtput⟩ := ht.not_output hv hbefore hcwd (hall.directory v hv) hfound
  rw [hcwd] at hplan
  induction h with
  | start => exact ⟨hw, fun _ ↦ id, .refl⟩
  | quiet _ halike ih =>
    obtain ⟨hx, hdirs, hfits⟩ := ih hsub
    have he : Evolves Nowhere Nowhere _ _ := halike.evolves hx
    exact ⟨he.isSound, fun q hq ↦ he.isDirectory q (hdirs q hq),
      hfits.of_evolves he (fun e ↦ he.content?_of_some id) fun _ _ _ _ ↦ ⟨id, id⟩⟩
  | @visit us x h d hd n ih =>
    obtain ⟨hx, hdirs, hfits⟩ := ih (List.append_subset.mp hsub).1
    have hu : (⟨d, n, x⟩ : Visit) ∈ vs := hsub (List.mem_append_right _ List.mem_cons_self)
    have hxcwd : x.cwd = w.cwd := (hall.before _ hu).2
    have he := Visit.evolves (o := o) (v := ⟨d, n, x⟩) hx hd
    refine ⟨he.isSound, fun q hq ↦ he.isDirectory q (hdirs q hq),
      hfits.of_evolves he (fun e he' ↦ ?_) fun k hk q hq ↦ ?_⟩
    · refine Visit.content?_after (v := ⟨d, n, x⟩) hx hd (hxcwd.symm ▸ hunfinished)
        (fun role p hshown hpath ↦ houtput ?_) he'
      have hp := Visit.isMade_of_shown (v := ⟨d, n, x⟩) hx hd hshown
      rw [hxcwd] at hp
      rw [← hpath, hp.parts_path]
      exact hp.inOutputs p.name
    · obtain ⟨m, rfl⟩ := id hq.exists_name hplan.toIsFor hname
      have hnot := ht.apart.not_inFolder_of_inOutputs (hplan.inOutputs m)
      rw [Visit.Changes, hxcwd]
      refine ⟨?_, fun hq' ↦ hnot hq'.inFolder⟩
      rintro (hq' | ⟨role, p, hshown, hpath⟩)
      · exact hnot hq'.inFolder
      · obtain ⟨w₁, hfound, hplan⟩ := Visit.exists_found_of_shown (v := ⟨d, n, x⟩) hx hd hshown
        exact ht.copies v hv c hc k hk _ hq _ hu p ⟨role, w₁, hfound, hplan⟩ hpath.symm
  | @expand us x h u c' hu hc' ih =>
    have hu := hsub hu
    have hp := (Visit.isMade_of_awaiting (hall.before u hu).1 (hall.directory u hu) hc').2
    exact (ih hsub).ofSizes hp.toIsFor hname (ht.renditions v hv c hc u hu c' hc') c'.header

end Rewrite

end ResponsiveImage
