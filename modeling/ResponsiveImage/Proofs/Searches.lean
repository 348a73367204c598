import ResponsiveImage.Proofs.Path.Resolving
import ResponsiveImage.Proofs.Remote.Refetched
import ResponsiveImage.Proofs.Sources

/-!
# Searching again

What is found of a source depends on little: a source in the file tree on what stands at the two places
that are looked at, and one on another host on what its download comes out with.  Workspaces that agree
on that (`Agree`) show the same image (`Sees.of_agree`).
-/

namespace ResponsiveImage.Resolution

open Json (Value)
open Job

variable {o : Options} {w w' x : Workspace} {parent sourceDirectory p image : Path}
  {raw text : List Char}
  {extensions : List Value} {c : Content}

/-! ## Looking at files -/

theorem run_resolve (p : Path) (w : Workspace) :
    (resolve p).run w = (if p.hasNul then .error .embeddedNul else .ok (p.resolve w.cwd), w) := by
  rw [resolve]
  cases p.hasNul with
  | true => rfl
  | false => rfl

theorem exists_of_isFile_eq_error {f : Fault} (h : (isFile p).run w = (.error f, w')) :
    ∃ e, f = .file e := by
  have hfind := run_find? p w
  cases hrun : (find? p).run w with
  | mk r w₁ =>
    rw [hrun] at hfind
    cases r with
    | ok found =>
      have hstanding : (standing? p).run w = (.ok (found.map (·.2)), w₁) := run_bind_of_ok hrun
      rw [isFile, run_bind_of_ok hstanding] at h
      split at h <;> cases h
    | error g =>
      have hstanding : (standing? p).run w = (.error g, w₁) := run_bind_of_error hrun
      rw [isFile, run_bind_of_error hstanding] at h
      cases h
      split at hfind
      · cases hfind
      · split at hfind <;> cases hfind
        exact ⟨_, rfl⟩

/-- Whether a file can be read is always told. -/
theorem run_isReadable (hw : w.IsSound) (hp : p.IsResolved) :
    (isReadable p).run w = (.ok (w.files.content? p.parts).isSome, w) := by
  have hok : ∃ b w', (isReadable p).run w = (.ok b, w') := by
    rw [isReadable]
    cases hfile : (isFile p).run w with
    | mk r w₁ =>
      rw [run_bind_of_ok (run_attempt_eq_ok.mpr hfile)]
      cases r with
      | ok b => exact ⟨b, w₁, rfl⟩
      | error f =>
        obtain ⟨e, rfl⟩ := exists_of_isFile_eq_error hfile
        exact ⟨false, w₁, rfl⟩
  obtain ⟨b, w', hb⟩ := hok
  obtain ⟨rfl, rfl⟩ := run_isReadable_eq_ok hw hp hb
  exact hb

/-- The places in the file tree at which a literal text is looked for. -/
def localPlaces (o : Options) (cwd : List String) (parent : Path) (raw : List Char) : List Path :=
  match Options.path o.sourceDir with
  | .ok d => [(parent / .ofString (String.ofList raw)).resolve cwd,
      (d / .ofString (String.ofList (rooted raw))).resolve cwd]
  | .error _ => []

theorem run_findLocal (hw : w.IsSound) (hparent : parent.IsResolved)
    (hd : Options.path o.sourceDir = .ok sourceDirectory) :
    (findLocal raw parent sourceDirectory).run w =
      (let beside := parent / .ofString (String.ofList raw)
        let below := sourceDirectory / .ofString (String.ofList (rooted raw))
        if beside.hasNul then .error .embeddedNul
        else if (w.files.content? (beside.resolve w.cwd).parts).isSome then
          .ok (some (beside.resolve w.cwd))
        else if below.hasNul then .error .embeddedNul
        else if (w.files.content? (below.resolve w.cwd).parts).isSome then
          .ok (some (below.resolve w.cwd))
        else .ok none, w) := by
  have hbeside := isResolved_join hw (fun n hn ↦ .inl (hparent.isName n hn)) (String.ofList raw)
  have hbelow := isResolved_join hw (fun n hn ↦ Options.mem_parts_path hd hn)
    (String.ofList (rooted raw))
  rw [findLocal, run_bind, run_resolve]
  dsimp only
  split_ifs with hnul hthere hnul' hthere'
  · rfl
  · dsimp only
    rw [run_bind_of_ok (run_isReadable hw hbeside), if_pos hthere]
    rfl
  all_goals
    dsimp only
    rw [run_bind_of_ok (run_isReadable hw hbeside), if_neg hthere, run_bind, run_resolve]
  · rw [if_pos hnul']
  · rw [if_neg hnul']
    dsimp only
    rw [run_bind_of_ok (run_isReadable hw hbelow), if_pos hthere']
    rfl
  · rw [if_neg hnul']
    dsimp only
    rw [run_bind_of_ok (run_isReadable hw hbelow), if_neg hthere']
    rfl

/-! ## Searches -/

/-- A literal text that is data itself, and is left alone. -/
def IsData (text : List Char) : Prop :=
  "data:".toList.isPrefixOf (Text.lowerChars (Text.trim text)) = true

theorem isData_of_isPrefix (h : "data:".toList <+: text) : IsData text := by
  obtain ⟨rest, rfl⟩ := h
  have hstart : Text.skipBlanks ("data:".toList ++ rest) = "data:".toList ++ rest := rfl
  have htrim : "data:".toList <+: Text.trim ("data:".toList ++ rest) := by
    rw [Text.trim, hstart, List.reverse_append, Text.skipBlanks, List.dropWhile_append]
    split
    · exact ⟨[], rfl⟩
    · rw [List.reverse_append]
      exact ⟨_, rfl⟩
  obtain ⟨rest', htrim⟩ := htrim
  rw [IsData, ← htrim, Text.lowerChars, Text.isPrefixOf_lowerAfter fun _ ↦ id, List.map_append]
  exact List.isPrefixOf_iff_prefix.mpr ⟨_, rfl⟩

/-- A search for a literal text shows an image with some content. -/
def Sees (o : Options) (parent : Path) (extensions : List Value) (text : List Char) (w : Workspace)
    (image : Path) (c : Content) : Prop :=
  ∃ w', (findText text parent o extensions).run w = (.ok (.file image), w') ∧
    w'.files.content? image.parts = some c

/-- Two workspaces that are the same for the search for a literal text: at those of the places that are
looked at which have a property or, for a text on another host, in what its download comes out with. -/
structure Agree (o : Options) (parent : Path) (text : List Char) (P : Path → Prop) (w x : Workspace) :
    Prop where
  cwd_eq : x.cwd = w.cwd
  files : Url.isExternal (Text.trim text) = false →
    ∀ p ∈ localPlaces o w.cwd parent (Text.trim text), P p →
      x.files.content? p.parts = w.files.content? p.parts
  downloads : Url.isExternal (Text.trim text) = true → ∀ d, o.downloadPath = .ok d → ∀ image c,
    Download.Yields x (d.resolve w.cwd) (String.ofList (Text.trim text)) image c ↔
      Download.Yields w (d.resolve w.cwd) (String.ofList (Text.trim text)) image c

theorem looks_findFile (raw : List Char) (parent : Path) (o : Options) :
    Looks (findFile raw parent o) := by
  refine (looks_ofExcept _ _).bind fun d ↦ (looks_findLocal _ _ _).bind fun image? ↦ ?_
  split
  · exact looks_pure _
  · exact looks_pure _

/-- A source in the file tree: what is found in one workspace is found in the other, if that finds
nothing at places where the two may differ. -/
theorem exists_run_findFile {P : Path → Prop} (hw : w.IsSound) (hx : x.IsSound)
    (hparent : parent.IsResolved) (hcwd : x.cwd = w.cwd)
    (hsame : ∀ p ∈ localPlaces o w.cwd parent raw, P p →
      x.files.content? p.parts = w.files.content? p.parts)
    (hother : ∀ p, (findFile raw parent o).run x = (.ok (.file p), x) → P p)
    (hrun : (findFile raw parent o).run w = (.ok (.file image), w')) (himage : P image)
    (hc : w'.files.content? image.parts = some c) :
    (findFile raw parent o).run x = (.ok (.file image), x) ∧
      x.files.content? image.parts = some c := by
  obtain rfl := (looks_findFile raw parent o).eq hrun
  cases hd : Options.path o.sourceDir with
  | error f =>
    rw [findFile, hd] at hrun
    cases hrun
  | ok d =>
    have hfind : ∀ {y : Workspace} {p : Path}, (findLocal raw parent d).run y = (.ok (some p), y) →
        (findFile raw parent o).run y = (.ok (.file p), y) := by
      intro y p hy
      rw [findFile, hd, run_bind_of_ok (run_ofExcept_ok _ _ _), run_bind_of_ok hy]
      rfl
    have hlocal : (findLocal raw parent d).run w' = (.ok (some image), w') := by
      rw [findFile, hd, run_bind_of_ok (run_ofExcept_ok _ _ _), run_bind_eq_ok] at hrun
      obtain ⟨found, w₁, hfound, hrun⟩ := hrun
      cases found with
      | none => cases hrun
      | some p =>
        cases hrun
        exact hfound
    rw [localPlaces, hd] at hsame
    have hbeside := hsame _ List.mem_cons_self
    have hbelow := hsame _ (List.mem_cons_of_mem _ List.mem_cons_self)
    have hx' : (findLocal raw parent d).run x = _ := run_findLocal hx hparent hd
    rw [run_findLocal hw hparent hd] at hlocal
    dsimp only at hlocal hx'
    rw [hcwd] at hx'
    split_ifs at hlocal with hnul hthere hnul' hthere'
    · cases hlocal
    · cases hlocal
      have hc' := (hbeside himage).trans hc
      rw [if_neg hnul, if_pos (by rw [hc']; rfl)] at hx'
      exact ⟨hfind hx', hc'⟩
    · cases hlocal
    · cases hlocal
      have hc' := (hbelow himage).trans hc
      have hnone : ¬ (x.files.content?
          ((parent / .ofString (String.ofList raw)).resolve w'.cwd).parts).isSome = true := by
        intro hsome
        rw [if_neg hnul, if_pos hsome] at hx'
        rw [hbeside (hother _ (hfind hx'))] at hsome
        exact hthere hsome
      rw [if_neg hnul, if_neg hnone, if_neg hnul', if_pos (by rw [hc']; rfl)] at hx'
      exact ⟨hfind hx', hc'⟩
    · cases hlocal

theorem run_downloadDirectory_congr (hcwd : x.cwd = w.cwd) :
    ((OutputPlan.downloadDirectory o).run x).1 = ((OutputPlan.downloadDirectory o).run w).1 := by
  rw [OutputPlan.downloadDirectory]
  cases o.downloadPath with
  | error f => rfl
  | ok d =>
    rw [run_bind_of_ok (run_ofExcept_ok _ _ _), run_bind_of_ok (run_ofExcept_ok _ _ _), run_resolve,
      run_resolve, hcwd]

/-- What is found of a source on another host is what its download comes out with. -/
theorem exists_download_of_findExternal {url : String} (hw : w.IsSound)
    (hrun : (findExternal url o).run w = (.ok (.file image), w')) :
    ∃ d, o.downloadPath = .ok d ∧ (d.resolve w.cwd).IsResolved ∧
      (Download.download url (d.resolve w.cwd) o.remoteTimeout).run w = (.ok (some image), w') := by
  rw [findExternal] at hrun
  split at hrun
  · cases hrun
  · obtain ⟨folder, w₁, hfolder, hrun⟩ := run_bind_eq_ok.mp hrun
    obtain rfl := (OutputPlan.looks_downloadDirectory o).eq hfolder
    obtain ⟨hresolved, d, hd, rfl⟩ := OutputPlan.run_downloadDirectory_eq_ok hw hfolder
    obtain ⟨outcome, w₂, hdownload, hrun⟩ := run_bind_eq_ok.mp hrun
    rw [run_attempt_eq_ok] at hdownload
    rcases outcome with f | _ | image'
    · cases f <;> cases hrun
    · cases hrun
    · cases hrun
      exact ⟨d, hd, hresolved, hdownload⟩

/-- A source on another host: where the download comes out with the same, the same is found. -/
theorem exists_run_findExternal {url : String} (hw : w.IsSound) (hx : x.IsSound)
    (hcwd : x.cwd = w.cwd)
    (hsame : ∀ d, o.downloadPath = .ok d → ∀ image c,
      Download.Yields x (d.resolve w.cwd) url image c ↔ Download.Yields w (d.resolve w.cwd) url image c)
    (hrun : (findExternal url o).run w = (.ok (.file image), w'))
    (hc : w'.files.content? image.parts = some c) :
    ∃ x', (findExternal url o).run x = (.ok (.file image), x') ∧
      x'.files.content? image.parts = some c := by
  obtain ⟨d, hd, hresolved, hdownload⟩ := exists_download_of_findExternal hw hrun
  have hyields := (Download.yields_iff hw hresolved o.remoteTimeout).mpr ⟨_, hdownload, hc⟩
  obtain ⟨x', hdownload', hc'⟩ := (Download.yields_iff hx hresolved o.remoteTimeout).mp
    ((hsame d hd _ _).mpr hyields)
  refine ⟨x', ?_, hc'⟩
  rw [findExternal] at hrun ⊢
  split at hrun
  · cases hrun
  · rename_i hremote
    obtain ⟨folder, w₁, hfolder, -⟩ := run_bind_eq_ok.mp hrun
    obtain rfl := (OutputPlan.looks_downloadDirectory o).eq hfolder
    obtain ⟨-, d', hd', rfl⟩ := OutputPlan.run_downloadDirectory_eq_ok hw hfolder
    cases hd.symm.trans hd'
    have hfolder' : (OutputPlan.downloadDirectory o).run x = (.ok (d.resolve w₁.cwd), x) := by
      have hfirst := run_downloadDirectory_congr (o := o) hcwd
      rw [hfolder] at hfirst
      exact Prod.ext hfirst (OutputPlan.looks_downloadDirectory o x)
    rw [if_neg hremote, run_bind_of_ok hfolder', run_bind_of_ok (run_attempt_eq_ok.mpr hdownload')]
    rfl

/-- Nothing is found of what is data itself. -/
theorem not_isData_of_findText
    (h : (findText text parent o extensions).run w = (.ok (.file image), w')) :
    ¬ IsData text := by
  intro hdata
  rw [IsData] at hdata
  rw [findText] at h
  dsimp only at h
  rw [hdata] at h
  split at h <;> cases h

/-- What is found of a source in the file tree is at one of the places that are looked at. -/
theorem mem_localPlaces_of_findFile (hw : w.IsSound) (hparent : parent.IsResolved)
    (h : (findFile raw parent o).run w = (.ok (.file image), w')) :
    image ∈ localPlaces o w.cwd parent raw := by
  rw [findFile, run_bind_eq_ok] at h
  obtain ⟨d, w₁, hgiven, h⟩ := h
  obtain ⟨hd, rfl⟩ := run_ofExcept_eq_ok.mp hgiven
  rw [run_bind_eq_ok] at h
  obtain ⟨found, w₂, hfound, h⟩ := h
  cases found with
  | none => cases h
  | some p =>
    cases h
    obtain ⟨-, hfind⟩ := run_findLocal_eq_ok hw (fun n hn ↦ .inl (hparent.isName n hn))
      (fun n hn ↦ Options.mem_parts_path hd hn) hfound
    rw [localPlaces, hd]
    exact List.mem_of_find?_eq_some hfind.symm

theorem partsOf_rooted (raw : List Char) : Path.partsOf (rooted raw) = Path.partsOf raw := by
  unfold rooted
  split
  · rfl
  · exact (Path.partsOf_slash_cons _).symm
  · rfl

/-- What is found of a source is called by its last name. -/
theorem name_of_mem_localPlaces {cwd ns : List String} {n : String}
    (hp : p ∈ localPlaces o cwd parent raw) (hraw : Path.partsOf raw = ns ++ [n]) (hn : n ≠ "..") :
    p.name = n := by
  have hparts : ∀ cs, Path.partsOf cs = ns ++ [n] →
      (Path.ofString (String.ofList cs)).parts = ns ++ [n] := by
    intro cs hcs
    rw [Path.ofString, String.toList_ofList, hcs]
  unfold localPlaces at hp
  split at hp
  · rename_i d hd
    rw [List.mem_cons, List.mem_singleton] at hp
    rcases hp with rfl | rfl
    · exact Path.name_resolve_join _ (hparts _ hraw) hn
    · exact Path.name_resolve_join _ (hparts _ ((partsOf_rooted raw).trans hraw)) hn
  · cases hp

/-- What a search sees has passed the checks that come before it. -/
theorem findText_of_sees (h : Sees o parent extensions text w image c) (y : Workspace) :
    (findText text parent o extensions).run y =
      (if Url.isExternal (Text.trim text) then findExternal (String.ofList (Text.trim text)) o
        else findFile (Text.trim text) parent o).run y := by
  obtain ⟨w', hrun, -⟩ := h
  rw [findText] at hrun ⊢
  dsimp only at hrun ⊢
  split at hrun
  · cases hrun
  · rename_i hblank
    rw [if_neg hblank]
    split at hrun
    · cases hrun
    · rename_i hdata
      rw [if_neg hdata]
      cases hallowed : Eligibility.isAllowed (String.ofList (Text.trim text)) extensions with
      | error f =>
        rw [hallowed] at hrun
        cases hrun
      | ok allowed =>
        rw [hallowed, run_bind_of_ok (run_ofExcept_ok _ _ _)] at hrun
        rw [run_bind_of_ok (run_ofExcept_ok _ _ _)]
        cases allowed with
        | false => cases hrun
        | true => rfl

/-- Workspaces that agree on a text show the same. -/
theorem Sees.of_agree {P : Path → Prop} (hw : w.IsSound) (hx : x.IsSound) (hparent : parent.IsResolved)
    (h : Agree o parent text P w x) (hsees : Sees o parent extensions text w image c)
    (hlocal : Url.isExternal (Text.trim text) = false → P image ∧
      ∀ p d, Sees o parent extensions text x p d → P p) :
    Sees o parent extensions text x image c := by
  have hfind := findText_of_sees hsees
  obtain ⟨w', hrun, hc⟩ := hsees
  rw [hfind w] at hrun
  cases hexternal : Url.isExternal (Text.trim text) with
  | true =>
    rw [hexternal, if_pos rfl] at hrun
    obtain ⟨x', hrun', hc'⟩ :=
      exists_run_findExternal hw hx h.cwd_eq (h.downloads hexternal) hrun hc
    refine ⟨x', ?_, hc'⟩
    rw [hfind x, hexternal, if_pos rfl]
    exact hrun'
  | false =>
    obtain ⟨himage, hother⟩ := hlocal hexternal
    rw [hexternal, if_neg Bool.false_ne_true] at hrun
    have hfile : ∀ y, (findText text parent o extensions).run y =
        (findFile (Text.trim text) parent o).run y := fun y ↦ by
      rw [hfind y, hexternal, if_neg Bool.false_ne_true]
    have hother' : ∀ p, (findFile (Text.trim text) parent o).run x = (.ok (.file p), x) → P p := by
      intro p hp
      have hsearch := search_findFile (o := o) hx hparent (Text.trim text) none
      rw [hp] at hsearch
      obtain ⟨-, d, hd⟩ := hsearch.isFile hx rfl
      exact hother p d ⟨x, (hfile x).trans hp, hd⟩
    obtain ⟨hrun', hc'⟩ := exists_run_findFile hw hx hparent h.cwd_eq (h.files hexternal) hother' hrun
      himage hc
    exact ⟨x, (hfile x).trans hrun', hc'⟩

end ResponsiveImage.Resolution
