import ResponsiveImage.Proofs.Picture.Outputs
import ResponsiveImage.Proofs.Remote.Outcomes
import ResponsiveImage.Resolution

/-!
# What a source is resolved to

A source is resolved to the plan for a file that is there, and a copy of that file is then put in its
place, or it is skipped.  On the way there nothing is changed but downloads, and what is skipped, or
fails, changes nothing else.
-/

namespace ResponsiveImage

open Workspace (Evolves Alike)
open Job

/-- The places of unfinished downloads, as the options have it. -/
def Options.Unfinished (o : Options) (cwd : List String) : List String → Prop := fun q ↦
  ∃ d, o.downloadPath = .ok d ∧ Download.Unfinished (d.resolve cwd) q

/-- The places of downloads, as the options have it. -/
def Options.Fetched (o : Options) (cwd : List String) : List String → Prop := fun q ↦
  ∃ d, o.downloadPath = .ok d ∧ Download.Fetched (d.resolve cwd) q

namespace Options

variable {o : Options} {d : Path} {n : String}

theorem mem_parts_path {v : Json.Value} (h : path v = .ok d) (hn : n ∈ d.parts) :
    IsName n ∨ n = ".." := by
  unfold path at h
  split at h
  · cases h
    exact Path.mem_parts_ofString hn
  · cases h

theorem mem_parts_outputPath (h : o.outputPath = .ok d) (hn : n ∈ d.parts) :
    IsName n ∨ n = ".." := by
  rw [outputPath] at h
  cases hpublic : path o.publicDir with
  | error f =>
    rw [hpublic] at h
    cases h
  | ok publicDir =>
    rw [hpublic] at h
    cases houtput : path o.outputDir with
    | error f =>
      rw [houtput] at h
      cases h
    | ok outputDir =>
      rw [houtput] at h
      cases h
      rcases Path.mem_parts_join hn with hn | hn
      · exact mem_parts_path hpublic hn
      · exact mem_parts_path houtput hn

/-- The output directory in a URL: its backslashes are turned, and slashes at its end dropped. -/
theorem urlBase_eq_ok {base : String} (h : o.urlBase = .ok base) :
    ∃ d, o.outputDir = .string d ∧
      base.toList = Text.trimRight '/' (Url.forwardSlashes d.toList) := by
  unfold urlBase text at h
  split at h
  · rename_i d hd
    cases h
    exact ⟨d, hd, String.toList_ofList⟩
  · cases h

end Options

theorem run_resolve_eq_ok {p q : Path} {w w' : Workspace} (h : (resolve p).run w = (.ok q, w')) :
    w' = w ∧ q = p.resolve w.cwd := by
  rw [resolve] at h
  split at h
  · rw [run_bind, run_throw] at h
    cases h
  · cases h
    exact ⟨rfl, rfl⟩

namespace OutputPlan

variable {p q : OutputPlan} {o : Options} {cwd : List String} {w w' : Workspace} {source : Path}

/-- A plan that some options give in a working directory. -/
structure IsMade (p : OutputPlan) (o : Options) (cwd : List String) : Prop extends p.IsFor o where
  directory_eq : ∃ d, o.outputPath = .ok d ∧ p.directory = d.resolve cwd
  urlBase : o.urlBase = .ok p.urlBase

/-- All plans have the same directory. -/
theorem IsMade.directory_eq_directory (hp : p.IsMade o cwd) (hq : q.IsMade o cwd) :
    p.directory = q.directory := by
  obtain ⟨d, hd, hp⟩ := hp.directory_eq
  obtain ⟨d', hd', hq⟩ := hq.directory_eq
  rw [hd] at hd'
  cases hd'
  rw [hp, hq]

/-- The plan for an image is determined by the options. -/
theorem IsMade.ext (hp : p.IsMade o cwd) (hq : q.IsMade o cwd) (h : p.source = q.source) :
    p = q := by
  have hdirectory := hp.directory_eq_directory hq
  have hurl : p.urlBase = q.urlBase := Except.ok.inj (hp.urlBase.symm.trans hq.urlBase)
  have hext : p.altExtension = q.altExtension :=
    Except.ok.inj (hp.altExtension.symm.trans hq.altExtension)
  cases p
  cases q
  simp_all

/-- Copies of images of one name are put at one place, and only those. -/
theorem IsMade.parts_path_eq_iff (hp : p.IsMade o cwd) (hq : q.IsMade o cwd) :
    p.path.parts = q.path.parts ↔ p.name = q.name := by
  rw [hp.parts_path, hq.parts_path, hp.directory_eq_directory hq]
  simp

theorem looks_outputDirectory (o : Options) : Looks (outputDirectory o) :=
  (looks_ofExcept _ _).bind fun _ ↦ looks_resolve _

theorem run_outputDirectory_eq_ok {d : Path} (h : (outputDirectory o).run w = (.ok d, w')) :
    w' = w ∧ ∃ p, o.outputPath = .ok p ∧ d = p.resolve w.cwd := by
  rw [outputDirectory, run_bind_eq_ok] at h
  obtain ⟨p, w₁, hp, h⟩ := h
  obtain ⟨hpath, rfl⟩ := run_ofExcept_eq_ok.mp hp
  obtain ⟨rfl, rfl⟩ := run_resolve_eq_ok h
  exact ⟨rfl, p, hpath, rfl⟩

theorem looks_downloadDirectory (o : Options) : Looks (downloadDirectory o) :=
  (looks_ofExcept _ _).bind fun _ ↦ looks_resolve _

theorem run_downloadDirectory_eq_ok {d : Path} (hw : w.IsSound)
    (h : (downloadDirectory o).run w = (.ok d, w')) :
    d.IsResolved ∧ ∃ p, o.downloadPath = .ok p ∧ d = p.resolve w.cwd := by
  rw [downloadDirectory, run_bind_eq_ok] at h
  obtain ⟨p, w₁, hp, h⟩ := h
  obtain ⟨hpath, rfl⟩ := run_ofExcept_eq_ok.mp hp
  obtain ⟨-, rfl⟩ := run_resolve_eq_ok h
  exact ⟨Path.resolve_isResolved hw.isName fun n hn ↦ Options.mem_parts_path hpath hn, p, hpath, rfl⟩

theorem looks_ofImage (source : Path) (o : Options) : Looks (ofImage source o) :=
  (looks_outputDirectory o).bind fun _ ↦ (looks_ofExcept _ _).bind fun _ ↦
    (looks_ofExcept _ _).bind fun _ ↦ looks_pure _

/-- The plan for an image has the directory, the URL and the extension that the options have. -/
theorem eq_of_run_ofImage (h : (ofImage source o).run w = (.ok p, w')) :
    w' = w ∧ p.source = source ∧ (∃ d, o.outputPath = .ok d ∧ p.directory = d.resolve w.cwd) ∧
      o.urlBase = .ok p.urlBase ∧ o.altExtension = .ok p.altExtension := by
  rw [ofImage, run_bind_eq_ok] at h
  obtain ⟨d, w₁, hd, h⟩ := h
  obtain ⟨rfl, hdirectory⟩ := run_outputDirectory_eq_ok hd
  rw [run_bind_eq_ok] at h
  obtain ⟨urlBase, w₂, hurl, h⟩ := h
  obtain ⟨hurlBase, rfl⟩ := run_ofExcept_eq_ok.mp hurl
  rw [run_bind_eq_ok] at h
  obtain ⟨extension, w₃, hext, h⟩ := h
  obtain ⟨haltExtension, rfl⟩ := run_ofExcept_eq_ok.mp hext
  cases h
  exact ⟨rfl, rfl, hdirectory, hurlBase, haltExtension⟩

theorem run_ofImage_eq_ok (hw : w.IsSound) (hsource : source.IsResolved)
    (hne : source.parts ≠ []) (h : (ofImage source o).run w = (.ok p, w')) :
    p.IsMade o w.cwd ∧ p.source = source := by
  obtain ⟨-, rfl, ⟨d, hpath, hdirectory⟩, hurlBase, haltExtension⟩ := eq_of_run_ofImage h
  have hresolved : p.directory.IsResolved := by
    rw [hdirectory]
    exact Path.resolve_isResolved hw.isName fun n hn ↦ Options.mem_parts_outputPath hpath hn
  exact ⟨⟨⟨hsource, hne, hresolved, haltExtension⟩, ⟨d, hpath, hdirectory⟩, hurlBase⟩, rfl⟩

/-- A copy that cannot be put in its place leaves at most some directories. -/
theorem evolves_of_stage_error (hw : w.IsSound) (hp : p.IsFor o) {f : Fault}
    (h : p.stage.run w = (.error f, w')) : Evolves Nowhere Nowhere w w' := by
  have hwrite : ∀ {w₁ : Workspace}, Evolves Nowhere Nowhere w w₁ →
      (do writeFile p.path (← readFile p.source) : Job Unit).run w₁ = (.error f, w') →
      Evolves Nowhere Nowhere w w' := by
    intro w₁ he hwrite
    rw [run_bind] at hwrite
    split at hwrite
    · rename_i c w₂ hread
      obtain rfl := (looks_readFile _).eq hread
      obtain ⟨w₃, he₃, ⟨g, hfail⟩ | ⟨hok, -, -⟩⟩ :=
        run_writeFile_cases he.isSound hp.isResolved_path c
      · rw [hfail] at hwrite
        cases hwrite
        exact he.trans he₃
      · rw [hok] at hwrite
        cases hwrite
    · rename_i g w₂ hread
      obtain rfl := (looks_readFile _).eq hread
      cases hwrite
      exact he
  rw [run_stage, run_bind] at h
  split at h
  · rename_i u w₁ hensure
    have he := (within_ensureDirectories hp.directory).evolves hw hensure
    rw [run_bind] at h
    split at h
    · rename_i target? w₂ htarget
      obtain rfl := (looks_place? _).eq htarget
      split at h
      · rw [run_bind] at h
        split at h
        · rename_i own w₃ hown
          obtain rfl := (looks_place _).eq hown
          split at h
          · cases h
          · exact hwrite he h
        · rename_i g w₃ hown
          obtain rfl := (looks_place _).eq hown
          cases h
          exact he
      · exact hwrite he h
    · rename_i g w₂ htarget
      obtain rfl := (looks_place? _).eq htarget
      cases h
      exact he
  · rename_i g w₁ hensure
    cases h
    exact (within_ensureDirectories hp.directory).evolves hw hensure

end OutputPlan

namespace Resolution

open Json (Value)

variable {o : Options} {w w' : Workspace} {parent source : Path} {raw : List Char} {p : OutputPlan}

/-! ## Files -/

theorem looks_isReadable (p : Path) : Looks (isReadable p) := by
  refine (looks_isFile p).attempt.bind fun r ↦ ?_
  split
  · exact looks_pure _
  · exact looks_pure _
  · exact looks_throw _

theorem run_isReadable_eq_ok (hw : w.IsSound) (hp : source.IsResolved) {b : Bool}
    (h : (isReadable source).run w = (.ok b, w')) :
    w' = w ∧ b = (w.files.content? source.parts).isSome := by
  obtain rfl := (looks_isReadable source).eq h
  refine ⟨rfl, ?_⟩
  rw [isReadable, run_bind_eq_ok] at h
  obtain ⟨r, w₁, hfile, h⟩ := h
  rw [run_attempt_eq_ok] at hfile
  split at h
  · cases h
    exact (run_isFile_eq_ok hw hp hfile).2
  · cases h
    cases hc : w'.files.content? source.parts with
    | none => rfl
    | some c =>
      rw [run_isFile_of_content? hw hp hc] at hfile
      cases hfile
  · cases h

theorem looks_findLocal (raw : List Char) (parent sourceDirectory : Path) :
    Looks (findLocal raw parent sourceDirectory) := by
  have hbelow : Looks (do
      let below ← resolve (sourceDirectory / .ofString (String.ofList (rooted raw)))
      if ← isReadable below then return some below
      return none : Job (Option Path)) := by
    refine (looks_resolve _).bind fun below ↦ (looks_isReadable _).bind fun b ↦ ?_
    split
    · exact looks_pure _
    · exact looks_pure _
  refine (looks_resolve _).bind fun beside ↦ (looks_isReadable _).bind fun b ↦ ?_
  split
  · exact looks_pure _
  · exact hbelow

/-- What a text names beside a path or below it. -/
theorem isResolved_join {d : Path} (hw : w.IsSound) (hd : ∀ n ∈ d.parts, IsName n ∨ n = "..")
    (text : String) : ((d / .ofString text).resolve w.cwd).IsResolved := by
  refine Path.resolve_isResolved hw.isName fun n hn ↦ ?_
  rcases Path.mem_parts_join hn with hn | hn
  · exact hd n hn
  · exact Path.mem_parts_ofString hn

/-- What is found in the file tree is the first file of the two places that are looked at. -/
theorem run_findLocal_eq_ok (hw : w.IsSound) {sourceDirectory : Path}
    (hparent : ∀ n ∈ parent.parts, IsName n ∨ n = "..")
    (hdirectory : ∀ n ∈ sourceDirectory.parts, IsName n ∨ n = "..") {r : Option Path}
    (h : (findLocal raw parent sourceDirectory).run w = (.ok r, w')) :
    w' = w ∧ r = [(parent / .ofString (String.ofList raw)).resolve w.cwd,
      (sourceDirectory / .ofString (String.ofList (rooted raw))).resolve w.cwd].find? fun p ↦
        (w.files.content? p.parts).isSome := by
  obtain rfl := (looks_findLocal raw parent sourceDirectory).eq h
  refine ⟨rfl, ?_⟩
  rw [findLocal, run_bind_eq_ok] at h
  obtain ⟨beside, w₁, hbeside, h⟩ := h
  obtain ⟨rfl, rfl⟩ := run_resolve_eq_ok hbeside
  rw [run_bind_eq_ok] at h
  obtain ⟨b, w₂, hread, h⟩ := h
  obtain ⟨rfl, hb⟩ := run_isReadable_eq_ok hw (isResolved_join hw hparent _) hread
  rw [List.find?_cons, ← hb]
  cases b with
  | true =>
    cases h
    rfl
  | false =>
    rw [if_neg Bool.false_ne_true, run_bind_eq_ok] at h
    obtain ⟨below, w₃, hbelow, h⟩ := h
    obtain ⟨rfl, rfl⟩ := run_resolve_eq_ok hbelow
    rw [run_bind_eq_ok] at h
    obtain ⟨b', w₄, hread', h⟩ := h
    obtain ⟨rfl, hb'⟩ := run_isReadable_eq_ok hw (isResolved_join hw hdirectory _) hread'
    dsimp only
    rw [List.find?_cons, ← hb']
    cases b' with
    | true =>
      rw [if_pos rfl, run_pure] at h
      cases h
      rfl
    | false =>
      rw [if_neg Bool.false_ne_true, run_pure] at h
      cases h
      rfl

/-- What is found in the file tree is a file. -/
theorem isFile_of_findLocal (hw : w.IsSound) (hparent : parent.IsResolved) {v : Value}
    {sourceDirectory : Path} (hv : Options.path v = .ok sourceDirectory)
    (h : (findLocal raw parent sourceDirectory).run w = (.ok (some source), w')) :
    source.IsResolved ∧ ∃ c, w.files.content? source.parts = some c := by
  have hparent' : ∀ n ∈ parent.parts, IsName n ∨ n = ".." := fun n hn ↦ .inl (hparent.isName n hn)
  have hdirectory : ∀ n ∈ sourceDirectory.parts, IsName n ∨ n = ".." :=
    fun n hn ↦ Options.mem_parts_path hv hn
  obtain ⟨-, hfind⟩ := run_findLocal_eq_ok hw hparent' hdirectory h
  have hc : (w.files.content? source.parts).isSome = true := by
    simpa using List.find?_some hfind.symm
  have hmem := List.mem_of_find?_eq_some hfind.symm
  rw [List.mem_cons, List.mem_singleton] at hmem
  refine ⟨?_, Option.isSome_iff_exists.mp hc⟩
  rcases hmem with rfl | rfl
  · exact isResolved_join hw hparent' _
  · exact isResolved_join hw hdirectory _

/-! ## Searching -/

/-- What is found of a source: the file of an image, or the reason why it is skipped. -/
inductive Finding where
  | skipped (reason : SkipReason) (detail : String)
  | file (image : Path)

/-- The search for a source on another host. -/
def findExternal (raw : String) (o : Options) (download : Downloader := Download.download) :
    Job Finding := do
  if !o.optimizeRemote.truthy then return .skipped .externalDisabled raw
  let folder ← OutputPlan.downloadDirectory o
  match ← attempt (download raw folder o.remoteTimeout) with
  | .error (.fetch reason) =>
    log .warning .resolving reason.message
    return .skipped .remoteFetchFailed raw
  | .error f => throw f
  | .ok none => return .skipped .remoteNotAnImage raw
  | .ok (some image) => return .file image

/-- The search for a source in the file tree. -/
def findFile (raw : List Char) (parent : Path) (o : Options) : Job Finding := do
  let sourceDirectory ← ofExcept id (Options.path o.sourceDir)
  match ← findLocal raw parent sourceDirectory with
  | none =>
    let missing := sourceDirectory / .ofString (String.ofList raw)
    return .skipped .fileNotFound missing.toString
  | some image => return .file image

/-- The search for the image that a literal text names. -/
def findText (text : List Char) (parent : Path) (o : Options) (extensions : List Value)
    (download : Downloader := Download.download) : Job Finding := do
  let raw := Text.trim text
  let source := String.ofList raw
  if raw.isEmpty then return .skipped .blankValue ""
  if "data:".toList.isPrefixOf (Text.lowerChars raw) then return .skipped .inlineData ""
  if !(← ofExcept id (Eligibility.isAllowed source extensions)) then
    let listed := ", ".intercalate (extensions.map Value.text)
    return .skipped .extensionRejected s!"{source} is not one of {listed}"
  if Url.isExternal raw then findExternal source o download else findFile raw parent o

/-- The search for the image that the value of a source names. -/
def find (value : Option Markup.AttributeValue) (parent : Path) (o : Options)
    (extensions : List Value) (download : Downloader := Download.download) : Job Finding :=
  match value with
  | none => return .skipped .blankValue "no src attribute"
  | some (.dynamic kind) => return .skipped .dynamicValue kind.text
  | some (.static text _ _) => findText text parent o extensions download

/-- What is done with what is found. -/
def Finding.decide (o : Options) : Finding → Job Decision
  | skipped reason detail => return .skip reason detail
  | file image => process image o

variable {download : Downloader}

theorem ofExternal_eq (raw : String) (o : Options) :
    ofExternal raw o download = findExternal raw o download >>= Finding.decide o := by
  rw [ofExternal, findExternal]
  split
  · rfl
  · rw [bind_assoc]
    congr 1
    funext folder
    rw [bind_assoc]
    congr 1
    funext outcome
    rcases outcome with f | _ | image
    · cases f <;> rfl
    · rfl
    · rfl

theorem ofLocal_eq (raw : List Char) (parent : Path) (o : Options) :
    ofLocal raw parent o = findFile raw parent o >>= Finding.decide o := by
  rw [ofLocal, findFile, bind_assoc]
  congr 1
  funext sourceDirectory
  rw [bind_assoc]
  congr 1
  funext image?
  cases image? <;> rfl

theorem ofText_eq (text : List Char) (parent : Path) (o : Options) (extensions : List Value) :
    ofText text parent o extensions download =
      findText text parent o extensions download >>= Finding.decide o := by
  rw [ofText, findText]
  dsimp only
  split
  · rfl
  · split
    · rfl
    · rw [bind_assoc]
      congr 1
      funext allowed
      split
      · rfl
      · split
        · exact ofExternal_eq _ o
        · exact ofLocal_eq _ parent o

/-- What is done with the value of a source is what is done with what is found of it. -/
theorem ofValue_eq (value : Option Markup.AttributeValue) (parent : Path) (o : Options)
    (extensions : List Value) :
    ofValue value parent o extensions download =
      find value parent o extensions download >>= Finding.decide o := by
  unfold ofValue find
  split
  · rfl
  · rfl
  · exact ofText_eq _ parent o extensions

/-- The URL that a source asks for, if it is on another host. -/
def remoteUrl? : Option Markup.AttributeValue → Option String
  | some (.static text _ _) =>
    if Url.isExternal (Text.trim text) then some (String.ofList (Text.trim text)) else none
  | _ => none

/-- How a search ends: nothing is changed, and what is found is a file that is there; or the source is
on another host, and what its download did is done. -/
inductive Search (o : Options) (value : Option Markup.AttributeValue) (w : Workspace) :
    Except Fault Finding → Workspace → Prop
  | looked {r : Except Fault Finding}
      (h : ∀ image, r = .ok (.file image) →
        image.IsResolved ∧ ∃ c, w.files.content? image.parts = some c) : Search o value w r w
  | downloaded {r : Except Fault Finding} {url : String} {d : Path}
      {outcome : Except Fault (Option Path)} {w₁ w₂ : Workspace} (hurl : remoteUrl? value = some url)
      (hd : o.downloadPath = .ok d) (hfolder : (d.resolve w.cwd).IsResolved)
      (hrun : (Download.download url (d.resolve w.cwd) o.remoteTimeout).run w = (outcome, w₁))
      (hafter : Alike w₁ w₂) (hfound : ∀ image, r = .ok (.file image) ↔ outcome = .ok (some image)) :
      Search o value w r w₂

/-- A search that finds nothing and changes nothing. -/
theorem Search.of_not_file {value : Option Markup.AttributeValue} {r : Except Fault Finding}
    (h : ∀ image, r ≠ .ok (.file image)) : Search o value w r w :=
  .looked fun image himage ↦ absurd himage (h image)

theorem search_findFile (hw : w.IsSound) (hparent : parent.IsResolved) (raw : List Char)
    (value : Option Markup.AttributeValue) :
    Search o value w ((findFile raw parent o).run w).1 ((findFile raw parent o).run w).2 := by
  rw [findFile]
  cases hdirectory : Options.path o.sourceDir with
  | error f => exact .of_not_file fun image ↦ nofun
  | ok sourceDirectory =>
    rw [run_bind_of_ok (run_ofExcept_ok _ _ _)]
    cases hfind : (findLocal raw parent sourceDirectory).run w with
    | mk r w₁ =>
      obtain rfl := (looks_findLocal _ _ _).eq hfind
      rcases r with f | _ | image
      · rw [run_bind_of_error hfind]
        exact .of_not_file fun image ↦ nofun
      · rw [run_bind_of_ok hfind]
        exact .of_not_file fun image ↦ nofun
      · rw [run_bind_of_ok hfind]
        obtain ⟨hsource, hc⟩ := isFile_of_findLocal hw hparent hdirectory hfind
        refine .looked fun image' himage ↦ ?_
        cases himage
        exact ⟨hsource, hc⟩

theorem search_findExternal (hw : w.IsSound) {value : Option Markup.AttributeValue} {url : String}
    (hurl : remoteUrl? value = some url) :
    Search o value w ((findExternal url o).run w).1 ((findExternal url o).run w).2 := by
  rw [findExternal]
  split
  · exact .of_not_file fun image ↦ nofun
  · cases hdirectory : (OutputPlan.downloadDirectory o).run w with
    | mk r w₁ =>
      obtain rfl := (OutputPlan.looks_downloadDirectory o).eq hdirectory
      cases r with
      | error f =>
        rw [run_bind_of_error hdirectory]
        exact .of_not_file fun image ↦ nofun
      | ok folder =>
        rw [run_bind_of_ok hdirectory]
        obtain ⟨hfolder, d, hd, rfl⟩ := OutputPlan.run_downloadDirectory_eq_ok hw hdirectory
        cases hdownload : (Download.download url (d.resolve w₁.cwd) o.remoteTimeout).run w₁ with
        | mk outcome w₂ =>
          rw [run_bind_of_ok (run_attempt_eq_ok.mpr hdownload)]
          rcases outcome with f | _ | image
          · cases f with
            | fetch reason =>
              exact .downloaded hurl hd hfolder hdownload
                (reports_log .warning .resolving reason.message w₂) fun image ↦ ⟨nofun, nofun⟩
            | _ =>
              exact .downloaded hurl hd hfolder hdownload (.refl w₂) fun image ↦ ⟨nofun, nofun⟩
          · exact .downloaded hurl hd hfolder hdownload (.refl w₂) fun image ↦ ⟨nofun, nofun⟩
          · refine .downloaded hurl hd hfolder hdownload (.refl w₂) fun image' ↦ ⟨?_, ?_⟩
            · rintro ⟨⟩
              rfl
            · rintro ⟨⟩
              rfl

theorem search_find (hw : w.IsSound) (hparent : parent.IsResolved)
    (value : Option Markup.AttributeValue) (extensions : List Value) :
    Search o value w ((find value parent o extensions).run w).1
      ((find value parent o extensions).run w).2 := by
  unfold find
  split
  · exact .of_not_file fun image ↦ nofun
  · exact .of_not_file fun image ↦ nofun
  · rename_i text first last
    rw [findText]
    dsimp only
    split
    · exact .of_not_file fun image ↦ nofun
    · split
      · exact .of_not_file fun image ↦ nofun
      · cases hallowed : Eligibility.isAllowed (String.ofList (Text.trim text)) extensions with
        | error f => exact .of_not_file fun image ↦ nofun
        | ok allowed =>
          rw [run_bind_of_ok (run_ofExcept_ok _ _ _)]
          split
          · exact .of_not_file fun image ↦ nofun
          · split
            · rename_i hexternal
              exact search_findExternal hw (by rw [remoteUrl?, if_pos hexternal])
            · exact search_findFile hw hparent _ _

section Search

variable {value : Option Markup.AttributeValue} {r : Except Fault Finding}

/-- A search changes nothing but downloads. -/
theorem Search.evolves (h : Search o value w r w') (hw : w.IsSound) :
    Evolves (o.Unfinished w.cwd) (o.Fetched w.cwd) w w' := by
  cases h with
  | looked => exact .refl hw
  | @downloaded url d _ _ _ _ hd hfolder hrun hafter _ =>
    have he := (Download.within_download hfolder url o.remoteTimeout).evolves hw hrun
    exact (he.mono (fun q hq ↦ ⟨d, hd, hq⟩) (fun q hq ↦ .inr ⟨d, hd, hq⟩)).trans
      (hafter.evolves he.isSound)

/-- What a search finds is a file. -/
theorem Search.isFile {image : Path} (h : Search o value w r w') (hw : w.IsSound)
    (hr : r = .ok (.file image)) :
    image.IsResolved ∧ ∃ c, w'.files.content? image.parts = some c := by
  cases h with
  | looked h => exact h image hr
  | downloaded _ _ hfolder hrun hafter hfound =>
    have houtcome := (hfound image).mp hr
    rw [houtcome] at hrun
    obtain ⟨n, hn, rfl⟩ := Download.exists_name_of_download hw hfolder hrun
    refine ⟨hfolder.child hn, ?_⟩
    rw [hafter.files_eq]
    exact (Download.leaves_download hw hfolder hrun).content? _ rfl

end Search

/-! ## Sources -/

/-- A run that settles what is done with a source: it is skipped or fails, and nothing is changed but
downloads; or there is a plan, and a copy of the image has been put in its place. -/
def Settles (o : Options) (w : Workspace) (r : Except Fault Decision × Workspace) : Prop :=
  ((∀ p, r.1 ≠ .ok (.process p)) ∧ Evolves (o.Unfinished w.cwd) (o.Fetched w.cwd) w r.2) ∨
    ∃ p w₁, p.IsMade o w.cwd ∧ Evolves (o.Unfinished w.cwd) (o.Fetched w.cwd) w w₁ ∧
      p.stage.run w₁ = (.ok (), r.2) ∧ r.1 = .ok (.process p)

theorem settles_of_evolves {r : Except Fault Decision} (hr : ∀ p, r ≠ .ok (.process p))
    (h : Evolves (o.Unfinished w.cwd) (o.Fetched w.cwd) w w') : Settles o w (r, w') := .inl ⟨hr, h⟩

theorem settles_process {w₁ : Workspace} (h : Evolves (o.Unfinished w.cwd) (o.Fetched w.cwd) w w₁)
    (hsource : source.IsResolved) (hne : source.parts ≠ []) :
    Settles o w ((process source o).run w₁) := by
  rw [process, OutputPlan.staged]
  cases hplan : (OutputPlan.ofImage source o).run w₁ with
  | mk r w₂ =>
    obtain rfl := (OutputPlan.looks_ofImage source o).eq hplan
    cases r with
    | error f =>
      rw [run_bind_of_error (run_bind_of_error hplan)]
      exact settles_of_evolves (fun p ↦ nofun) h
    | ok p =>
      obtain ⟨hp, rfl⟩ := OutputPlan.run_ofImage_eq_ok h.isSound hsource hne hplan
      cases hstage : p.stage.run w₂ with
      | mk s w₃ =>
        cases s with
        | error f =>
          rw [run_bind_of_error ((run_bind_of_ok hplan).trans (run_bind_of_error hstage))]
          refine settles_of_evolves (fun p ↦ nofun) (h.trans ?_)
          exact (OutputPlan.evolves_of_stage_error h.isSound hp.toIsFor hstage).mono
            (fun _ h ↦ h.elim) (fun _ h ↦ h.elim)
        | ok u =>
          rw [run_bind_of_ok ((run_bind_of_ok hplan).trans (run_bind_of_ok hstage))]
          exact .inr ⟨p, w₂, h.cwd_eq ▸ hp, h, hstage, rfl⟩

theorem settles_ofValue (hw : w.IsSound) (hparent : parent.IsResolved)
    (value : Option Markup.AttributeValue) (extensions : List Value) :
    Settles o w ((ofValue value parent o extensions).run w) := by
  have hsearch := search_find (o := o) hw hparent value extensions
  rw [ofValue_eq, run_bind]
  split
  · rename_i finding w₁ hfind
    rw [hfind] at hsearch
    cases finding with
    | skipped reason detail => exact settles_of_evolves (fun p ↦ nofun) (hsearch.evolves hw)
    | file image =>
      obtain ⟨hsource, c, hc⟩ := hsearch.isFile hw rfl
      exact settles_process (hsearch.evolves hw) hsource (Tree.ne_nil_of_content? hc)
  · rename_i f w₁ hfind
    rw [hfind] at hsearch
    exact settles_of_evolves (fun p ↦ nofun) (hsearch.evolves hw)

end Resolution

end ResponsiveImage
