import ResponsiveImage.Proofs.Options.Defaults
import ResponsiveImage.Proofs.Picture.Staging
import ResponsiveImage.Proofs.Sources

/-!
# The first obstacle

Nine obstacles may be in the way of a source.  Each is described by itself, whatever the others are
(`Query.meets`), and a source is skipped for the first of them that it meets, in a fixed order; one that
meets none is processed (`resolves_of_run_ofValue`).  Up to the decision nothing but the download has
happened to the file tree, and what happens after it is the staging of the one image that was found.

The image may be fetched in any way that leaves a sound tree and tells a proper path, so what is known
of downloads does not matter here.
-/

namespace ResponsiveImage.Resolution

open Json (Value)
open Job

/-- What keeps a source from being processed. -/
inductive Obstacle where
  | absent
  | dynamic
  | blank
  | inlined
  | extension
  | remoteDisabled
  | fetchFailed
  | notAnImage
  | noFile
deriving DecidableEq, Repr

namespace Obstacle

/-- The obstacles that are told without a look at files or other hosts. -/
def told : List Obstacle := [absent, dynamic, blank, inlined, extension]

/-- The obstacles before which nothing is fetched. -/
def early : List Obstacle := told ++ [remoteDisabled]

/-- All obstacles, in the order in which they are looked for. -/
def all : List Obstacle := early ++ [fetchFailed, notAnImage, noFile]

/-- The reason that is given for a skip. -/
def reason : Obstacle → SkipReason
  | absent | blank => .blankValue
  | dynamic => .dynamicValue
  | inlined => .inlineData
  | extension => .extensionRejected
  | remoteDisabled => .externalDisabled
  | fetchFailed => .remoteFetchFailed
  | notAnImage => .remoteNotAnImage
  | noFile => .fileNotFound

end Obstacle

/-- A source to be resolved, with all that is looked at for it. -/
structure Query where
  value : Option Markup.AttributeValue
  parent : Path
  options : Options
  extensions : List Value
  download : Downloader
  workspace : Workspace

namespace Query

/-- The literal text of a source without blanks around it. -/
def raw (q : Query) : List Char :=
  match q.value with
  | some (.static text _ _) => Text.trim text
  | _ => []

def source (q : Query) : String := String.ofList q.raw

def isRemote (q : Query) : Bool := Url.isExternal q.raw

/-- The download that a source on another host asks for. -/
def fetch (q : Query) : Job (Option Path) := do
  q.download q.source (← OutputPlan.downloadDirectory q.options) q.options.remoteTimeout

/-- What comes of the download. -/
def answer (q : Query) : Except Fault (Option Path) := (q.fetch.run q.workspace).1

/-- The text of a source without the slash that it may begin with. -/
def unrooted (q : Query) : List Char := if q.raw.head? = some '/' then q.raw.tail else q.raw

/-- Where a source is looked for in the file tree. -/
def places (q : Query) : List Path :=
  (q.parent / .ofString q.source).resolve q.workspace.cwd ::
    match Options.path q.options.sourceDir with
    | .ok d => [(d / .ofString (String.ofList q.unrooted)).resolve q.workspace.cwd]
    | .error _ => []

/-- The first place at which there is a file. -/
def localFile? (q : Query) : Option Path :=
  q.places.find? fun p ↦ (q.workspace.files.content? p.parts).isSome

/-- Whether an obstacle is in the way of a source. -/
def meets (q : Query) : Obstacle → Bool
  | .absent => q.value.isNone
  | .dynamic => match q.value with
    | some (.dynamic _) => true
    | _ => false
  | .blank => q.raw.isEmpty
  | .inlined => "data:".toList.isPrefixOf (q.raw.map Char.toLower)
  | .extension => match Eligibility.isAllowed q.source q.extensions with
    | .ok allowed => !allowed
    | .error _ => false
  | .remoteDisabled => q.isRemote && !q.options.optimizeRemote.truthy
  | .fetchFailed => q.isRemote && match q.answer with
    | .error (.fetch _) => true
    | _ => false
  | .notAnImage => q.isRemote && match q.answer with
    | .ok none => true
    | _ => false
  | .noFile => !q.isRemote && q.localFile?.isNone

/-- What is told of an obstacle besides the reason. -/
def detail (q : Query) : Obstacle → String
  | .absent => "no src attribute"
  | .dynamic => match q.value with
    | some (.dynamic kind) => kind.text
    | _ => ""
  | .blank | .inlined => ""
  | .extension =>
    let source := q.source
    let listed := ", ".intercalate (q.extensions.map Value.text)
    s!"{source} is not one of {listed}"
  | .remoteDisabled | .fetchFailed | .notAnImage => q.source
  | .noFile => match Options.path q.options.sourceDir with
    | .ok d => (d / Path.ofString q.source).toString
    | .error _ => ""

/-- The first obstacle in the way of a source. -/
def obstacle? (q : Query) : Option Obstacle := Obstacle.all.find? q.meets

/-- The file of the image: the one that has been fetched, or the one in the file tree. -/
def image? (q : Query) : Option Path :=
  if q.isRemote then
    match q.answer with
    | .ok image? => image?
    | .error _ => none
  else q.localFile?

/-- What the download leaves, if there is one. -/
def left (q : Query) : Workspace :=
  if q.isRemote && !Obstacle.early.any q.meets then (q.fetch.run q.workspace).2 else q.workspace

end Query

/-! ## Searching -/

section Find

variable {q : Query} {w' : Workspace} {f : Finding}

namespace Query

/-- What is found of a source: nothing for its first obstacle, or the file of its image. -/
inductive Finds (q : Query) : Finding → Workspace → Prop
  | skipped {b : Obstacle} {w' : Workspace} (h : q.obstacle? = some b)
      (hfiles : w'.files = q.left.files) : Finds q (.skipped b.reason (q.detail b)) w'
  | file {image : Path} (h : q.obstacle? = none) (himage : q.image? = some image) :
      Finds q (.file image) q.left

/-- An obstacle that is told is the first one if those before it are not met, and nothing is fetched
for it. -/
theorem finds_told (b : Obstacle) (before : List Obstacle) {after : List Obstacle}
    (hearly : Obstacle.early = before ++ b :: after) (hbefore : ∀ a ∈ before, q.meets a = false)
    (hb : q.meets b = true) {reason : SkipReason} {detail : String} (hreason : b.reason = reason)
    (hdetail : q.detail b = detail) : q.Finds (.skipped reason detail) q.workspace := by
  subst hreason hdetail
  have hany : Obstacle.early.any q.meets = true :=
    List.any_eq_true.mpr ⟨b, by rw [hearly]; simp, hb⟩
  refine .skipped ?_ ?_
  · have hnone : before.find? q.meets = none := by simpa using hbefore
    rw [obstacle?, Obstacle.all, hearly, List.append_assoc, List.find?_append, hnone]
    simp [hb]
  · rw [left, hany, Bool.not_true, Bool.and_false, if_neg Bool.false_ne_true]

theorem obstacle?_of_told (hclear : ∀ b ∈ Obstacle.told, q.meets b = false) :
    q.obstacle? =
      [.remoteDisabled, .fetchFailed, .notAnImage, .noFile].find? q.meets := by
  have hnone : Obstacle.told.find? q.meets = none := by simpa using hclear
  rw [obstacle?, Obstacle.all, Obstacle.early, List.append_assoc, List.find?_append, hnone]
  rfl

theorem left_of_told (hclear : ∀ b ∈ Obstacle.told, q.meets b = false) :
    q.left = if q.isRemote && q.options.optimizeRemote.truthy then (q.fetch.run q.workspace).2
      else q.workspace := by
  have hnone : Obstacle.told.any q.meets = false := by simpa using hclear
  rw [left, Obstacle.early, List.any_append, hnone, Bool.false_or]
  cases hremote : q.isRemote with
  | false => rfl
  | true => simp [meets, hremote]

/-- The search on another host ends at the first obstacle or at the file that was fetched. -/
theorem finds_findExternal (hclear : ∀ b ∈ Obstacle.told, q.meets b = false)
    (hremote : q.isRemote = true)
    (h : (findExternal q.source q.options q.download).run q.workspace = (.ok f, w')) :
    q.Finds f w' := by
  rw [findExternal] at h
  split at h
  · rename_i hoff
    cases h
    have hmeets : q.meets .remoteDisabled = true := by
      rw [meets, hremote, hoff, Bool.and_self]
    exact finds_told .remoteDisabled Obstacle.told rfl hclear hmeets rfl rfl
  · rename_i hon
    rw [run_bind_eq_ok] at h
    obtain ⟨folder, w₁, hfolder, h⟩ := h
    obtain rfl := (OutputPlan.looks_downloadDirectory _).eq hfolder
    rw [run_bind_eq_ok] at h
    obtain ⟨outcome, w₂, hfetch, h⟩ := h
    rw [run_attempt_eq_ok] at hfetch
    have hrun : q.fetch.run q.workspace = (outcome, w₂) := (run_bind_of_ok hfolder).trans hfetch
    have hanswer : q.answer = outcome := by rw [answer, hrun]
    have hon' : q.options.optimizeRemote.truthy = true := by simpa using hon
    have hleft : q.left = w₂ := by
      rw [left_of_told hclear, hremote, hon', Bool.and_self, if_pos rfl, hrun]
    have hobstacle := obstacle?_of_told hclear
    rcases outcome with fault | _ | image
    · cases fault with
      | fetch reason =>
        obtain ⟨_, w₃, hlog, h⟩ := run_bind_eq_ok.mp h
        have halike := reports_log .warning .resolving reason.message w₂
        rw [hlog] at halike
        cases h
        refine .skipped (b := .fetchFailed) ?_ (halike.files_eq.trans (by rw [hleft]))
        simp [hobstacle, meets, hremote, hon', hanswer]
      | _ => cases h
    · cases h
      refine .skipped (b := .notAnImage) ?_ (by rw [hleft])
      simp [hobstacle, meets, hremote, hon', hanswer]
    · cases h
      rw [← hleft]
      refine .file ?_ ?_
      · simp [hobstacle, meets, hremote, hon', hanswer]
      · rw [image?, hremote, if_pos rfl, hanswer]

/-! ## Searching the file tree -/

/-- A source in the file tree does not begin with two slashes, so that the one that it may begin with
can be dropped. -/
theorem rooted_eq (hlocal : q.isRemote = false) : rooted q.raw = q.unrooted := by
  rw [unrooted]
  cases hraw : q.raw with
  | nil => rfl
  | cons c cs =>
    by_cases hc : c = '/'
    · subst hc
      cases cs with
      | nil => rfl
      | cons d ds =>
        by_cases hd : d = '/'
        · subst hd
          rw [isRemote, hraw, Url.isExternal] at hlocal
          simp at hlocal
        · simp [rooted, hd]
    · simp [rooted, hc]

/-- The search in the file tree ends at the file that is looked for first, or at none. -/
theorem finds_findFile (hw : q.workspace.IsSound)
    (hparent : ∀ n ∈ q.parent.parts, IsName n ∨ n = "..")
    (hclear : ∀ b ∈ Obstacle.told, q.meets b = false) (hlocal : q.isRemote = false)
    (h : (findFile q.raw q.parent q.options).run q.workspace = (.ok f, w')) : q.Finds f w' := by
  have hleft : q.left = q.workspace := by
    rw [left_of_told hclear, hlocal, Bool.false_and, if_neg Bool.false_ne_true]
  rw [findFile, run_bind_eq_ok] at h
  obtain ⟨d, w₁, hpath, h⟩ := h
  obtain ⟨hd, rfl⟩ := run_ofExcept_eq_ok.mp hpath
  rw [run_bind_eq_ok] at h
  obtain ⟨image?, w₂, hfind, h⟩ := h
  obtain ⟨rfl, hfound⟩ := run_findLocal_eq_ok hw hparent (fun n ↦ Options.mem_parts_path hd) hfind
  have hfile : q.localFile? = image? := by
    rw [hfound, localFile?, places, hd, rooted_eq hlocal]
    rfl
  have hobstacle := obstacle?_of_told hclear
  cases image? with
  | none =>
    cases h
    have hdetail : (d / .ofString (String.ofList q.raw)).toString = q.detail .noFile := by
      rw [detail, hd]
      rfl
    rw [hdetail]
    refine .skipped (b := .noFile) ?_ (by rw [hleft])
    simp [hobstacle, meets, hlocal, hfile]
  | some image =>
    cases h
    rw [← hleft]
    refine .file ?_ ?_
    · simp [hobstacle, meets, hlocal, hfile]
    · rw [Query.image?, hlocal, if_neg Bool.false_ne_true, hfile]

/-! ## Searching for any value -/

theorem finds_findText {text : List Char} {start stop : Nat}
    (hvalue : q.value = some (.static text start stop)) (hw : q.workspace.IsSound)
    (hparent : ∀ n ∈ q.parent.parts, IsName n ∨ n = "..")
    (h : (findText text q.parent q.options q.extensions q.download).run q.workspace =
      (.ok f, w')) : q.Finds f w' := by
  have hraw : Text.trim text = q.raw := by rw [raw, hvalue]
  have habsent : q.meets .absent = false := by rw [meets, hvalue]; rfl
  have hdynamic : q.meets .dynamic = false := by rw [meets, hvalue]
  have hdata : "data:".toList.isPrefixOf (Text.lowerChars q.raw) = q.meets .inlined :=
    Text.isPrefixOf_lowerAfter (fun _ ↦ id) false q.raw
  rw [findText, hraw] at h
  dsimp only at h
  split at h
  · rename_i hblank
    cases h
    exact finds_told .blank [.absent, .dynamic] rfl
      (by simp [habsent, hdynamic]) hblank rfl rfl
  rename_i hblank
  have hblank : q.meets .blank = false := by simpa [meets] using hblank
  rw [hdata] at h
  split at h
  · rename_i hinlined
    cases h
    exact finds_told .inlined [.absent, .dynamic, .blank] rfl
      (by simp [habsent, hdynamic, hblank]) hinlined rfl rfl
  rename_i hinlined
  rw [run_bind_eq_ok] at h
  obtain ⟨allowed, w₁, hrun, h⟩ := h
  obtain ⟨hallowed, rfl⟩ := run_ofExcept_eq_ok.mp hrun
  have hextension : q.meets .extension = !allowed := by rw [meets, source, hallowed]
  have hbefore : ∀ b ∈ [Obstacle.absent, .dynamic, .blank, .inlined], q.meets b = false := by
    simpa [habsent, hdynamic, hblank] using hinlined
  split at h
  · rename_i hrejected
    cases h
    exact finds_told .extension [.absent, .dynamic, .blank, .inlined] rfl hbefore
      (hextension.trans hrejected) rfl rfl
  · rename_i hkept
    have hclear : ∀ b ∈ Obstacle.told, q.meets b = false := by
      have htold : Obstacle.told = [.absent, .dynamic, .blank, .inlined] ++ [.extension] := rfl
      rw [htold, List.forall_mem_append]
      exact ⟨hbefore, by simpa [hextension] using hkept⟩
    split at h
    · rename_i hremote
      exact finds_findExternal hclear hremote h
    · rename_i hlocal
      exact finds_findFile hw hparent hclear ((Bool.not_eq_true _).mp hlocal) h

theorem finds_find (hw : q.workspace.IsSound)
    (hparent : ∀ n ∈ q.parent.parts, IsName n ∨ n = "..")
    (h : (find q.value q.parent q.options q.extensions q.download).run q.workspace =
      (.ok f, w')) : q.Finds f w' := by
  unfold find at h
  split at h
  · rename_i hvalue
    cases h
    exact finds_told .absent [] rfl (by simp) (by rw [meets, hvalue]; rfl) rfl rfl
  · rename_i kind hvalue
    cases h
    refine finds_told .dynamic [.absent] rfl ?_ ?_ rfl ?_
    · simp [meets, hvalue]
    · rw [meets, hvalue]
    · rw [detail, hvalue]
  · rename_i text start stop hvalue
    exact finds_findText hvalue hw hparent h

/-! ## Resolving -/

/-- How the resolving of a source ends: with a skip for its first obstacle, the file tree being as the
download left it; or with the plan for its image, a copy of which has been put in its place. -/
inductive Resolves (q : Query) : Decision → Workspace → Prop
  | skips {b : Obstacle} {w' : Workspace} (h : q.obstacle? = some b)
      (hfiles : w'.files = q.left.files) : Resolves q (.skip b.reason (q.detail b)) w'
  | processes {p : OutputPlan} {w' : Workspace} (h : q.obstacle? = none)
      (himage : q.image? = some p.source)
      (hplan : (OutputPlan.ofImage p.source q.options).run q.left = (.ok p, q.left))
      (hstages : p.Stages q.left w') : Resolves q (.process p) w'

end Query

/-- A way to fetch images that leaves file trees as file trees are, and tells paths that could be
written. -/
structure Downloader.IsLawful (download : Downloader) : Prop where
  isSound : ∀ {url folder timeout w}, Path.IsResolved folder → w.IsSound →
    ((download url folder timeout).run w).2.IsSound
  isPath : ∀ {url folder timeout w w' p}, Path.IsResolved folder → w.IsSound →
    (download url folder timeout).run w = (.ok (some p), w') → ∀ n ∈ p.parts, IsName n ∨ n = ".."

theorem isLawful_download : Downloader.IsLawful Download.download where
  isSound := fun hfolder hw ↦ (Download.within_download hfolder _ _ _ hw).isSound
  isPath := by
    intro url folder timeout w w' p hfolder hw h n hn
    obtain ⟨m, hm, rfl⟩ := Download.exists_name_of_download hw hfolder h
    exact .inl ((hfolder.child hm).isName n hn)

/-- A query about a file tree as file trees are, with a document in a directory that could be written. -/
structure Query.IsProper (q : Query) : Prop where
  isSound : q.workspace.IsSound
  isPath : ∀ n ∈ q.parent.parts, IsName n ∨ n = ".."
  isLawful : Downloader.IsLawful q.download

namespace Query

theorem IsProper.isSound_left (hq : q.IsProper) : q.left.IsSound := by
  rw [left]
  split
  · rw [fetch, run_bind]
    split
    · rename_i folder w₁ hfolder
      have hresolved := (OutputPlan.run_downloadDirectory_eq_ok hq.isSound hfolder).1
      obtain rfl := (OutputPlan.looks_downloadDirectory _).eq hfolder
      exact hq.isLawful.isSound hresolved hq.isSound
    · rename_i fault w₁ hfolder
      obtain rfl := (OutputPlan.looks_downloadDirectory _).eq hfolder
      exact hq.isSound
  · exact hq.isSound

theorem IsProper.isPath_of_image? (hq : q.IsProper) {image : Path} (h : q.image? = some image) :
    ∀ n ∈ image.parts, IsName n ∨ n = ".." := by
  rw [image?] at h
  split at h
  · split at h
    · rename_i image? hanswer
      rw [h] at hanswer
      have hfetch : q.fetch.run q.workspace = (.ok (some image), (q.fetch.run q.workspace).2) :=
        Prod.ext hanswer rfl
      obtain ⟨folder, w₁, hfolder, hdownload⟩ := run_bind_eq_ok.mp hfetch
      have hresolved := (OutputPlan.run_downloadDirectory_eq_ok hq.isSound hfolder).1
      obtain rfl := (OutputPlan.looks_downloadDirectory _).eq hfolder
      exact hq.isLawful.isPath hresolved hq.isSound hdownload
    · cases h
  · have hmem := List.mem_of_find?_eq_some h
    rw [places, List.mem_cons] at hmem
    rcases hmem with rfl | hmem
    · exact fun n hn ↦ .inl ((isResolved_join hq.isSound hq.isPath _).isName n hn)
    · split at hmem
      · rename_i d hd
        obtain rfl := List.mem_singleton.mp hmem
        have hd : ∀ n ∈ d.parts, IsName n ∨ n = ".." := fun n ↦ Options.mem_parts_path hd
        exact fun n hn ↦ .inl ((isResolved_join hq.isSound hd _).isName n hn)
      · cases hmem

/-- **A source is skipped for the first obstacle in its way, and otherwise its image is staged.** -/
theorem resolves_of_run_ofValue (hq : q.IsProper) {d : Decision}
    (h : (ofValue q.value q.parent q.options q.extensions q.download).run q.workspace = (.ok d, w')) :
    q.Resolves d w' := by
  rw [ofValue_eq, run_bind_eq_ok] at h
  obtain ⟨f, w₁, hfind, h⟩ := h
  cases finds_find hq.isSound hq.isPath hfind with
  | skipped hobstacle hfiles =>
    cases h
    exact .skips hobstacle hfiles
  | @file image hobstacle himage =>
    have hsound := hq.isSound_left
    rw [Finding.decide, process, OutputPlan.staged, run_bind_eq_ok] at h
    obtain ⟨p, w₂, hstaged, h⟩ := h
    cases h
    rw [run_bind_eq_ok] at hstaged
    obtain ⟨p', w₃, hplan, hstaged⟩ := hstaged
    obtain ⟨rfl, rfl, hdirectory, -, -⟩ := OutputPlan.eq_of_run_ofImage hplan
    rw [run_bind_eq_ok] at hstaged
    obtain ⟨u, w₄, hstage, hpure⟩ := hstaged
    cases hpure
    refine .processes hobstacle himage hplan
      (OutputPlan.stages_of_run_stage hsound ?_ (hq.isPath_of_image? himage) hstage)
    obtain ⟨d, hd, hdirectory⟩ := hdirectory
    rw [hdirectory]
    exact Path.resolve_isResolved hsound.isName fun n ↦ Options.mem_parts_outputPath hd

end Query

end Find

/-- A source with a slash before it and blanks around it, which a file below the source directory has. -/
def rootedQuery : Query where
  value := some (.static " /images/hero.PNG ".toList 10 28)
  parent := .ofParts ["site", "src", "routes"]
  options := .defaults
  extensions := [.string "png"]
  download := Download.download
  workspace := {
    cwd := ["site"]
    files := ⟨[(["site"], .directory), (["site", "src"], .directory),
      (["site", "src", "images"], .directory),
      (["site", "src", "images", "hero.PNG"], .file (.bytes []))]⟩ }

/-- The plan for that file. -/
def rootedPlan : OutputPlan :=
  ⟨.ofParts ["site", "src", "images", "hero.PNG"], .ofParts ["site", "static", "g"], "g", "webp"⟩

/-- What comes of that source, and what is left behind. -/
def rootedOutcome : Except Fault Decision × Workspace :=
  (ofValue rootedQuery.value rootedQuery.parent rootedQuery.options rootedQuery.extensions
    rootedQuery.download).run rootedQuery.workspace

theorem resolves_of_run_ofValue_rooted :
    rootedQuery.IsProper ∧ rootedOutcome.1 = .ok (.process rootedPlan) ∧
      rootedQuery.Resolves (.process rootedPlan) rootedOutcome.2 := by
  have hq : rootedQuery.IsProper := ⟨⟨by decide +kernel, by decide⟩, by decide, isLawful_download⟩
  have hdecision : rootedOutcome.1 = .ok (.process rootedPlan) :=
    eq_ok_of_toOption (by decide +kernel)
  have hrun : rootedOutcome = (.ok (.process rootedPlan), rootedOutcome.2) := by rw [← hdecision]
  exact ⟨hq, hdecision, Query.resolves_of_run_ofValue hq hrun⟩

end ResponsiveImage.Resolution
