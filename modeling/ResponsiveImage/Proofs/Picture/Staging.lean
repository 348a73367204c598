import ResponsiveImage.Proofs.Job.Making
import ResponsiveImage.Proofs.Picture.Outputs

/-!
# Putting a copy of an image in its place

When an image has been staged, the place of its copy holds what the image holds, and the only other
entries that were not there before are directories on the way to that place
(`OutputPlan.stages_of_run_stage`).  The image may be named by any path, relative ones and ones with
double dots included: directories that are made on the way only let such a path lead somewhere where it
led nowhere before.
-/

namespace ResponsiveImage

open Workspace (Evolves)
open Job

/-! ## What a path leads to -/

namespace Tree

variable {t t' : Tree} {cwd place ps q : List String} {p : Path} {e : Entry}

/-- As long as directories stay directories, a path leads where it has led. -/
theorem follow_of_isDirectory (ht : ∀ r, t.isDirectory r = true → t'.isDirectory r = true)
    (h : t.follow place ps = .ok q) : t'.follow place ps = .ok q := by
  induction ps generalizing place with
  | nil => exact h
  | cons n ps ih =>
    rw [follow] at h
    split at h
    · cases h
    · cases h
    · rename_i hdir
      rw [follow, isDirectory_iff.mp (ht place (isDirectory_iff.mpr hdir))]
      dsimp only
      split at h
      · rename_i hdots
        rw [if_pos hdots]
        exact ih h
      · rename_i hdots
        rw [if_neg hdots]
        split at h
        · cases h
        · rename_i hshort
          rw [if_neg hshort]
          exact ih h

theorem locate_of_isDirectory (ht : ∀ r, t.isDirectory r = true → t'.isDirectory r = true)
    (h : t.locate cwd p = .ok q) : t'.locate cwd p = .ok q := by
  rw [locate] at h ⊢
  split at h
  · exact follow_of_isDirectory ht h
  · exact follow_of_isDirectory ht h

theorem stat_eq_ok_iff : t.stat cwd p = .ok (q, e) ↔ t.locate cwd p = .ok q ∧ t.get? q = some e := by
  rw [stat]
  cases t.locate cwd p with
  | error kind => simp [bind, Except.bind]
  | ok place =>
    simp only [bind, Except.bind, Except.ok.injEq]
    constructor
    · intro h
      split at h
      · rename_i hget
        cases h
        exact ⟨rfl, hget⟩
      · cases h
    · rintro ⟨rfl, hget⟩
      rw [hget]
      rfl

/-- Double dots lead to a directory. -/
theorem IsSound.isDirectory_of_dots (ht : t.IsSound) (h : t.follow place ps = .ok q)
    (hlast : ps.getLast? = some "..") : t.isDirectory q = true := by
  induction ps generalizing place with
  | nil => cases hlast
  | cons n ps ih =>
    rw [follow] at h
    split at h
    · cases h
    · cases h
    · rename_i hdir
      cases ps with
      | nil =>
        obtain rfl : n = ".." := by simpa using hlast
        rw [if_pos rfl] at h
        cases h
        exact ht.isDirectory_dropLast hdir
      | cons m ps =>
        rw [List.getLast?_cons_cons] at hlast
        split at h
        · exact ih h hlast
        · split at h
          · cases h
          · exact ih h hlast

end Tree

namespace Workspace

variable {w w₁ : Workspace} {p : Path} {c : Content}

/-- The content of the file that a path leads to, if it leads to one. -/
def contentAt (w : Workspace) (p : Path) : Option Content :=
  match w.files.stat w.cwd p with
  | .ok (_, .file c) => some c
  | _ => none

theorem contentAt_of_stat {q : List String} {e : Entry} (h : w.files.stat w.cwd p = .ok (q, e)) :
    w.contentAt p = w.files.content? q := by
  rw [contentAt, h, Tree.content?, (Tree.stat_eq_ok_iff.mp h).2]
  cases e <;> rfl

theorem contentAt_eq_some_iff :
    w.contentAt p = some c ↔
      ∃ q, w.files.locate w.cwd p = .ok q ∧ w.files.content? q = some c := by
  constructor
  · intro h
    rw [contentAt] at h
    split at h
    · rename_i q d hstat
      cases h
      obtain ⟨hlocate, hget⟩ := Tree.stat_eq_ok_iff.mp hstat
      exact ⟨q, hlocate, Tree.content?_eq_some_iff.mpr hget⟩
    · cases h
  · rintro ⟨q, hlocate, hc⟩
    have hstat := Tree.stat_eq_ok_iff.mpr ⟨hlocate, Tree.content?_eq_some_iff.mp hc⟩
    rw [contentAt_of_stat hstat, hc]

/-- A resolved path leads to the place that it spells. -/
theorem contentAt_of_isResolved (hw : w.IsSound) (hp : p.IsResolved) :
    w.contentAt p = w.files.content? p.parts := by
  refine Option.ext fun c ↦ ?_
  rw [contentAt_eq_some_iff]
  constructor
  · rintro ⟨q, hlocate, hc⟩
    obtain ⟨rfl, -⟩ := (hw.files.locate_eq_ok_iff hp w.cwd).mp hlocate
    exact hc
  · intro hc
    have hstat := (hw.files.stat_eq_ok_iff hp w.cwd).mpr ⟨rfl, Tree.content?_eq_some_iff.mp hc⟩
    exact ⟨_, (Tree.stat_eq_ok_iff.mp hstat).1, hc⟩

/-- A path by which a file is found has a name at its end, if it has anything there. -/
theorem isName_of_contentAt (hw : w.IsSound) (hp : ∀ n ∈ p.parts, IsName n ∨ n = "..")
    (hne : p.parts ≠ []) (h : w.contentAt p = some c) : IsName p.name := by
  have hlast := List.getLast?_eq_some_getLast hne
  rw [Path.name, hlast]
  refine (hp _ (List.getLast_mem hne)).resolve_right fun hdots ↦ ?_
  obtain ⟨q, hlocate, hc⟩ := contentAt_eq_some_iff.mp h
  rw [hdots] at hlast
  have hdir : w.files.isDirectory q = true := by
    rw [Tree.locate] at hlocate
    split at hlocate
    · exact hw.files.isDirectory_of_dots hlocate hlast
    · exact hw.files.isDirectory_of_dots hlocate hlast
  rw [Tree.not_isDirectory_of_content? hc] at hdir
  cases hdir

/-- Where no file is changed, a file is found by the same path. -/
theorem Evolves.contentAt {changed created : List String → Prop} (he : Evolves changed created w w₁)
    (hchanged : ∀ q, ¬ changed q) (h : w.contentAt p = some c) : w₁.contentAt p = some c := by
  obtain ⟨q, hlocate, hc⟩ := contentAt_eq_some_iff.mp h
  rw [contentAt_eq_some_iff, he.cwd_eq]
  exact ⟨q, Tree.locate_of_isDirectory he.isDirectory hlocate, he.content?_of_some (hchanged q) hc⟩

end Workspace

namespace Job

variable {α β : Type} {t : Job α} {p : Path} {w w₁ w' : Workspace} {c : Content}

theorem contentAt_of_readFile (h : (readFile p).run w = (.ok c, w')) :
    w' = w ∧ w.contentAt p = some c := by
  obtain rfl := (looks_readFile p).eq h
  refine ⟨rfl, ?_⟩
  obtain ⟨⟨q, e⟩, w₁, hstat, h⟩ := run_bind_eq_ok.mp h
  obtain rfl := (looks_stat p).eq hstat
  cases e with
  | directory => cases h
  | file d =>
    cases h
    rw [Workspace.contentAt, stat_eq_of_run_stat hstat]

theorem exists_stat_of_place {q : List String} (h : (place p).run w = (.ok q, w')) :
    w' = w ∧ ∃ e, w.files.stat w.cwd p = .ok (q, e) := by
  obtain rfl := (looks_place p).eq h
  refine ⟨rfl, ?_⟩
  obtain ⟨⟨q', e⟩, w₁, hstat, hpure⟩ := run_bind_eq_ok.mp h
  cases hpure
  exact ⟨e, stat_eq_of_run_stat hstat⟩

theorem exists_stat_of_place? {q : List String} (h : (place? p).run w = (.ok (some q), w')) :
    w' = w ∧ ∃ e, w.files.stat w.cwd p = .ok (q, e) := by
  obtain rfl := (looks_place? p).eq h
  refine ⟨rfl, ?_⟩
  obtain ⟨found, w₁, hfind, hpure⟩ := run_bind_eq_ok.mp h
  cases found with
  | none => cases hpure
  | some found =>
    cases hpure
    exact ⟨found.2, stat_eq_of_run_find? hfind⟩

/-! ## What is changed beside the files -/

/-- A job that changes nothing but files. -/
def ChangesFiles (t : Job α) : Prop := ∀ w, (t.run w).2 = { w with files := (t.run w).2.files }

theorem ChangesFiles.eq (h : ChangesFiles t) {r : Except Fault α} (hrun : t.run w = (r, w')) :
    w' = { w with files := w'.files } := by
  have hw := h w
  rw [hrun] at hw
  exact hw

theorem Looks.changesFiles (h : Looks t) : ChangesFiles t := fun w ↦ by rw [h w]

theorem ChangesFiles.attempt (h : ChangesFiles t) : ChangesFiles (attempt t) := fun w ↦ h w

theorem ChangesFiles.bind {f : α → Job β} (ht : ChangesFiles t) (hf : ∀ a, ChangesFiles (f a)) :
    ChangesFiles (t >>= f) := by
  intro w
  rw [run_bind]
  split
  · rename_i a w₁ hrun
    have hw₁ := ht.eq hrun
    rw [hf a w₁, hw₁]
  · rename_i e w₁ hrun
    exact ht.eq hrun

theorem changesFiles_makeDirectory (p : Path) : ChangesFiles (makeDirectory p) := by
  intro w
  rw [run_makeDirectory]
  split
  · rfl
  · split
    · rfl
    · split <;> rfl

theorem changesFiles_ensureDirectory (p : Path) : ChangesFiles (ensureDirectory p) := by
  refine (changesFiles_makeDirectory p).attempt.bind fun r ↦ ?_
  split
  · exact (looks_pure _).changesFiles
  · split
    · exact (looks_throw _).changesFiles
    · refine (looks_isDirectory p).changesFiles.bind fun b ↦ ?_
      split
      · exact (looks_pure _).changesFiles
      · exact (looks_throw _).changesFiles
  · exact (looks_throw _).changesFiles

theorem changesFiles_ensureDirectories (p : Path) : ChangesFiles (ensureDirectories p) := by
  have hto : ∀ n p, ChangesFiles (ensureDirectoriesTo n p) := by
    intro n
    induction n with
    | zero => exact changesFiles_ensureDirectory
    | succ n ih =>
      intro p
      refine (changesFiles_ensureDirectory p).attempt.bind fun r ↦ ?_
      split
      · exact (looks_pure _).changesFiles
      · split
        · exact (ih p.parent).bind fun _ ↦ changesFiles_ensureDirectory p
        · exact (looks_throw _).changesFiles
      · exact (looks_throw _).changesFiles
  exact hto _ p

/-- Making directories leaves every other entry as it is. -/
theorem get?_eq_or_made {D : List String → Prop} (he : Evolves Nowhere Nowhere w w₁)
    (hfounds : Founds D w w₁) (q : List String) :
    w₁.files.get? q = w.files.get? q ∨
      w.files.get? q = none ∧ w₁.files.get? q = some .directory ∧ D q := by
  refine (Tree.get?_eq_or (he.content?_eq id id) (he.isDirectory q)).imp_right ?_
  rintro ⟨hnone, hafter⟩
  refine ⟨hnone, hafter, ?_⟩
  refine (hfounds.isDirectory q (Tree.isDirectory_iff.mpr hafter)).resolve_left fun hdir ↦ ?_
  rw [Tree.isDirectory_iff, hnone] at hdir
  cases hdir

end Job

namespace OutputPlan

variable {p : OutputPlan} {w w₁ w' : Workspace} {u : Unit}

/-! ## Staging -/

/-- Writing a copy into the directory of the plan puts what the image holds where the plan says.  An
image without a name would be one that is a directory. -/
theorem exists_put_of_copy (hw : w.IsSound) (hdir : p.directory.IsResolved)
    (hthere : w.files.isDirectory p.directory.parts = true)
    (hsource : ∀ n ∈ p.source.parts, IsName n ∨ n = "..")
    (h : (do writeFile p.path (← readFile p.source) : Job Unit).run w = (.ok u, w')) :
    ∃ c, w.contentAt p.source = some c ∧ p.path.IsResolved ∧ CanPlace w p.path ∧
      w' = { w with files := w.files.put p.path.parts (.file c) } := by
  rw [run_bind_eq_ok] at h
  obtain ⟨c, w₂, hread, h⟩ := h
  obtain ⟨rfl, hc⟩ := contentAt_of_readFile hread
  refine ⟨c, hc, ?_⟩
  by_cases hnil : p.source.parts = []
  · have hpath : p.path = p.directory := by
      have hname : p.name = "" := by rw [name, Path.name, hnil]; rfl
      have hempty : Path.ofString "" = ⟨.relative, []⟩ := by decide +kernel
      rw [path, hname, hempty]
      exact congrArg (Path.mk _) (List.append_nil _)
    rw [hpath] at h
    obtain ⟨w₃, he, ⟨f, hrun⟩ | ⟨hrun, hcan, -⟩⟩ := run_writeFile_cases hw hdir c
    · rw [hrun] at h
      cases h
    · have hstays := he.isDirectory _ hthere
      rw [hcan.not_isDirectory] at hstays
      cases hstays
  · have hname : IsName p.name := Workspace.isName_of_contentAt hw hsource hnil hc
    have hpath := path_eq hname
    have hresolved : p.path.IsResolved := by
      rw [hpath]
      exact hdir.child hname
    have hparent : p.path.parent = p.directory := by rw [hpath, Path.parent_child]
    rw [run_writeFile, hparent, run_ensureDirectories_of_isDirectory hw hdir hthere] at h
    dsimp only at h
    split at h
    · cases h
    · rcases run_overwrite_cases hw hresolved c with ⟨f, hrun, -⟩ | ⟨hrun, hcan⟩
      · rw [hrun] at h
        cases h
      · rw [hrun] at h
        cases h
        exact ⟨hresolved, hcan, rfl⟩

/-- An image has been staged: its copy holds what it holds, a file that it was is the same file still,
and of all other entries only directories on the way to the copy are new. -/
structure Stages (p : OutputPlan) (w w' : Workspace) : Prop where
  copies : w'.contentAt p.path = w'.contentAt p.source
  keeps : ∀ c, w.contentAt p.source = some c → w'.contentAt p.source = some c
  frame : ∀ q, w'.files.get? q = w.files.get? q ∨
    q = p.path.parts ∧ (w'.files.content? q).isSome = true ∨
    w.files.get? q = none ∧ w'.files.get? q = some .directory ∧ q <+: p.directory.parts
  rest : w' = { w with files := w'.files }

theorem stages_of_run_stage (hw : w.IsSound) (hdir : p.directory.IsResolved)
    (hsource : ∀ n ∈ p.source.parts, IsName n ∨ n = "..") (h : p.stage.run w = (.ok u, w')) :
    p.Stages w w' := by
  rw [run_stage, run_bind_eq_ok] at h
  obtain ⟨v, w₁, hensure, h⟩ := h
  have he := (within_ensureDirectories hdir).evolves hw hensure
  have hfounds := (founding_ensureDirectories (D := (· <+: p.directory.parts)) hdir
    fun _ ↦ id).founds hw hensure
  have hframe := get?_eq_or_made he hfounds
  have hrest := (changesFiles_ensureDirectories p.directory).eq hensure
  have hkeeps {c : Content} (hc : w.contentAt p.source = some c) : w₁.contentAt p.source = some c :=
    he.contentAt (fun _ ↦ id) hc
  have hwrite : (do writeFile p.path (← readFile p.source) : Job Unit).run w₁ = (.ok u, w') →
      p.Stages w w' := by
    intro h
    obtain ⟨c, hc, hresolved, hcan, rfl⟩ := exists_put_of_copy he.isSound hdir
      (isDirectory_of_ensureDirectories hw hdir hensure) hsource h
    have hput := hcan.evolves_put he.isSound c
    have hself := Tree.content?_put_self (t := w₁.files) hcan.ne_nil c
    -- the image may be named by a path to the place of its copy, too
    have hown : Workspace.contentAt { w₁ with files := w₁.files.put p.path.parts (.file c) }
        p.source = some c := by
      obtain ⟨q, hlocate, hq⟩ := Workspace.contentAt_eq_some_iff.mp hc
      rw [Workspace.contentAt_eq_some_iff]
      refine ⟨q, Tree.locate_of_isDirectory hput.isDirectory hlocate, ?_⟩
      by_cases hplace : q = p.path.parts
      · rw [hplace, hself]
      · exact (Tree.content?_put_of_ne hcan.ne_nil hplace).trans hq
    refine ⟨?_, fun d hd ↦ ?_, fun q ↦ ?_, ?_⟩
    · rw [hown, Workspace.contentAt_of_isResolved hput.isSound hresolved, hself]
    · rw [hown, ← hc, hkeeps hd]
    · by_cases hplace : q = p.path.parts
      · exact .inr (.inl ⟨hplace, by rw [hplace, hself]; rfl⟩)
      · simp only [Tree.get?_put hcan.ne_nil, if_neg hplace]
        exact (hframe q).imp_right .inr
    · rw [hrest]
  rw [run_bind_eq_ok] at h
  obtain ⟨target?, w₂, htarget, h⟩ := h
  obtain rfl := (looks_place? _).eq htarget
  split at h
  · rename_i target
    rw [run_bind_eq_ok] at h
    obtain ⟨own, w₃, hown, h⟩ := h
    obtain ⟨rfl, e, hsource⟩ := exists_stat_of_place hown
    split at h
    · rename_i hsame
      subst hsame
      cases h
      obtain ⟨-, e', htarget⟩ := exists_stat_of_place? htarget
      refine ⟨?_, fun d ↦ hkeeps, fun q ↦ (hframe q).imp_right .inr, hrest⟩
      rw [Workspace.contentAt_of_stat htarget, Workspace.contentAt_of_stat hsource]
    · exact hwrite h
  · exact hwrite h

end OutputPlan

end ResponsiveImage
