import ResponsiveImage.Proofs.Job.Looking

/-!
# Jobs that change files

What a job may do to the files is told by two kinds of places: at the places of the one kind it may
change what stands there, at those of the other it may create a file where there is none.  Everywhere
else the contents stay, and directories stay everywhere (`Workspace.Evolves`).  Such bounds are kept
by jobs put together of jobs that keep them, and by runs of any length.

A file is written, moved or removed at the place that its path spells, directories on the way to it
are made as needed, and no content but that of the file is touched.
-/

namespace ResponsiveImage

/-- Nowhere. -/
def Nowhere : List String → Prop := fun _ ↦ False

/-- The place of a path. -/
def Path.Here (p : Path) : List String → Prop := fun q ↦ q = p.parts

/-- One workspace comes from another by changes at places of one kind and new files at places of
another. -/
structure Workspace.Evolves (changed created : List String → Prop) (w w' : Workspace) : Prop where
  isSound : w'.IsSound
  cwd_eq : w'.cwd = w.cwd
  remote_eq : w'.remote = w.remote
  isDirectory : ∀ q, w.files.isDirectory q = true → w'.files.isDirectory q = true
  content? : ∀ q, w'.files.content? q = w.files.content? q ∨ changed q ∨
    created q ∧ w.files.content? q = none

/-- Two workspaces with the same files, in one working directory and with the same hosts. -/
structure Workspace.Alike (w w' : Workspace) : Prop where
  files_eq : w'.files = w.files
  cwd_eq : w'.cwd = w.cwd
  remote_eq : w'.remote = w.remote

namespace Workspace.Evolves

variable {changed created changed' created' : List String → Prop} {w w₁ w₂ : Workspace}

theorem refl (hw : w.IsSound) : Evolves changed created w w :=
  ⟨hw, rfl, rfl, fun _ h ↦ h, fun _ ↦ .inl rfl⟩

theorem trans (h₁ : Evolves changed created w w₁) (h₂ : Evolves changed created w₁ w₂) :
    Evolves changed created w w₂ := by
  refine ⟨h₂.isSound, h₂.cwd_eq.trans h₁.cwd_eq, h₂.remote_eq.trans h₁.remote_eq,
    fun q h ↦ h₂.isDirectory q (h₁.isDirectory q h), fun q ↦ ?_⟩
  rcases h₁.content? q with h | h | h
  · rw [← h]
    exact h₂.content? q
  · exact .inr (.inl h)
  · exact .inr (.inr h)

theorem mono (h : Evolves changed created w w₁) (hchanged : ∀ q, changed q → changed' q)
    (hcreated : ∀ q, created q → changed' q ∨ created' q) : Evolves changed' created' w w₁ := by
  refine ⟨h.isSound, h.cwd_eq, h.remote_eq, h.isDirectory, fun q ↦ ?_⟩
  rcases h.content? q with hq | hq | ⟨hq, hnone⟩
  · exact .inl hq
  · exact .inr (.inl (hchanged q hq))
  · rcases hcreated q hq with hq | hq
    · exact .inr (.inl hq)
    · exact .inr (.inr ⟨hq, hnone⟩)

/-- A file that is not changed stays. -/
theorem content?_of_some (h : Evolves changed created w w₁) {q : List String} {c : Content}
    (hq : ¬ changed q) (hc : w.files.content? q = some c) : w₁.files.content? q = some c := by
  rcases h.content? q with heq | hchanged | ⟨-, hnone⟩
  · exact heq.trans hc
  · exact absurd hchanged hq
  · rw [hnone] at hc
    cases hc

/-- What is neither changed nor created stays as it is. -/
theorem content?_eq (h : Evolves changed created w w₁) {q : List String} (hq : ¬ changed q)
    (hq' : ¬ created q) : w₁.files.content? q = w.files.content? q := by
  rcases h.content? q with heq | hchanged | ⟨hcreated, -⟩
  · exact heq
  · exact absurd hchanged hq
  · exact absurd hcreated hq'

end Workspace.Evolves

namespace Workspace.Alike

variable {w w₁ w₂ : Workspace}

theorem refl (w : Workspace) : Alike w w := ⟨rfl, rfl, rfl⟩

theorem trans (h₁ : Alike w w₁) (h₂ : Alike w₁ w₂) : Alike w w₂ :=
  ⟨h₂.files_eq.trans h₁.files_eq, h₂.cwd_eq.trans h₁.cwd_eq, h₂.remote_eq.trans h₁.remote_eq⟩

theorem isSound (h : Alike w w₁) (hw : w.IsSound) : w₁.IsSound :=
  ⟨by rw [h.files_eq]; exact hw.files, by rw [h.cwd_eq]; exact hw.isName⟩

theorem evolves {changed created : List String → Prop} (h : Alike w w₁) (hw : w.IsSound) :
    Evolves changed created w w₁ :=
  ⟨h.isSound hw, h.cwd_eq, h.remote_eq, fun q hq ↦ by rw [h.files_eq]; exact hq,
    fun q ↦ .inl (by rw [h.files_eq])⟩

end Workspace.Alike

namespace Job

open Workspace (Evolves Alike)

variable {α β : Type} {t : Job α} {p : Path} {w w' : Workspace} {c : Content}
  {changed created changed' created' : List String → Prop}

/-! ## Bounds on what a job changes -/

/-- A job that only changes files at places of one kind and only creates files at those of another. -/
def Within (changed created : List String → Prop) (t : Job α) : Prop :=
  ∀ w, w.IsSound → Evolves changed created w (t.run w).2

theorem Within.evolves (h : Within changed created t) (hw : w.IsSound) {r : Except Fault α}
    (hrun : t.run w = (r, w')) : Evolves changed created w w' := by
  have he := h w hw
  rw [hrun] at he
  exact he

theorem Looks.within (h : Looks t) : Within changed created t := by
  intro w hw
  rw [h w]
  exact .refl hw

theorem Within.mono (h : Within changed created t) (hchanged : ∀ q, changed q → changed' q)
    (hcreated : ∀ q, created q → changed' q ∨ created' q) : Within changed' created' t :=
  fun w hw ↦ (h w hw).mono hchanged hcreated

theorem Within.attempt (h : Within changed created t) : Within changed created (attempt t) :=
  fun w hw ↦ h w hw

theorem Within.bind {f : α → Job β} (ht : Within changed created t)
    (hf : ∀ a, Within changed created (f a)) : Within changed created (t >>= f) := by
  intro w hw
  rw [run_bind]
  split
  · rename_i a w₁ hrun
    have he := ht.evolves hw hrun
    exact he.trans (hf a w₁ he.isSound)
  · rename_i e w₁ hrun
    exact ht.evolves hw hrun

theorem within_pure (a : α) : Within changed created (pure a) := (looks_pure a).within

theorem within_throw (f : Fault) : Within changed created (throw f : Job α) :=
  (looks_throw f).within

theorem within_ofExcept {ε : Type} (f : ε → Fault) (r : Except ε α) :
    Within changed created (ofExcept f r) := (looks_ofExcept f r).within

theorem within_mapM {f : α → Job β} {as : List α} (h : ∀ a ∈ as, Within changed created (f a)) :
    Within changed created (as.mapM f) := by
  induction as with
  | nil =>
    rw [List.mapM_nil]
    exact within_pure _
  | cons a as ih =>
    rw [List.mapM_cons]
    obtain ⟨ha, has⟩ := List.forall_mem_cons.mp h
    exact ha.bind fun b ↦ (ih has).bind fun bs ↦ within_pure _

theorem within_forM {f : α → Job PUnit} {as : List α} (h : ∀ a ∈ as, Within changed created (f a)) :
    Within changed created (as.forM f) := by
  induction as with
  | nil => exact within_pure _
  | cons a as ih =>
    obtain ⟨ha, has⟩ := List.forall_mem_cons.mp h
    exact ha.bind fun _ ↦ ih has

/-! ## Reports -/

/-- A job that leaves the files as they are and changes only what is kept beside them. -/
def Reports (t : Job α) : Prop := ∀ w, Alike w (t.run w).2

theorem Looks.reports (h : Looks t) : Reports t := fun w ↦ by
  rw [h w]
  exact .refl w

theorem Reports.within (h : Reports t) : Within changed created t := fun w hw ↦ (h w).evolves hw

theorem Reports.attempt (h : Reports t) : Reports (attempt t) := fun w ↦ h w

theorem Reports.bind {f : α → Job β} (ht : Reports t) (hf : ∀ a, Reports (f a)) :
    Reports (t >>= f) := by
  intro w
  have hw := ht w
  rw [run_bind]
  split
  · rename_i a w₁ hrun
    rw [hrun] at hw
    exact hw.trans (hf a w₁)
  · rename_i e w₁ hrun
    rw [hrun] at hw
    exact hw

theorem reports_pure (a : α) : Reports (pure a) := (looks_pure a).reports

theorem reports_throw (f : Fault) : Reports (throw f : Job α) := (looks_throw f).reports

theorem reports_ofExcept {ε : Type} (f : ε → Fault) (r : Except ε α) : Reports (ofExcept f r) :=
  (looks_ofExcept f r).reports

theorem reports_mapM {f : α → Job β} {as : List α} (h : ∀ a ∈ as, Reports (f a)) :
    Reports (as.mapM f) := by
  induction as with
  | nil =>
    rw [List.mapM_nil]
    exact reports_pure _
  | cons a as ih =>
    rw [List.mapM_cons]
    obtain ⟨ha, has⟩ := List.forall_mem_cons.mp h
    exact ha.bind fun b ↦ (ih has).bind fun bs ↦ reports_pure _

theorem reports_log (level : Level) (channel : Channel) (text : String) :
    Reports (log level channel text) := fun _ ↦ ⟨rfl, rfl, rfl⟩

theorem reports_logTimed (channel : Channel) (before after : String) :
    Reports (logTimed channel before after) := fun _ ↦ ⟨rfl, rfl, rfl⟩

theorem reports_request (r : Request) : Reports (request r) := fun _ ↦ ⟨rfl, rfl, rfl⟩

theorem within_log (level : Level) (channel : Channel) (text : String) :
    Within changed created (log level channel text) := (reports_log _ _ _).within

theorem within_request (r : Request) : Within changed created (request r) :=
  (reports_request r).within

/-! ## Putting and taking away -/

/-- An entry put at a place in a directory. -/
theorem evolves_put (hw : w.IsSound) {q : List String} {e : Entry} (hq : q ≠ [])
    (hparent : w.files.isDirectory q.dropLast = true) (hname : ∀ n ∈ q.getLast?, IsEntryName n)
    (he : e = .directory ∨ w.files.isDirectory q = false) :
    Evolves (fun r ↦ r = q) Nowhere w { w with files := w.files.put q e } := by
  refine ⟨⟨hw.files.put hq hparent hname he, hw.isName⟩, rfl, rfl,
    fun r h ↦ Tree.isDirectory_put hq he h, fun r ↦ ?_⟩
  by_cases hr : r = q
  · exact .inr (.inl hr)
  · exact .inl (Tree.content?_put_of_ne hq hr)

theorem evolves_remove (hw : w.IsSound) {q : List String} (hc : w.files.content? q = some c) :
    Evolves (fun r ↦ r = q) Nowhere w { w with files := w.files.remove q } := by
  refine ⟨⟨hw.files.remove hc, hw.isName⟩, rfl, rfl,
    fun r h ↦ hw.files.isDirectory_remove hc h, fun r ↦ ?_⟩
  by_cases hr : r = q
  · exact .inr (.inl hr)
  · refine .inl ?_
    simp only [Tree.content?, hw.files.get?_remove hc, if_neg hr]

/-- What a path leads to can be an entry, if it holds no NUL. -/
theorem isEntryName_of_locate (hw : w.IsSound) (hp : p.IsResolved) (hnul : p.hasNul = false)
    {q : List String} (h : w.files.locate w.cwd p = .ok q) :
    q = p.parts ∧ w.files.isDirectory p.parts.dropLast = true ∧
      ∀ n ∈ p.parts.getLast?, IsEntryName n := by
  obtain ⟨rfl, hparent, hshort⟩ := (hw.files.locate_eq_ok_iff hp w.cwd).mp h
  refine ⟨rfl, hparent, fun n hn ↦ ⟨hp.isName n (List.mem_of_getLast? hn), ?_, hshort n hn⟩⟩
  rw [Path.hasNul, List.any_eq_false] at hnul
  simpa using hnul n (List.mem_of_getLast? hn)

/-! ## Directories -/

theorem run_makeDirectory (p : Path) (w : Workspace) :
    (makeDirectory p).run w =
      if p.hasNul then (.error .embeddedNul, w)
      else
        match w.files.locate w.cwd p with
        | .error kind => (.error (.file ⟨kind, [p.toString]⟩), w)
        | .ok place =>
          match w.files.get? place with
          | some _ => (.error (.file ⟨.alreadyExists, [p.toString]⟩), w)
          | none => (.ok (), { w with files := w.files.put place .directory }) := by
  rw [makeDirectory, run_bind, run_get]
  dsimp only
  split
  · rw [run_bind, run_throw]
  · cases w.files.locate w.cwd p with
    | error kind => rfl
    | ok place =>
      dsimp only
      cases w.files.get? place with
      | some e => rfl
      | none => rfl

theorem within_makeDirectory (hp : p.IsResolved) : Within Nowhere Nowhere (makeDirectory p) := by
  intro w hw
  rw [run_makeDirectory]
  split
  · exact .refl hw
  · rename_i hnul
    split
    · exact .refl hw
    · rename_i place hlocate
      obtain ⟨rfl, hparent, hname⟩ :=
        isEntryName_of_locate hw hp ((Bool.not_eq_true _).mp hnul) hlocate
      split
      · exact .refl hw
      · rename_i hnone
        have hne : p.parts ≠ [] := by
          intro hnil
          rw [hnil] at hnone
          cases hnone
        have he := evolves_put hw hne hparent hname (.inl rfl)
        refine ⟨he.isSound, rfl, rfl, he.isDirectory, fun q ↦ .inl ?_⟩
        by_cases hq : q = p.parts
        · subst hq
          simp [Tree.content?, Tree.get?_put hne, hnone]
        · exact Tree.content?_put_of_ne hne hq

theorem isDirectory_of_makeDirectory {u : Unit} (hw : w.IsSound) (hp : p.IsResolved)
    (h : (makeDirectory p).run w = (.ok u, w')) : w'.files.isDirectory p.parts = true := by
  rw [run_makeDirectory] at h
  split at h
  · cases h
  · rename_i hnul
    split at h
    · cases h
    · rename_i place hlocate
      obtain ⟨rfl, -, -⟩ :=
        isEntryName_of_locate hw hp ((Bool.not_eq_true _).mp hnul) hlocate
      split at h
      · cases h
      · rename_i hnone
        have hne : p.parts ≠ [] := by
          intro hnil
          rw [hnil] at hnone
          cases hnone
        cases h
        rw [Tree.isDirectory_iff, Tree.get?_put hne, if_pos rfl]

theorem within_ensureDirectory (hp : p.IsResolved) :
    Within Nowhere Nowhere (ensureDirectory p) := by
  refine (within_makeDirectory hp).attempt.bind fun r ↦ ?_
  split
  · exact within_pure _
  · split
    · exact within_throw _
    · refine (looks_isDirectory p).within.bind fun b ↦ ?_
      split
      · exact within_pure _
      · exact within_throw _
  · exact within_throw _

theorem isDirectory_of_ensureDirectory {u : Unit} (hw : w.IsSound) (hp : p.IsResolved)
    (h : (ensureDirectory p).run w = (.ok u, w')) : w'.files.isDirectory p.parts = true := by
  obtain ⟨r, w₁, hmake, h⟩ := run_bind_eq_ok.mp h
  rw [run_attempt_eq_ok] at hmake
  split at h
  · cases h
    exact isDirectory_of_makeDirectory hw hp hmake
  · split at h
    · cases h
    · obtain ⟨b, w₂, hdir, h⟩ := run_bind_eq_ok.mp h
      have hw₁ := ((within_makeDirectory hp).evolves hw hmake).isSound
      cases b with
      | false => cases h
      | true =>
        cases h
        obtain ⟨rfl, hdir⟩ := run_isDirectory_eq_true hw₁ hp hdir
        exact hdir
  · cases h

theorem within_ensureDirectoriesTo (n : Nat) (hp : p.IsResolved) :
    Within Nowhere Nowhere (ensureDirectoriesTo n p) := by
  induction n generalizing p with
  | zero => exact within_ensureDirectory hp
  | succ n ih =>
    refine (within_ensureDirectory hp).attempt.bind fun r ↦ ?_
    split
    · exact within_pure _
    · split
      · exact (ih hp.parent).bind fun _ ↦ within_ensureDirectory hp
      · exact within_throw _
    · exact within_throw _

theorem isDirectory_of_ensureDirectoriesTo {n : Nat} {u : Unit} (hw : w.IsSound)
    (hp : p.IsResolved) (h : (ensureDirectoriesTo n p).run w = (.ok u, w')) :
    w'.files.isDirectory p.parts = true := by
  cases n with
  | zero => exact isDirectory_of_ensureDirectory hw hp h
  | succ n =>
    obtain ⟨r, w₁, hensure, h⟩ := run_bind_eq_ok.mp h
    rw [run_attempt_eq_ok] at hensure
    split at h
    · cases h
      exact isDirectory_of_ensureDirectory hw hp hensure
    · split at h
      · obtain ⟨v, w₂, hparents, h⟩ := run_bind_eq_ok.mp h
        have hw₁ := ((within_ensureDirectory hp).evolves hw hensure).isSound
        have hw₂ := ((within_ensureDirectoriesTo n hp.parent).evolves hw₁ hparents).isSound
        exact isDirectory_of_ensureDirectory hw₂ hp h
      · cases h
    · cases h

theorem within_ensureDirectories (hp : p.IsResolved) :
    Within Nowhere Nowhere (ensureDirectories p) := within_ensureDirectoriesTo _ hp

theorem isDirectory_of_ensureDirectories {u : Unit} (hw : w.IsSound) (hp : p.IsResolved)
    (h : (ensureDirectories p).run w = (.ok u, w')) : w'.files.isDirectory p.parts = true :=
  isDirectory_of_ensureDirectoriesTo hw hp h

/-- A directory that is there is left alone. -/
theorem run_ensureDirectory_of_isDirectory (hw : w.IsSound) (hp : p.IsResolved)
    (h : w.files.isDirectory p.parts = true) : (ensureDirectory p).run w = (.ok (), w) := by
  have hget := Tree.isDirectory_iff.mp h
  have hnul := hasNul_eq_false hw hget
  have hlocate : w.files.locate w.cwd p = .ok p.parts := by
    refine (hw.files.locate_eq_ok_iff hp w.cwd).mpr
      ⟨rfl, hw.files.isDirectory_dropLast hget, fun n hn ↦ ?_⟩
    exact (hw.files.isEntryName_of_get? hget n (List.mem_of_getLast? hn)).short
  have hmake : (makeDirectory p).run w = (.error (.file ⟨.alreadyExists, [p.toString]⟩), w) := by
    rw [run_makeDirectory, hnul, hlocate]
    simp [hget]
  refine run_bind_eq_ok.mpr ⟨_, w, run_attempt_eq_ok.mpr hmake, ?_⟩
  dsimp only
  rw [if_neg (by decide)]
  exact run_bind_eq_ok.mpr ⟨_, _, run_isDirectory_of_isDirectory hw hp h, rfl⟩

theorem run_ensureDirectories_of_isDirectory (hw : w.IsSound) (hp : p.IsResolved)
    (h : w.files.isDirectory p.parts = true) : (ensureDirectories p).run w = (.ok (), w) := by
  have hensure := run_ensureDirectory_of_isDirectory hw hp h
  rw [ensureDirectories]
  cases p.parts.length with
  | zero => exact hensure
  | succ n => exact run_bind_eq_ok.mpr ⟨_, _, run_attempt_eq_ok.mpr hensure, rfl⟩

/-! ## Files -/

theorem run_overwrite (p : Path) (c : Content) (w : Workspace) :
    (overwrite p c).run w =
      if p.hasNul then (.error .embeddedNul, w)
      else
        match w.files.locate w.cwd p with
        | .error kind => (.error (.file ⟨kind, [p.toString]⟩), w)
        | .ok place =>
          if w.files.isDirectory place then (.error (.file ⟨.isDirectory, [p.toString]⟩), w)
          else (.ok (), { w with files := w.files.put place (.file c) }) := by
  rw [overwrite, run_bind, run_get]
  dsimp only
  split
  · rw [run_bind, run_throw]
  · cases w.files.locate w.cwd p with
    | error kind => rfl
    | ok place =>
      dsimp only
      split
      · rw [run_throw]
      · rfl

/-- A file that is written over stands in a directory, under a name that files can have. -/
structure CanPlace (w : Workspace) (p : Path) : Prop where
  ne_nil : p.parts ≠ []
  isDirectory_dropLast : w.files.isDirectory p.parts.dropLast = true
  isEntryName : ∀ n ∈ p.parts.getLast?, IsEntryName n
  not_isDirectory : w.files.isDirectory p.parts = false

theorem run_overwrite_cases (hw : w.IsSound) (hp : p.IsResolved) (c : Content) :
    (∃ f, (overwrite p c).run w = (.error f, w) ∧ ¬ CanPlace w p) ∨
      (overwrite p c).run w = (.ok (), { w with files := w.files.put p.parts (.file c) }) ∧
        CanPlace w p := by
  rw [run_overwrite]
  split
  · rename_i hnul
    refine .inl ⟨_, rfl, fun h ↦ ?_⟩
    -- the parent has no NUL in its path, and the name has none either
    rw [Path.hasNul, List.any_eq_true] at hnul
    obtain ⟨n, hn, hc⟩ := hnul
    have hc' : '\x00' ∈ n.toList := by simpa using hc
    rw [← List.dropLast_concat_getLast h.ne_nil] at hn
    rcases List.mem_append.mp hn with hn | hn
    · have hdir := Tree.isDirectory_iff.mp h.isDirectory_dropLast
      exact (hw.files.isEntryName_of_get? hdir n hn).no_nul hc'
    · refine (h.isEntryName n ?_).no_nul hc'
      rw [List.mem_singleton.mp hn]
      exact List.getLast?_eq_some_getLast h.ne_nil
  · rename_i hnul
    split
    · rename_i kind hlocate
      refine .inl ⟨_, rfl, fun h ↦ ?_⟩
      have hok := (hw.files.locate_eq_ok_iff hp w.cwd).mpr
        ⟨rfl, h.isDirectory_dropLast, fun n hn ↦ (h.isEntryName n hn).short⟩
      rw [hok] at hlocate
      cases hlocate
    · rename_i place hlocate
      obtain ⟨rfl, hparent, hname⟩ :=
        isEntryName_of_locate hw hp ((Bool.not_eq_true _).mp hnul) hlocate
      split
      · rename_i hdir
        refine .inl ⟨_, rfl, fun h ↦ ?_⟩
        rw [h.not_isDirectory] at hdir
        cases hdir
      · rename_i hdir
        refine .inr ⟨rfl, ?_, hparent, hname, (Bool.not_eq_true _).mp hdir⟩
        intro hnil
        rw [hnil] at hdir
        exact hdir rfl

theorem CanPlace.evolves_put (hw : w.IsSound) (h : CanPlace w p) (c : Content) :
    Evolves p.Here Nowhere w { w with files := w.files.put p.parts (.file c) } :=
  Job.evolves_put hw h.ne_nil h.isDirectory_dropLast h.isEntryName (.inr h.not_isDirectory)

theorem within_overwrite (hp : p.IsResolved) (c : Content) :
    Within p.Here Nowhere (overwrite p c) := by
  intro w hw
  rcases run_overwrite_cases hw hp c with ⟨f, hrun, -⟩ | ⟨hrun, hcan⟩
  · rw [hrun]
    exact .refl hw
  · rw [hrun]
    exact hcan.evolves_put hw c

theorem content?_of_overwrite {u : Unit} (hw : w.IsSound) (hp : p.IsResolved)
    (h : (overwrite p c).run w = (.ok u, w')) : w'.files.content? p.parts = some c := by
  rcases run_overwrite_cases hw hp c with ⟨f, hrun, -⟩ | ⟨hrun, hcan⟩
  · rw [hrun] at h
    cases h
  · rw [hrun] at h
    cases h
    exact Tree.content?_put_self hcan.ne_nil c

theorem canPlace_of_content? (hw : w.IsSound) {d : Content}
    (hd : w.files.content? p.parts = some d) : CanPlace w p := by
  have hget := Tree.content?_eq_some_iff.mp hd
  refine ⟨?_, hw.files.isDirectory_dropLast hget, fun n hn ↦ ?_, Tree.not_isDirectory_of_content? hd⟩
  · intro hnil
    rw [hnil] at hget
    cases hget
  · exact hw.files.isEntryName_of_get? hget n (List.mem_of_getLast? hn)

/-- A file that is there can be written over. -/
theorem run_overwrite_of_content? (hw : w.IsSound) (hp : p.IsResolved) {d : Content}
    (hd : w.files.content? p.parts = some d) (c : Content) :
    (overwrite p c).run w = (.ok (), { w with files := w.files.put p.parts (.file c) }) := by
  rcases run_overwrite_cases hw hp c with ⟨f, -, hnot⟩ | ⟨hrun, -⟩
  · exact absurd (canPlace_of_content? hw hd) hnot
  · exact hrun

theorem run_writeFile (p : Path) (c : Content) (w : Workspace) :
    (writeFile p c).run w =
      match (ensureDirectories p.parent).run w with
      | (.error f, w₁) => (.error f, w₁)
      | (.ok (), w₁) =>
        if p.hasNul = false ∧ Tree.greatestName < p.name.utf8ByteSize + temporaryExtra then
          (.error (.file ⟨.nameTooLong, [p.toString]⟩), w₁)
        else (overwrite p c).run w₁ := by
  rw [writeFile, run_bind]
  split
  · rename_i u w₁ hensure
    rw [hensure]
    simp only [run_overwrite]
    by_cases hnul : p.hasNul = true
    · rw [if_pos hnul, if_pos hnul, run_bind, run_throw]
      simp [hnul]
    · rw [if_neg hnul, if_neg hnul]
      simp only [(Bool.not_eq_true _).mp hnul, true_and]
      rw [run_bind, run_get]
      dsimp only
      split
      · rw [run_bind, run_throw]
      · cases w₁.files.locate w₁.cwd p with
        | error kind => rfl
        | ok place =>
          dsimp only
          split
          · rw [run_throw]
          · rfl
  · rename_i f w₁ hensure
    rw [hensure]

/-- Writing a file fails, with at most some directories made, or puts the file in its place. -/
theorem run_writeFile_cases (hw : w.IsSound) (hp : p.IsResolved) (c : Content) :
    ∃ w₁, Evolves Nowhere Nowhere w w₁ ∧
      ((∃ f, (writeFile p c).run w = (.error f, w₁)) ∨
        (writeFile p c).run w = (.ok (), { w₁ with files := w₁.files.put p.parts (.file c) }) ∧
          CanPlace w₁ p ∧ p.name.utf8ByteSize + temporaryExtra ≤ Tree.greatestName) := by
  rw [run_writeFile]
  split
  · rename_i f w₁ hensure
    exact ⟨w₁, (within_ensureDirectories hp.parent).evolves hw hensure, .inl ⟨f, rfl⟩⟩
  · rename_i w₁ hensure
    have he := (within_ensureDirectories hp.parent).evolves hw hensure
    refine ⟨w₁, he, ?_⟩
    split
    · exact .inl ⟨_, rfl⟩
    · rename_i hlong
      rcases run_overwrite_cases he.isSound hp c with ⟨f, hrun, -⟩ | ⟨hrun, hcan⟩
      · exact .inl ⟨f, hrun⟩
      · refine .inr ⟨hrun, hcan, Nat.le_of_not_lt fun hlt ↦ hlong ⟨?_, hlt⟩⟩
        rw [← Bool.not_eq_true]
        intro hnul
        rw [run_overwrite, if_pos hnul] at hrun
        cases hrun

theorem within_writeFile (hp : p.IsResolved) (c : Content) :
    Within p.Here Nowhere (writeFile p c) := by
  intro w hw
  obtain ⟨w₁, he, ⟨f, hrun⟩ | ⟨hrun, hcan, -⟩⟩ := run_writeFile_cases hw hp c
  · rw [hrun]
    exact he.mono (fun _ h ↦ h.elim) (fun _ h ↦ h.elim)
  · rw [hrun]
    exact (he.mono (fun _ h ↦ h.elim) (fun _ h ↦ h.elim)).trans (hcan.evolves_put he.isSound c)

/-- Where there was no file, writing one creates it. -/
theorem evolves_writeFile_of_none (hw : w.IsSound) (hp : p.IsResolved) (c : Content)
    (hnone : w.files.content? p.parts = none) :
    Evolves Nowhere p.Here w ((writeFile p c).run w).2 := by
  have he := within_writeFile hp c w hw
  refine ⟨he.isSound, he.cwd_eq, he.remote_eq, he.isDirectory, fun q ↦ ?_⟩
  rcases he.content? q with heq | hq | ⟨hq, -⟩
  · exact .inl heq
  · exact .inr (.inr ⟨hq, by rw [hq]; exact hnone⟩)
  · exact hq.elim

theorem content?_of_writeFile {u : Unit} (hw : w.IsSound) (hp : p.IsResolved)
    (h : (writeFile p c).run w = (.ok u, w')) : w'.files.content? p.parts = some c := by
  obtain ⟨w₁, -, ⟨f, hrun⟩ | ⟨hrun, hcan, -⟩⟩ := run_writeFile_cases hw hp c
  · rw [hrun] at h
    cases h
  · rw [hrun] at h
    cases h
    exact Tree.content?_put_self hcan.ne_nil c

/-- A path whose last name is one that a file can have, also while it is written. -/
structure IsWritable (p : Path) : Prop where
  ne_nil : p.parts ≠ []
  isEntryName : ∀ n ∈ p.parts.getLast?, IsEntryName n
  short : p.name.utf8ByteSize + temporaryExtra ≤ Tree.greatestName

theorem isWritable_of_writeFile {u : Unit} (hw : w.IsSound) (hp : p.IsResolved)
    (h : (writeFile p c).run w = (.ok u, w')) : IsWritable p := by
  obtain ⟨w₁, -, ⟨f, hrun⟩ | ⟨-, hcan, hshort⟩⟩ := run_writeFile_cases hw hp c
  · rw [hrun] at h
    cases h
  · exact ⟨hcan.ne_nil, hcan.isEntryName, hshort⟩

theorem run_writeFile_of_isWritable (hw : w.IsSound) (hp : p.IsResolved) (h : IsWritable p)
    (hparent : w.files.isDirectory p.parts.dropLast = true)
    (hdir : w.files.isDirectory p.parts = false) (c : Content) :
    (writeFile p c).run w = (.ok (), { w with files := w.files.put p.parts (.file c) }) := by
  rw [run_writeFile, run_ensureDirectories_of_isDirectory hw hp.parent hparent]
  simp only [Nat.not_lt.mpr h.short, and_false, if_false]
  rcases run_overwrite_cases hw hp c with ⟨f, -, hnot⟩ | ⟨hrun, -⟩
  · exact absurd ⟨h.ne_nil, hparent, h.isEntryName, hdir⟩ hnot
  · exact hrun

/-- A file that has been written can be written again, as long as it is there. -/
theorem run_writeFile_of_content? (hw : w.IsSound) (hp : p.IsResolved) {d : Content}
    (hd : w.files.content? p.parts = some d)
    (hshort : p.name.utf8ByteSize + temporaryExtra ≤ Tree.greatestName) (c : Content) :
    (writeFile p c).run w = (.ok (), { w with files := w.files.put p.parts (.file c) }) := by
  have hcan := canPlace_of_content? hw hd
  exact run_writeFile_of_isWritable hw hp ⟨hcan.ne_nil, hcan.isEntryName, hshort⟩
    hcan.isDirectory_dropLast hcan.not_isDirectory c

/-! ## Removing and moving -/

theorem run_unlink_cases (hw : w.IsSound) (hp : p.IsResolved) :
    (∃ f, (unlink p).run w = (.error f, w)) ∨
      ∃ c, w.files.content? p.parts = some c ∧
        (unlink p).run w = (.ok (), { w with files := w.files.remove p.parts }) := by
  cases hstat : (stat p).run w with
  | mk r w₁ =>
    obtain rfl := (looks_stat p).eq hstat
    cases r with
    | error f => exact .inl ⟨f, run_bind_of_error hstat⟩
    | ok found =>
      obtain ⟨q, e⟩ := found
      obtain ⟨-, rfl, he⟩ := (run_stat_eq_ok_iff hw hp).mp hstat
      cases e with
      | directory => exact .inl ⟨_, run_bind_of_ok hstat⟩
      | file c => exact .inr ⟨c, Tree.content?_eq_some_iff.mpr he, run_bind_of_ok hstat⟩

theorem within_unlink (hp : p.IsResolved) : Within p.Here Nowhere (unlink p) := by
  intro w hw
  rcases run_unlink_cases hw hp with ⟨f, hrun⟩ | ⟨c, hc, hrun⟩
  · rw [hrun]
    exact .refl hw
  · rw [hrun]
    exact evolves_remove hw hc

theorem within_unlinkIfPresent (hp : p.IsResolved) :
    Within p.Here Nowhere (unlinkIfPresent p) := by
  refine (within_unlink hp).attempt.bind fun r ↦ ?_
  split
  · exact within_pure _
  · split
    · exact within_pure _
    · exact within_throw _
  · exact within_throw _

/-- A file that is there can be removed. -/
theorem run_unlink_of_content? (hw : w.IsSound) (hp : p.IsResolved)
    (hc : w.files.content? p.parts = some c) :
    (unlink p).run w = (.ok (), { w with files := w.files.remove p.parts }) := by
  have he := Tree.content?_eq_some_iff.mp hc
  exact run_bind_of_ok ((run_stat_eq_ok_iff hw hp).mpr ⟨rfl, rfl, he⟩)

theorem run_unlinkIfPresent_cases (hw : w.IsSound) (hp : p.IsResolved) :
    w.files.content? p.parts = none ∧ (∃ r, (unlinkIfPresent p).run w = (r, w)) ∨
      ∃ c, w.files.content? p.parts = some c ∧
        (unlinkIfPresent p).run w = (.ok (), { w with files := w.files.remove p.parts }) := by
  cases hc : w.files.content? p.parts with
  | some c =>
    refine .inr ⟨c, rfl, ?_⟩
    rw [unlinkIfPresent, run_bind_of_ok (run_attempt_eq_ok.mpr (run_unlink_of_content? hw hp hc))]
    rfl
  | none =>
    refine .inl ⟨rfl, _, Prod.ext rfl ?_⟩
    rcases run_unlink_cases hw hp with ⟨f, hrun⟩ | ⟨c, hc', -⟩
    · have hattempt : (attempt (unlink p)).run w = (.ok (.error f), w) := by rw [run_attempt, hrun]
      rw [unlinkIfPresent, run_bind_of_ok hattempt]
      cases f with
      | file e =>
        dsimp only
        split <;> rfl
      | _ => rfl
    · rw [hc] at hc'
      cases hc'

/-- A file is moved by taking it away and putting it at its new place. -/
theorem run_move_cases {q : Path} (hw : w.IsSound) (hp : p.IsResolved) (hq : q.IsResolved)
    (hc : w.files.content? p.parts = some c) :
    (∃ f, (move p q).run w = (.error f, w) ∧ (q.hasNul = false → ∃ e, f = .file e)) ∨
      (move p q).run w =
          (.ok (), { w with files := (w.files.remove p.parts).put q.parts (.file c) }) ∧
        CanPlace w q := by
  have hstat : (stat p).run w = (.ok (p.parts, .file c), w) :=
    (run_stat_eq_ok_iff hw hp).mpr ⟨rfl, rfl, Tree.content?_eq_some_iff.mp hc⟩
  rw [move, run_bind_of_ok hstat]
  dsimp only
  rw [run_bind, run_get]
  dsimp only
  split
  · rename_i hnul
    rw [run_bind, run_throw]
    exact .inl ⟨_, rfl, fun h ↦ absurd (h.symm.trans hnul) Bool.false_ne_true⟩
  · rename_i hnul
    split
    · exact .inl ⟨_, rfl, fun _ ↦ ⟨_, rfl⟩⟩
    · rename_i place hlocate
      obtain ⟨rfl, hparent, hname⟩ :=
        isEntryName_of_locate hw hq ((Bool.not_eq_true _).mp hnul) hlocate
      split
      · exact .inl ⟨_, rfl, fun _ ↦ ⟨_, rfl⟩⟩
      · rename_i hdir
        refine .inr ⟨rfl, ?_, hparent, hname, (Bool.not_eq_true _).mp hdir⟩
        intro hnil
        rw [hnil] at hdir
        exact hdir rfl

theorem CanPlace.evolves_move {q : Path} (hw : w.IsSound) (h : CanPlace w q)
    (hc : w.files.content? p.parts = some c) :
    Evolves (fun r ↦ r = p.parts ∨ r = q.parts) Nowhere w
      { w with files := (w.files.remove p.parts).put q.parts (.file c) } := by
  have hremoved := evolves_remove hw hc
  have hfree : (w.files.remove p.parts).isDirectory q.parts = false := by
    rw [← Bool.not_eq_true, Tree.isDirectory_iff, hw.files.get?_remove hc]
    split
    · simp
    · rw [← Tree.isDirectory_iff, h.not_isDirectory]
      exact Bool.false_ne_true
  have hplaced : Evolves (fun r ↦ r = q.parts) Nowhere
      { w with files := w.files.remove p.parts }
      { w with files := (w.files.remove p.parts).put q.parts (.file c) } :=
    Job.evolves_put hremoved.isSound h.ne_nil (hremoved.isDirectory _ h.isDirectory_dropLast)
      h.isEntryName (.inr hfree)
  exact (hremoved.mono (fun _ ↦ .inl) (fun _ h ↦ h.elim)).trans
    (hplaced.mono (fun _ ↦ .inr) (fun _ h ↦ h.elim))

theorem evolves_move {q : Path} (hw : w.IsSound) (hp : p.IsResolved) (hq : q.IsResolved)
    (hc : w.files.content? p.parts = some c) :
    Evolves (fun r ↦ r = p.parts ∨ r = q.parts) Nowhere w ((move p q).run w).2 := by
  rcases run_move_cases hw hp hq hc with ⟨f, hrun, -⟩ | ⟨hrun, hcan⟩
  · rw [hrun]
    exact .refl hw
  · rw [hrun]
    exact hcan.evolves_move hw hc

end Job

end ResponsiveImage
