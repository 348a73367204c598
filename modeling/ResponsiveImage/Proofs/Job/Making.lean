import ResponsiveImage.Proofs.Job.Changing

/-!
# What can be made

A file can be written where its directory is and no directory stands, under a name that it can have
also while it is written.  A directory can be made where no file is in the way.
-/

namespace ResponsiveImage.Job

open Workspace (Evolves Alike)

variable {p : Path} {w w' : Workspace} {c : Content}

/-! ## Files -/

/-- Where a file can be written and nothing stands, nothing is found. -/
theorem run_find?_of_none (hw : w.IsSound) (hp : p.IsResolved) (h : IsWritable p)
    (hparent : w.files.isDirectory p.parts.dropLast = true) (hnone : w.files.get? p.parts = none) :
    (find? p).run w = (.ok none, w) := by
  have hlocate := (hw.files.locate_eq_ok_iff hp w.cwd).mpr
    ⟨rfl, hparent, fun n hn ↦ (h.isEntryName n hn).short⟩
  have hstat : w.files.stat w.cwd p = .error .notFound := by
    rw [Tree.stat, hlocate]
    simp only [bind, Except.bind, hnone]
  rw [run_find?, hstat]
  split
  · rfl
  · rfl

theorem run_exists?_of_none (hw : w.IsSound) (hp : p.IsResolved) (h : IsWritable p)
    (hparent : w.files.isDirectory p.parts.dropLast = true) (hnone : w.files.get? p.parts = none) :
    (exists? p).run w = (.ok false, w) := by
  have hentry : (standing? p).run w = (.ok none, w) :=
    run_bind_of_ok (run_find?_of_none hw hp h hparent hnone)
  exact run_bind_of_ok hentry

/-- What is removed if it is there is no directory. -/
theorem not_isDirectory_of_unlinkIfPresent (hw : w.IsSound) (hp : p.IsResolved) {u : Unit}
    (h : (unlinkIfPresent p).run w = (.ok u, w')) : w.files.isDirectory p.parts = false := by
  rw [← Bool.not_eq_true, Tree.isDirectory_iff]
  intro hdir
  have hstat : (stat p).run w = (.ok (p.parts, .directory), w) :=
    (run_stat_eq_ok_iff hw hp).mpr ⟨rfl, rfl, hdir⟩
  have hunlink : (unlink p).run w = (.error (.file ⟨.isDirectory, [p.toString]⟩), w) :=
    run_bind_of_ok hstat
  rw [unlinkIfPresent, run_bind_of_ok (run_attempt_eq_ok.mpr hunlink)] at h
  cases h

/-- What is no directory can be removed if it is there. -/
theorem run_unlinkIfPresent_of_not_isDirectory (hw : w.IsSound) (hp : p.IsResolved)
    (hparent : w.files.isDirectory p.parts.dropLast = true)
    (hname : ∀ n ∈ p.parts.getLast?, IsEntryName n) (hdir : w.files.isDirectory p.parts = false) :
    ∃ w', (unlinkIfPresent p).run w = (.ok (), w') := by
  rcases run_unlinkIfPresent_cases hw hp with ⟨hnone, -⟩ | ⟨c, -, hrun⟩
  · have hget : w.files.get? p.parts = none := by
      cases hget : w.files.get? p.parts with
      | none => rfl
      | some e =>
        cases e with
        | directory =>
          rw [Tree.isDirectory_iff.mpr hget] at hdir
          cases hdir
        | file c =>
          rw [Tree.content?_eq_some_iff.mpr hget] at hnone
          cases hnone
    have hlocate := (hw.files.locate_eq_ok_iff hp w.cwd).mpr
      ⟨rfl, hparent, fun n hn ↦ (hname n hn).short⟩
    have hnul : p.hasNul = false := by
      have hne : p.parts ≠ [] := by
        intro hnil
        rw [hnil] at hget
        cases hget
      rw [Path.hasNul, List.any_eq_false]
      intro n hn
      rw [← List.dropLast_concat_getLast hne] at hn
      rcases List.mem_append.mp hn with hn | hn
      · have hentry := hw.files.isEntryName_of_get? (Tree.isDirectory_iff.mp hparent) n hn
        simpa using hentry.no_nul
      · obtain rfl := List.mem_singleton.mp hn
        simpa using (hname _ (List.getLast?_eq_some_getLast hne)).no_nul
    have hstat : (stat p).run w = (.error (.file ⟨.notFound, [p.toString]⟩), w) := by
      rw [run_stat, hnul, Tree.stat, hlocate]
      simp only [bind, Except.bind, hget]
      rfl
    have hunlink : (unlink p).run w = (.error (.file ⟨.notFound, [p.toString]⟩), w) :=
      run_bind_of_error hstat
    exact ⟨w, run_bind_of_ok (run_attempt_eq_ok.mpr hunlink)⟩
  · exact ⟨_, hrun⟩

theorem run_place?_of_isWritable (hw : w.IsSound) (hp : p.IsResolved) (h : IsWritable p)
    (hparent : w.files.isDirectory p.parts.dropLast = true) :
    (place? p).run w = (.ok ((w.files.get? p.parts).map fun _ ↦ p.parts), w) := by
  cases hget : w.files.get? p.parts with
  | none => exact run_bind_of_ok (run_find?_of_none hw hp h hparent hget)
  | some e => exact run_bind_of_ok (run_find?_of_get? hw hp hget)

/-! ## Directories -/

/-- A path on the way to which there is no file, and whose names are ones that entries can have. -/
structure IsClear (w : Workspace) (p : Path) : Prop where
  isEntryName : ∀ n ∈ p.parts, IsEntryName n
  content? : ∀ q, q <+: p.parts → w.files.content? q = none

theorem IsClear.parent (h : IsClear w p) : IsClear w p.parent :=
  ⟨fun n hn ↦ h.isEntryName n (List.dropLast_subset _ hn),
    fun q hq ↦ h.content? q (hq.trans (List.dropLast_prefix _))⟩

theorem IsClear.of_evolves (h : IsClear w p)
    (he : Evolves Nowhere Nowhere w w') : IsClear w' p :=
  ⟨h.isEntryName, fun q hq ↦ (he.content?_eq id id).trans (h.content? q hq)⟩

/-- Following names on which there is no file, one arrives or something is missing. -/
theorem follow_of_clear {t : Tree} {place ps : List String}
    (hps : ∀ n ∈ ps, n ≠ ".." ∧ n.utf8ByteSize ≤ Tree.greatestName)
    (hclear : ∀ q, q <+: ps → t.content? (place ++ q) = none) :
    t.follow place ps = .ok (place ++ ps) ∨ t.follow place ps = .error .notFound := by
  induction ps generalizing place with
  | nil => exact .inl (by simp [Tree.follow])
  | cons n ps ih =>
    obtain ⟨⟨hdots, hshort⟩, hps⟩ := List.forall_mem_cons.mp hps
    have hplace := hclear [] (List.nil_prefix)
    rw [List.append_nil] at hplace
    cases hget : t.get? place with
    | none =>
      refine .inr ?_
      simp [Tree.follow, hget]
    | some e =>
      cases e with
      | file c => simp [Tree.content?, hget] at hplace
      | directory =>
        have hclear' : ∀ q, q <+: ps → t.content? (place ++ [n] ++ q) = none := by
          intro q hq
          rw [List.append_assoc, List.singleton_append]
          exact hclear (n :: q) ((List.cons_prefix_cons).mpr ⟨rfl, hq⟩)
        have hrest := ih hps hclear'
        have hfollow : t.follow place (n :: ps) = t.follow (place ++ [n]) ps := by
          simp [Tree.follow, hget, hdots, Nat.not_lt.mpr hshort]
        rw [List.append_assoc, List.singleton_append] at hrest
        rw [hfollow]
        exact hrest

theorem IsClear.isDirectory_or_none (h : IsClear w p) :
    w.files.isDirectory p.parts = true ∨ w.files.get? p.parts = none := by
  cases hget : w.files.get? p.parts with
  | none => exact .inr rfl
  | some e =>
    cases e with
    | directory => exact .inl (Tree.isDirectory_iff.mpr hget)
    | file c =>
      have hnone := h.content? p.parts (List.prefix_refl _)
      rw [Tree.content?_eq_some_iff.mpr hget] at hnone
      cases hnone

theorem IsClear.hasNul_eq_false (h : IsClear w p) : p.hasNul = false := by
  rw [Path.hasNul, List.any_eq_false]
  intro n hn
  simpa using (h.isEntryName n hn).no_nul

/-- A path on the way to which there is no file leads where it spells, or something is missing. -/
theorem IsClear.locate_eq (hp : p.IsResolved) (h : IsClear w p) :
    w.files.locate w.cwd p = .ok p.parts ∨ w.files.locate w.cwd p = .error .notFound := by
  rw [Tree.locate, hp.anchor_eq]
  exact follow_of_clear (fun n hn ↦ ⟨(hp.isName n hn).ne_dots, (h.isEntryName n hn).short⟩)
    h.content?

theorem IsClear.exists_run_find? (hp : p.IsResolved) (h : IsClear w p) :
    ∃ found, (find? p).run w = (.ok found, w) := by
  rw [run_find?, h.hasNul_eq_false, Tree.stat]
  rcases h.locate_eq hp with hlocate | hlocate
  · rw [hlocate]
    simp only [bind, Except.bind]
    cases w.files.get? p.parts with
    | some e => exact ⟨_, rfl⟩
    | none => exact ⟨_, rfl⟩
  · rw [hlocate]
    exact ⟨_, rfl⟩

theorem run_ensureDirectory_of_parent (hw : w.IsSound) (hp : p.IsResolved) (h : IsClear w p)
    (hparent : w.files.isDirectory p.parts.dropLast = true) :
    ∃ w', (ensureDirectory p).run w = (.ok (), w') := by
  rcases h.isDirectory_or_none with hdir | hnone
  · exact ⟨w, run_ensureDirectory_of_isDirectory hw hp hdir⟩
  · have hlocate := (hw.files.locate_eq_ok_iff hp w.cwd).mpr
      ⟨rfl, hparent, fun n hn ↦ (h.isEntryName n (List.mem_of_getLast? hn)).short⟩
    have hmake : (makeDirectory p).run w =
        (.ok (), { w with files := w.files.put p.parts .directory }) := by
      rw [run_makeDirectory, h.hasNul_eq_false, hlocate]
      simp [hnone]
    exact ⟨_, run_bind_eq_ok.mpr ⟨_, _, run_attempt_eq_ok.mpr hmake, rfl⟩⟩

/-- What is missing on the way to a directory is told as such. -/
theorem run_ensureDirectory_of_not_parent (hw : w.IsSound) (hp : p.IsResolved) (h : IsClear w p)
    (hparent : w.files.isDirectory p.parts.dropLast = false) :
    (ensureDirectory p).run w = (.error (.file ⟨.notFound, [p.toString]⟩), w) := by
  have hlocate : w.files.locate w.cwd p = .error .notFound := by
    refine (h.locate_eq hp).resolve_left fun hok ↦ ?_
    rw [hw.files.locate_eq_ok_iff hp] at hok
    rw [hok.2.1] at hparent
    cases hparent
  have hmake : (makeDirectory p).run w = (.error (.file ⟨.notFound, [p.toString]⟩), w) := by
    rw [run_makeDirectory, h.hasNul_eq_false, hlocate]
    rfl
  rw [ensureDirectory, run_bind_of_ok (run_attempt_eq_ok.mpr hmake)]
  rfl

/-- A directory can be made if no file is in the way. -/
theorem run_ensureDirectoriesTo_of_clear (n : Nat) (hw : w.IsSound) (hp : p.IsResolved)
    (h : IsClear w p) (hn : p.parts.length ≤ n) :
    ∃ w', (ensureDirectoriesTo n p).run w = (.ok (), w') := by
  induction n generalizing p w with
  | zero =>
    have hnil : p.parts = [] := List.length_eq_zero_iff.mp (Nat.le_zero.mp hn)
    refine run_ensureDirectory_of_parent hw hp h ?_
    rw [hnil]
    rfl
  | succ n ih =>
    cases hparent : w.files.isDirectory p.parts.dropLast with
    | true =>
      obtain ⟨w₁, hrun⟩ := run_ensureDirectory_of_parent hw hp h hparent
      exact ⟨w₁, run_bind_eq_ok.mpr ⟨_, _, run_attempt_eq_ok.mpr hrun, rfl⟩⟩
    | false =>
      have hne : p.parts.isEmpty = false := by
        cases hparts : p.parts with
        | nil =>
          rw [hparts] at hparent
          cases hparent
        | cons m ms => rfl
      have hlength : p.parent.parts.length ≤ n := by
        rw [show p.parent.parts = p.parts.dropLast from rfl, List.length_dropLast]
        omega
      obtain ⟨w₁, hparents⟩ := ih hw hp.parent h.parent hlength
      have he := (within_ensureDirectoriesTo n hp.parent).evolves hw hparents
      obtain ⟨w₂, hlast⟩ := run_ensureDirectory_of_parent he.isSound hp (h.of_evolves he)
        (isDirectory_of_ensureDirectoriesTo hw hp.parent hparents)
      refine ⟨w₂, ?_⟩
      rw [ensureDirectoriesTo, run_bind_of_ok (run_attempt_eq_ok.mpr
        (run_ensureDirectory_of_not_parent hw hp h hparent))]
      simp only [hne, decide_true, Bool.not_false, Bool.and_self, if_true]
      rw [run_bind_of_ok hparents, hlast]

theorem run_ensureDirectories_of_clear (hw : w.IsSound) (hp : p.IsResolved) (h : IsClear w p) :
    ∃ w', (ensureDirectories p).run w = (.ok (), w') :=
  run_ensureDirectoriesTo_of_clear _ hw hp h (Nat.le_refl _)

/-- No file is on the way to a directory. -/
theorem isClear_of_isDirectory (hw : w.IsSound) (h : w.files.isDirectory p.parts = true) :
    IsClear w p := by
  refine ⟨fun n hn ↦ ?_, fun q hq ↦ ?_⟩
  · exact hw.files.isEntryName_of_get? (Tree.isDirectory_iff.mp h) n hn
  · exact Tree.content?_of_isDirectory (hw.files.isDirectory_of_isPrefix h hq)

/-- The path of a directory that is made had no file on it. -/
theorem isClear_of_ensureDirectories (hw : w.IsSound) (hp : p.IsResolved) {u : Unit}
    (h : (ensureDirectories p).run w = (.ok u, w')) : IsClear w p := by
  have he := (within_ensureDirectories hp).evolves hw h
  have hclear := isClear_of_isDirectory he.isSound (isDirectory_of_ensureDirectories hw hp h)
  exact ⟨hclear.isEntryName, fun q hq ↦ (he.content?_eq id id).symm.trans (hclear.content? q hq)⟩

/-! ## Directories that are made -/

/-- A sound workspace with no directories but those of another and some of a kind. -/
structure Founds (D : List String → Prop) (w w' : Workspace) : Prop where
  isSound : w'.IsSound
  isDirectory : ∀ q, w'.files.isDirectory q = true → w.files.isDirectory q = true ∨ D q

section Founds

variable {D D' : List String → Prop} {w₁ w₂ : Workspace}

theorem Founds.refl (hw : w.IsSound) : Founds D w w := ⟨hw, fun _ ↦ .inl⟩

theorem Founds.trans (h₁ : Founds D w w₁) (h₂ : Founds D w₁ w₂) : Founds D w w₂ :=
  ⟨h₂.isSound, fun q hq ↦ (h₂.isDirectory q hq).elim (h₁.isDirectory q) .inr⟩

theorem Founds.mono (h : Founds D w w₁) (hD : ∀ q, D q → D' q) : Founds D' w w₁ :=
  ⟨h.isSound, fun q hq ↦ (h.isDirectory q hq).imp_right (hD q)⟩

theorem Founds.of_alike (hw : w.IsSound) (h : Alike w w₁) : Founds D w w₁ :=
  ⟨h.isSound hw, fun q hq ↦ .inl (by rwa [h.files_eq] at hq)⟩

/-- A file that is put where no directory is makes none. -/
theorem Founds.of_put (hw : w.IsSound) (h : CanPlace w p) (c : Content) :
    Founds D w { w with files := w.files.put p.parts (.file c) } := by
  refine ⟨(h.evolves_put hw c).isSound, fun q hq ↦ .inl ?_⟩
  rw [Tree.isDirectory_iff, Tree.get?_put h.ne_nil] at hq
  split at hq
  · cases hq
  · exact Tree.isDirectory_iff.mpr hq

theorem Founds.of_remove (hw : w.IsSound) {q : List String} (hc : w.files.content? q = some c) :
    Founds D w { w with files := w.files.remove q } := by
  refine ⟨(evolves_remove hw hc).isSound, fun r hr ↦ .inl ?_⟩
  rw [Tree.isDirectory_iff, hw.files.get?_remove hc] at hr
  split at hr
  · cases hr
  · exact Tree.isDirectory_iff.mpr hr

variable {α β : Type} {t : Job α}

/-- A job that makes directories of one kind only. -/
def Founding (D : List String → Prop) (t : Job α) : Prop :=
  ∀ w, w.IsSound → Founds D w (t.run w).2

theorem Founding.founds (h : Founding D t) (hw : w.IsSound) {r : Except Fault α}
    (hrun : t.run w = (r, w₁)) : Founds D w w₁ := by
  have hfounds := h w hw
  rw [hrun] at hfounds
  exact hfounds

theorem Reports.founding (h : Reports t) : Founding D t := fun w hw ↦ .of_alike hw (h w)

theorem Looks.founding (h : Looks t) : Founding D t := h.reports.founding

theorem Founding.attempt (h : Founding D t) : Founding D (attempt t) := fun w hw ↦ h w hw

theorem Founding.bind {f : α → Job β} (ht : Founding D t) (hf : ∀ a, Founding D (f a)) :
    Founding D (t >>= f) := by
  intro w hw
  rw [run_bind]
  split
  · rename_i a w₁ hrun
    have h := ht.founds hw hrun
    exact h.trans (hf a w₁ h.isSound)
  · rename_i e w₁ hrun
    exact ht.founds hw hrun

theorem founding_pure (a : α) : Founding D (pure a) := (looks_pure a).founding

theorem founding_throw (f : Fault) : Founding D (throw f : Job α) := (looks_throw f).founding

theorem founding_ofExcept {ε : Type} (f : ε → Fault) (r : Except ε α) :
    Founding D (ofExcept f r) := (looks_ofExcept f r).founding

theorem founding_mapM {f : α → Job β} {as : List α} (h : ∀ a ∈ as, Founding D (f a)) :
    Founding D (as.mapM f) := by
  induction as with
  | nil =>
    rw [List.mapM_nil]
    exact founding_pure _
  | cons a as ih =>
    rw [List.mapM_cons]
    obtain ⟨ha, has⟩ := List.forall_mem_cons.mp h
    exact ha.bind fun b ↦ (ih has).bind fun bs ↦ founding_pure _

theorem founding_forM {f : α → Job PUnit} {as : List α} (h : ∀ a ∈ as, Founding D (f a)) :
    Founding D (as.forM f) := by
  induction as with
  | nil => exact founding_pure _
  | cons a as ih =>
    obtain ⟨ha, has⟩ := List.forall_mem_cons.mp h
    exact ha.bind fun _ ↦ ih has

theorem founding_makeDirectory (hp : p.IsResolved) (hD : D p.parts) :
    Founding D (makeDirectory p) := by
  intro w hw
  refine ⟨(within_makeDirectory hp w hw).isSound, fun r hr ↦ ?_⟩
  rw [run_makeDirectory] at hr
  split at hr
  · exact .inl hr
  · rename_i hnul
    split at hr
    · exact .inl hr
    · rename_i place hlocate
      obtain ⟨rfl, -, -⟩ :=
        isEntryName_of_locate hw hp ((Bool.not_eq_true _).mp hnul) hlocate
      split at hr
      · exact .inl hr
      · rename_i hnone
        by_cases hplace : r = p.parts
        · exact .inr (hplace ▸ hD)
        · have hne : p.parts ≠ [] := by
            intro hnil
            rw [hnil] at hnone
            cases hnone
          rw [Tree.isDirectory_iff, Tree.get?_put hne, if_neg hplace, ← Tree.isDirectory_iff] at hr
          exact .inl hr

theorem founding_ensureDirectory (hp : p.IsResolved) (hD : D p.parts) :
    Founding D (ensureDirectory p) := by
  refine (founding_makeDirectory hp hD).attempt.bind fun r ↦ ?_
  split
  · exact founding_pure _
  · split
    · exact founding_throw _
    · refine (looks_isDirectory p).founding.bind fun b ↦ ?_
      split
      · exact founding_pure _
      · exact founding_throw _
  · exact founding_throw _

theorem founding_ensureDirectoriesTo (n : Nat) (hp : p.IsResolved)
    (hD : ∀ q, q <+: p.parts → D q) : Founding D (ensureDirectoriesTo n p) := by
  induction n generalizing p with
  | zero => exact founding_ensureDirectory hp (hD _ (List.prefix_refl _))
  | succ n ih =>
    have hlast := founding_ensureDirectory hp (hD _ (List.prefix_refl _))
    refine hlast.attempt.bind fun r ↦ ?_
    split
    · exact founding_pure _
    · split
      · have hparent : ∀ q, q <+: p.parent.parts → D q :=
          fun q hq ↦ hD q (hq.trans (List.dropLast_prefix _))
        exact (ih hp.parent hparent).bind fun _ ↦ hlast
      · exact founding_throw _
    · exact founding_throw _

/-- Making a directory makes no directories but those on the way to it. -/
theorem founding_ensureDirectories (hp : p.IsResolved) (hD : ∀ q, q <+: p.parts → D q) :
    Founding D (ensureDirectories p) := founding_ensureDirectoriesTo _ hp hD

/-- Where something stands in a directory, that does not have to be made. -/
theorem eq_of_ensureDirectories (hw : w.IsSound) (hp : p.IsResolved) {r : Except Fault Unit}
    {n : String} (hrun : (ensureDirectories p).run w = (r, w₁))
    (hget : w₁.files.get? (p.parts ++ [n]) ≠ none) : w₁ = w := by
  have he := (within_ensureDirectories hp).evolves hw hrun
  have hfounds := (founding_ensureDirectories (D := (· <+: p.parts)) hp fun _ ↦ id).founds hw hrun
  have hbefore : ∃ e, w.files.get? (p.parts ++ [n]) = some e := by
    cases hafter : w₁.files.get? (p.parts ++ [n]) with
    | none => exact absurd hafter hget
    | some e =>
      cases e with
      | file d =>
        have hd := Tree.content?_eq_some_iff.mpr hafter
        rw [he.content?_eq id id] at hd
        exact ⟨_, Tree.content?_eq_some_iff.mp hd⟩
      | directory =>
        rcases hfounds.isDirectory _ (Tree.isDirectory_iff.mpr hafter) with hdir | hprefix
        · exact ⟨_, Tree.isDirectory_iff.mp hdir⟩
        · have hle := hprefix.length_le
          rw [List.length_append, List.length_singleton] at hle
          omega
  obtain ⟨e, hbefore⟩ := hbefore
  have hdir := hw.files.isDirectory_dropLast hbefore
  rw [List.dropLast_concat] at hdir
  rw [run_ensureDirectories_of_isDirectory hw hp hdir] at hrun
  cases hrun
  rfl

theorem founding_overwrite (hp : p.IsResolved) (c : Content) : Founding D (overwrite p c) := by
  intro w hw
  rcases run_overwrite_cases hw hp c with ⟨f, hrun, -⟩ | ⟨hrun, hcan⟩
  · rw [hrun]
    exact .refl hw
  · rw [hrun]
    exact .of_put hw hcan c

theorem founding_writeFile (hp : p.IsResolved) (hD : ∀ q, q <+: p.parts.dropLast → D q)
    (c : Content) : Founding D (writeFile p c) := by
  intro w hw
  rw [run_writeFile]
  have hparent := founding_ensureDirectories (D := D) hp.parent hD
  split
  · rename_i f w₁ hensure
    exact hparent.founds hw hensure
  · rename_i w₁ hensure
    have h := hparent.founds hw hensure
    split
    · exact h
    · exact h.trans (founding_overwrite hp c w₁ h.isSound)

theorem founding_unlinkIfPresent (hp : p.IsResolved) : Founding D (unlinkIfPresent p) := by
  have hunlink : Founding D (unlink p) := by
    intro w hw
    rcases run_unlink_cases hw hp with ⟨f, hrun⟩ | ⟨c, hc, hrun⟩
    · rw [hrun]
      exact .refl hw
    · rw [hrun]
      exact .of_remove hw hc
  refine hunlink.attempt.bind fun r ↦ ?_
  split
  · exact founding_pure _
  · split
    · exact founding_pure _
    · exact founding_throw _
  · exact founding_throw _

/-- Moving a file makes no directories. -/
theorem founds_move {q : Path} (hw : w.IsSound) (hp : p.IsResolved) (hq : q.IsResolved)
    (hc : w.files.content? p.parts = some c) : Founds D w ((move p q).run w).2 := by
  refine ⟨(evolves_move hw hp hq hc).isSound, fun r hr ↦ .inl ?_⟩
  have hstat : (stat p).run w = (.ok (p.parts, .file c), w) :=
    (run_stat_eq_ok_iff hw hp).mpr ⟨rfl, rfl, Tree.content?_eq_some_iff.mp hc⟩
  rw [move, run_bind_of_ok hstat] at hr
  dsimp only at hr
  rw [run_bind, run_get] at hr
  dsimp only at hr
  split at hr
  · rw [run_bind, run_throw] at hr
    exact hr
  · split at hr
    · exact hr
    · rename_i place hlocate
      split at hr
      · exact hr
      · rename_i hdir
        have hne : place ≠ [] := by
          rintro rfl
          exact hdir rfl
        have hr : ((w.files.remove p.parts).put place (.file c)).isDirectory r = true := hr
        rw [Tree.isDirectory_iff, Tree.get?_put hne] at hr
        split at hr
        · cases hr
        · exact (Founds.of_remove (D := Nowhere) hw hc).isDirectory r
            (Tree.isDirectory_iff.mpr hr) |>.resolve_right id

end Founds

end ResponsiveImage.Job
