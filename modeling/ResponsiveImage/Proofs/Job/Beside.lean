import ResponsiveImage.Proofs.Job.Making

/-!
# Writing a file beside its place

A file is written at once by writing it under a name of its own beside its place, moving it there,
and removing it if that fails.  Done step by step this leaves what writing the file leaves
(`run_writeBeside`): of the file with the other name nothing remains, whether the writing comes out or
fails.
-/

namespace ResponsiveImage

/-! ## Putting an entry in and taking it out -/

theorem Json.setMember_setMember {κ α : Type} [DecidableEq κ] (k : κ) (u v : α) (ms : List (κ × α)) :
    setMember k v (setMember k u ms) = setMember k v ms := by
  induction ms with
  | nil => simp [setMember]
  | cons m ms ih =>
    obtain ⟨j, x⟩ := m
    by_cases hj : j = k
    · simp [setMember, hj]
    · simp [setMember, hj, ih]

namespace Tree

variable {t : Tree} {q : List String} {c : Content}

theorem put_put (t : Tree) (q : List String) (e e' : Entry) : (t.put q e).put q e' = t.put q e' :=
  congrArg Tree.mk (Json.setMember_setMember q e e' t.entries)

/-- Where nothing stands, nothing stands below either. -/
theorem IsSound.not_prefix_of_none (ht : t.IsSound) (h : t.get? q = none) :
    ∀ m ∈ t.entries, ¬ q <+: m.1 := by
  have hq : q ≠ [] := by
    rintro rfl
    cases h
  have hlookup : t.entries.lookup q = none := by simpa [get?, hq] using h
  rintro ⟨place, e⟩ hm ⟨rest, rfl⟩
  by_cases hrest : rest = []
  · subst hrest
    simpa using List.lookup_eq_none_iff.mp hlookup _ hm
  · have hparent := ht.parent _ hm
    rw [List.dropLast_append_of_ne_nil hrest] at hparent
    have hdir := ht.isDirectory_of_isPrefix hparent (List.prefix_append _ _)
    rw [isDirectory_iff, h] at hdir
    cases hdir

theorem remove_put_of_none (ht : t.IsSound) (h : t.get? q = none) (e : Entry) :
    (t.put q e).remove q = t := by
  have hfilter : ∀ ms : List (List String × Entry), (∀ m ∈ ms, ¬ q <+: m.1) →
      (Json.setMember q e ms).filter (fun m ↦ !q.isPrefixOf m.1) = ms := by
    intro ms hms
    induction ms with
    | nil => simp [Json.setMember]
    | cons m ms ih =>
      obtain ⟨hm, hrest⟩ := List.forall_mem_cons.mp hms
      obtain ⟨j, x⟩ := m
      have hj : j ≠ q := by
        rintro rfl
        exact hm (List.prefix_refl _)
      have hkeep : q.isPrefixOf j = false := by
        rw [← Bool.not_eq_true, List.isPrefixOf_iff_prefix]
        exact hm
      simp [Json.setMember, hj, hkeep, ih hrest]
  exact congrArg Tree.mk (hfilter t.entries (ht.not_prefix_of_none h))

theorem isDirectory_put_file (h : t.isDirectory q = false) (hq : q ≠ []) (c : Content)
    (r : List String) : (t.put q (.file c)).isDirectory r = t.isDirectory r := by
  rw [Bool.eq_iff_iff, isDirectory_iff, isDirectory_iff, get?_put hq]
  by_cases hr : r = q
  · rw [if_pos hr, hr, ← isDirectory_iff, h]
    simp
  · rw [if_neg hr]

end Tree

namespace Job

open Workspace (Evolves)

variable {p q : Path} {w w₁ : Workspace} {c : Content} {suffix : String}

theorem CanPlace.hasNul_eq_false (h : CanPlace w p) (hw : w.IsSound) : p.hasNul = false := by
  have hdirectory := Tree.isDirectory_iff.mp h.isDirectory_dropLast
  rw [Path.hasNul, List.any_eq_false]
  intro n hn
  rw [← List.dropLast_concat_getLast h.ne_nil] at hn
  rcases List.mem_append.mp hn with hn | hn
  · simpa using (hw.files.isEntryName_of_get? hdirectory n hn).no_nul
  · have hlast := h.isEntryName n
      (List.mem_singleton.mp hn ▸ List.getLast?_eq_some_getLast h.ne_nil)
    simpa using hlast.no_nul

/-- A file is written over or put where a file can be placed. -/
theorem run_overwrite_of_canPlace (hw : w.IsSound) (hp : p.IsResolved) (h : CanPlace w p)
    (c : Content) :
    (overwrite p c).run w = (.ok (), { w with files := w.files.put p.parts (.file c) }) := by
  rcases run_overwrite_cases hw hp c with ⟨f, -, hnot⟩ | ⟨hrun, -⟩
  · exact absurd h hnot
  · exact hrun

theorem run_overwrite_of_not_canPlace (hw : w.IsSound) (hp : p.IsResolved) (h : ¬ CanPlace w p)
    (c : Content) : ∃ f, (overwrite p c).run w = (.error f, w) := by
  rcases run_overwrite_cases hw hp c with ⟨f, hrun, -⟩ | ⟨-, hcan⟩
  · exact ⟨f, hrun⟩
  · exact absurd hcan h

/-- A file can be moved where a file can be placed. -/
theorem run_move_of_canPlace (hw : w.IsSound) (hp : p.IsResolved) (hq : q.IsResolved)
    (hc : w.files.content? p.parts = some c) (h : CanPlace w q) :
    (move p q).run w =
      (.ok (), { w with files := (w.files.remove p.parts).put q.parts (.file c) }) := by
  have hstat : (stat p).run w = (.ok (p.parts, .file c), w) :=
    (run_stat_eq_ok_iff hw hp).mpr ⟨rfl, rfl, Tree.content?_eq_some_iff.mp hc⟩
  have hlocate : w.files.locate w.cwd q = .ok q.parts :=
    (hw.files.locate_eq_ok_iff hq w.cwd).mpr ⟨rfl, h.isDirectory_dropLast, fun n hn ↦
      (h.isEntryName n hn).short⟩
  rw [move, run_bind_of_ok hstat]
  dsimp only
  rw [run_bind, run_get]
  dsimp only
  rw [if_neg (by simp [h.hasNul_eq_false hw]), hlocate]
  dsimp only
  rw [if_neg (by simp [h.not_isDirectory])]
  rfl

/-! ## A name of its own -/

/-- What is put behind the name of a file while it is written: eight bytes that a name can have. -/
structure IsSuffix (suffix : String) : Prop where
  size : suffix.utf8ByteSize = 8
  no_slash : '/' ∉ suffix.toList
  no_nul : '\x00' ∉ suffix.toList

/-- The path beside a file at which the file is written first. -/
def beside (p : Path) (suffix : String) : Path :=
  p.parent.child ("." ++ p.name ++ "." ++ suffix)

/-- Writes a file step by step: a new file beside its place is filled and moved there, and removed if
that fails. -/
def writeBeside (suffix : String) (p : Path) (c : Content) : Job Unit := do
  ensureDirectories p.parent
  overwrite (beside p suffix) (.bytes [])
  match ← attempt (do overwrite (beside p suffix) c; move (beside p suffix) p) with
  | .ok () => return
  | .error f =>
    unlinkIfPresent (beside p suffix)
    throw f

theorem parts_beside (p : Path) (suffix : String) :
    (beside p suffix).parts = p.parts.dropLast ++ ["." ++ p.name ++ "." ++ suffix] := rfl

theorem parts_beside_ne_nil (p : Path) (suffix : String) : (beside p suffix).parts ≠ [] := by
  simp [parts_beside]

theorem utf8ByteSize_beside (hsuffix : IsSuffix suffix) (p : Path) :
    ("." ++ p.name ++ "." ++ suffix).utf8ByteSize = p.name.utf8ByteSize + temporaryExtra := by
  simp only [String.utf8ByteSize_append, hsuffix.size, temporaryExtra]
  have : ".".utf8ByteSize = 1 := by decide
  omega

theorem isName_beside (hsuffix : IsSuffix suffix) (hp : p.IsResolved) (hne : p.parts ≠ []) :
    IsName ("." ++ p.name ++ "." ++ suffix) := by
  have hsize := utf8ByteSize_beside hsuffix p
  have hextra : temporaryExtra = 10 := rfl
  have hname := (hp.isName_name hne).no_slash
  refine ⟨?_, ?_, ?_, ?_⟩
  · intro h
    have : "".utf8ByteSize = 0 := by decide
    rw [h] at hsize
    omega
  · intro h
    have : ".".utf8ByteSize = 1 := by decide
    rw [h] at hsize
    omega
  · intro h
    have : "..".utf8ByteSize = 2 := by decide
    rw [h] at hsize
    omega
  · simp [String.toList_append, hname, hsuffix.no_slash]

theorem isResolved_beside (hsuffix : IsSuffix suffix) (hp : p.IsResolved) (hne : p.parts ≠ []) :
    (beside p suffix).IsResolved := hp.parent.child (isName_beside hsuffix hp hne)

/-- A file can be placed beside a path exactly if a file can be written in its directory, its name
gets no longer than a name may be, and nothing is there yet. -/
theorem canPlace_beside (hsuffix : IsSuffix suffix) (hp : p.IsResolved) (h : IsWritable p)
    (hparent : w.files.isDirectory p.parts.dropLast = true)
    (hfree : w.files.get? (beside p suffix).parts = none) : CanPlace w (beside p suffix) := by
  have hlast : p.parts.getLast? = some p.name := by
    rw [← Path.child_name h.ne_nil]
    simp [Path.name]
  refine ⟨parts_beside_ne_nil p suffix, ?_, fun n hn ↦ ?_, ?_⟩
  · rwa [parts_beside, List.dropLast_concat]
  · rw [parts_beside, List.getLast?_concat, Option.mem_some] at hn
    subst hn
    refine ⟨isName_beside hsuffix hp h.ne_nil, ?_, ?_⟩
    · have hname := (h.isEntryName p.name hlast).no_nul
      simp [String.toList_append, hname, hsuffix.no_nul]
    · rw [utf8ByteSize_beside hsuffix]
      exact h.short
  · rw [← Bool.not_eq_true, Tree.isDirectory_iff, hfree]
    intro h
    cases h

/-- Making directories on the way to a path leaves the place beside it free. -/
theorem free_beside_of_ensureDirectories (hw : w.IsSound) (hp : p.IsResolved)
    (hfree : w.files.get? (beside p suffix).parts = none) {r : Except Fault Unit}
    (h : (ensureDirectories p.parent).run w = (r, w₁)) :
    w₁.files.get? (beside p suffix).parts = none := by
  have he := (within_ensureDirectories hp.parent).evolves hw h
  have hfounds := (founding_ensureDirectories (D := fun q ↦ q <+: p.parent.parts) hp.parent
    fun _ ↦ id).founds hw h
  cases hget : w₁.files.get? (beside p suffix).parts with
  | none => rfl
  | some e =>
    cases e with
    | file d =>
      have hcontent := he.content?_eq (q := (beside p suffix).parts) id id
      rw [Tree.content?_eq_some_iff.mpr hget, Tree.content?, hfree] at hcontent
      cases hcontent
    | directory =>
      rcases hfounds.isDirectory _ (Tree.isDirectory_iff.mpr hget) with hdir | hprefix
      · rw [Tree.isDirectory_iff, hfree] at hdir
        cases hdir
      · have hlength := hprefix.length_le
        rw [parts_beside, Path.parts_parent, List.length_append, List.length_singleton] at hlength
        omega

/-- The workspace with a file beside a path. -/
def filled (w : Workspace) (p : Path) (suffix : String) (c : Content) : Workspace :=
  { w with files := w.files.put (beside p suffix).parts (.file c) }

section Filled

variable {d : Content}

theorem content?_filled (w : Workspace) (p : Path) (suffix : String) (c : Content) :
    (filled w p suffix c).files.content? (beside p suffix).parts = some c :=
  Tree.content?_put_self (parts_beside_ne_nil p suffix) c

theorem isSound_filled (hw : w.IsSound) (h : CanPlace w (beside p suffix)) (c : Content) :
    (filled w p suffix c).IsSound := (h.evolves_put hw c).isSound

theorem isDirectory_filled (h : CanPlace w (beside p suffix)) (c : Content) (r : List String) :
    (filled w p suffix c).files.isDirectory r = w.files.isDirectory r :=
  Tree.isDirectory_put_file h.not_isDirectory (parts_beside_ne_nil p suffix) c r

theorem remove_filled (hw : w.IsSound) (hfree : w.files.get? (beside p suffix).parts = none) :
    (filled w p suffix c).files.remove (beside p suffix).parts = w.files :=
  Tree.remove_put_of_none hw.files hfree _

theorem run_overwrite_filled (hw : w.IsSound) (hresolved : (beside p suffix).IsResolved)
    (h : CanPlace w (beside p suffix)) :
    (overwrite (beside p suffix) c).run (filled w p suffix d) = (.ok (), filled w p suffix c) := by
  rw [run_overwrite_of_content? (isSound_filled hw h d) hresolved (content?_filled w p suffix d) c]
  dsimp only [filled]
  rw [Tree.put_put]

theorem run_unlinkIfPresent_filled (hw : w.IsSound) (hresolved : (beside p suffix).IsResolved)
    (h : CanPlace w (beside p suffix)) (hfree : w.files.get? (beside p suffix).parts = none) :
    (unlinkIfPresent (beside p suffix)).run (filled w p suffix c) = (.ok (), w) := by
  rcases run_unlinkIfPresent_cases (isSound_filled hw h c) hresolved with
    ⟨hnone, -⟩ | ⟨d, -, hunlink⟩
  · rw [content?_filled] at hnone
    cases hnone
  · rw [hunlink, remove_filled hw hfree]
    rfl

/-- Filling a new file beside a path and moving it there puts the file in its place. -/
theorem run_fill_of_canPlace (hw : w.IsSound) (hresolved : (beside p suffix).IsResolved)
    (h : CanPlace w (beside p suffix)) (hfree : w.files.get? (beside p suffix).parts = none)
    (hp : p.IsResolved) (hcan : CanPlace w p) (c : Content) :
    (do overwrite (beside p suffix) c; move (beside p suffix) p : Job Unit).run
      (filled w p suffix d) = (.ok (), { w with files := w.files.put p.parts (.file c) }) := by
  have hcan' : CanPlace (filled w p suffix c) p :=
    ⟨hcan.ne_nil, (isDirectory_filled h c _).trans hcan.isDirectory_dropLast, hcan.isEntryName,
      (isDirectory_filled h c _).trans hcan.not_isDirectory⟩
  rw [run_bind_of_ok (run_overwrite_filled hw hresolved h),
    run_move_of_canPlace (isSound_filled hw h c) hresolved hp (content?_filled w p suffix c) hcan',
    remove_filled hw hfree]
  rfl

/-- A file that is filled beside a directory cannot be moved there. -/
theorem run_fill_of_isDirectory (hw : w.IsSound) (hresolved : (beside p suffix).IsResolved)
    (h : CanPlace w (beside p suffix)) (hp : p.IsResolved)
    (hdir : w.files.isDirectory p.parts = true) (c : Content) :
    ∃ f, (do overwrite (beside p suffix) c; move (beside p suffix) p : Job Unit).run
      (filled w p suffix d) = (.error f, filled w p suffix c) := by
  rw [run_bind_of_ok (run_overwrite_filled hw hresolved h)]
  rcases run_move_cases (isSound_filled hw h c) hresolved hp (content?_filled w p suffix c) with
    ⟨f, hrun, -⟩ | ⟨-, hcan⟩
  · exact ⟨f, hrun⟩
  · have hnot := (isDirectory_filled h c _).symm.trans hcan.not_isDirectory
    rw [hdir] at hnot
    cases hnot

end Filled

/-- What is placed beside a path has a name that leaves room for that of the path. -/
theorem isWritable_of_canPlace_beside (hsuffix : IsSuffix suffix) (hp : p.IsResolved)
    (hne : p.parts ≠ []) (h : CanPlace w (beside p suffix)) : IsWritable p := by
  have hlast := h.isEntryName ("." ++ p.name ++ "." ++ suffix) (by
    rw [parts_beside, List.getLast?_concat]
    rfl)
  have hshort := hlast.short
  rw [utf8ByteSize_beside hsuffix] at hshort
  refine ⟨hne, fun n hn ↦ ?_, hshort⟩
  rw [← Path.child_name hne, Path.parts_child, List.getLast?_concat, Option.mem_some] at hn
  subst hn
  have hnul := hlast.no_nul
  simp only [String.toList_append, List.mem_append, not_or] at hnul
  exact ⟨hp.isName_name hne, hnul.1.1.2, by omega⟩

/-- A file that can be written beside its path is moved there, or else gone at last. -/
theorem run_writeBeside_of_isWritable (hw : w.IsSound) (hsuffix : IsSuffix suffix)
    (hp : p.IsResolved) (h : IsWritable p) (hparent : w.files.isDirectory p.parts.dropLast = true)
    (hfree : w.files.get? (beside p suffix).parts = none) (c : Content) :
    (w.files.isDirectory p.parts = false ∧ (writeBeside suffix p c).run w =
      (.ok (), { w with files := w.files.put p.parts (.file c) })) ∨
    w.files.isDirectory p.parts = true ∧
      ∃ f, (writeBeside suffix p c).run w = (.error f, w) := by
  have hresolved := isResolved_beside hsuffix hp h.ne_nil
  have hbeside := canPlace_beside hsuffix hp h hparent hfree
  have hcreated := run_overwrite_of_canPlace hw hresolved hbeside (.bytes [])
  rw [writeBeside, run_bind_of_ok (run_ensureDirectories_of_isDirectory hw hp.parent hparent),
    run_bind_of_ok hcreated]
  cases hdir : w.files.isDirectory p.parts with
  | false =>
    have hfill := run_fill_of_canPlace (d := .bytes []) hw hresolved hbeside hfree hp
      ⟨h.ne_nil, hparent, h.isEntryName, hdir⟩ c
    exact .inl ⟨rfl, run_bind_of_ok (run_attempt_eq_ok.mpr hfill)⟩
  | true =>
    obtain ⟨f, hfill⟩ := run_fill_of_isDirectory (d := .bytes []) hw hresolved hbeside hp hdir c
    refine .inr ⟨rfl, f, (run_bind_of_ok (run_attempt_eq_ok.mpr hfill)).trans ?_⟩
    dsimp only
    rw [run_bind_of_ok (run_unlinkIfPresent_filled hw hresolved hbeside hfree)]
    rfl

/-- A file is not written if it cannot be placed, or if its name is too long for that. -/
theorem run_writeFile_of_not (hw : w.IsSound) (hp : p.IsResolved)
    (hparent : w.files.isDirectory p.parts.dropLast = true) (h : ¬ (IsWritable p ∧ CanPlace w p))
    (c : Content) : ∃ f, (writeFile p c).run w = (.error f, w) := by
  rw [run_writeFile, run_ensureDirectories_of_isDirectory hw hp.parent hparent]
  dsimp only
  split
  · exact ⟨_, rfl⟩
  · rename_i hlong
    refine run_overwrite_of_not_canPlace hw hp (fun hcan ↦ h ⟨?_, hcan⟩) c
    exact ⟨hcan.ne_nil, hcan.isEntryName,
      Nat.le_of_not_lt fun hlt ↦ hlong ⟨hcan.hasNul_eq_false hw, hlt⟩⟩

/-- A file that cannot be written beside its path is not written there either. -/
theorem run_writeBeside_of_not_isWritable (hw : w.IsSound) (hsuffix : IsSuffix suffix)
    (hp : p.IsResolved) (hne : p.parts ≠ []) (h : ¬ IsWritable p)
    (hparent : w.files.isDirectory p.parts.dropLast = true) (c : Content) :
    ∃ f, (writeBeside suffix p c).run w = (.error f, w) := by
  have hbeside : ¬ CanPlace w (beside p suffix) := fun hcan ↦
    h (isWritable_of_canPlace_beside hsuffix hp hne hcan)
  obtain ⟨f, hfail⟩ := run_overwrite_of_not_canPlace hw (isResolved_beside hsuffix hp hne) hbeside
    (.bytes [])
  rw [writeBeside, run_bind_of_ok (run_ensureDirectories_of_isDirectory hw hp.parent hparent)]
  exact ⟨f, run_bind_of_error hfail⟩

/-- Writing a file beside its place leaves what writing it at once leaves, and comes out exactly if
that does. -/
theorem run_writeBeside (hw : w.IsSound) (hsuffix : IsSuffix suffix) (hp : p.IsResolved)
    (hne : p.parts ≠ []) (hfree : w.files.get? (beside p suffix).parts = none) (c : Content) :
    ((writeBeside suffix p c).run w).2 = ((writeFile p c).run w).2 ∧
      ((writeBeside suffix p c).run w).1.toOption = ((writeFile p c).run w).1.toOption := by
  cases hensure : (ensureDirectories p.parent).run w with
  | mk r w₁ =>
    cases r with
    | error f =>
      rw [run_writeFile, writeBeside, run_bind_of_error hensure, hensure]
      exact ⟨rfl, rfl⟩
    | ok u =>
      have hw₁ := ((within_ensureDirectories hp.parent).evolves hw hensure).isSound
      have hparent := isDirectory_of_ensureDirectories hw hp.parent hensure
      have hfree₁ := free_beside_of_ensureDirectories hw hp hfree hensure
      -- once the directories are there, they are not made again
      have hagain := run_ensureDirectories_of_isDirectory hw₁ hp.parent hparent
      have hbeside : (writeBeside suffix p c).run w = (writeBeside suffix p c).run w₁ := by
        rw [writeBeside, run_bind_of_ok hensure, run_bind_of_ok hagain]
      have hfile : (writeFile p c).run w = (writeFile p c).run w₁ := by
        rw [run_writeFile, run_writeFile, hensure, hagain]
      rw [hbeside, hfile]
      by_cases h : IsWritable p
      · rcases run_writeBeside_of_isWritable hw₁ hsuffix hp h hparent hfree₁ c with
          ⟨hdir, hrun⟩ | ⟨hdir, f, hrun⟩
        · rw [hrun, run_writeFile_of_isWritable hw₁ hp h hparent hdir c]
          exact ⟨rfl, rfl⟩
        · have hnot : ¬ (IsWritable p ∧ CanPlace w₁ p) := fun hand ↦ by
            rw [hand.2.not_isDirectory] at hdir
            cases hdir
          obtain ⟨g, hfail⟩ := run_writeFile_of_not hw₁ hp hparent hnot c
          rw [hrun, hfail]
          exact ⟨rfl, rfl⟩
      · obtain ⟨f, hrun⟩ := run_writeBeside_of_not_isWritable hw₁ hsuffix hp hne h hparent c
        obtain ⟨g, hfail⟩ := run_writeFile_of_not hw₁ hp hparent (fun hand ↦ h hand.1) c
        rw [hrun, hfail]
        exact ⟨rfl, rfl⟩

end Job

end ResponsiveImage
