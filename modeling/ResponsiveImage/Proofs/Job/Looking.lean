import ResponsiveImage.Proofs.Files.Tree
import ResponsiveImage.Proofs.Job.Run

/-!
# Jobs that only look

Jobs that look at files leave the workspace as it is.  In a sound workspace what they find at a
resolved path is what stands at the place that its names spell.
-/

namespace ResponsiveImage

/-- A workspace with a sound tree, in a working directory with a proper path. -/
structure Workspace.IsSound (w : Workspace) : Prop where
  files : w.files.IsSound
  isName : ∀ n ∈ w.cwd, IsName n

namespace Job

variable {α β : Type} {t : Job α} {p : Path} {w w' : Workspace}

/-! ## Leaving the workspace as it is -/

/-- A job that leaves every workspace as it is. -/
def Looks (t : Job α) : Prop := ∀ w, (t.run w).2 = w

theorem Looks.eq (h : Looks t) {r : Except Fault α} (hrun : t.run w = (r, w')) : w' = w := by
  have hw := h w
  rw [hrun] at hw
  exact hw

theorem looks_pure (a : α) : Looks (pure a) := fun _ ↦ rfl

theorem looks_throw (f : Fault) : Looks (throw f : Job α) := fun _ ↦ rfl

theorem looks_get : Looks (get : Job Workspace) := fun _ ↦ rfl

theorem looks_ofExcept {ε : Type} (f : ε → Fault) (r : Except ε α) : Looks (ofExcept f r) := by
  intro w
  cases r <;> rfl

theorem Looks.attempt (h : Looks t) : Looks (attempt t) := fun w ↦ h w

theorem Looks.bind {f : α → Job β} (ht : Looks t) (hf : ∀ a, Looks (f a)) : Looks (t >>= f) := by
  intro w
  rw [run_bind]
  have hw := ht w
  split
  · rename_i a w₁ hrun
    rw [hrun] at hw
    rw [hf a w₁]
    exact hw
  · rename_i e w₁ hrun
    rw [hrun] at hw
    exact hw

theorem Looks.map (g : α → β) (h : Looks t) : Looks (g <$> t) := by
  intro w
  rw [run_map]
  exact h w

/-- What only looks keeps every invariant. -/
theorem Looks.ensures {P : Workspace → Prop} (h : Looks t) : Ensures P t fun _ ↦ True := by
  intro w hw
  rw [h w]
  exact ⟨hw, fun _ _ ↦ trivial⟩

theorem looks_resolve (p : Path) : Looks (resolve p) := by
  have hrest : Looks (do return p.resolve (← get).cwd : Job Path) := looks_get.bind fun _ ↦ looks_pure _
  rw [resolve]
  split
  · exact (looks_throw _).bind fun _ ↦ hrest
  · exact hrest

theorem looks_find? (p : Path) : Looks (find? p) := by
  rw [find?]
  refine looks_get.bind fun w ↦ ?_
  split
  · exact looks_pure _
  · split
    · exact looks_pure _
    · exact looks_throw _
    · exact looks_pure _

theorem looks_standing? (p : Path) : Looks (standing? p) := (looks_find? p).map _

theorem looks_place? (p : Path) : Looks (place? p) := (looks_find? p).map _

theorem looks_exists? (p : Path) : Looks (exists? p) := (looks_standing? p).map _

theorem looks_isFile (p : Path) : Looks (isFile p) := by
  refine (looks_standing? p).bind fun e ↦ ?_
  split <;> exact looks_pure _

theorem looks_isDirectory (p : Path) : Looks (isDirectory p) := by
  refine (looks_standing? p).bind fun e ↦ ?_
  split <;> exact looks_pure _

theorem looks_stat (p : Path) : Looks (stat p) := by
  rw [stat]
  refine looks_get.bind fun w ↦ ?_
  dsimp only
  split
  · refine (looks_throw _).bind fun _ ↦ ?_
    split
    · exact looks_pure _
    · exact looks_throw _
  · split
    · exact looks_pure _
    · exact looks_throw _

theorem looks_place (p : Path) : Looks (place p) := (looks_stat p).map _

theorem looks_fileSize (p : Path) : Looks (fileSize p) := by
  refine (looks_stat p).bind fun found ↦ ?_
  split <;> exact looks_pure _

theorem looks_readFile (p : Path) : Looks (readFile p) := by
  refine (looks_stat p).bind fun found ↦ ?_
  split
  · exact looks_pure _
  · exact looks_throw _

/-! ## What is found -/

theorem run_stat (p : Path) (w : Workspace) :
    (stat p).run w =
      if p.hasNul then (.error .embeddedNul, w)
      else
        match w.files.stat w.cwd p with
        | .ok found => (.ok found, w)
        | .error kind => (.error (.file ⟨kind, [p.toString]⟩), w) := by
  rw [stat, run_bind, run_get]
  dsimp only
  split
  · rw [run_bind, run_throw]
  · cases w.files.stat w.cwd p with
    | ok found => rfl
    | error kind => rfl

theorem run_find? (p : Path) (w : Workspace) :
    (find? p).run w =
      if p.hasNul then (.ok none, w)
      else
        match w.files.stat w.cwd p with
        | .ok found => (.ok (some found), w)
        | .error .nameTooLong => (.error (.file ⟨.nameTooLong, [p.toString]⟩), w)
        | .error _ => (.ok none, w) := by
  rw [find?, run_bind, run_get]
  dsimp only
  split
  · rw [run_pure]
  · cases w.files.stat w.cwd p with
    | ok found => rfl
    | error kind => cases kind <;> rfl

theorem stat_eq_of_run_stat {found : List String × Entry} (h : (stat p).run w = (.ok found, w')) :
    w.files.stat w.cwd p = .ok found := by
  rw [run_stat] at h
  split at h
  · cases h
  · split at h
    · rename_i hstat
      cases h
      exact hstat
    · cases h

theorem stat_eq_of_run_find? {found : List String × Entry}
    (h : (find? p).run w = (.ok (some found), w')) : w.files.stat w.cwd p = .ok found := by
  rw [run_find?] at h
  split at h
  · cases h
  · split at h
    · rename_i hstat
      cases h
      exact hstat
    · cases h
    · cases h

/-- The path of an entry holds no NUL. -/
theorem hasNul_eq_false (hw : w.IsSound) {e : Entry} (h : w.files.get? p.parts = some e) :
    p.hasNul = false := by
  rw [Path.hasNul, List.any_eq_false]
  intro n hn
  have hname := (hw.files.isEntryName_of_get? h n hn).no_nul
  simpa using hname

theorem run_stat_eq_ok_iff (hw : w.IsSound) (hp : p.IsResolved) {q : List String} {e : Entry} :
    (stat p).run w = (.ok (q, e), w') ↔ w' = w ∧ q = p.parts ∧ w.files.get? p.parts = some e := by
  constructor
  · intro h
    exact ⟨(looks_stat p).eq h, (hw.files.stat_eq_ok_iff hp w.cwd).mp (stat_eq_of_run_stat h)⟩
  · rintro ⟨rfl, rfl, h⟩
    have hstat := (hw.files.stat_eq_ok_iff hp w'.cwd).mpr ⟨rfl, h⟩
    rw [run_stat, hasNul_eq_false hw h, hstat]
    rfl

theorem run_find?_of_get? (hw : w.IsSound) (hp : p.IsResolved) {e : Entry}
    (h : w.files.get? p.parts = some e) : (find? p).run w = (.ok (some (p.parts, e)), w) := by
  have hstat := (hw.files.stat_eq_ok_iff hp w.cwd).mpr ⟨rfl, h⟩
  rw [run_find?, hasNul_eq_false hw h, hstat]
  rfl

theorem run_find?_eq_ok (hw : w.IsSound) (hp : p.IsResolved) {r : Option (List String × Entry)}
    (h : (find? p).run w = (.ok r, w')) :
    w' = w ∧ r = (w.files.get? p.parts).map fun e ↦ (p.parts, e) := by
  obtain rfl := (looks_find? p).eq h
  refine ⟨rfl, ?_⟩
  cases hget : w'.files.get? p.parts with
  | some e =>
    rw [run_find?_of_get? hw hp hget] at h
    cases h
    rfl
  | none =>
    cases r with
    | none => rfl
    | some found =>
      obtain ⟨-, hsome⟩ := (hw.files.stat_eq_ok_iff hp w'.cwd).mp (stat_eq_of_run_find? h)
      rw [hget] at hsome
      cases hsome

theorem run_place?_eq_ok (hw : w.IsSound) (hp : p.IsResolved) {r : Option (List String)}
    (h : (place? p).run w = (.ok r, w')) :
    w' = w ∧ r = (w.files.get? p.parts).map fun _ ↦ p.parts := by
  obtain ⟨found, w₁, hfound, h⟩ := run_bind_eq_ok.mp h
  obtain ⟨rfl, rfl⟩ := run_find?_eq_ok hw hp hfound
  cases h
  refine ⟨rfl, ?_⟩
  rw [Option.map_map]
  rfl

theorem run_place?_of_get? (hw : w.IsSound) (hp : p.IsResolved) {e : Entry}
    (h : w.files.get? p.parts = some e) : (place? p).run w = (.ok (some p.parts), w) :=
  run_bind_of_ok (run_find?_of_get? hw hp h)

theorem run_standing?_eq_ok (hw : w.IsSound) (hp : p.IsResolved) {r : Option Entry}
    (h : (standing? p).run w = (.ok r, w')) : w' = w ∧ r = w.files.get? p.parts := by
  obtain ⟨found, w₁, hfound, h⟩ := run_bind_eq_ok.mp h
  obtain ⟨rfl, rfl⟩ := run_find?_eq_ok hw hp hfound
  cases h
  refine ⟨rfl, ?_⟩
  rw [Option.map_map]
  exact Option.map_id'

theorem run_standing?_of_get? (hw : w.IsSound) (hp : p.IsResolved) {e : Entry}
    (h : w.files.get? p.parts = some e) : (standing? p).run w = (.ok (some e), w) :=
  run_bind_eq_ok.mpr ⟨_, _, run_find?_of_get? hw hp h, rfl⟩

theorem run_exists?_eq_ok (hw : w.IsSound) (hp : p.IsResolved) {b : Bool}
    (h : (exists? p).run w = (.ok b, w')) : w' = w ∧ b = (w.files.get? p.parts).isSome := by
  obtain ⟨e, w₁, he, h⟩ := run_bind_eq_ok.mp h
  obtain ⟨rfl, rfl⟩ := run_standing?_eq_ok hw hp he
  cases h
  exact ⟨rfl, rfl⟩

theorem run_exists?_of_get? (hw : w.IsSound) (hp : p.IsResolved) {e : Entry}
    (h : w.files.get? p.parts = some e) : (exists? p).run w = (.ok true, w) :=
  run_bind_eq_ok.mpr ⟨_, _, run_standing?_of_get? hw hp h, rfl⟩

theorem exists_stat_of_exists? (h : ((exists? p).run w).1 = .ok true) :
    ∃ q e, w.files.stat w.cwd p = .ok (q, e) := by
  have hrun : (exists? p).run w = (.ok true, ((exists? p).run w).2) := Prod.ext h rfl
  obtain ⟨e, w₁, hstanding, hrest⟩ := run_bind_eq_ok.mp hrun
  obtain ⟨found, w₂, hfind, hpure⟩ := run_bind_eq_ok.mp hstanding
  cases hpure
  cases found with
  | none => cases hrest
  | some found => exact ⟨found.1, found.2, stat_eq_of_run_find? hfind⟩

theorem run_isFile_eq_ok (hw : w.IsSound) (hp : p.IsResolved) {b : Bool}
    (h : (isFile p).run w = (.ok b, w')) : w' = w ∧ b = (w.files.content? p.parts).isSome := by
  obtain ⟨e, w₁, he, h⟩ := run_bind_eq_ok.mp h
  obtain ⟨rfl, rfl⟩ := run_standing?_eq_ok hw hp he
  rw [Tree.content?]
  cases hget : w₁.files.get? p.parts with
  | none =>
    rw [hget] at h
    cases h
    exact ⟨rfl, rfl⟩
  | some e =>
    rw [hget] at h
    cases e with
    | directory =>
      cases h
      exact ⟨rfl, rfl⟩
    | file c =>
      cases h
      exact ⟨rfl, rfl⟩

theorem run_isFile_of_content? (hw : w.IsSound) (hp : p.IsResolved) {c : Content}
    (h : w.files.content? p.parts = some c) : (isFile p).run w = (.ok true, w) :=
  run_bind_eq_ok.mpr ⟨_, _, run_standing?_of_get? hw hp (Tree.content?_eq_some_iff.mp h), rfl⟩

theorem run_isDirectory_of_isDirectory (hw : w.IsSound) (hp : p.IsResolved)
    (h : w.files.isDirectory p.parts = true) : (isDirectory p).run w = (.ok true, w) :=
  run_bind_eq_ok.mpr ⟨_, _, run_standing?_of_get? hw hp (Tree.isDirectory_iff.mp h), rfl⟩

theorem run_isDirectory_eq_true (hw : w.IsSound) (hp : p.IsResolved)
    (h : (isDirectory p).run w = (.ok true, w')) :
    w' = w ∧ w.files.isDirectory p.parts = true := by
  obtain ⟨e, w₁, he, h⟩ := run_bind_eq_ok.mp h
  obtain ⟨rfl, rfl⟩ := run_standing?_eq_ok hw hp he
  split at h
  · rename_i hdir
    cases h
    exact ⟨rfl, Tree.isDirectory_iff.mpr hdir⟩
  · cases h

theorem run_place_eq_ok_iff (hw : w.IsSound) (hp : p.IsResolved) {q : List String} :
    (place p).run w = (.ok q, w') ↔
      w' = w ∧ q = p.parts ∧ (w.files.get? p.parts).isSome = true := by
  constructor
  · intro h
    obtain ⟨⟨q', e⟩, w₁, hstat, h⟩ := run_bind_eq_ok.mp h
    obtain ⟨rfl, rfl, he⟩ := (run_stat_eq_ok_iff hw hp).mp hstat
    cases h
    exact ⟨rfl, rfl, by rw [he]; rfl⟩
  · rintro ⟨rfl, rfl, h⟩
    obtain ⟨e, he⟩ := Option.isSome_iff_exists.mp h
    exact run_bind_eq_ok.mpr ⟨_, _, (run_stat_eq_ok_iff hw hp).mpr ⟨rfl, rfl, he⟩, rfl⟩

theorem run_readFile_eq_ok_iff (hw : w.IsSound) (hp : p.IsResolved) {c : Content} :
    (readFile p).run w = (.ok c, w') ↔ w' = w ∧ w.files.content? p.parts = some c := by
  rw [readFile]
  constructor
  · intro h
    obtain ⟨⟨q, e⟩, w₁, hstat, h⟩ := run_bind_eq_ok.mp h
    obtain ⟨rfl, rfl, he⟩ := (run_stat_eq_ok_iff hw hp).mp hstat
    cases e with
    | directory => cases h
    | file d =>
      cases h
      exact ⟨rfl, Tree.content?_eq_some_iff.mpr he⟩
  · rintro ⟨rfl, h⟩
    have he := Tree.content?_eq_some_iff.mp h
    exact run_bind_eq_ok.mpr ⟨_, _, (run_stat_eq_ok_iff hw hp).mpr ⟨rfl, rfl, he⟩, rfl⟩

theorem run_fileSize_of_content? (hw : w.IsSound) (hp : p.IsResolved) {c : Content}
    (h : w.files.content? p.parts = some c) : (fileSize p).run w = (.ok c.size, w) := by
  have he := Tree.content?_eq_some_iff.mp h
  exact run_bind_eq_ok.mpr ⟨_, _, (run_stat_eq_ok_iff hw hp).mpr ⟨rfl, rfl, he⟩, rfl⟩

end Job

end ResponsiveImage
