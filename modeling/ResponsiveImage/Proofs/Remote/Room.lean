import ResponsiveImage.Proofs.Job.Beside
import ResponsiveImage.Proofs.Remote.Interleaved

/-!
# Room for a download

A download makes no directories but its folder and those on the way there.  An image of a URL is kept
wherever there is room for it (`CanKeep`): then what is unfinished can be removed, and a body that does
not break off is written beside its place and moved there.
-/

namespace ResponsiveImage

open Workspace (Evolves)
open Job

namespace Download

variable {folder p q : Path} {w w' : Workspace} {url extension : String} {D : List String → Prop}

/-! ## Directories -/

theorem founding_clearPartials (hfolder : folder.IsResolved) (key : String) :
    Founding D (clearPartials folder key) := by
  intro w hw
  rw [clearPartials, run_bind]
  split
  · rename_i ns w₁ hns
    obtain rfl := (looks_namesIn folder).eq hns
    obtain ⟨hnames, -⟩ := run_namesIn_eq_ok hw hfolder hns
    refine founding_forM (fun n hn ↦ ?_) w₁ hw
    have hname := hnames n (List.mem_filter.mp hn).1
    rw [Path.join_ofString_of_isName _ hname]
    exact founding_unlinkIfPresent (hfolder.child hname)
  · rename_i f w₁ hns
    rw [(looks_namesIn folder).eq hns]
    exact .refl hw

theorem founding_complete {unfinished target : Path} (hunfinished : unfinished.IsResolved)
    (htarget : target.IsResolved) (head : Content) (rest : List Content) (breaks : Bool) :
    Founding D (complete url unfinished target head rest breaks) := by
  have hmove : Founding D (do
      overwrite unfinished (rest.foldl .append head)
      move unfinished target) := by
    intro w hw
    rw [run_bind]
    split
    · rename_i u w₁ hrun
      have h := (founding_overwrite (D := D) hunfinished _).founds hw hrun
      have hc := content?_of_overwrite hw hunfinished hrun
      exact h.trans (founds_move h.isSound hunfinished htarget hc)
    · rename_i f w₁ hrun
      exact (founding_overwrite hunfinished _).founds hw hrun
  rw [complete]
  refine (founding_overwrite hunfinished head).bind fun _ ↦ ?_
  dsimp only
  split
  · exact (founding_throw _).bind fun _ ↦ hmove
  · exact hmove

theorem founding_keep {unfinished target : Path} (hunfinished : unfinished.IsResolved)
    (htarget : target.IsResolved) (head : Content) (rest : List Content) (breaks : Bool) :
    Founding D (keep url unfinished target head rest breaks) := by
  refine (founding_complete hunfinished htarget head rest breaks).attempt.bind fun r ↦ ?_
  split
  · exact founding_pure _
  · exact (founding_unlinkIfPresent hunfinished).bind fun _ ↦ founding_throw _
  · exact (founding_unlinkIfPresent hunfinished).bind fun _ ↦ founding_throw _
  · exact founding_throw _

theorem founding_receive (hfolder : folder.IsResolved) (hD : ∀ q, q <+: folder.parts → D q)
    (r : Response) : Founding D (receive url r folder (key url)) := by
  rw [receive]
  dsimp only
  split
  · exact founding_throw _
  · rename_i head rest hhead
    split
    · exact (reports_log _ _ _).founding.bind fun _ ↦ founding_pure _
    · rename_i extension hextension
      have hname := isName_download url (slash_not_mem_extension hextension)
      have hname' := isName_unfinished url (slash_not_mem_extension hextension)
      rw [Path.join_ofString_of_isName _ hname, Path.join_ofString_of_isName _ hname']
      exact (founding_ensureDirectories hfolder hD).bind fun _ ↦
        (founding_clearPartials hfolder _).bind fun _ ↦
        (founding_keep (hfolder.child hname') (hfolder.child hname) head rest _).bind fun _ ↦
        founding_pure _

theorem founding_download (hfolder : folder.IsResolved) (hD : ∀ q, q <+: folder.parts → D q)
    (url : String) (timeout : Json.Value) : Founding D (download url folder timeout) := by
  have hrespond : Reports (respond url timeout) := by
    refine (reports_request _).bind fun _ ↦ looks_get.reports.bind fun w ↦ ?_
    split
    · exact reports_throw _
    · dsimp only
      split
      · exact reports_throw _
      · exact reports_pure _
  rw [download]
  refine (looks_cached? _ _).founding.bind fun r ↦ ?_
  split
  · exact founding_pure _
  · refine hrespond.founding.bind fun r ↦ (founding_receive hfolder hD r).attempt.bind
      fun outcome ↦ (reports_request _).founding.bind fun _ ↦
      (founding_ofExcept _ _).bind fun target? ↦ ?_
    split
    · exact founding_pure _
    · exact (reports_log _ _ _).founding.bind fun _ ↦ founding_pure _

/-! ## Room for a download -/

/-- The name under which an image of a URL is kept. -/
def keptName (url extension : String) : String := key url ++ "." ++ extension

/-- There is room for an image of a URL in a folder: no file is on the way there, and what has the name
of the image, or that of an unfinished download of the URL, is no directory. -/
structure CanKeep (w : Workspace) (folder : Path) (url extension : String) : Prop where
  clear : IsClear w folder
  isEntryName : IsEntryName (keptName url extension)
  isEntryName_unfinished : IsEntryName (keptName url extension ++ partialSuffix)
  free : w.files.isDirectory (folder.parts ++ [keptName url extension]) = false
  free_unfinished : ∀ n, isPartialOf (key url) n = true →
    w.files.isDirectory (folder.parts ++ [n]) = false

theorem hasKey_keptName (url extension : String) :
    hasKey (key url) (keptName url extension) = true := hasKey_append _ _

theorem isPartialOf_unfinished (url extension : String) :
    isPartialOf (key url) (keptName url extension ++ partialSuffix) = true := by
  rw [show keptName url extension ++ partialSuffix =
    key url ++ "." ++ (extension ++ partialSuffix) from String.append_assoc, isPartialOf_append]
  exact isPartial_append extension

/-! ## Unfinished downloads -/

theorem not_isDirectory_of_forM_unlinkIfPresent (hfolder : folder.IsResolved) {ns : List String}
    (hns : ∀ n ∈ ns, IsName n) (hw : w.IsSound) {u : PUnit}
    (h : (ns.forM fun n ↦ unlinkIfPresent (folder / .ofString n)).run w = (.ok u, w')) :
    ∀ n ∈ ns, w.files.isDirectory (folder.parts ++ [n]) = false := by
  induction ns generalizing w with
  | nil => exact fun n hn ↦ nomatch hn
  | cons n ns ih =>
    obtain ⟨hn, hns⟩ := List.forall_mem_cons.mp hns
    obtain ⟨u, w₁, hunlink, h⟩ := run_bind_eq_ok.mp h
    have hunlink : (unlinkIfPresent (folder / .ofString n)).run w = (.ok u, w₁) := hunlink
    rw [Path.join_ofString_of_isName _ hn] at hunlink
    have hchild := hfolder.child hn
    have he := (within_unlinkIfPresent hchild).evolves hw hunlink
    refine List.forall_mem_cons.mpr
      ⟨not_isDirectory_of_unlinkIfPresent hw hchild hunlink, fun m hm ↦ ?_⟩
    have hafter := ih hns he.isSound h m hm
    rw [← Bool.not_eq_true] at hafter ⊢
    exact mt (he.isDirectory _) hafter

/-- Unfinished downloads that are removed are no directories. -/
theorem not_isDirectory_of_clearPartials (hw : w.IsSound) (hfolder : folder.IsResolved) {u : Unit}
    (h : (clearPartials folder (key url)).run w = (.ok u, w')) {n : String}
    (hn : isPartialOf (key url) n = true) : w.files.isDirectory (folder.parts ++ [n]) = false := by
  rw [clearPartials, run_bind_eq_ok] at h
  obtain ⟨ns, w₁, hnames, h⟩ := h
  obtain rfl := (looks_namesIn folder).eq hnames
  by_cases hlisted : n ∈ ns
  · exact not_isDirectory_of_forM_unlinkIfPresent hfolder (fun m hm ↦
      (run_namesIn_eq_ok hw hfolder hnames).1 m (List.mem_filter.mp hm).1) hw h n
      (List.mem_filter.mpr ⟨hlisted, hn⟩)
  · rw [← Bool.not_eq_true, Tree.isDirectory_iff]
    intro hget
    exact hlisted ((mem_namesIn_iff hw hfolder hnames).mpr (Option.ne_none_iff_exists'.mpr ⟨_, hget⟩))

theorem exists_run_forM_unlinkIfPresent (hfolder : folder.IsResolved) {ns : List String}
    (hns : ∀ n ∈ ns, IsEntryName n ∧ w.files.isDirectory (folder.parts ++ [n]) = false)
    (hw : w.IsSound) (hdir : w.files.isDirectory folder.parts = true) :
    ∃ w', (ns.forM fun n ↦ unlinkIfPresent (folder / .ofString n)).run w = (.ok ⟨⟩, w') := by
  induction ns generalizing w with
  | nil => exact ⟨w, rfl⟩
  | cons n ns ih =>
    obtain ⟨⟨hname, hfree⟩, hns⟩ := List.forall_mem_cons.mp hns
    have hchild := hfolder.child hname.toIsName
    obtain ⟨w₁, hunlink⟩ := run_unlinkIfPresent_of_not_isDirectory hw hchild
      (by simpa using hdir) (by simpa using hname) hfree
    have he := (within_unlinkIfPresent hchild).evolves hw hunlink
    have hfounds := (founding_unlinkIfPresent (D := fun _ ↦ False) hchild).founds hw hunlink
    have hrest : ∀ m ∈ ns, IsEntryName m ∧ w₁.files.isDirectory (folder.parts ++ [m]) = false := by
      intro m hm
      obtain ⟨hm, hfree⟩ := hns m hm
      refine ⟨hm, ?_⟩
      rw [← Bool.not_eq_true] at hfree ⊢
      exact fun htrue ↦ (hfounds.isDirectory _ htrue).elim hfree id
    obtain ⟨w', hrun⟩ := ih hrest he.isSound (he.isDirectory _ hdir)
    rw [← Path.join_ofString_of_isName _ hname.toIsName] at hunlink
    exact ⟨w', (run_bind_of_ok hunlink).trans hrun⟩

/-- Unfinished downloads that are no directories can be removed. -/
theorem exists_run_clearPartials (hw : w.IsSound) (hfolder : folder.IsResolved)
    (hclear : IsClear w folder) (hdir : w.files.isDirectory folder.parts = true)
    (hfree : ∀ n, isPartialOf (key url) n = true →
      w.files.isDirectory (folder.parts ++ [n]) = false) :
    ∃ w', (clearPartials folder (key url)).run w = (.ok (), w') := by
  obtain ⟨ns, hns⟩ := exists_run_namesIn hw hfolder hclear
  rw [clearPartials, run_bind_of_ok hns]
  refine exists_run_forM_unlinkIfPresent hfolder (fun n hn ↦ ?_) hw hdir
  obtain ⟨hlisted, hpartial⟩ := List.mem_filter.mp hn
  obtain ⟨e, he⟩ := Option.ne_none_iff_exists'.mp ((mem_namesIn_iff hw hfolder hns).mp hlisted)
  exact ⟨hw.files.isEntryName_of_get? he n (by simp), hfree n hpartial⟩

/-! ## Keeping a body -/

/-- A body that is moved into place was written where it could be placed before. -/
theorem canPlace_of_complete (hw : w.IsSound) (hp : p.IsResolved) (hq : q.IsResolved) {head : Content}
    {rest : List Content} {breaks : Bool}
    (h : (complete url p q head rest breaks).run w = (.ok (), w')) :
    breaks = false ∧ CanPlace w p ∧ (∀ n ∈ q.parts.getLast?, IsEntryName n) ∧
      w.files.isDirectory q.parts = false := by
  rw [complete, run_bind_eq_ok] at h
  obtain ⟨u, w₁, hhead, h⟩ := h
  have he₁ := (within_overwrite hp head).evolves hw hhead
  cases breaks with
  | true => cases h
  | false =>
    dsimp only at h
    rw [if_neg Bool.false_ne_true, run_bind_eq_ok] at h
    obtain ⟨u, w₂, hrest, hmove⟩ := h
    have he₂ := he₁.trans ((within_overwrite hp _).evolves he₁.isSound hrest)
    have hcan : CanPlace w p := by
      rcases run_overwrite_cases hw hp head with ⟨f, hfail, -⟩ | ⟨-, hcan⟩
      · rw [hfail] at hhead
        cases hhead
      · exact hcan
    rcases run_move_cases he₂.isSound hp hq (content?_of_overwrite he₁.isSound hp hrest) with
      ⟨f, hfail, -⟩ | ⟨-, hcan₂⟩
    · rw [hfail] at hmove
      cases hmove
    · refine ⟨rfl, hcan, hcan₂.isEntryName, ?_⟩
      have hfree := hcan₂.not_isDirectory
      rw [← Bool.not_eq_true] at hfree ⊢
      exact mt (he₂.isDirectory _) hfree

/-- What is kept has been completed. -/
theorem run_complete_of_keep {head : Content} {rest : List Content} {breaks : Bool}
    (h : (keep url p q head rest breaks).run w = (.ok (), w')) :
    (complete url p q head rest breaks).run w = (.ok (), w') := by
  rw [keep, run_bind_eq_ok] at h
  obtain ⟨outcome, w₁, hcomplete, h⟩ := h
  rw [run_attempt_eq_ok] at hcomplete
  rcases outcome with f | ⟨⟩
  · cases f with
    | fetch reason =>
      obtain ⟨_, _, -, h⟩ := run_bind_eq_ok.mp h
      cases h
    | file e =>
      obtain ⟨_, _, -, h⟩ := run_bind_eq_ok.mp h
      cases h
    | _ => cases h
  · cases h
    exact hcomplete

/-- A body for which there is room is kept. -/
theorem run_keep_of_canPlace (hw : w.IsSound) (hp : p.IsResolved) (hq : q.IsResolved)
    (hcan : CanPlace w p) (hcan' : CanPlace w q) (url : String) (head : Content)
    (rest : List Content) :
    ∃ w', (keep url p q head rest false).run w = (.ok (), w') ∧
      w'.files.content? q.parts = some (rest.foldl .append head) := by
  obtain ⟨w₁, hhead⟩ : ∃ w₁, (overwrite p head).run w = (.ok (), w₁) :=
    ⟨_, run_overwrite_of_canPlace hw hp hcan head⟩
  have he₁ := (within_overwrite hp head).evolves hw hhead
  obtain ⟨w₂, hrest⟩ : ∃ w₂, (overwrite p (rest.foldl .append head)).run w₁ = (.ok (), w₂) :=
    ⟨_, run_overwrite_of_content? he₁.isSound hp (content?_of_overwrite hw hp hhead) _⟩
  have he₂ := he₁.trans ((within_overwrite hp _).evolves he₁.isSound hrest)
  have hfounds := ((founding_overwrite (D := fun _ ↦ False) hp head).founds hw hhead).trans
    ((founding_overwrite hp _).founds he₁.isSound hrest)
  have hroom : CanPlace w₂ q := by
    refine ⟨hcan'.ne_nil, he₂.isDirectory _ hcan'.isDirectory_dropLast, hcan'.isEntryName, ?_⟩
    have hfree := hcan'.not_isDirectory
    rw [← Bool.not_eq_true] at hfree ⊢
    exact fun htrue ↦ (hfounds.isDirectory _ htrue).elim hfree id
  obtain ⟨w₃, hmove, hkept⟩ : ∃ w₃, (move p q).run w₂ = (.ok (), w₃) ∧
      w₃.files.content? q.parts = some (rest.foldl .append head) :=
    ⟨_, run_move_of_canPlace he₂.isSound hp hq (content?_of_overwrite he₁.isSound hp hrest) hroom,
      Tree.content?_put_self hcan'.ne_nil _⟩
  have hcomplete : (complete url p q head rest false).run w = (.ok (), w₃) := by
    rw [complete, run_bind_of_ok hhead]
    dsimp only
    rw [if_neg Bool.false_ne_true, run_bind_of_ok hrest]
    exact hmove
  refine ⟨w₃, ?_, hkept⟩
  rw [keep, run_bind_of_ok (run_attempt_eq_ok.mpr hcomplete)]
  rfl

end Download

end ResponsiveImage
