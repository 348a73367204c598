import ResponsiveImage.Proofs.Remote.Downloads

/-!
# How downloads end

A download of which there is no complete file ends in one of three ways.  The whole body is kept
under the key of its URL, and what was unfinished of it is gone; or it is no image and the files stay
as they are; or it fails, and files of the key are gone at most.  Files of other names stay in every
case.

The extension of a download is what its host says it is.  One that ends like the names of unfinished
downloads makes the complete file look unfinished, and only then is there an unfinished file left.
-/

namespace ResponsiveImage

open Workspace (Evolves Alike)

/-! ## Pieces put together -/

namespace Content

/-- The bytes of some pieces, one after another. -/
def concat (cs : List Content) : Content := bytes (cs.flatMap data)

theorem foldl_append (cs : List Content) (c : Content) :
    cs.foldl append c = bytes (c.data ++ cs.flatMap data) := by
  induction cs generalizing c with
  | nil => simp
  | cons d ds ih => rw [List.foldl_cons, ih, append, List.flatMap_cons, List.append_assoc]

end Content

namespace Download

open Job

variable {folder p q : Path} {w w₀ w₁ w₂ w' : Workspace} {url digest extension : String}

/-- No piece is lost and none is taken twice when the head of a body is told from the rest. -/
theorem Body.foldl_append_of_head? {b : Body} {head head' : Content} {chunks rest : List Content}
    (h : b.head? head chunks = some (head', rest)) :
    rest.foldl .append head' = chunks.foldl .append head := by
  induction chunks generalizing head with
  | nil =>
    rw [head?] at h
    split at h
    · cases h
    · cases h
      rfl
  | cons c cs ih =>
    rw [head?] at h
    split at h
    · cases h
      rfl
    · exact ih h

theorem ofResponse_of_not_breaks {r : Response} (h : (Body.ofResponse r).breaks = false) :
    r.failAfter = none ∧ (Body.ofResponse r).chunks = r.chunks := by
  unfold Body.ofResponse at h ⊢
  split at h
  · cases h
  · rename_i hnone
    exact ⟨hnone, rfl⟩

/-- A download looks unfinished if its extension does. -/
theorem isPartialOf_append (key extension : String) :
    isPartialOf key (key ++ "." ++ extension) = isPartial extension := by
  have hdrop : (key ++ "." ++ extension).toList.drop (key.length + 1) = extension.toList := by
    rw [String.toList_append, String.toList_append]
    exact List.drop_left' (by rw [List.length_append, String.length_toList]; rfl)
  rw [isPartialOf, hasKey_append, hdrop]
  rfl

/-! ## What is taken away -/

/-- The places in a folder whose names begin with a key. -/
def Keyed (folder : Path) (key : String) : List String → Prop := fun q ↦
  ∃ n, hasKey key n = true ∧ q = folder.parts ++ [n]

/-- One workspace comes from another by files of some places being taken away. -/
structure Sheds (places : List String → Prop) (w w' : Workspace) : Prop
    extends Evolves places Nowhere w w' where
  kept_or_gone : ∀ q, w'.files.content? q = w.files.content? q ∨ w'.files.content? q = none

namespace Sheds

variable {places places' : List String → Prop}

theorem refl (hw : w.IsSound) : Sheds places w w := ⟨.refl hw, fun _ ↦ .inl rfl⟩

theorem trans (h₁ : Sheds places w w₁) (h₂ : Sheds places w₁ w₂) : Sheds places w w₂ := by
  refine ⟨h₁.toEvolves.trans h₂.toEvolves, fun q ↦ ?_⟩
  rcases h₂.kept_or_gone q with heq | hgone
  · rw [heq]
    exact h₁.kept_or_gone q
  · exact .inr hgone

theorem mono (h : Sheds places w w₁) (hplaces : ∀ q, places q → places' q) :
    Sheds places' w w₁ :=
  ⟨h.toEvolves.mono hplaces fun _ h ↦ h.elim, h.kept_or_gone⟩

theorem of_evolves (h : Evolves Nowhere Nowhere w w₁) : Sheds places w w₁ :=
  ⟨h.mono (fun _ h ↦ h.elim) fun _ h ↦ h.elim,
    fun _ ↦ .inl (h.content?_eq (fun h ↦ h) fun h ↦ h)⟩

/-- What is gone stays gone. -/
theorem content?_of_none (h : Sheds places w w₁) {q : List String}
    (hq : w.files.content? q = none) : w₁.files.content? q = none := by
  rcases h.kept_or_gone q with heq | hgone
  · exact heq.trans hq
  · exact hgone

end Sheds

theorem sheds_unlinkIfPresent (hw : w.IsSound) (hp : p.IsResolved) {r : Except Fault Unit}
    (h : (unlinkIfPresent p).run w = (r, w')) :
    Sheds p.Here w w' ∧ (r = .ok () → w'.files.content? p.parts = none) ∧
      (w.files.content? p.parts ≠ none → w'.files.content? p.parts = none ∧ r = .ok ()) := by
  rcases run_unlinkIfPresent_cases hw hp with ⟨hnone, r', hrun⟩ | ⟨c, hc, hrun⟩
  · rw [hrun] at h
    cases h
    exact ⟨.refl hw, fun _ ↦ hnone, fun hsome ↦ absurd hnone hsome⟩
  · rw [hrun] at h
    cases h
    have hgone : (w.files.remove p.parts).content? p.parts = none := by
      rw [Tree.content?, hw.files.get?_remove hc, if_pos rfl]
    refine ⟨⟨evolves_remove hw hc, fun q ↦ ?_⟩, fun _ ↦ hgone, fun _ ↦ ⟨hgone, rfl⟩⟩
    by_cases hq : q = p.parts
    · rw [hq]
      exact .inr hgone
    · exact .inl ((evolves_remove hw hc).content?_eq hq fun h ↦ h)

/-- Removing files of a folder one after another removes each of them, unless it fails. -/
theorem sheds_forM_unlinkIfPresent (hfolder : folder.IsResolved) {ns : List String}
    (hns : ∀ n ∈ ns, IsName n ∧ hasKey digest n = true) (hw : w.IsSound) {r : Except Fault PUnit}
    (h : (ns.forM fun n ↦ unlinkIfPresent (folder / .ofString n)).run w = (r, w')) :
    Sheds (Keyed folder digest) w w' ∧
      (r = .ok ⟨⟩ → ∀ n ∈ ns, w'.files.content? (folder.parts ++ [n]) = none) := by
  induction ns generalizing w with
  | nil =>
    cases h
    exact ⟨.refl hw, fun _ n hn ↦ absurd hn List.not_mem_nil⟩
  | cons n ns ih =>
    obtain ⟨⟨hname, hkey⟩, hns⟩ := List.forall_mem_cons.mp hns
    cases hrun : (unlinkIfPresent (folder / .ofString n)).run w with
    | mk r₁ w₁ =>
      have hunlink := hrun
      rw [Path.join_ofString_of_isName _ hname] at hunlink
      obtain ⟨hsheds, hgone, -⟩ := sheds_unlinkIfPresent hw (hfolder.child hname) hunlink
      have hkeyed : Sheds (Keyed folder digest) w w₁ :=
        hsheds.mono fun q hq ↦ ⟨n, hkey, hq⟩
      change (unlinkIfPresent _ >>= fun _ ↦ ns.forM _).run w = _ at h
      cases r₁ with
      | error f =>
        rw [run_bind_of_error hrun] at h
        cases h
        exact ⟨hkeyed, fun hok ↦ nomatch hok⟩
      | ok u =>
        rw [run_bind_of_ok hrun] at h
        obtain ⟨hrest, hrestGone⟩ := ih hns hkeyed.isSound h
        refine ⟨hkeyed.trans hrest, fun hok m hm ↦ ?_⟩
        rcases List.mem_cons.mp hm with rfl | hm
        · exact hrest.content?_of_none (hgone rfl)
        · exact hrestGone hok m hm

/-- Clearing the unfinished downloads of a key leaves none, unless it fails. -/
theorem sheds_clearPartials (hfolder : folder.IsResolved) (hw : w.IsSound) {r : Except Fault Unit}
    (h : (clearPartials folder digest).run w = (r, w')) :
    Sheds (Keyed folder digest) w w' ∧ (r = .ok () → ∀ n, isPartialOf digest n = true →
      w'.files.content? (folder.parts ++ [n]) = none) := by
  cases hrun : (namesIn folder).run w with
  | mk r₁ w₁ =>
    obtain rfl := (looks_namesIn folder).eq hrun
    rw [clearPartials] at h
    cases r₁ with
    | error f =>
      rw [run_bind_of_error hrun] at h
      cases h
      refine ⟨.refl hw, ?_⟩
      rintro ⟨⟩
    | ok ns =>
      obtain ⟨hnames, hall⟩ := run_namesIn_eq_ok hw hfolder hrun
      rw [run_bind_of_ok hrun] at h
      have hns : ∀ n ∈ ns.filter (isPartialOf digest), IsName n ∧ hasKey digest n = true := by
        intro n hn
        obtain ⟨hn, hpartial⟩ := List.mem_filter.mp hn
        exact ⟨hnames n hn, (hasKey_and_isPartial_of_isPartialOf hpartial).1⟩
      obtain ⟨hsheds, hgone⟩ := sheds_forM_unlinkIfPresent hfolder hns hw h
      refine ⟨hsheds, fun hok n hpartial ↦ ?_⟩
      by_cases hn : n ∈ ns
      · exact hgone hok n (List.mem_filter.mpr ⟨hn, hpartial⟩)
      · exact hsheds.content?_of_none (not_ne_iff.mp (mt (hall n) hn))

/-! ## Keeping a body -/

/-- A body is written and moved into place, or the job breaks off before it touches a file or when
it has written what it can remove again. -/
theorem run_complete_cases (hw : w.IsSound) (hp : p.IsResolved) (hq : q.IsResolved)
    (hne : p.parts ≠ q.parts) (hnul : q.hasNul = true → p.hasNul = true) (url : String)
    (head : Content) (rest : List Content) (breaks : Bool) :
    (∃ f, (complete url p q head rest breaks).run w = (.error f, w)) ∨
      (∃ f w₁, (complete url p q head rest breaks).run w = (.error f, w₁) ∧
        Evolves p.Here Nowhere w w₁ ∧ w₁.files.content? p.parts ≠ none ∧
        ((∃ reason, f = .fetch reason) ∨ ∃ e, f = .file e)) ∨
      (∃ w₁, (complete url p q head rest breaks).run w = (.ok (), w₁) ∧ breaks = false ∧
        Evolves (fun r ↦ r = p.parts ∨ r = q.parts) Nowhere w w₁ ∧
        w₁.files.content? p.parts = none ∧
        w₁.files.content? q.parts = some (rest.foldl .append head)) := by
  rw [complete]
  rcases run_overwrite_cases hw hp head with ⟨f, hrun, -⟩ | ⟨hrun, hcan⟩
  · exact .inl ⟨f, run_bind_of_error hrun⟩
  · have hhead := content?_of_overwrite hw hp hrun
    have he₁ := (within_overwrite hp head).evolves hw hrun
    refine .inr ?_
    rw [run_bind_of_ok hrun]
    cases breaks with
    | true =>
      refine .inl ⟨_, _, rfl, he₁, ?_, .inl ⟨_, rfl⟩⟩
      rw [hhead]
      exact Option.some_ne_none _
    | false =>
      have hrest := run_overwrite_of_content? he₁.isSound hp hhead (rest.foldl .append head)
      have hwhole := content?_of_overwrite he₁.isSound hp hrest
      have he₂ := he₁.trans ((within_overwrite hp _).evolves he₁.isSound hrest)
      have hnul₂ : q.hasNul = false := by
        rw [← Bool.not_eq_true]
        intro hq
        have hget := Tree.content?_eq_some_iff.mp hhead
        rw [hasNul_eq_false he₁.isSound hget] at hnul
        exact absurd (hnul hq) Bool.false_ne_true
      dsimp only
      rw [if_neg Bool.false_ne_true, run_bind_of_ok hrest]
      rcases run_move_cases he₂.isSound hp hq hwhole with ⟨f, hmove, hfile⟩ | ⟨hmove, hcan₂⟩
      · refine .inl ⟨f, _, hmove, he₂, ?_, .inr (hfile hnul₂)⟩
        rw [hwhole]
        exact Option.some_ne_none _
      · refine .inr ⟨_, hmove, rfl, ?_, ?_, Tree.content?_put_self hcan₂.ne_nil _⟩
        · exact (he₂.mono (fun _ h ↦ .inl h) (fun _ h ↦ h.elim)).trans
            (hcan₂.evolves_move he₂.isSound hwhole)
        · rw [Tree.content?_put_of_ne hcan₂.ne_nil hne, Tree.content?,
            he₂.isSound.files.get?_remove hwhole, if_pos rfl]

/-- What is unfinished is removed before a fault is passed on. -/
theorem sheds_unlinkIfPresent_throw (hw : w.IsSound) (hp : p.IsResolved) (f : Fault) :
    ∃ f' w₁, (do unlinkIfPresent p; throw f : Job Unit).run w = (.error f', w₁) ∧
      Sheds p.Here w w₁ ∧
      (w.files.content? p.parts ≠ none → w₁.files.content? p.parts = none) := by
  cases hrun : (unlinkIfPresent p).run w with
  | mk r w₁ =>
    obtain ⟨hsheds, -, hgone⟩ := sheds_unlinkIfPresent hw hp hrun
    cases r with
    | error f' => exact ⟨f', w₁, run_bind_of_error hrun, hsheds, fun h ↦ (hgone h).1⟩
    | ok u => exact ⟨f, w₁, run_bind_of_ok hrun, hsheds, fun h ↦ (hgone h).1⟩

/-- Keeping a body fails without a trace of it, or the whole body is in its place. -/
theorem run_keep_cases (hw : w.IsSound) (hp : p.IsResolved) (hq : q.IsResolved)
    (hne : p.parts ≠ q.parts) (hnul : q.hasNul = true → p.hasNul = true) (url : String)
    (head : Content) (rest : List Content) (breaks : Bool) :
    (∃ f w₁, (keep url p q head rest breaks).run w = (.error f, w₁) ∧ Sheds p.Here w w₁) ∨
      (∃ w₁, (keep url p q head rest breaks).run w = (.ok (), w₁) ∧ breaks = false ∧
        Evolves (fun r ↦ r = p.parts ∨ r = q.parts) Nowhere w w₁ ∧
        w₁.files.content? p.parts = none ∧
        w₁.files.content? q.parts = some (rest.foldl .append head)) := by
  rw [keep]
  rcases run_complete_cases hw hp hq hne hnul url head rest breaks with
    ⟨f, hrun⟩ | ⟨f, w₁, hrun, he, hsome, hkind⟩ | ⟨w₁, hrun, hkept⟩
  · rw [run_bind_of_ok (run_attempt_eq_ok.mpr hrun)]
    refine .inl ?_
    cases f with
    | fetch reason =>
      obtain ⟨f', w₂, hthrow, hsheds, -⟩ := sheds_unlinkIfPresent_throw hw hp (.fetch reason)
      exact ⟨f', w₂, hthrow, hsheds⟩
    | file e =>
      obtain ⟨f', w₂, hthrow, hsheds, -⟩ :=
        sheds_unlinkIfPresent_throw hw hp (.fetch (.unwritten q.toString e))
      exact ⟨f', w₂, hthrow, hsheds⟩
    | _ => exact ⟨_, w, rfl, .refl hw⟩
  · -- what was written is gone again, so that at its place there is nothing
    have hsheds : ∀ {w₂ : Workspace}, Sheds p.Here w₁ w₂ →
        w₂.files.content? p.parts = none → Sheds p.Here w w₂ := by
      intro w₂ h hgone
      refine ⟨he.trans h.toEvolves, fun r ↦ ?_⟩
      by_cases hr : r = p.parts
      · rw [hr]
        exact .inr hgone
      · exact .inl ((he.trans h.toEvolves).content?_eq hr fun h ↦ h)
    rw [run_bind_of_ok (run_attempt_eq_ok.mpr hrun)]
    refine .inl ?_
    rcases hkind with ⟨reason, rfl⟩ | ⟨e, rfl⟩
    · obtain ⟨f', w₂, hthrow, h, hgone⟩ :=
        sheds_unlinkIfPresent_throw he.isSound hp (.fetch reason)
      exact ⟨f', w₂, hthrow, hsheds h (hgone hsome)⟩
    · obtain ⟨f', w₂, hthrow, h, hgone⟩ :=
        sheds_unlinkIfPresent_throw he.isSound hp (.fetch (.unwritten q.toString e))
      exact ⟨f', w₂, hthrow, hsheds h (hgone hsome)⟩
  · rw [run_bind_of_ok (run_attempt_eq_ok.mpr hrun)]
    exact .inr ⟨w₁, rfl, hkept⟩

/-! ## How a download ends -/

/-- How a download of a URL into a folder ends, from a workspace without a complete file of it: the
outcome, and the workspace that is left. -/
inductive Ends (w : Workspace) (folder : Path) (url : String) :
    Except Fault (Option Path) → Workspace → Prop
  /-- The whole body of the answer is kept.  Nothing unfinished is left beside it, unless its own
  extension looks unfinished. -/
  | kept {w' : Workspace} {r : Response} {extension : String}
      (hanswer : w.remote.lookup (fetchUrl url) = some r) (hwhole : r.failAfter = none)
      (hcontent : w'.files.content? (folder.parts ++ [key url ++ "." ++ extension]) =
        some (Content.concat r.chunks))
      (hclear : (∀ n, isPartialOf (key url) n = true →
        w'.files.content? (folder.parts ++ [n]) = none) ↔ isPartial extension = false) :
      Ends w folder url (.ok (some (folder.child (key url ++ "." ++ extension)))) w'
  /-- The answer is no image, and the files stay as they are. -/
  | declined {w' : Workspace} (h : w'.files = w.files) : Ends w folder url (.ok none) w'
  /-- The download fails, and each file is as it was or gone. -/
  | failed {w' : Workspace} {f : Fault} (h : ∀ q, w'.files.content? q = w.files.content? q ∨
      w'.files.content? q = none) : Ends w folder url (.error f) w'

/-- A job that ends as a download that began on another workspace, and leaves all files as they were
whose names do not begin with the key. -/
def Settles (w₀ : Workspace) (folder : Path) (url : String) (t : Job (Option Path))
    (w : Workspace) : Prop :=
  Evolves (Keyed folder (key url)) Nowhere w₀ (t.run w).2 ∧
    Ends w₀ folder url (t.run w).1 (t.run w).2

theorem settles_of_error {t : Job (Option Path)} {f : Fault} (hrun : t.run w = (.error f, w'))
    (h : Sheds (Keyed folder (key url)) w₀ w') : Settles w₀ folder url t w := by
  rw [Settles, hrun]
  exact ⟨h.toEvolves, .failed h.kept_or_gone⟩

theorem hasNul_child_append {n : String} (h : (folder.child n).hasNul = true) (m : String) :
    (folder.child (n ++ m)).hasNul = true := by
  simp only [Path.hasNul, Path.parts_child, List.any_append, List.any_cons, List.any_nil,
    Bool.or_false, Bool.or_eq_true, String.toList_append, List.contains_eq_mem, decide_eq_true_eq,
    List.mem_append] at h ⊢
  exact h.imp_right .inl

theorem hasKey_unfinished (url extension : String) :
    hasKey (key url) (key url ++ "." ++ extension ++ partialSuffix) = true := by
  rw [show key url ++ "." ++ extension ++ partialSuffix =
    key url ++ "." ++ (extension ++ partialSuffix) from String.append_assoc]
  exact hasKey_append _ _

theorem unfinished_ne (n : String) : n ++ partialSuffix ≠ n := by
  intro heq
  have hlength := congrArg String.length heq
  rw [String.length_append] at hlength
  have : partialSuffix.length = 5 := rfl
  omega

/-- The body of an answer is kept in a folder that holds nothing unfinished of its key. -/
theorem settles_keep (hfolder : folder.IsResolved) (hsheds : Sheds (Keyed folder (key url)) w₀ w)
    (hslash : '/' ∉ extension.toList) {r : Response}
    (hanswer : w₀.remote.lookup (fetchUrl url) = some r) {head : Content} {rest : List Content}
    {breaks : Bool} (hwhole : breaks = false → r.failAfter = none ∧
      rest.foldl .append head = Content.concat r.chunks)
    (hnone : ∀ n, isPartialOf (key url) n = true →
      w.files.content? (folder.parts ++ [n]) = none) :
    Settles w₀ folder url (do
      keep url (folder / .ofString (key url ++ "." ++ extension ++ partialSuffix))
        (folder / .ofString (key url ++ "." ++ extension)) head rest breaks
      return some (folder / .ofString (key url ++ "." ++ extension))) w := by
  have hname := isName_download url hslash
  have hname' := isName_unfinished url hslash
  rw [Path.join_ofString_of_isName _ hname, Path.join_ofString_of_isName _ hname']
  rcases run_keep_cases hsheds.isSound (hfolder.child hname') (hfolder.child hname)
    (by simpa using unfinished_ne (key url ++ "." ++ extension))
      (fun h ↦ hasNul_child_append h _) url head rest breaks with
    ⟨f, w₁, hrun, hfailed⟩ | ⟨w₁, hrun, hbreaks, he, hgone, hkept⟩
  · refine settles_of_error (run_bind_of_error hrun) (hsheds.trans (hfailed.mono ?_))
    rintro q rfl
    exact ⟨_, hasKey_unfinished url extension, rfl⟩
  · rw [Settles, run_bind_of_ok hrun]
    obtain ⟨hunbroken, hbody⟩ := hwhole hbreaks
    have hkeyed : Evolves (Keyed folder (key url)) Nowhere w w₁ := by
      refine he.mono ?_ fun _ h ↦ h.elim
      rintro q (rfl | rfl)
      · exact ⟨_, hasKey_unfinished url extension, rfl⟩
      · exact ⟨_, hasKey_append _ _, rfl⟩
    refine ⟨hsheds.toEvolves.trans hkeyed, .kept hanswer hunbroken (hbody ▸ hkept) ?_⟩
    -- but for the two files that the job wrote, nothing unfinished was there before
    rw [← isPartialOf_append (key url) extension]
    constructor
    · intro hclear
      rw [← Bool.not_eq_true]
      intro hpartial
      exact absurd (hkept.symm.trans (hclear _ hpartial)) (Option.some_ne_none _)
    · intro hpartial n hn
      by_cases hn₁ : n = key url ++ "." ++ extension ++ partialSuffix
      · rw [hn₁]
        exact hgone
      · have hn₂ : n ≠ key url ++ "." ++ extension := by
          rintro rfl
          rw [hpartial] at hn
          cases hn
        exact (he.content?_eq (by simp [hn₁, hn₂]) fun h ↦ h).trans (hnone n hn)

theorem settles_receive (hw₀ : w₀.IsSound) (halike : Alike w₀ w) (hfolder : folder.IsResolved)
    {r : Response} (hanswer : w₀.remote.lookup (fetchUrl url) = some r) :
    Settles w₀ folder url (receive url r folder (key url)) w := by
  have hw := halike.isSound hw₀
  have hstart : Sheds (Keyed folder (key url)) w₀ w := .of_evolves (halike.evolves hw₀)
  rw [receive]
  dsimp only
  split
  · exact settles_of_error rfl hstart
  · rename_i head rest hhead
    split
    · exact ⟨hstart.toEvolves.trans ((within_log _ _ _).bind (fun _ ↦ within_pure _) w hw),
        .declined halike.files_eq⟩
    · rename_i extension hextension
      cases hensure : (ensureDirectories folder).run w with
      | mk r₁ w₁ =>
        have hmade : Sheds (Keyed folder (key url)) w₀ w₁ :=
          hstart.trans (.of_evolves ((within_ensureDirectories hfolder).evolves hw hensure))
        cases r₁ with
        | error f => exact settles_of_error (run_bind_of_error hensure) hmade
        | ok u =>
          rw [Settles, run_bind_of_ok hensure]
          cases hclear : (clearPartials folder (key url)).run w₁ with
          | mk r₂ w₂ =>
            obtain ⟨hcleared, hnone⟩ := sheds_clearPartials hfolder hmade.isSound hclear
            have hsheds := hmade.trans hcleared
            cases r₂ with
            | error f => exact settles_of_error (run_bind_of_error hclear) hsheds
            | ok v =>
              rw [run_bind_of_ok hclear]
              refine settles_keep hfolder hsheds (slash_not_mem_extension hextension) hanswer
                (fun hbreaks ↦ ?_) (hnone rfl)
              obtain ⟨hunbroken, hchunks⟩ := ofResponse_of_not_breaks hbreaks
              refine ⟨hunbroken, ?_⟩
              rw [Body.foldl_append_of_head? hhead, hchunks, Content.foldl_append]
              rfl

theorem Ends.of_alike {outcome : Except Fault (Option Path)} (h : Ends w folder url outcome w₁)
    (halike : Alike w₁ w₂) : Ends w folder url outcome w₂ := by
  cases h with
  | kept hanswer hwhole hcontent hclear =>
    rw [← halike.files_eq] at hcontent hclear
    exact .kept hanswer hwhole hcontent hclear
  | declined h => exact .declined (halike.files_eq.trans h)
  | failed h =>
    rw [← halike.files_eq] at h
    exact .failed h

/-- Reports after a job leave it settled. -/
theorem Settles.of_alike {t t' : Job (Option Path)} (h : Settles w₀ folder url t w)
    (houtcome : (t'.run w₁).1 = (t.run w).1) (halike : Alike (t.run w).2 (t'.run w₁).2) :
    Settles w₀ folder url t' w₁ := by
  obtain ⟨he, hends⟩ := h
  rw [Settles, houtcome]
  exact ⟨he.trans (halike.evolves he.isSound), hends.of_alike halike⟩

theorem reports_respond (url : String) (timeout : Json.Value) : Reports (respond url timeout) := by
  refine (reports_request _).bind fun _ ↦ looks_get.reports.bind fun w ↦ ?_
  split
  · exact reports_throw _
  · dsimp only
    split
    · exact reports_throw _
    · exact reports_pure _

/-- What a host answers is in the table of answers. -/
theorem run_respond_eq_ok {timeout : Json.Value} {r : Response}
    (h : (respond url timeout).run w = (.ok r, w')) : w.remote.lookup (fetchUrl url) = some r := by
  rw [respond, run_bind_eq_ok] at h
  obtain ⟨u, w₁, hrequest, h⟩ := h
  cases hrequest
  rw [run_bind_eq_ok] at h
  obtain ⟨w₂, w₃, hget, h⟩ := h
  cases hget
  split at h
  · cases h
  · rename_i r' hlookup
    dsimp only at h
    split at h
    · cases h
    · cases h
      exact hlookup

theorem settles_fetch (hw : w.IsSound) (hfolder : folder.IsResolved) (timeout : Json.Value) :
    Settles w folder url (fetch url folder (key url) timeout) w := by
  have halike := reports_respond url timeout w
  cases hrespond : (respond url timeout).run w with
  | mk response w₁ =>
    rw [hrespond] at halike
    cases response with
    | error f =>
      exact settles_of_error (run_bind_of_error hrespond) (.of_evolves (halike.evolves hw))
    | ok r =>
      have hreceive := settles_receive hw halike hfolder (run_respond_eq_ok hrespond)
      -- closing the connection and the last message change no file
      have hfinish : ∀ outcome w₂, (receive url r folder (key url)).run w₁ = (outcome, w₂) →
          ((fetch url folder (key url) timeout).run w).1 = outcome ∧
            Alike w₂ ((fetch url folder (key url) timeout).run w).2 := by
        intro outcome w₂ hrun
        rw [fetch, run_bind_of_ok hrespond, run_bind_of_ok (run_attempt_eq_ok.mpr hrun)]
        rcases outcome with f | _ | target
        · exact ⟨rfl, rfl, rfl, rfl⟩
        · exact ⟨rfl, rfl, rfl, rfl⟩
        · exact ⟨rfl, rfl, rfl, rfl⟩
      obtain ⟨houtcome, hafter⟩ := hfinish _ _ rfl
      exact hreceive.of_alike houtcome hafter

/-- A download of a URL of which there is no complete file keeps the whole body, or declines it and
leaves the files as they are, or fails and leaves nothing new; and in each case only files under its
key are touched. -/
theorem download_ends (hw : w.IsSound) (hfolder : folder.IsResolved)
    (hnone : ∀ n, hasKey (key url) n = true → isPartial n = false →
      w.files.content? (folder.parts ++ [n]) = none) (timeout : Json.Value) :
    Evolves (Keyed folder (key url)) Nowhere w ((download url folder timeout).run w).2 ∧
      Ends w folder url ((download url folder timeout).run w).1
        ((download url folder timeout).run w).2 := by
  cases hcached : (cached? folder (key url)).run w with
  | mk r w₁ =>
    obtain rfl := (looks_cached? folder (key url)).eq hcached
    rcases r with f | found
    · exact settles_of_error (run_bind_of_error hcached) (.refl hw)
    · rw [download, run_bind_of_ok hcached]
      cases found with
      | none => exact settles_fetch hw hfolder timeout
      | some p =>
        -- what is found would be a complete download
        obtain ⟨n, -, -, hkey, hcomplete, hfile⟩ :=
          (run_cached?_eq_ok hw hfolder hcached).1 p rfl
        exact absurd (hnone n hkey hcomplete) hfile

/-! ### A type that looks unfinished -/

/-- A host whose only image has a type that ends like the names of unfinished downloads. -/
def misnamingHost : Workspace where
  cwd := []
  remote := [("https://h/a",
    { contentType := some "image/x.part", chunks := [.bytes [0x61], .bytes [0x62]] })]

/-- The image is kept, and looks unfinished. -/
theorem download_ends_misnamed :
    ∃ n w', (download "https://h/a" (.ofParts ["dl"]) (.int 15)).run misnamingHost =
        (.ok (some ((Path.ofParts ["dl"]).child n)), w') ∧
      ¬ ∀ n, isPartialOf (key "https://h/a") n = true → w'.files.content? ["dl", n] = none := by
  have hsound : misnamingHost.IsSound := ⟨by decide +kernel, by decide⟩
  have hfolder : (Path.ofParts ["dl"]).IsResolved := by decide
  have hnone : ∀ n, hasKey (key "https://h/a") n = true → isPartial n = false →
      misnamingHost.files.content? ((Path.ofParts ["dl"]).parts ++ [n]) = none := fun _ _ _ ↦ rfl
  obtain ⟨-, hends⟩ := download_ends hsound hfolder hnone (.int 15)
  have houtcome : ((download "https://h/a" (.ofParts ["dl"]) (.int 15)).run misnamingHost).1 =
      .ok (some ((Path.ofParts ["dl"]).child (key "https://h/a" ++ "." ++ "x.part"))) :=
    eq_ok_of_toOption (by decide +kernel)
  cases hrun : (download "https://h/a" (.ofParts ["dl"]) (.int 15)).run misnamingHost with
  | mk outcome w' =>
    rw [hrun] at hends houtcome
    obtain rfl : outcome = _ := houtcome
    refine ⟨_, w', rfl, ?_⟩
    generalize hpath : (Path.ofParts ["dl"]).child (key "https://h/a" ++ "." ++ "x.part") = p
      at hends
    cases hends with
    | @kept _ _ extension _ _ _ hclear =>
      have hextension : "x.part" = extension := by
        simpa using List.append_cancel_left (congrArg Path.parts hpath)
      rw [← hextension] at hclear
      exact fun hnone ↦ absurd (hclear.mp hnone) (by decide)

/-! ## What any download leaves -/

/-- What a download leaves, whether there is a complete file of the URL or not: only files under its
key are touched, and each file is as it was or gone, but for the image that comes out. -/
structure Leaves (w : Workspace) (folder : Path) (url : String) (outcome : Except Fault (Option Path))
    (w' : Workspace) : Prop where
  evolves : Evolves (Keyed folder (key url)) Nowhere w w'
  kept_or_gone : ∀ q, w'.files.content? q = w.files.content? q ∨ w'.files.content? q = none ∨
    ∃ image, outcome = .ok (some image) ∧ q = image.parts
  hasKey : ∀ image, outcome = .ok (some image) → Keyed folder (key url) image.parts
  content? : ∀ image, outcome = .ok (some image) → ∃ c, w'.files.content? image.parts = some c

/-- An image that is fetched is the only file that is new. -/
theorem kept_or_gone_of_fetch (hw : w.IsSound) (hfolder : folder.IsResolved) {timeout : Json.Value}
    {image : Path} (h : (fetch url folder (key url) timeout).run w = (.ok (some image), w'))
    {r : List String} (hr : r ≠ image.parts) :
    w'.files.content? r = w.files.content? r ∨ w'.files.content? r = none := by
  obtain ⟨response, w₁, w₂, hrespond, hreceive, hlast⟩ := run_fetch_eq_some h
  obtain ⟨extension, head, rest, w₃, w₄, hslash, rfl, hensure, hclear, hkeep⟩ :=
    run_receive_eq_some hreceive
  have halike := reports_respond url timeout w
  rw [hrespond] at halike
  have hmade := (within_ensureDirectories hfolder).evolves (halike.isSound hw) hensure
  obtain ⟨hcleared, -⟩ := sheds_clearPartials hfolder hmade.isSound hclear
  have hstart : w₃.files.content? r = w.files.content? r := by
    rw [hmade.content?_eq id id, halike.files_eq]
  have hname := isName_download url hslash
  have hname' := isName_unfinished url hslash
  rw [Path.join_ofString_of_isName _ hname] at hr
  rw [Path.join_ofString_of_isName _ hname, Path.join_ofString_of_isName _ hname'] at hkeep
  rw [hlast.files_eq]
  rcases run_keep_cases hcleared.isSound (hfolder.child hname') (hfolder.child hname)
    (by simpa using unfinished_ne (key url ++ "." ++ extension))
      (fun h ↦ hasNul_child_append h _) url head rest _ with
    ⟨f, w₅, hrun, -⟩ | ⟨w₅, hrun, -, he, hgone, -⟩
  · rw [hrun] at hkeep
    cases hkeep
  · rw [hrun] at hkeep
    cases hkeep
    by_cases hunfinished : r = (folder.child (key url ++ "." ++ extension ++ partialSuffix)).parts
    · rw [hunfinished]
      exact .inr hgone
    · rw [he.content?_eq (fun h ↦ h.elim hunfinished hr) id, ← hstart]
      exact hcleared.kept_or_gone r

theorem leaves_download (hw : w.IsSound) (hfolder : folder.IsResolved) {timeout : Json.Value}
    {outcome : Except Fault (Option Path)}
    (h : (download url folder timeout).run w = (outcome, w')) : Leaves w folder url outcome w' := by
  rw [download] at h
  cases hcached : (cached? folder (key url)).run w with
  | mk found w₁ =>
    obtain rfl := (looks_cached? folder (key url)).eq hcached
    rcases found with f | _ | p
    · rw [run_bind_of_error hcached] at h
      cases h
      refine ⟨.refl hw, fun q ↦ .inl rfl, fun image himage ↦ ?_, fun image himage ↦ ?_⟩
      · cases himage
      · cases himage
    · rw [run_bind_of_ok hcached] at h
      have hsettles : Settles w₁ folder url (fetch url folder (key url) timeout) w₁ :=
        settles_fetch hw hfolder timeout
      obtain ⟨hevolves, hends⟩ := hsettles
      rw [show (fetch url folder (key url) timeout).run w₁ = (outcome, w') from h] at hevolves hends
      refine ⟨hevolves, fun q ↦ ?_, fun image himage ↦ ?_, fun image himage ↦ ?_⟩
      · cases hends with
        | declined heq => exact .inl (by rw [heq])
        | failed hfiles => exact (hfiles q).imp_right .inl
        | @kept _ _ extension hanswer hwhole hcontent hclear =>
          by_cases hq : q = (folder.child (key url ++ "." ++ extension)).parts
          · exact .inr (.inr ⟨_, rfl, hq⟩)
          · exact (kept_or_gone_of_fetch hw hfolder h hq).imp_right .inl
      · cases hends with
        | kept hanswer hwhole hcontent hclear =>
          cases himage
          exact ⟨_, hasKey_append _ _, rfl⟩
        | declined | failed => cases himage
      · cases hends with
        | kept hanswer hwhole hcontent hclear =>
          cases himage
          exact ⟨_, hcontent⟩
        | declined | failed => cases himage
    · rw [run_bind_of_ok hcached] at h
      cases h
      obtain ⟨n, -, rfl, hkey, -, hfile⟩ := (run_cached?_eq_ok hw hfolder hcached).1 p rfl
      refine ⟨.refl hw, fun q ↦ .inl rfl, fun image himage ↦ ?_, fun image himage ↦ ?_⟩
      · cases himage
        exact ⟨n, hkey, rfl⟩
      · cases himage
        exact Option.ne_none_iff_exists'.mp hfile

end Download

end ResponsiveImage
