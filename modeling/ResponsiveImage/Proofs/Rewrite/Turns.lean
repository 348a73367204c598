import ResponsiveImage.Proofs.Picture.Renditions
import ResponsiveImage.Proofs.Rewrite.Histories

/-!
# Turns

The images of a document are worked on side by side, and nothing says which of them is the first to get
on.  The work on each falls into turns: in the first one its source is resolved and a copy of its image
put in its place; in the second one the picture of an image tag is made, or that of a component looked
at; and then each rendition of a component has a turn.  `Turns` lets any image that can have a turn have
it, so that it holds of every order in which images, documents and rewrites can follow one another.  One
of these orders is that of the histories, in which the second turn follows the first at once
(`turns_leave`).
-/

namespace ResponsiveImage.Rewrite

open Workspace (Evolves Alike)
open Job

variable {o : Options} {placeholder : Placeholder} {w w₁ w₂ x : Workspace} {vs : List Visit} {v : Visit}
  {t : Progress.Task}

/-! ## The first turn of an image -/

namespace Visit

/-- What comes of the first turn of a visit, and what it leaves. -/
def begins (o : Options) (v : Visit) : Except Fault Progress.Begun × Workspace :=
  (Progress.begun o v.document v.node).run v.before

/-- The task that comes of the first turn, if an image is found and copied. -/
def task? (o : Options) (v : Visit) : Option Progress.Task :=
  match (v.begins o).1 with
  | .ok (.located t) => some t
  | _ => none

/-- How a first turn ends: nothing is left to be done, and no image is shown; or the image that is
shown has been copied, and is to be treated. -/
inductive Begins (o : Options) (v : Visit) : Prop
  | reached {q : Progress} (hshown : v.shown? o = none) (hbegun : (v.begins o).1 = .ok (.reached q))
      (h : Evolves (o.Unfinished v.before.cwd) (o.Fetched v.before.cwd) v.before (v.begins o).2)
  | located {t : Progress.Task} (hbegun : (v.begins o).1 = .ok (.located t))
      (h : v.Stages o t.role t.plan (v.begins o).2)

theorem begins_of_unprocessed {role : Role} {extensions : List Json.Value}
    (heligible : Eligibility.ofNode v.node o = .ok (.eligible role extensions))
    {r : Except Fault Decision} (hresolution : v.resolution o extensions = (r, w₁))
    (hnot : ∀ p, r ≠ .ok (.process p))
    (he : Evolves (o.Unfinished v.before.cwd) (o.Fetched v.before.cwd) v.before w₁) : v.Begins o := by
  have hshown : v.shown? o = none := by
    rw [shown?, heligible]
    dsimp only
    rw [hresolution]
    split
    · rename_i p hp
      exact absurd hp (hnot p)
    · rfl
  have hrun : ∃ w₂, v.begins o = (.ok (.reached (.finished [])), w₂) ∧ Alike w₁ w₂ := by
    rw [begins, Progress.begun, heligible]
    rcases r with f | ⟨reason, detail⟩ | p
    · have hlocate : (Progress.locate o v.document v.node role extensions).run v.before =
          (.error f, w₁) := run_bind_of_error hresolution
      obtain ⟨w₂, hlog⟩ := run_logFault (NodeLabel.ofNode v.document v.node) f w₁
      refine ⟨w₂, ?_, (congrArg (fun r ↦ Alike w₁ r.2) hlog).mp (reports_logFault _ f w₁)⟩
      dsimp only
      rw [run_bind_of_ok (run_attempt_eq_ok.mpr hlocate)]
      dsimp only
      rw [run_bind_of_ok hlog]
      rfl
    · obtain ⟨w₂, hlog⟩ :=
        run_logSkip (NodeLabel.ofNode v.document v.node) (reason.describe detail) w₁
      have hlocate : (Progress.locate o v.document v.node role extensions).run v.before =
          (.ok none, w₂) := by
        rw [Progress.locate]
        refine (run_bind_of_ok hresolution).trans ?_
        dsimp only
        rw [run_bind_of_ok hlog]
        rfl
      refine ⟨w₂, ?_, (congrArg (fun r ↦ Alike w₁ r.2) hlog).mp (reports_logSkip _ _ w₁)⟩
      dsimp only
      rw [run_bind_of_ok (run_attempt_eq_ok.mpr hlocate)]
      rfl
    · exact absurd rfl (hnot p)
  obtain ⟨w₂, hbegins, halike⟩ := hrun
  refine .reached hshown (by rw [hbegins]) ?_
  rw [hbegins]
  exact he.trans (halike.evolves he.isSound)

/-- Every first turn ends in one of these ways. -/
theorem begins_cases (o : Options) (hw : v.before.IsSound) (hd : v.document.directory.IsResolved) :
    v.Begins o := by
  cases heligible : Eligibility.ofNode v.node o with
  | error f =>
    have hbegins : v.begins o = (.ok (.reached (.escaped f)), v.before) := by
      rw [begins, Progress.begun, heligible]
      rfl
    refine .reached (by rw [shown?, heligible]) (by rw [hbegins]) ?_
    rw [hbegins]
    exact .refl hw
  | ok eligibility =>
    cases eligibility with
    | ineligible reason =>
      obtain ⟨w₁, hlog⟩ := run_logSkip (NodeLabel.ofNode v.document v.node)
        (SkipReason.notEligible.describe reason.message) v.before
      have hbegins : v.begins o = (.ok (.reached (.finished [])), w₁) := by
        rw [begins, Progress.begun, heligible]
        exact run_bind_of_ok hlog
      refine .reached (by rw [shown?, heligible]) (by rw [hbegins]) ?_
      rw [hbegins]
      exact (reports_logSkip _ _).within.evolves hw hlog
    | eligible role extensions =>
      have hsettles : Resolution.Settles o v.before (v.resolution o extensions) :=
        Resolution.settles_ofValue hw hd v.source? extensions
      cases hr : v.resolution o extensions with
      | mk r w₁ =>
        rw [hr] at hsettles
        obtain ⟨hnot, he⟩ | ⟨p, w₀, hp, he, hstage, hprocess⟩ := hsettles
        · exact begins_of_unprocessed heligible hr hnot he
        · obtain rfl : r = .ok (.process p) := hprocess
          obtain ⟨span, hspan⟩ := spanOf_of_process hr
          have hlocate : (Progress.locate o v.document v.node role extensions).run v.before =
              (.ok (some ⟨NodeLabel.ofNode v.document v.node, role, span, p⟩), w₁) := by
            rw [Progress.locate]
            refine (run_bind_of_ok hr).trans ?_
            dsimp only
            rw [hspan, run_bind_of_ok (run_ofExcept_ok _ _ _)]
            rfl
          have hbegins : v.begins o =
              (.ok (.located ⟨NodeLabel.ofNode v.document v.node, role, span, p⟩), w₁) := by
            rw [begins, Progress.begun, heligible]
            dsimp only
            rw [run_bind_of_ok (run_attempt_eq_ok.mpr hlocate)]
            rfl
          have hshown : v.shown? o = some (role, p) := by simp only [shown?, heligible, hr]
          refine .located (by rw [hbegins]) ?_
          rw [hbegins]
          exact ⟨hshown, hp, w₀, he, hstage⟩

theorem Begins.evolves (h : v.Begins o) :
    Evolves (v.Changes o) (o.Fetched v.before.cwd) v.before (v.begins o).2 := by
  cases h with
  | reached _ _ h => exact h.mono (fun _ ↦ .inl) (fun _ ↦ .inr)
  | located _ h =>
    exact h.evolves.mono (fun q hq ↦ hq.imp_right fun hq ↦ ⟨_, _, h.shown, hq⟩) (fun _ ↦ .inr)

/-- The task that comes of a first turn is the image that is shown, in its part. -/
theorem stages_of_task (hw : v.before.IsSound) (hd : v.document.directory.IsResolved)
    (ht : v.task? o = some t) : v.Stages o t.role t.plan (v.begins o).2 := by
  rw [task?] at ht
  cases begins_cases o hw hd with
  | reached _ hbegun _ =>
    rw [hbegun] at ht
    cases ht
  | located hbegun h =>
    rw [hbegun] at ht
    cases ht
    exact h

theorem exists_task_of_shown {role : Role} {p : OutputPlan} (hw : v.before.IsSound)
    (hd : v.document.directory.IsResolved) (h : v.shown? o = some (role, p)) :
    ∃ t, v.task? o = some t ∧ t.role = role ∧ t.plan = p := by
  cases begins_cases o hw hd with
  | reached hshown _ _ =>
    rw [hshown] at h
    cases h
  | @located t hbegun hs =>
    cases hs.shown.symm.trans h
    exact ⟨t, by rw [task?, hbegun], rfl, rfl⟩

end Visit

/-! ## The second turn of an image -/

namespace Progress.Task

variable [Codec]

/-- How far an image is after its second turn. -/
def progress (o : Options) (t : Task) (w : Workspace) : Progress :=
  match ((Progress.afterwards o (.located t)).run w).1 with
  | .ok q => q
  | .error f => .escaped f

/-- What the second turn leaves. -/
def after (o : Options) (t : Progress.Task) (w : Workspace) : Workspace :=
  ((Progress.afterwards o (.located t)).run w).2

theorem progress_eq {q : Progress} (h : (Progress.afterwards o (.located t)).run w = (.ok q, w₁)) :
    t.progress o w = q ∧ t.after o w = w₁ := by
  rw [progress, after, h]
  exact ⟨rfl, rfl⟩

/-- How a second turn ends. -/
inductive Course (o : Options) (t : Progress.Task) (w : Workspace) : Prop
  | tagFailed {w₁ : Workspace} {f : Fault} (hrole : t.role = .tag)
      (hmade : (t.plan.optimizeSingle o).run w = (.error f, w₁))
      (hafter : Evolves Nowhere Nowhere w₁ (t.after o w)) (hprogress : t.progress o w = .finished [])
  | tagMade {uri : String} (hrole : t.role = .tag)
      (hmade : (t.plan.optimizeSingle o).run w = (.ok uri, t.after o w))
      (hprogress : t.progress o w = .finished [⟨t.span.start, t.span.stop, uri.toList⟩])
  | componentFailed (hrole : t.role = .component) (hafter : Evolves Nowhere Nowhere w (t.after o w))
      (hprogress : t.progress o w = .finished [])
  | componentOpened {c : Component} (hrole : t.role = .component)
      (hafter : Evolves Nowhere Nowhere w (t.after o w)) (hplan : c.plan = t.plan)
      (hprogress : t.progress o w = .awaiting c)

theorem course (hw : w.IsSound) (hp : t.plan.IsFor o) : t.Course o w := by
  cases hrole : t.role with
  | tag =>
    have htask : Progress.ofTask o t = Progress.ofTag o t.span t.plan := by
      rw [Progress.ofTask, hrole]
    cases hmade : (t.plan.optimizeSingle o).run w with
    | mk r w₁ =>
      cases r with
      | error f =>
        have he := (OutputPlan.within_optimizeSingle hp).evolves hw hmade
        obtain ⟨w₂, hrun, he₂⟩ := run_orLogged_of_error (l := t.label)
          (htask ▸ run_bind_of_error hmade : (Progress.ofTask o t).run w = (.error f, w₁)) he.isSound
        obtain ⟨hprogress, hafter⟩ := progress_eq hrun
        exact .tagFailed hrole hmade (hafter ▸ he₂) hprogress
      | ok uri =>
        have hok : (Progress.ofTask o t).run w =
            (.ok (.finished [⟨t.span.start, t.span.stop, uri.toList⟩]), w₁) :=
          htask ▸ run_bind_of_ok hmade
        obtain ⟨hprogress, hafter⟩ := progress_eq (run_orLogged_of_ok hok)
        exact .tagMade hrole (hafter ▸ hmade) hprogress
  | component =>
    have htask : Progress.ofTask o t = Progress.ofComponent o t.label t.span t.plan := by
      rw [Progress.ofTask, hrole]
    rcases Visit.run_ofComponent_cases hw hp t.label t.span with
      ⟨f, w₁, hfail, he⟩ | ⟨c, w₁, hopened, he, hplan, -, -⟩
    · obtain ⟨w₂, hrun, he₂⟩ := run_orLogged_of_error (l := t.label)
        (htask ▸ hfail : (Progress.ofTask o t).run w = (.error f, w₁)) he.isSound
      obtain ⟨hprogress, hafter⟩ := progress_eq hrun
      exact .componentFailed hrole (hafter ▸ he.trans he₂) hprogress
    · obtain ⟨hprogress, hafter⟩ := progress_eq (run_orLogged_of_ok
        (htask ▸ hopened : (Progress.ofTask o t).run w = (.ok (.awaiting c), w₁)))
      exact .componentOpened hrole (hafter ▸ he) hplan hprogress

/-- A second turn changes nothing but the copy of its image. -/
theorem evolves (hw : w.IsSound) (hp : t.plan.IsFor o) :
    Evolves t.plan.path.Here Nowhere w (t.after o w) := by
  have hquiet : ∀ {w w' : Workspace}, Evolves Nowhere Nowhere w w' →
      Evolves t.plan.path.Here Nowhere w w' := fun h ↦ h.mono (fun _ h ↦ h.elim) (fun _ h ↦ h.elim)
  cases course hw hp with
  | tagFailed _ hmade hafter _ =>
    exact ((OutputPlan.within_optimizeSingle hp).evolves hw hmade).trans (hquiet hafter)
  | tagMade _ hmade _ => exact (OutputPlan.within_optimizeSingle hp).evolves hw hmade
  | componentFailed _ hafter _ => exact hquiet hafter
  | componentOpened _ hafter _ _ => exact hquiet hafter

theorem plan_of_awaiting (hw : w.IsSound) (hp : t.plan.IsFor o) {c : Component}
    (hc : t.progress o w = .awaiting c) : c.plan = t.plan := by
  cases course hw hp with
  | tagFailed _ _ _ hprogress => cases hprogress.symm.trans hc
  | tagMade _ _ hprogress => cases hprogress.symm.trans hc
  | componentFailed _ _ hprogress => cases hprogress.symm.trans hc
  | componentOpened _ _ hplan hprogress =>
    cases hprogress.symm.trans hc
    exact hplan

end Progress.Task

/-! ## Turns in any order -/

/-- A turn of an image: the first one, or the second one, in some workspace. -/
inductive Turn where
  | resolve (v : Visit)
  | perform (t : Progress.Task) (before : Workspace)

namespace Turn

def resolved? : Turn → Option Visit
  | .resolve v => some v
  | .perform _ _ => none

def performed? : Turn → Option (Progress.Task × Workspace)
  | .resolve _ => none
  | .perform t x => some (t, x)

theorem eq_of_resolved? {a : Turn} (h : a.resolved? = some v) : a = .resolve v := by
  cases a with
  | resolve v =>
    cases h
    rfl
  | perform t x => cases h

theorem eq_of_performed? {a : Turn} (h : a.performed? = some (t, x)) : a = .perform t x := by
  cases a with
  | resolve v => cases h
  | perform t x =>
    cases h
    rfl

end Turn

/-- What happens to the files between two workspaces, with the turns that images have.  The renditions
of components are made in between, each at any time after the second turn of its component. -/
inductive Turns [Codec] (o : Options) (w : Workspace) : List Turn → Workspace → Prop
  | start : Turns o w [] w
  | quiet {ts : List Turn} {w₁ w₂ : Workspace} (h : Turns o w ts w₁) (halike : Alike w₁ w₂) :
      Turns o w ts w₂
  | resolve {ts : List Turn} {w₁ : Workspace} (h : Turns o w ts w₁) {d : Document}
      (hd : d.directory.IsResolved) (n : Markup.Node) :
      Turns o w (ts ++ [.resolve ⟨d, n, w₁⟩]) (Visit.begins o ⟨d, n, w₁⟩).2
  | perform {ts : List Turn} {w₁ : Workspace} (h : Turns o w ts w₁) {v : Visit} {t : Progress.Task}
      (hv : .resolve v ∈ ts) (ht : v.task? o = some t) :
      Turns o w (ts ++ [.perform t w₁]) (t.after o w₁)
  | make {ts : List Turn} {w₁ : Workspace} (h : Turns o w ts w₁) {t : Progress.Task} {x : Workspace}
      {c : Component} {k : Number} (ht : .perform t x ∈ ts) (hc : t.progress o x = .awaiting c)
      (hk : k ∈ c.sizes) : Turns o w ts ((Variant.ofSize c.plan k c.header o).run w₁).2

section Runs

variable {ts : List Turn}

/-- The plan for the image that is copied in the first turn of a node. -/
def Turn.copied? (o : Options) : Turn → Option OutputPlan
  | .resolve v => (v.task? o).map (·.plan)
  | .perform _ _ => none

/-- The plans for all images of which copies are put in their places. -/
def copiedPlans (o : Options) (ts : List Turn) : List OutputPlan := ts.filterMap (Turn.copied? o)

theorem mem_copiedPlans (hv : .resolve v ∈ ts) (ht : v.task? o = some t) : t.plan ∈ copiedPlans o ts :=
  List.mem_filterMap.mpr ⟨_, hv, by rw [Turn.copied?, ht]; rfl⟩

/-- All workspaces of some turns are sound, in one working directory, and all second turns have plans of
the options. -/
structure Turns.Sound (o : Options) (w : Workspace) (ts : List Turn) (w' : Workspace) : Prop where
  isSound : w'.IsSound
  cwd_eq : w'.cwd = w.cwd
  resolved : ∀ v, .resolve v ∈ ts →
    v.before.IsSound ∧ v.before.cwd = w.cwd ∧ v.document.directory.IsResolved
  performed : ∀ t x, .perform t x ∈ ts → x.IsSound ∧ t.plan.IsMade o w.cwd
  located : ∀ t x, .perform t x ∈ ts → ∃ v, .resolve v ∈ ts ∧ v.task? o = some t

theorem Turns.Sound.isMade_of_task (h : Turns.Sound o w ts w₁) (hv : .resolve v ∈ ts)
    (ht : v.task? o = some t) : t.plan.IsMade o w.cwd := by
  obtain ⟨hw, hcwd, hd⟩ := h.resolved v hv
  exact hcwd ▸ (Visit.stages_of_task hw hd ht).isMade

variable [Codec]

theorem Turns.Sound.isFor_of_awaiting (h : Turns.Sound o w ts w₁) (ht : .perform t x ∈ ts)
    {c : Component} (hc : t.progress o x = .awaiting c) : c.plan.IsFor o := by
  obtain ⟨hx, hp⟩ := h.performed t x ht
  rw [Progress.Task.plan_of_awaiting hx hp.toIsFor hc]
  exact hp.toIsFor

theorem Turns.sound (h : Turns o w ts w₁) (hw : w.IsSound) : Turns.Sound o w ts w₁ := by
  induction h with
  | start => exact ⟨hw, rfl, by simp, by simp, by simp⟩
  | quiet _ halike ih =>
    exact ⟨halike.isSound ih.isSound, halike.cwd_eq.trans ih.cwd_eq, ih.resolved, ih.performed,
      ih.located⟩
  | @resolve ts w₁ _ d hd n ih =>
    have he := (Visit.begins_cases o (v := ⟨d, n, w₁⟩) ih.isSound hd).evolves
    refine ⟨he.isSound, he.cwd_eq.trans ih.cwd_eq, fun v hv ↦ ?_, fun t x ht ↦ ?_, fun t x ht ↦ ?_⟩
    · rcases List.mem_append.mp hv with hv | hv
      · exact ih.resolved v hv
      · cases List.mem_singleton.mp hv
        exact ⟨ih.isSound, ih.cwd_eq, hd⟩
    · exact ih.performed t x (by simpa using ht)
    · obtain ⟨v, hv, hvt⟩ := ih.located t x (by simpa using ht)
      exact ⟨v, List.mem_append_left _ hv, hvt⟩
  | @perform ts w₁ _ v t hv ht ih =>
    have hp := ih.isMade_of_task hv ht
    have he := Progress.Task.evolves ih.isSound hp.toIsFor
    refine ⟨he.isSound, he.cwd_eq.trans ih.cwd_eq, fun v hv ↦ ih.resolved v (by simpa using hv),
      fun u x hu ↦ ?_, fun u x hu ↦ ?_⟩
    · rcases List.mem_append.mp hu with hu | hu
      · exact ih.performed u x hu
      · cases List.mem_singleton.mp hu
        exact ⟨ih.isSound, hp⟩
    · rcases List.mem_append.mp hu with hu | hu
      · obtain ⟨v', hv', hu'⟩ := ih.located u x hu
        exact ⟨v', List.mem_append_left _ hv', hu'⟩
      · cases List.mem_singleton.mp hu
        exact ⟨v, List.mem_append_left _ hv, ht⟩
  | @make ts w₁ _ t x c k ht hc hk ih =>
    have he := Variant.within_ofSize (ih.isFor_of_awaiting ht hc) hk c.header w₁ ih.isSound
    exact ⟨he.isSound, he.cwd_eq.trans ih.cwd_eq, ih.resolved, ih.performed, ih.located⟩

/-- Making a rendition changes no file that is there. -/
theorem Turns.evolves_make (h : Turns o w ts w₁) (hw : w.IsSound) (ht : .perform t x ∈ ts)
    {c : Component} {k : Number} (hc : t.progress o x = .awaiting c) (hk : k ∈ c.sizes) :
    Evolves Nowhere (c.plan.Rendered c.sizes) w₁ ((Variant.ofSize c.plan k c.header o).run w₁).2 :=
  Variant.within_ofSize ((h.sound hw).isFor_of_awaiting ht hc) hk c.header w₁ (h.sound hw).isSound

end Runs

/-! ## Histories as turns -/

section Histories

variable [Codec] {ts : List Turn}

/-- The turns of a visit: the second one follows at once. -/
def Visit.turns (o : Options) (v : Visit) : List Turn :=
  match v.task? o with
  | some t => [.resolve v, .perform t (v.begins o).2]
  | none => [.resolve v]

/-- The second turn of an image ends its visit. -/
theorem Visit.eq_of_task (ht : v.task? o = some t) :
    v.progress o = t.progress o (v.begins o).2 ∧ v.after o = t.after o (v.begins o).2 := by
  rw [task?] at ht
  cases hbegins : v.begins o with
  | mk r w₁ =>
    rw [hbegins] at ht
    split at ht
    · rename_i t' hlocated
      cases ht
      obtain rfl : r = .ok (.located t) := hlocated
      have hstart : (Progress.start o v.document v.node).run v.before =
          (Progress.afterwards o (.located t)).run w₁ := run_bind_of_ok hbegins
      rw [Visit.progress, Visit.after, hstart]
      exact ⟨rfl, rfl⟩
    · cases ht

/-- Where no task comes of the first turn, the visit ends with it. -/
theorem Visit.after_of_task_eq_none (hw : v.before.IsSound) (hd : v.document.directory.IsResolved)
    (ht : v.task? o = none) : v.after o = (v.begins o).2 := by
  cases begins_cases o hw hd with
  | located hbegun _ => simp [task?, hbegun] at ht
  | @reached q _ hbegun _ =>
    have hrun : v.begins o = (.ok (.reached q), (v.begins o).2) := by rw [← hbegun]
    rw [Visit.after, Progress.start, run_bind_of_ok hrun]
    rfl

theorem Turns.visit (h : Turns o w ts w₁) (hw : w.IsSound) {d : Document}
    (hd : d.directory.IsResolved) (n : Markup.Node) :
    Turns o w (ts ++ Visit.turns o ⟨d, n, w₁⟩) (Visit.after o ⟨d, n, w₁⟩) := by
  have hfirst := h.resolve hd n
  rw [Visit.turns]
  cases ht : Visit.task? o ⟨d, n, w₁⟩ with
  | none =>
    rw [Visit.after_of_task_eq_none (v := ⟨d, n, w₁⟩) (h.sound hw).isSound hd ht]
    exact hfirst
  | some t =>
    rw [(Visit.eq_of_task ht).2]
    have hsecond := hfirst.perform (List.mem_append_right _ List.mem_cons_self) ht
    rwa [List.append_assoc] at hsecond

/-- The renditions of a component are made one after another. -/
theorem Turns.expand (h : Turns o w ts w₁) (ht : .perform t x ∈ ts) {c : Component}
    (hc : t.progress o x = .awaiting c) :
    Turns o w ts ((Variant.ofSizes c.plan c.sizes c.header o).run w₁).2 := by
  have hsize : ∀ k ∈ c.sizes, Ensures (Turns o w ts)
      (attempt (Variant.ofSize c.plan k c.header o)) fun _ ↦ True := fun k hk w₂ h₂ ↦
    ⟨h₂.make ht hc hk, fun _ _ ↦ trivial⟩
  have hall := (ensures_mapM (R := fun _ _ ↦ True) hsize).bind
    fun outcomes _ ↦ (Variant.looks_gathered outcomes).ensures
  exact (hall w₁ h).1

/-- A history is one order in which images have their turns. -/
theorem History.turns (h : History o w vs w₁) (hw : w.IsSound) :
    Turns o w (vs.flatMap (Visit.turns o)) w₁ := by
  induction h with
  | start => exact .start
  | quiet _ halike ih => exact ih.quiet halike
  | @visit vs w₁ _ d hd n ih =>
    rw [List.flatMap_append, List.flatMap_singleton]
    exact ih.visit hw hd n
  | @expand vs w₁ hhistory v c hv hc ih =>
    have hsound := hhistory.sound hw
    obtain ⟨hshown, -⟩ := Visit.isMade_of_awaiting (hsound.before v hv).1 (hsound.directory v hv) hc
    obtain ⟨t, ht, -⟩ :=
      Visit.exists_task_of_shown (hsound.before v hv).1 (hsound.directory v hv) hshown
    refine ih.expand (t := t) (x := (v.begins o).2) ?_ ((Visit.eq_of_task ht).1 ▸ hc)
    refine List.mem_flatMap.mpr ⟨v, hv, ?_⟩
    rw [Visit.turns, ht]
    exact List.mem_cons_of_mem _ List.mem_cons_self

/-- So is every run of rewrites. -/
theorem turns_leave (hplaceholder : ∀ p, Looks (placeholder p)) (hw : w.IsSound)
    {dss : List (List Document)} (hdss : ∀ ds ∈ dss, ∀ d ∈ ds, d.directory.IsResolved) :
    Turns o w ((allVisits o placeholder dss w).flatMap (Visit.turns o)) (leave o placeholder dss w) := by
  have hhistory := history_leave (o := o) hplaceholder hw hdss .start
  rw [List.nil_append] at hhistory
  exact hhistory.turns hw

end Histories

end ResponsiveImage.Rewrite
