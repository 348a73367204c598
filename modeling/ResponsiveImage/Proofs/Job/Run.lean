import Mathlib.Data.List.Forall2
import ResponsiveImage.Workspace

/-!
# Running jobs

What a job does is told by its run on a workspace: an outcome, and the workspace that it leaves.  The
run of a compound job is the run of its parts one after another, up to the first that fails.
-/

namespace ResponsiveImage

/-- An outcome is known by its value, if it has one. -/
theorem eq_ok_of_toOption {ε α : Type} {r : Except ε α} {a : α} (h : r.toOption = some a) :
    r = .ok a := by
  cases r with
  | error e => cases h
  | ok b => exact congrArg Except.ok (Option.some_inj.mp h)

/-- An outcome without a value is a fault. -/
theorem exists_eq_error_of_toOption {ε α : Type} {r : Except ε α} (h : r.toOption = none) :
    ∃ e, r = .error e := by
  cases r with
  | error e => exact ⟨e, rfl⟩
  | ok b => cases h

namespace Job

variable {α β : Type}

@[simp] theorem run_pure (a : α) (w : Workspace) : (pure a : Job α).run w = (.ok a, w) := rfl

@[simp] theorem run_throw (f : Fault) (w : Workspace) :
    (throw f : Job α).run w = (.error f, w) := rfl

@[simp] theorem run_get (w : Workspace) : (get : Job Workspace).run w = (.ok w, w) := rfl

@[simp] theorem run_ofExcept_ok {ε : Type} (f : ε → Fault) (a : α) (w : Workspace) :
    (ofExcept f (.ok a)).run w = (.ok a, w) := rfl

@[simp] theorem run_ofExcept_error {ε : Type} (f : ε → Fault) (e : ε) (w : Workspace) :
    (ofExcept f (.error e) : Job α).run w = (.error (f e), w) := rfl

theorem run_ofExcept_eq_ok {ε : Type} {f : ε → Fault} {r : Except ε α} {a : α} {w w' : Workspace} :
    (ofExcept f r).run w = (.ok a, w') ↔ r = .ok a ∧ w' = w := by
  cases r <;> simp [Prod.ext_iff, eq_comm]

@[simp] theorem run_attempt (t : Job α) (w : Workspace) :
    (attempt t).run w = (.ok (t.run w).1, (t.run w).2) := rfl

theorem run_attempt_eq_ok {t : Job α} {r : Except Fault α} {w w' : Workspace} :
    (attempt t).run w = (.ok r, w') ↔ t.run w = (r, w') := by
  simp [Prod.ext_iff]

theorem run_bind (t : Job α) (f : α → Job β) (w : Workspace) :
    (t >>= f).run w =
      match t.run w with
      | (.ok a, w₁) => (f a).run w₁
      | (.error e, w₁) => (.error e, w₁) := by
  cases h : t.run w with
  | mk r w₁ =>
    have ht : t w = (r, w₁) := h
    cases r with
    | ok a => simp only [run, bind, ExceptT.bind, ExceptT.mk, StateT.bind, ht, ExceptT.bindCont]
    | error e =>
      simp only [run, bind, ExceptT.bind, ExceptT.mk, StateT.bind, ht, ExceptT.bindCont]
      rfl

theorem run_bind_of_ok {t : Job α} {f : α → Job β} {w w₁ : Workspace} {a : α}
    (h : t.run w = (.ok a, w₁)) : (t >>= f).run w = (f a).run w₁ := by
  rw [run_bind, h]

theorem run_bind_of_error {t : Job α} {f : α → Job β} {w w₁ : Workspace} {e : Fault}
    (h : t.run w = (.error e, w₁)) : (t >>= f).run w = (.error e, w₁) := by
  rw [run_bind, h]

theorem run_bind_eq_ok {t : Job α} {f : α → Job β} {w w' : Workspace} {b : β}  :
    (t >>= f).run w = (.ok b, w') ↔
      ∃ a w₁, t.run w = (.ok a, w₁) ∧ (f a).run w₁ = (.ok b, w') := by
  rw [run_bind]
  constructor
  · intro h
    split at h
    · exact ⟨_, _, ‹_›, h⟩
    · cases h
  · rintro ⟨a, w₁, ht, hf⟩
    rw [ht]
    exact hf

theorem run_map (g : α → β) (t : Job α) (w : Workspace) :
    (g <$> t).run w = ((t.run w).1.map g, (t.run w).2) := by
  rw [← bind_pure_comp, run_bind]
  split
  · rename_i h
    rw [h]
    rfl
  · rename_i h
    rw [h]
    rfl

/-! ## One job for each item of a list -/

/-- The jobs of a list of items run one after another and none fails: from `w` on they come out as
`bs` and leave `w'`. -/
inductive Runs (f : α → Job β) : Workspace → List α → List β → Workspace → Prop
  | nil {w : Workspace} : Runs f w [] [] w
  | cons {w w₁ w' : Workspace} {a : α} {as : List α} {b : β} {bs : List β}
      (h : (f a).run w = (.ok b, w₁)) (hs : Runs f w₁ as bs w') : Runs f w (a :: as) (b :: bs) w'

theorem run_mapM_eq_ok {f : α → Job β} {as : List α} {bs : List β} {w w' : Workspace} :
    (as.mapM f).run w = (.ok bs, w') ↔ Runs f w as bs w' := by
  induction as generalizing w bs with
  | nil =>
    rw [List.mapM_nil, run_pure]
    constructor
    · rintro ⟨⟩
      exact .nil
    · rintro ⟨⟩
      rfl
  | cons a as ih =>
    rw [List.mapM_cons, run_bind_eq_ok]
    constructor
    · rintro ⟨b, w₁, hb, hrest⟩
      obtain ⟨bs, w₂, hbs, hpure⟩ := run_bind_eq_ok.mp hrest
      cases hpure
      exact .cons hb (ih.mp hbs)
    · rintro (_ | ⟨hb, hbs⟩)
      exact ⟨_, _, hb, run_bind_eq_ok.mpr ⟨_, _, ih.mpr hbs, rfl⟩⟩

theorem Runs.forall₂ {f : α → Job β} {as : List α} {bs : List β} {w w' : Workspace}
    (h : Runs f w as bs w') : List.Forall₂ (fun a b ↦ ∃ w₁ w₂, (f a).run w₁ = (.ok b, w₂)) as bs := by
  induction h with
  | nil => exact .nil
  | cons h _ ih => exact .cons ⟨_, _, h⟩ ih

/-- What the jobs of the first so many items of a list leave. -/
def reached (f : α → Job β) (as : List α) (i : Nat) (w : Workspace) : Workspace :=
  (((as.take i).mapM f).run w).2

theorem run_mapM_cons_of_ok {f : α → Job β} {a : α} {b : β} {w w₁ : Workspace}
    (h : (f a).run w = (.ok b, w₁)) (as : List α) :
    ((a :: as).mapM f).run w = (((as.mapM f).run w₁).1.map (b :: ·), ((as.mapM f).run w₁).2) := by
  rw [List.mapM_cons, run_bind_of_ok h, run_bind]
  split
  · rename_i bs w₂ hrun
    rw [hrun]
    rfl
  · rename_i e w₂ hrun
    rw [hrun]
    rfl

/-- Jobs that never fail all come out, each with what it comes to in what those before it leave. -/
theorem run_mapM_of_total {f : α → Job β} (hf : ∀ a w, ∃ b w', (f a).run w = (.ok b, w'))
    (as : List α) (w : Workspace) :
    ∃ bs w', (as.mapM f).run w = (.ok bs, w') ∧ bs.length = as.length ∧
      ∀ i a b, as[i]? = some a → bs[i]? = some b → ((f a).run (reached f as i w)).1 = .ok b := by
  induction as generalizing w with
  | nil => exact ⟨[], w, rfl, rfl, fun i a b ha ↦ by simp at ha⟩
  | cons a as ih =>
    obtain ⟨b, w₁, hb⟩ := hf a w
    obtain ⟨bs, w', hbs, hlength, hall⟩ := ih w₁
    refine ⟨b :: bs, w', ?_, by simp [hlength], fun i c d hc hd ↦ ?_⟩
    · rw [run_mapM_cons_of_ok hb, hbs]
      rfl
    · cases i with
      | zero =>
        obtain rfl : a = c := by simpa using hc
        obtain rfl : b = d := by simpa using hd
        rw [show reached f (a :: as) 0 w = w from rfl, hb]
      | succ i =>
        have hreached : reached f (a :: as) (i + 1) w = reached f as i w₁ := by
          rw [reached, List.take_succ_cons, run_mapM_cons_of_ok hb]
          rfl
        rw [hreached]
        exact hall i c d (by simpa using hc) (by simpa using hd)

/-! ## Keeping an invariant -/

/-- A job that keeps an invariant of the workspace, also if it fails, and comes out with nothing but
what has a property. -/
def Ensures (P : Workspace → Prop) (t : Job α) (Q : α → Prop) : Prop :=
  ∀ w, P w → P (t.run w).2 ∧ ∀ a, (t.run w).1 = .ok a → Q a

section Ensures

variable {P : Workspace → Prop} {t : Job α} {Q : α → Prop} {S : β → Prop}

theorem ensures_pure {a : α} (h : Q a) : Ensures P (pure a) Q := by
  intro w hw
  refine ⟨hw, fun b hb ↦ ?_⟩
  cases hb
  exact h

theorem ensures_of_run {w w' : Workspace} {a : α} (hw : P w) (h : Ensures P t Q)
    (hrun : t.run w = (.ok a, w')) : P w' ∧ Q a := by
  obtain ⟨hw', hQ⟩ := h w hw
  rw [hrun] at hw' hQ
  exact ⟨hw', hQ a rfl⟩

theorem Ensures.bind {f : α → Job β} (ht : Ensures P t Q) (hf : ∀ a, Q a → Ensures P (f a) S) :
    Ensures P (t >>= f) S := by
  intro w hw
  obtain ⟨hw₁, hQ⟩ := ht w hw
  cases hrun : t.run w with
  | mk r w₁ =>
    rw [hrun] at hw₁ hQ
    cases r with
    | error e =>
      rw [run_bind_of_error hrun]
      exact ⟨hw₁, fun b hb ↦ nomatch hb⟩
    | ok a =>
      rw [run_bind_of_ok hrun]
      exact hf a (hQ a rfl) w₁ hw₁

theorem ensures_mapM {f : α → Job β} {R : α → β → Prop} {as : List α}
    (h : ∀ a ∈ as, Ensures P (f a) (R a)) : Ensures P (as.mapM f) (List.Forall₂ R as) := by
  induction as with
  | nil =>
    rw [List.mapM_nil]
    exact ensures_pure .nil
  | cons a as ih =>
    obtain ⟨ha, has⟩ := List.forall_mem_cons.mp h
    rw [List.mapM_cons]
    exact ha.bind fun b hb ↦ (ih has).bind fun bs hbs ↦ ensures_pure (.cons hb hbs)

end Ensures

end Job

end ResponsiveImage
