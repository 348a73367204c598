import ResponsiveImage.Proofs.Rewrite.Histories

/-!
# Closing pages

A page whose edits can be made is closed with the text that they make, and one message is logged.
-/

namespace ResponsiveImage

open Job

/-- Edits that are in order are left in it. -/
theorem Edit.sort_eq_self {es : List Edit} (h : es.Pairwise fun a b ↦ Edit.le a b = true) :
    Edit.sort es = es :=
  List.mergeSort_of_pairwise h

namespace Rewrite

variable {o : Options} {placeholder : Placeholder} {w w₁ : Workspace} {d : Document}

/-- The message that a page has been edited. -/
def Page.entry (p : Page) : LogEntry :=
  let edited := p.editedCount
  let total := p.progress.length
  let directory := p.document.directory
  ⟨.info, .rewriting, .timed s!"Rewrote {edited} of {total} image node(s) in {directory} (" ")"⟩

/-- What a page leaves that is closed with its edits made. -/
def Page.closed (p : Page) (w : Workspace) : Workspace := { w with log := w.log ++ [p.entry] }

theorem Page.run_close_of_applyAll {p : Page} {es : List Edit} {text : List Char}
    (hresult : p.result? = none) (hedits : p.progress.flatMap (·.edits) = es)
    (hsorted : es.Pairwise fun a b ↦ Edit.le a b = true) (hne : es ≠ [])
    (happly : Edit.applyAll p.document.text es = .ok text) (w : Workspace) :
    p.close.run w = (.ok { p with result? := some text }, p.closed w) := by
  have hall : p.edits = es := by rw [Page.edits, hedits, Edit.sort_eq_self hsorted]
  have hempty : es.isEmpty = false := by
    cases es with
    | nil => exact absurd rfl hne
    | cons e es => rfl
  have hfinal : p.finalText.run w = (.ok text, p.closed w) := by
    rw [Page.finalText, hall]
    simp only [hempty, happly]
    rfl
  rw [Page.close, hresult]
  exact run_bind_of_ok hfinal

variable [Codec]

/-- A document that is worked on, up to its closing. -/
theorem run_completed_singleton {ns : List Markup.Node}
    (hopened : ([d].mapM (Page.opened o)).run w = (.ok [(d, ns)], w)) :
    (completed o placeholder [d]).run w = (worked o placeholder [(d, ns)]).run w := by
  rw [completed, run_bind_of_ok hopened]

/-- A document with edits that can be made, given those and no others. -/
theorem run_documents_of_page {page : Page} {es : List Edit} {text : List Char}
    (hcompleted : (completed o placeholder [d]).run w = (.ok [page], w₁))
    (hfault : page.fault? = none) (hresult : page.result? = none)
    (hedits : page.progress.flatMap (·.edits) = es)
    (hsorted : es.Pairwise fun a b ↦ Edit.le a b = true) (hne : es ≠ [])
    (happly : Edit.applyAll page.document.text es = .ok text) :
    (documents o placeholder [d]).run w = (.ok [text], page.closed w₁) := by
  have hclose := Page.run_close_of_applyAll hresult hedits hsorted hne happly w₁
  have hpages : ([page].mapM Page.close).run w₁ =
      (.ok [{ page with result? := some text }], page.closed w₁) := by
    rw [List.mapM_cons, run_bind_of_ok hclose]
    rfl
  have hnone : [page].findSome? (·.fault?) = none := by simp [hfault]
  rw [documents_eq, run_bind_of_ok hcompleted, hnone]
  exact run_bind_of_ok hpages

end Rewrite

end ResponsiveImage
