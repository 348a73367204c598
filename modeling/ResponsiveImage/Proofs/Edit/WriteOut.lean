import ResponsiveImage.Edit.Splice

/-!
# Edits made one by one and edits written out at once

Edits are made one by one, each on a text that the earlier ones have shifted, and a drift keeps
count of the shift.  The same text can be written out at once: what stands before the first edit,
its replacement, what stands between it and the second edit, and so on.  The two agree whenever the
edits can be made, and they can be made unless one of them is misplaced.

The loop is carried by one invariant (`spliceFrom_behind`): the edited text is what has been written
out so far followed by the untouched rest of the original, and the drift is the difference between
the length of the former and the offset at which the latter begins.

What no edit touches is written out verbatim, moved by the drift of the edits before it
(`exists_writeOut_eq`).
-/

namespace ResponsiveImage

/-- The drift that a list of edits leaves behind. -/
def Drift.after (es : List Edit) : Drift := es.foldl Drift.advance {}

namespace Edit

/-- The characters of a text from one offset up to another. -/
def span (text : List Char) (start stop : Int) : List Char :=
  (text.take stop.toNat).drop start.toNat

theorem extract_eq_span (text : List Char) (start stop : Nat) :
    text.extract start stop = span text start stop := by
  rw [span, Int.toNat_natCast, Int.toNat_natCast, List.extract_eq_take_drop, List.drop_take]

/-- Where the last of some edits ends; `pos` if there are none. -/
def lastStop (pos : Int) : List Edit → Int
  | [] => pos
  | e :: es => lastStop e.stop es

/-- What is written out for some edits from `pos` up to the end of the last one: for each of them the
gap before it, verbatim, and its replacement. -/
def written (text : List Char) (pos : Int) : List Edit → List Char
  | [] => []
  | e :: es => span text pos e.start ++ e.replacement ++ written text e.stop es

/-- A text with all edits made, written out at once. -/
def writeOut (text : List Char) (es : List Edit) : List Char :=
  written text 0 es ++ text.drop (lastStop 0 es).toNat

/-- An edit reaches out of the text, ends before it starts, or starts before the end of the last of
the edits `done` before it. -/
def Misplaced (text : List Char) (done : List Edit) (e : Edit) : Prop :=
  e.start < 0 ∨ (text.length : Int) < e.stop ∨ e.stop < e.start ∨ e.start < lastStop 0 done

/-- Edits of a text of some length that lie in it one after another, none before `pos`. -/
def InOrder (length : Nat) (pos : Int) : List Edit → Prop
  | [] => True
  | e :: es =>
    0 ≤ e.start ∧ e.start ≤ e.stop ∧ e.stop ≤ length ∧ pos ≤ e.start ∧ InOrder length e.stop es

/-! ## When edits can be made -/

theorem conflictFrom_eq_none_iff {length index : Nat} {pos : Int} {es : List Edit} :
    conflictFrom length index pos es = none ↔ InOrder length pos es := by
  induction es generalizing index pos with
  | nil => simp [conflictFrom, InOrder]
  | cons e es ih =>
    simp only [conflictFrom, InOrder]
    split
    · rename_i h
      constructor
      · intro hc
        cases hc
      · rintro ⟨h₀, h₁, h₂, -⟩
        omega
    · split
      · rename_i h
        constructor
        · intro hc
          cases hc
        · rintro ⟨-, -, -, h₃, -⟩
          omega
      · rw [ih]
        constructor
        · intro h
          exact ⟨by omega, by omega, by omega, by omega, h⟩
        · rintro ⟨-, -, -, -, h⟩
          exact h

theorem lastStop_append (pos : Int) (es fs : List Edit) :
    lastStop pos (es ++ fs) = lastStop (lastStop pos es) fs := by
  induction es generalizing pos with
  | nil => rfl
  | cons e es ih => exact ih e.stop

theorem inOrder_append {length : Nat} {pos : Int} {es fs : List Edit} :
    InOrder length pos (es ++ fs) ↔
      InOrder length pos es ∧ InOrder length (lastStop pos es) fs := by
  induction es generalizing pos with
  | nil => simp [InOrder, lastStop]
  | cons e es ih => simp only [List.cons_append, InOrder, lastStop, ih, and_assoc]

/-- Edits are in order unless one of them is out of place behind those before it. -/
theorem not_inOrder_iff {length : Nat} {pos : Int} {es : List Edit} :
    ¬ InOrder length pos es ↔ ∃ done e rest, es = done ++ e :: rest ∧
      (e.start < 0 ∨ (length : Int) < e.stop ∨ e.stop < e.start ∨ e.start < lastStop pos done) := by
  constructor
  · intro h
    induction es generalizing pos with
    | nil => exact absurd trivial h
    | cons e es ih =>
      by_cases he : e.start < 0 ∨ (length : Int) < e.stop ∨ e.stop < e.start ∨ e.start < pos
      · exact ⟨[], e, es, rfl, he⟩
      · have hes : ¬ InOrder length e.stop es := fun hes ↦
          h ⟨by omega, by omega, by omega, by omega, hes⟩
        obtain ⟨done, f, rest, rfl, hf⟩ := ih hes
        exact ⟨e :: done, f, rest, rfl, hf⟩
  · rintro ⟨done, e, rest, rfl, he⟩ h
    obtain ⟨-, h₀, h₁, h₂, h₃, -⟩ := inOrder_append.mp h
    omega

/-- The edits of a list that is in order end in the text, at `pos` or later. -/
theorem InOrder.lastStop_bounds {length : Nat} {pos : Int} {es : List Edit}
    (h : InOrder length pos es) (hpos : pos ≤ length) :
    pos ≤ lastStop pos es ∧ lastStop pos es ≤ length := by
  induction es generalizing pos with
  | nil => exact ⟨Int.le_refl pos, hpos⟩
  | cons e es ih =>
    obtain ⟨-, h₁, h₂, h₃, hes⟩ := h
    have := ih hes h₂
    simp only [lastStop]
    omega

/-! ## Writing out -/

theorem written_append (text : List Char) (pos : Int) (es fs : List Edit) :
    written text pos (es ++ fs) = written text pos es ++ written text (lastStop pos es) fs := by
  induction es generalizing pos with
  | nil => rfl
  | cons e es ih => simp [written, lastStop, ih]

theorem length_span {text : List Char} {start stop : Int} (h₀ : 0 ≤ start) (h₁ : start ≤ stop)
    (h₂ : stop ≤ text.length) : ((span text start stop).length : Int) = stop - start := by
  rw [span, List.length_drop, List.length_take]
  omega

/-- A text from an offset on is what stands up to a later offset, and the text from there on. -/
theorem drop_eq_span_append {text : List Char} {start stop : Int} (h₁ : start ≤ stop)
    (h₂ : stop ≤ text.length) :
    text.drop start.toNat = span text start stop ++ text.drop stop.toNat := by
  have hle : start.toNat ≤ (text.take stop.toNat).length := by
    rw [List.length_take]
    omega
  rw [span, ← List.drop_append_of_le_length hle, List.take_append_drop]

/-- A span that begins and ends with the middle one of three texts is that text. -/
theorem span_append_mid {front middle back : List Char} {start stop : Int}
    (h₁ : start = front.length) (h₂ : stop = start + middle.length) :
    span (front ++ middle ++ back) start stop = middle := by
  have hstop : stop.toNat = (front ++ middle).length := by
    rw [List.length_append]
    omega
  have hstart : start.toNat = front.length := by omega
  rw [span, hstop, List.take_left, hstart, List.drop_left]

/-- Replacing a span behind a text that is written out already leaves that text alone. -/
theorem replaceSpan_behind {text front replacement : List Char} {pos start stop shift : Int}
    (hpos : 0 ≤ pos) (hfront : (front.length : Int) = pos + shift) (h₁ : pos ≤ start)
    (h₂ : start ≤ stop) (h₃ : stop ≤ text.length) :
    replaceSpan (front ++ text.drop pos.toNat) (start + shift).toNat (stop + shift).toNat
        replacement =
      front ++ (span text pos start ++ replacement) ++ text.drop stop.toNat := by
  have hgap := length_span hpos h₁ (by omega : start ≤ text.length)
  have hold := length_span (by omega : (0 : Int) ≤ start) h₂ h₃
  have hsplit : front ++ text.drop pos.toNat =
      (front ++ span text pos start) ++ (span text start stop ++ text.drop stop.toNat) := by
    rw [drop_eq_span_append h₁ (by omega), drop_eq_span_append h₂ h₃, List.append_assoc]
  have hstart : (start + shift).toNat = (front ++ span text pos start).length := by
    rw [List.length_append]
    omega
  have hstop : (stop + shift).toNat =
      (front ++ span text pos start ++ span text start stop).length := by
    rw [List.length_append, List.length_append]
    omega
  rw [replaceSpan, hsplit, hstart, List.take_left, ← List.append_assoc _ _ (text.drop _), hstop,
    List.drop_left]
  simp only [List.append_assoc]

/-! ## The loop -/

/-- How much longer the text gets from `pos` up to the end of the last edit is what the drift
gains. -/
theorem foldl_advance_delta {text : List Char} {d : Drift} {pos : Int} {es : List Edit}
    (hpos : 0 ≤ pos) (h : InOrder text.length pos es) :
    (es.foldl Drift.advance d).delta =
      d.delta + ((written text pos es).length - (lastStop pos es - pos)) := by
  induction es generalizing d pos with
  | nil => simp [written, lastStop]
  | cons e es ih =>
    obtain ⟨h₀, h₁, h₂, h₃, hes⟩ := h
    have hgap := length_span hpos h₃ (by omega : e.start ≤ text.length)
    rw [List.foldl_cons, ih (by omega) hes, Drift.advance_delta]
    simp only [written, lastStop, List.length_append]
    omega

/-- **The invariant of the loop.**  If the edited text is what has been written out so far and the
rest of the original from `pos` on, making further edits writes them out behind it. -/
theorem spliceFrom_behind {text front : List Char} {d : Drift} {pos : Int} {es : List Edit}
    (hpos : 0 ≤ pos) (hfront : (front.length : Int) = pos + d.delta)
    (h : InOrder text.length pos es) :
    spliceFrom d (front ++ text.drop pos.toNat) es =
      front ++ written text pos es ++ text.drop (lastStop pos es).toNat := by
  induction es generalizing d pos front with
  | nil => simp [spliceFrom, written, lastStop]
  | cons e es ih =>
    obtain ⟨h₀, h₁, h₂, h₃, hes⟩ := h
    have hgap := length_span hpos h₃ (by omega : e.start ≤ text.length)
    simp only [spliceFrom, Drift.locate]
    rw [replaceSpan_behind hpos hfront h₃ h₁ h₂, ih (by omega) ?_ hes]
    · simp only [written, lastStop, List.append_assoc]
    · rw [List.length_append, List.length_append, Drift.advance_delta]
      omega

theorem spliceFrom_eq_writeOut {text : List Char} {es : List Edit}
    (h : InOrder text.length 0 es) : spliceFrom {} text es = writeOut text es := by
  have hbehind : spliceFrom {} ([] ++ text.drop (0 : Int).toNat) es =
      [] ++ written text 0 es ++ text.drop (lastStop 0 es).toNat :=
    spliceFrom_behind (Int.le_refl 0) rfl h
  simpa [writeOut] using hbehind

theorem inOrder_of_applyAll {text result : List Char} {es : List Edit}
    (h : applyAll text es = .ok result) :
    InOrder text.length 0 es ∧ result = writeOut text es := by
  unfold applyAll conflict? at h
  cases hc : conflictFrom text.length 0 0 es with
  | some c =>
    rw [hc] at h
    cases h
  | none =>
    rw [hc] at h
    have horder := conflictFrom_eq_none_iff.mp hc
    exact ⟨horder, (Except.ok.inj h).symm.trans (spliceFrom_eq_writeOut horder)⟩

/-- What is written out for some edits ends where the last of them ends, moved by the drift. -/
theorem length_written {text : List Char} {es : List Edit} (h : InOrder text.length 0 es) :
    ((written text 0 es).length : Int) = lastStop 0 es + (Drift.after es).delta := by
  have := foldl_advance_delta (d := {}) (Int.le_refl 0) h
  rw [Drift.after, this, Int.zero_add]
  omega

theorem length_writeOut {text : List Char} {es : List Edit} (h : InOrder text.length 0 es) :
    ((writeOut text es).length : Int) = text.length + (Drift.after es).delta := by
  have hlast := h.lastStop_bounds (by omega)
  rw [writeOut, List.length_append, List.length_drop]
  have := length_written h
  omega

theorem spliceFrom_append (d : Drift) (text : List Char) (es fs : List Edit) :
    spliceFrom d text (es ++ fs) =
      spliceFrom (es.foldl Drift.advance d) (spliceFrom d text es) fs := by
  induction es generalizing d text with
  | nil => rfl
  | cons e es ih => exact ih _ _

/-! ## Where an edit lands -/

/-- How an edit of `text` is made on the text that the edits `done` before it have left, and what of
it is to be seen in `result`. -/
structure Lands (text result : List Char) (done : List Edit) (e : Edit) : Prop where
  /-- It lands in the text as edited so far. -/
  inside : 0 ≤ ((Drift.after done).locate e).1 ∧
    ((Drift.after done).locate e).1 ≤ ((Drift.after done).locate e).2 ∧
    ((Drift.after done).locate e).2 ≤ (spliceFrom {} text done).length
  /-- What it finds there is what it is to replace. -/
  found : span (spliceFrom {} text done) ((Drift.after done).locate e).1
    ((Drift.after done).locate e).2 = span text e.start e.stop
  /-- That is all it changes. -/
  made : spliceFrom {} text (done ++ [e]) =
    replaceSpan (spliceFrom {} text done) ((Drift.after done).locate e).1.toNat
      ((Drift.after done).locate e).2.toNat e.replacement
  /-- Its replacement stays where it was put. -/
  kept : span result ((Drift.after done).locate e).1
    (((Drift.after done).locate e).1 + e.replacement.length) = e.replacement
  /-- The gap between it and the edit before it is copied verbatim. -/
  gap : span result (lastStop 0 done + (Drift.after done).delta) ((Drift.after done).locate e).1 =
    span text (lastStop 0 done) e.start

theorem lands_of_inOrder {text : List Char} {done rest : List Edit} {e : Edit}
    (h : InOrder text.length 0 (done ++ e :: rest)) :
    Lands text (writeOut text (done ++ e :: rest)) done e := by
  obtain ⟨hdone, h₀, h₁, h₂, h₃, -⟩ := inOrder_append.mp h
  have hpos := (hdone.lastStop_bounds (by omega)).1
  have hfront := length_written hdone
  have hgap := length_span hpos h₃ (by omega : e.start ≤ text.length)
  have hold := length_span h₀ h₁ h₂
  have hedited : spliceFrom {} text done =
      (written text 0 done ++ span text (lastStop 0 done) e.start) ++ span text e.start e.stop ++
        text.drop e.stop.toNat := by
    rw [spliceFrom_eq_writeOut hdone, writeOut, drop_eq_span_append h₃ (by omega),
      drop_eq_span_append h₁ h₂]
    simp only [List.append_assoc]
  have hresult : writeOut text (done ++ e :: rest) =
      written text 0 done ++ span text (lastStop 0 done) e.start ++ (e.replacement ++
        (written text e.stop rest ++ text.drop (lastStop e.stop rest).toNat)) := by
    rw [writeOut, written_append, lastStop_append]
    simp only [written, lastStop, List.append_assoc]
  refine ⟨?_, ?_, ?_, ?_, ?_⟩
  · rw [hedited]
    simp only [Drift.locate, List.length_append, List.length_drop]
    omega
  · rw [hedited]
    apply span_append_mid
    · rw [List.length_append]
      simp only [Drift.locate]
      omega
    · simp only [Drift.locate]
      omega
  · rw [spliceFrom_append]
    rfl
  · rw [hresult, ← List.append_assoc]
    apply span_append_mid
    · rw [List.length_append]
      simp only [Drift.locate]
      omega
    · rfl
  · rw [hresult]
    apply span_append_mid
    · omega
    · simp only [Drift.locate]
      omega

/-! ## What no edit touches -/

theorem span_append_span {text : List Char} {start mid stop : Int} (h₁ : start ≤ mid)
    (h₂ : mid ≤ stop) (h₃ : stop ≤ text.length) :
    span text start mid ++ span text mid stop = span text start stop := by
  have hparts := drop_eq_span_append h₁ (by omega : mid ≤ text.length)
  rw [drop_eq_span_append h₂ h₃, drop_eq_span_append (by omega : start ≤ stop) h₃,
    ← List.append_assoc] at hparts
  exact (List.append_cancel_right hparts).symm

theorem lastStop_le {pos bound : Int} {es : List Edit} (hpos : pos ≤ bound)
    (h : ∀ e ∈ es, e.stop ≤ bound) : lastStop pos es ≤ bound := by
  induction es generalizing pos with
  | nil => exact hpos
  | cons e es ih =>
    obtain ⟨he, hes⟩ := List.forall_mem_cons.mp h
    exact ih he hes

/-- Up to the first edit the text is copied. -/
theorem written_append_drop_eq {text : List Char} {pos mid : Int} {es : List Edit} (hpos : pos ≤ mid)
    (hmid : mid ≤ text.length) (h : ∀ e ∈ es.head?, mid ≤ e.start ∧ e.start ≤ text.length) :
    written text pos es ++ text.drop (lastStop pos es).toNat =
      span text pos mid ++ (written text mid es ++ text.drop (lastStop mid es).toNat) := by
  cases es with
  | nil => exact drop_eq_span_append hpos hmid
  | cons e es =>
    obtain ⟨hstart, hle⟩ := h e rfl
    simp only [written, lastStop, ← span_append_span hpos hstart hle, List.append_assoc]

/-- A span between the edits before it and those behind it is copied, to where the former move it. -/
theorem exists_writeOut_append_eq {text : List Char} {start stop : Int} {done rest : List Edit}
    (h : InOrder text.length 0 (done ++ rest)) (h₀ : 0 ≤ start) (h₁ : start ≤ stop)
    (h₂ : stop ≤ text.length) (hdone : ∀ e ∈ done, e.stop ≤ start)
    (hrest : ∀ e ∈ rest.head?, stop ≤ e.start) :
    ∃ front back, writeOut text (done ++ rest) = front ++ span text start stop ++ back ∧
      (front.length : Int) = start + (Drift.after done).delta := by
  obtain ⟨hin, hinRest⟩ := inOrder_append.mp h
  have hlast₀ := (hin.lastStop_bounds (by omega)).1
  have hlast := lastStop_le h₀ hdone
  have hhead : ∀ e ∈ rest.head?, stop ≤ e.start ∧ e.start ≤ text.length := by
    intro e he
    obtain ⟨rest, rfl⟩ := List.head?_eq_some_iff.mp he
    obtain ⟨-, hle, hstop, -⟩ := hinRest
    exact ⟨hrest e he, Int.le_trans hle hstop⟩
  refine ⟨written text 0 done ++ span text (lastStop 0 done) start,
    written text stop rest ++ text.drop (lastStop stop rest).toNat, ?_, ?_⟩
  · rw [writeOut, written_append, lastStop_append, List.append_assoc,
      written_append_drop_eq hlast (by omega) fun e he ↦
        ⟨Int.le_trans h₁ (hhead e he).1, (hhead e he).2⟩,
      written_append_drop_eq h₁ h₂ hhead]
    simp only [List.append_assoc]
  · rw [List.length_append]
    have hfront := length_written hin
    have hgap := length_span hlast₀ hlast (by omega : start ≤ text.length)
    omega

/-- The edits that are made before an offset. -/
def before (pos : Int) (es : List Edit) : List Edit := es.takeWhile fun e ↦ e.stop ≤ pos

/-- **A span that no edit touches is copied**, to where the edits before it move it. -/
theorem exists_writeOut_eq {text : List Char} {start stop : Int} {es : List Edit}
    (h : InOrder text.length 0 es) (h₀ : 0 ≤ start) (h₁ : start ≤ stop) (h₂ : stop ≤ text.length)
    (hes : ∀ e ∈ es, e.stop ≤ start ∨ stop ≤ e.start) :
    ∃ front back, writeOut text es = front ++ span text start stop ++ back ∧
      (front.length : Int) = start + (Drift.after (before start es)).delta := by
  have hsplit : before start es ++ es.dropWhile (fun e ↦ e.stop ≤ start) = es :=
    List.takeWhile_append_dropWhile
  have hbefore : ∀ e ∈ before start es, e.stop ≤ start := fun e he ↦
    of_decide_eq_true (List.all_eq_true.mp List.all_takeWhile e he)
  have hbehind : ∀ e ∈ (es.dropWhile fun e ↦ e.stop ≤ start).head?, stop ≤ e.start := by
    intro e he
    have hnot := List.head?_dropWhile_not (fun e : Edit ↦ decide (e.stop ≤ start)) es
    rw [Option.mem_def.mp he] at hnot
    have hmem : e ∈ es := (List.dropWhile_sublist _).mem (List.mem_of_head? he)
    exact (hes e hmem).resolve_left (of_decide_eq_false hnot)
  rw [← hsplit] at h
  obtain ⟨front, back, hwritten, hlength⟩ :=
    exists_writeOut_append_eq h h₀ h₁ h₂ hbefore hbehind
  rw [hsplit] at hwritten
  exact ⟨front, back, hwritten, hlength⟩

/-! ## Edits that change nothing -/

/-- An edit that replaces what stands at its place by just that. -/
def Restates (text : List Char) (e : Edit) : Prop := e.replacement = span text e.start e.stop

/-- An edit whose replacement parts from what stands at its place, neither of the two beginning with the
other. -/
def Departs (text : List Char) (e : Edit) : Prop :=
  ¬ e.replacement <+: span text e.start e.stop ∧ ¬ span text e.start e.stop <+: e.replacement

theorem Departs.not_restates {text : List Char} {e : Edit} (h : Departs text e) :
    ¬ Restates text e := fun heq ↦ h.1 (heq ▸ List.prefix_refl _)

/-- Edits of which each restates its text or departs from it change nothing exactly if all restate
it. -/
theorem written_append_drop_eq_self_iff {text : List Char} {pos : Int} {es : List Edit}
    (h : InOrder text.length pos es) (hes : ∀ e ∈ es, Restates text e ∨ Departs text e) :
    written text pos es ++ text.drop (lastStop pos es).toNat = text.drop pos.toNat ↔
      ∀ e ∈ es, Restates text e := by
  induction es generalizing pos with
  | nil => simp [written, lastStop]
  | cons e es ih =>
    obtain ⟨-, h₁, h₂, h₃, hrest⟩ := h
    obtain ⟨he, hes⟩ := List.forall_mem_cons.mp hes
    have hsplit : text.drop pos.toNat =
        span text pos e.start ++ (span text e.start e.stop ++ text.drop e.stop.toNat) := by
      rw [drop_eq_span_append h₃ (by omega), drop_eq_span_append h₁ h₂]
    rw [written, lastStop, hsplit, List.append_assoc, List.append_assoc, List.append_cancel_left_eq,
      List.forall_mem_cons]
    rcases he with he | he
    · rw [and_iff_right he, ← ih hrest hes, he, List.append_cancel_left_eq]
    · refine iff_of_false (fun heq ↦ ?_) fun hall ↦ he.not_restates hall.1
      have hreplacement : e.replacement <+: span text e.start e.stop ++ text.drop e.stop.toNat :=
        heq ▸ List.prefix_append _ _
      rcases List.prefix_or_prefix_of_prefix hreplacement (List.prefix_append _ _) with hle | hle
      · exact he.1 hle
      · exact he.2 hle

theorem writeOut_eq_self_iff {text : List Char} {es : List Edit} (h : InOrder text.length 0 es)
    (hes : ∀ e ∈ es, Restates text e ∨ Departs text e) :
    writeOut text es = text ↔ ∀ e ∈ es, Restates text e :=
  written_append_drop_eq_self_iff h hes

/-- **Making edits is writing the text out.**  Edits are refused exactly if one of them is misplaced
behind those before it.  Otherwise the result is the text written out with the replacements in their
places; it has grown by the final drift, and each edit has landed where its own drift moves it. -/
theorem applyAll_writes_out (text : List Char) (es : List Edit) :
    ((∃ c, applyAll text es = .error c) ↔
      ∃ done e rest, es = done ++ e :: rest ∧ Misplaced text done e) ∧
    ∀ result, applyAll text es = .ok result →
      result = writeOut text es ∧
      (result.length : Int) = text.length + (Drift.after es).delta ∧
      ∀ done e rest, es = done ++ e :: rest → Lands text result done e := by
  have hplaced : ¬ InOrder text.length 0 es ↔
      ∃ done e rest, es = done ++ e :: rest ∧ Misplaced text done e := not_inOrder_iff
  rw [← hplaced]
  unfold applyAll conflict?
  cases hc : conflictFrom text.length 0 0 es with
  | some c =>
    refine ⟨⟨fun _ h ↦ ?_, fun _ ↦ ⟨c, rfl⟩⟩, fun result h ↦ by cases h⟩
    rw [conflictFrom_eq_none_iff.mpr h] at hc
    cases hc
  | none =>
    have h := conflictFrom_eq_none_iff.mp hc
    refine ⟨⟨fun ⟨_, hr⟩ ↦ (nomatch hr), fun hn ↦ absurd h hn⟩, ?_⟩
    intro result hr
    obtain rfl : writeOut text es = result := by
      rw [← spliceFrom_eq_writeOut h]
      exact Except.ok.inj hr
    refine ⟨rfl, length_writeOut h, ?_⟩
    rintro done e rest rfl
    exact lands_of_inOrder h

/-- A replacement that grows, an insertion and a deletion, made on ten digits: the text grows by
two. -/
theorem applyAll_writes_out_digits :
    let es : List Edit := [⟨2, 4, "XXXXX".toList⟩, ⟨4, 4, "+".toList⟩, ⟨7, 9, []⟩]
    applyAll "0123456789".toList es = .ok "01XXXXX+4569".toList ∧
      writeOut "0123456789".toList es = "01XXXXX+4569".toList ∧ (Drift.after es).delta = 2 := by
  intro es
  have hok : applyAll "0123456789".toList es = .ok "01XXXXX+4569".toList := rfl
  obtain ⟨hres, hlen, -⟩ := (applyAll_writes_out "0123456789".toList es).2 _ hok
  refine ⟨hok, hres.symm, ?_⟩
  have hfinal : (("01XXXXX+4569".toList.length : Nat) : Int) = 12 := by decide
  have horiginal : (("0123456789".toList.length : Nat) : Int) = 10 := by decide
  omega

end Edit

end ResponsiveImage
