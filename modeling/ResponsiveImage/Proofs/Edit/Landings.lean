import ResponsiveImage.Proofs.Edit.Collisions

/-!
# Where the text between edits lands

A text that is written out with its edits made can be cut wherever no edit is cut in two: what stands
between two such offsets is written out by itself (`writeOut_append`), and has grown by the drift of the
edits in it (`length_rewritten`).  An offset that no edit touches is moved by the drift of the edits
before it (`landing`), and every character that has come out is one of a replacement, or has been moved
there (`exists_landing`).
-/

namespace ResponsiveImage.Edit

variable {text : List Char} {start stop pos : Int} {done own rest es fs : List Edit}

/-! ## Between two offsets -/

/-- What some edits make of a text from an offset on. -/
def writtenOn (text : List Char) (pos : Int) (es : List Edit) : List Char :=
  written text pos es ++ text.drop (lastStop pos es).toNat

/-- What some edits make of the text between two offsets. -/
def rewritten (text : List Char) (start stop : Int) (es : List Edit) : List Char :=
  written text start es ++ span text (lastStop start es) stop

/-- Edits that lie between two offsets. -/
def Between (start stop : Int) (es : List Edit) : Prop := ∀ e ∈ es, start ≤ e.start ∧ e.stop ≤ stop

theorem between_nil (start stop : Int) : Between start stop [] := by
  rintro e ⟨⟩

theorem InOrder.since {length : Nat} (h : InOrder length pos es) (hstart : ∀ e ∈ es, start ≤ e.start) :
    InOrder length start es := by
  cases es with
  | nil => trivial
  | cons e es => exact ⟨h.1, h.2.1, h.2.2.1, hstart e List.mem_cons_self, h.2.2.2.2⟩

theorem InOrder.start_le {length : Nat} (h : InOrder length pos es) :
    ∀ e ∈ es, e.start ≤ e.stop ∧ e.stop ≤ length := by
  induction es generalizing pos with
  | nil => exact List.forall_mem_nil _
  | cons e es ih =>
    intro f hf
    rcases List.mem_cons.mp hf with rfl | hf
    · exact ⟨h.2.1, h.2.2.1⟩
    · exact ih h.2.2.2.2 f hf

theorem InOrder.le_start {length : Nat} (h : InOrder length pos es) (hpos : pos ≤ length) :
    ∀ e ∈ es, pos ≤ e.start := by
  intro e he
  obtain ⟨front, back, rfl⟩ := List.append_of_mem he
  obtain ⟨hfront, -, -, -, hle, -⟩ := inOrder_append.mp h
  exact Int.le_trans (hfront.lastStop_bounds hpos).1 hle

theorem lastStop_le_of_between (h : Between start stop es) (hle : start ≤ stop) :
    lastStop start es ≤ stop := lastStop_le hle fun e he ↦ (h e he).2

/-- A text is written out up to an offset that cuts no edit in two, and then on from there. -/
theorem writtenOn_append (hdone : Between pos stop done) (hpos : pos ≤ stop) (hstop : stop ≤ text.length)
    (hrest : ∀ e ∈ rest.head?, stop ≤ e.start ∧ e.start ≤ text.length) :
    writtenOn text pos (done ++ rest) = rewritten text pos stop done ++ writtenOn text stop rest := by
  rw [writtenOn, written_append, lastStop_append, List.append_assoc,
    written_append_drop_eq (lastStop_le_of_between hdone hpos) hstop hrest, rewritten, writtenOn]
  simp only [List.append_assoc]

theorem length_rewritten (h : InOrder text.length start es) (hes : Between start stop es)
    (h₀ : 0 ≤ start) (hle : start ≤ stop) (hstop : stop ≤ text.length) :
    ((rewritten text start stop es).length : Int) = stop - start + (Drift.after es).delta := by
  have hlast := lastStop_le_of_between hes hle
  have hbounds := h.lastStop_bounds (by omega)
  have hdrift := foldl_advance_delta (d := {}) h₀ h
  rw [rewritten, List.length_append]
  have hgap : ((span text (lastStop start es) stop).length : Int) = stop - lastStop start es :=
    length_span (by omega) hlast hstop
  rw [Drift.after, hdrift]
  push_cast
  rw [hgap]
  omega

/-- What stands between two offsets is written out by itself, if they cut no edit in two. -/
theorem writeOut_append (h : InOrder text.length 0 (done ++ (own ++ rest)))
    (hdone : ∀ e ∈ done, e.stop ≤ start) (hown : Between start stop own)
    (hrest : ∀ e ∈ rest, stop ≤ e.start)
    (h₀ : 0 ≤ start) (hle : start ≤ stop) (hstop : stop ≤ text.length) :
    writeOut text (done ++ (own ++ rest)) =
      rewritten text 0 start done ++ (rewritten text start stop own ++ writtenOn text stop rest) := by
  have hbounds := h.start_le
  obtain ⟨hin, -⟩ := inOrder_append.mp h
  have hfirst : Between 0 start done := by
    intro e he
    exact ⟨hin.le_start (by omega) e he, hdone e he⟩
  have hlength : ∀ e ∈ own ++ rest, e.start ≤ text.length := by
    intro e he
    obtain ⟨hse, hel⟩ := hbounds e (List.mem_append_right done he)
    exact Int.le_trans hse hel
  have hstarts : ∀ e ∈ own ++ rest, start ≤ e.start := by
    intro e he
    rcases List.mem_append.mp he with he | he
    · exact (hown e he).1
    · exact Int.le_trans hle (hrest e he)
  calc
    writeOut text (done ++ (own ++ rest))
    _ = rewritten text 0 start done ++ writtenOn text start (own ++ rest) :=
      writtenOn_append hfirst h₀ (by omega) fun e he ↦
        ⟨hstarts e (List.mem_of_head? he), hlength e (List.mem_of_head? he)⟩
    _ = _ := by
      rw [writtenOn_append hown hle hstop fun e he ↦
        ⟨hrest e (List.mem_of_head? he), hlength e (List.mem_append_right own (List.mem_of_head? he))⟩]

/-! ## Landing -/

/-- Where an offset that no edit touches comes to lie. -/
def landing (es : List Edit) (k : Nat) : Int := k + (Drift.after (before k es)).delta

/-- The edits from the first one on that is not made before an offset. -/
def behind (pos : Int) (es : List Edit) : List Edit := es.dropWhile fun e ↦ e.stop ≤ pos

theorem before_append {k : Nat} (hdone : ∀ e ∈ done, e.stop ≤ k) (hrest : ∀ e ∈ rest, ¬ e.stop ≤ k) :
    before k (done ++ rest) = done := by
  rw [before, List.takeWhile_append_of_pos fun e he ↦ decide_eq_true (hdone e he)]
  cases rest with
  | nil => rw [List.takeWhile_nil, List.append_nil]
  | cons e rest =>
    rw [List.takeWhile_cons_of_neg (by simpa using hrest e List.mem_cons_self), List.append_nil]

theorem delta_after_cons (e : Edit) (es : List Edit) :
    (Drift.after (e :: es)).delta =
      e.replacement.length - (e.stop - e.start) + (Drift.after es).delta := by
  have hshift (d : Drift) (es : List Edit) :
      (es.foldl Drift.advance d).delta = d.delta + (Drift.after es).delta := by
    induction es generalizing d with
    | nil => simp [Drift.after]
    | cons e es ih =>
      have hcons : Drift.after (e :: es) = es.foldl Drift.advance (Drift.advance {} e) := rfl
      rw [List.foldl_cons, ih, hcons, ih, Drift.advance_delta, Drift.advance_delta]
      simp only [Int.zero_add, Int.add_assoc]
  rw [Drift.after, List.foldl_cons, hshift, Drift.advance_delta, Int.zero_add]

theorem delta_after_append (es fs : List Edit) :
    (Drift.after (es ++ fs)).delta = (Drift.after es).delta + (Drift.after fs).delta := by
  induction es with
  | nil => simp [Drift.after]
  | cons e es ih => rw [List.cons_append, delta_after_cons, ih, delta_after_cons, Int.add_assoc]

/-- A character that comes out is one of a replacement, or comes from an offset that no edit touches. -/
theorem exists_offset_of_writtenOn (h : InOrder text.length pos es) (hpos : 0 ≤ pos) {i : Nat} {c : Char}
    (hi : (writtenOn text pos es)[i]? = some c) :
    (∃ e ∈ es, c ∈ e.replacement) ∨
      ∃ k : Nat, k < text.length ∧ pos ≤ k ∧ (i : Int) = landing es k - pos ∧
        ∀ e ∈ es, e.stop ≤ k ∨ (k : Int) < e.start := by
  induction es generalizing pos i with
  | nil =>
    have hdrop : (text.drop pos.toNat)[i]? = some c := hi
    rw [List.getElem?_drop] at hdrop
    have hlt := (List.getElem?_eq_some_iff.mp hdrop).1
    refine .inr ⟨pos.toNat + i, hlt, by omega, ?_, List.forall_mem_nil _⟩
    rw [landing, before, List.takeWhile_nil]
    simp only [Drift.after, List.foldl_nil]
    omega
  | cons e es ih =>
    obtain ⟨h₀, h₁, h₂, h₃, hes⟩ := h
    have hgap : ((span text pos e.start).length : Int) = e.start - pos :=
      length_span hpos h₃ (by omega)
    have hout : writtenOn text pos (e :: es) =
        span text pos e.start ++ (e.replacement ++ writtenOn text e.stop es) := by
      simp only [writtenOn, written, lastStop, List.append_assoc]
    have hbehind := hes.le_start h₂
    rw [hout] at hi
    rcases Nat.lt_or_ge i (span text pos e.start).length with hlt | hge
    · -- the character stands before the edit
      refine .inr ⟨pos.toNat + i, by omega, by omega, ?_, fun f hf ↦ .inr ?_⟩
      · have hnone : before (pos.toNat + i : Nat) (e :: es) = [] := by
          rw [before, List.takeWhile_cons_of_neg]
          simp only [decide_eq_true_eq]
          omega
        rw [landing, hnone]
        simp only [Drift.after, List.foldl_nil]
        omega
      · rcases List.mem_cons.mp hf with rfl | hf
        · omega
        · have := hbehind f hf
          omega
    · rw [List.getElem?_append_right hge] at hi
      rcases Nat.lt_or_ge (i - (span text pos e.start).length) e.replacement.length with hlt | hge'
      · rw [List.getElem?_append_left hlt] at hi
        exact .inl ⟨e, List.mem_cons_self, List.mem_of_getElem? hi⟩
      · -- the character stands behind the edit
        rw [List.getElem?_append_right hge'] at hi
        rcases ih hes (by omega) hi with ⟨f, hf, hc⟩ | ⟨k, hk, hle, hland, htouch⟩
        · exact .inl ⟨f, List.mem_cons_of_mem e hf, hc⟩
        · refine .inr ⟨k, hk, by omega, ?_, fun f hf ↦ ?_⟩
          · have hbefore : before k (e :: es) = e :: before k es := by
              rw [before, List.takeWhile_cons_of_pos (by simpa using hle)]
              rfl
            rw [landing, hbefore, delta_after_cons]
            rw [landing] at hland
            omega
          · rcases List.mem_cons.mp hf with rfl | hf
            · exact .inl hle
            · exact htouch f hf

/-- **A character of an edited text is one of a replacement, or has landed there.** -/
theorem exists_landing (h : InOrder text.length 0 es) {i : Nat} {c : Char}
    (hi : (writeOut text es)[i]? = some c) :
    (∃ e ∈ es, c ∈ e.replacement) ∨
      ∃ k : Nat, k < text.length ∧ (i : Int) = landing es k ∧
        ∀ e ∈ es, e.stop ≤ k ∨ (k : Int) < e.start := by
  rcases exists_offset_of_writtenOn h (Int.le_refl 0) hi with hin | ⟨k, hk, -, hland, htouch⟩
  · exact .inl hin
  · exact .inr ⟨k, hk, by omega, htouch⟩

theorem before_append_behind (pos : Int) (es : List Edit) : before pos es ++ behind pos es = es :=
  List.takeWhile_append_dropWhile

theorem stop_le_of_mem_before {e : Edit} (he : e ∈ before pos es) : e.stop ≤ pos :=
  of_decide_eq_true (List.all_eq_true.mp List.all_takeWhile e he)

theorem lt_stop_of_behind {e : Edit} (h : behind pos es = e :: rest) : pos < e.stop := by
  have hnot := List.head?_dropWhile_not (fun e : Edit ↦ decide (e.stop ≤ pos)) es
  rw [show es.dropWhile _ = _ from h] at hnot
  exact Int.not_le.mp (of_decide_eq_false hnot)

section Landing

variable {i k : Nat}

/-- Where an offset has landed, the text is copied up to the next edit. -/
theorem exists_drop_landing (h : InOrder text.length 0 es) (hland : (i : Int) = landing es k)
    (hle : k ≤ stop) (hstop : stop ≤ text.length) (hhead : ∀ e ∈ (behind k es).head?, stop ≤ e.start) :
    ∃ tail, (writeOut text es).drop i = span text k stop ++ tail := by
  rw [← before_append_behind k es] at h
  obtain ⟨front, tail, hwritten, hlength⟩ :=
    exists_writeOut_append_eq h (by omega) hle hstop (fun _ ↦ stop_le_of_mem_before) hhead
  rw [before_append_behind] at hwritten
  refine ⟨tail, ?_⟩
  rw [hwritten, List.append_assoc, List.drop_left']
  rw [landing] at hland
  omega

/-- Behind the last edit all of the text is copied. -/
theorem drop_landing_of_behind_eq_nil (h : InOrder text.length 0 es) (hland : (i : Int) = landing es k)
    (hk : k ≤ text.length) (hnil : behind k es = []) : (writeOut text es).drop i = text.drop k := by
  have hall : before k es = es := by
    have hsplit := before_append_behind k es
    rwa [hnil, List.append_nil] at hsplit
  have hstops : ∀ e ∈ es, e.stop ≤ (k : Int) := fun e he ↦ stop_le_of_mem_before (hall.symm ▸ he)
  have hcut : writeOut text (es ++ ([] ++ [])) = rewritten text 0 k es ++
      (rewritten text k text.length [] ++ writtenOn text text.length []) :=
    writeOut_append (by simpa using h) hstops (between_nil _ _) (List.forall_mem_nil _)
      (by omega) (by omega) (Int.le_refl _)
  have hdone : Between 0 k es := fun e he ↦ ⟨h.le_start (by omega) e he, hstops e he⟩
  have hlength := length_rewritten h hdone (Int.le_refl 0) (by omega) (by omega)
  have hlast : rewritten text k text.length [] ++ writtenOn text text.length [] = text.drop k := by
    simp [rewritten, writtenOn, written, lastStop, span]
  rw [landing, hall] at hland
  rw [List.append_nil, List.append_nil] at hcut
  rw [hcut, List.drop_left' (by omega), hlast]

/-- **What is read where an offset has landed is read at the offset**, unless an edit begins in it:
then it is up to the first such edit. -/
theorem prefix_of_landing (h : InOrder text.length 0 es) (hland : (i : Int) = landing es k)
    (htouch : ∀ e ∈ es, e.stop ≤ (k : Int) ∨ (k : Int) < e.start) (hk : k ≤ text.length) {cs : List Char}
    (hcs : cs <+: (writeOut text es).drop i) :
    cs <+: text.drop k ∨ ∃ e ∈ es, (k : Int) < e.start ∧ e.start < k + cs.length ∧
      (∀ f ∈ es, f.stop ≤ (k : Int) ∨ e.start ≤ f.start) ∧ span text k e.start <+: cs := by
  cases hrest : behind k es with
  | nil =>
    rw [drop_landing_of_behind_eq_nil h hland hk hrest] at hcs
    exact .inl hcs
  | cons e rest =>
    have hsplit := before_append_behind k es
    rw [hrest] at hsplit
    have hmem : e ∈ es := hsplit ▸ List.mem_append_right _ List.mem_cons_self
    have hstart : (k : Int) < e.start :=
      (htouch e hmem).resolve_left (Int.not_le.mpr (lt_stop_of_behind hrest))
    obtain ⟨hle, hlength⟩ := h.start_le e hmem
    have hhead : ∀ stop : Int, stop ≤ e.start → ∀ f ∈ (behind k es).head?, stop ≤ f.start := by
      rw [hrest]
      rintro stop hstop f ⟨⟩
      exact hstop
    by_cases hlt : e.start < k + cs.length
    · have hspan : ((span text k e.start).length : Int) = e.start - k :=
        length_span (by omega) (Int.le_of_lt hstart) (by omega)
      obtain ⟨tail, hdrop⟩ :=
        exists_drop_landing h hland (Int.le_of_lt hstart) (by omega) (hhead _ (Int.le_refl _))
      rw [hdrop] at hcs
      refine .inr ⟨e, hmem, hstart, hlt, fun f hf ↦ ?_, ?_⟩
      · rw [← hsplit] at hf h
        obtain ⟨-, -, -, -, -, hbehind⟩ := inOrder_append.mp h
        rcases List.mem_append.mp hf with hf | hf
        · exact .inl (stop_le_of_mem_before hf)
        · rcases List.mem_cons.mp hf with rfl | hf
          · exact .inr (Int.le_refl _)
          · exact .inr (Int.le_trans hle (hbehind.le_start hlength f hf))
      · exact List.prefix_of_prefix_length_le (List.prefix_append _ tail) hcs (by omega)
    · obtain ⟨tail, hdrop⟩ :=
        exists_drop_landing h hland (by omega) (by omega) (hhead _ (Int.not_lt.mp hlt))
      have hspan : ((span text k (k + cs.length)).length : Int) = k + cs.length - k :=
        length_span (by omega) (by omega) (by omega)
      rw [hdrop] at hcs
      have hbegins := List.prefix_of_prefix_length_le hcs (List.prefix_append _ tail) (by omega)
      rw [span, List.drop_take] at hbegins
      exact .inl (hbegins.trans (List.take_prefix _ _))

end Landing

end ResponsiveImage.Edit
