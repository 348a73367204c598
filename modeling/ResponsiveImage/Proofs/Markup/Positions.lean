import ResponsiveImage.Proofs.Markup.Listing

/-!
# Positions in the masked text

Tags are met in the masked text and read in the text itself, and all that is carried over from the one
to the other is a line and a column.  That is enough: masking moves no character and no end of a line,
so a position reached in the masked text leads back to the offset at which it was reached, in the lines
of the text (`mask_keeps_positions`).

Where a tag was met in the masked text a bracket stands, so its place is always the one its position
gives; no tag is ever searched for.
-/

namespace ResponsiveImage.Markup

open Text

/-! ## What masking does to a text -/

/-- A text masked by another: as long as it, with the same newlines, and with each other character as
it was or a space. -/
structure IsMasked (text masked : List Char) : Prop where
  length_eq : masked.length = text.length
  newline : ∀ i : Nat, masked[i]? = some '\n' ↔ text[i]? = some '\n'
  same_or_space : ∀ (i : Nat) (c : Char), text[i]? = some c →
    masked[i]? = some c ∨ masked[i]? = some ' '

theorem isMasked_mask (text : List Char) : IsMasked text (mask text) := by
  refine ⟨length_mask text, fun i ↦ ?_, fun i c hc ↦ ?_⟩
  · have hends (cs : List Char) : cs[i]? = some '\n' ↔ (lineEnds cs)[i]? = some true := by
      simp [lineEnds]
    rw [hends, hends, lineEnds_mask]
  · obtain ⟨hi, rfl⟩ := List.getElem?_eq_some_iff.mp hc
    have hmask : i < (mask text).length := (length_mask text).symm ▸ hi
    rw [List.getElem?_eq_getElem hmask]
    rcases (List.forall₂_iff_get.mp (forall₂_mask text)).2 i hi hmask with h | ⟨-, h⟩
    · exact .inl (congrArg some h)
    · exact .inr (congrArg some h)

/-! ## Positions -/

theorem lineOf_mask (text : List Char) (offset : Int) :
    lineOf (mask text) offset = lineOf text offset := by
  rw [lineOf, lineStarts_mask, lineOf]

/-- A position that leads to an offset of a text: its column is counted from the beginning of its line,
and its line is the one that holds the offset. -/
structure LeadsTo (text : List Char) (p : Position) (offset : Nat) : Prop where
  lineStart : ∃ start, (lineStarts text)[p.line - 1]? = some start ∧ start + p.column = offset
  lineOf_eq : lineOf text offset = p.line

theorem leadsTo_of_take {text : List Char} {k : Nat} (hk : k ≤ text.length) :
    LeadsTo text (Position.advance {} ((mask text).take k)) k := by
  have hlength : ((mask text).take k).length = k :=
    List.length_take_of_le (by rw [length_mask]; exact hk)
  have hstart := exists_lineStart ((mask text).take k) ((mask text).drop k)
  have hline := lineOf_eq_line ((mask text).take k) ((mask text).drop k)
  rw [List.take_append_drop, hlength] at hstart hline
  rw [lineStarts_mask] at hstart
  rw [lineOf_mask] at hline
  exact ⟨hstart, hline⟩

/-! ## Tags -/

/-- A tag that is found again where it was met, as its position says: a bracket stands there, and so no
search for the tag is made. -/
structure Opening.IsFound (text tagName : List Char) (o : Opening) : Prop where
  offsetAt_eq : offsetAt (lineStarts text) (o.met (mask text)).2 = o.offset
  bracket : ((mask text).drop o.offset).head? = some '<'
  locate_eq :
    (Source.ofText text tagName).locate o.name (o.met (mask text)).2 = .ok o.offset

/-- The tags of a document, nested as they may be, are those that a run over the masked text meets. -/
theorem exists_run_of_outline {text : List Char} {elements : List Element}
    (h : outline text = .ok elements) :
    ∃ ms, Run (mask text) false none 0 ms ∧
      tagsAll elements = (ms.filterMap Mark.opening?).map (Opening.met (mask text)) := by
  rw [outline] at h
  cases hes : eventsOf (mask text) with
  | error r =>
    rw [hes] at h
    cases h
  | ok es =>
    rw [hes] at h
    cases h
    obtain ⟨ms, hrun, -, htags⟩ := exists_run_of_eventsOf hes
    exact ⟨ms, hrun, (tagsAll_elementsOf es).trans htags⟩

/-- **Positions in the masked text are positions in the text.**  Masking changes no length and no
newline, and blanks what it changes.  A position kept up in however many steps over the masked text, up
to an offset, counts the newlines before the offset and how far the last of them lies back, and it leads
to that offset in the lines of the text.  So every tag is found where it was met. -/
theorem mask_keeps_positions (text tagName : List Char) :
    IsMasked text (mask text) ∧
    (∀ (offset : Nat) (steps : List (List Char)), offset ≤ text.length →
      steps.flatten = (mask text).take offset →
        steps.foldl Position.pass {} = Position.advance {} ((mask text).take offset) ∧
        steps.foldl Position.pass {} =
          ⟨1 + ((mask text).take offset).count '\n', columnBehind ((mask text).take offset)⟩ ∧
        LeadsTo text (steps.foldl Position.pass {}) offset) ∧
    ∀ elements, outline text = .ok elements →
      ∃ ms, Run (mask text) false none 0 ms ∧
        tagsAll elements = (ms.filterMap Mark.opening?).map (Opening.met (mask text)) ∧
        ∀ o ∈ ms.filterMap Mark.opening?, o.IsFound text tagName := by
  refine ⟨isMasked_mask text, fun offset steps hoffset hsteps ↦ ?_, fun elements helements ↦ ?_⟩
  · rw [foldl_pass, hsteps]
    exact ⟨rfl, advance_eq _, leadsTo_of_take hoffset⟩
  · obtain ⟨ms, hrun, htags⟩ := exists_run_of_outline helements
    refine ⟨ms, hrun, htags, fun o ho ↦ ?_⟩
    obtain ⟨c, rest, hdrop, -⟩ := hrun.openIn.bracket o ho
    exact ⟨offsetAt_met hdrop, by rw [hdrop]; rfl, locate_met tagName hdrop⟩

/-- Newlines inside an expression and behind a tag, and a carriage return that is blanked. -/
def brokenLines : List Char := "a\x7b\n\r\x7d<p>\n\x7bb\x7d<img>".toList

/-- The second tag is reached in steps that begin and end inside lines. -/
theorem mask_keeps_positions_brokenLines :
    mask brokenLines = "a \n  <p>\n   <img>".toList ∧ LeadsTo brokenLines ⟨3, 3⟩ 12 ∧
    ∃ elements, outline brokenLines = .ok elements ∧ ("img".toList, ⟨3, 3⟩) ∈ tagsAll elements ∧
      (Source.ofText brokenLines "Image".toList).locate "img".toList ⟨3, 3⟩ = .ok 12 := by
  have hmask : mask brokenLines = "a \n  <p>\n   <img>".toList := by decide +kernel
  have hevents : eventsOf "a \n  <p>\n   <img>".toList =
      .ok [.opened "p".toList false ⟨2, 2⟩, .opened "img".toList false ⟨3, 3⟩] := by decide +kernel
  have houtline : outline brokenLines =
      .ok [.mk "p".toList ⟨2, 2⟩ [.mk "img".toList ⟨3, 3⟩ []]] := by
    rw [outline, hmask, hevents]
    rfl
  obtain ⟨-, hsteps, htags⟩ := mask_keeps_positions brokenLines "Image".toList
  obtain ⟨-, -, hleads⟩ := hsteps 12 ["a \n ".toList, " <p>\n ".toList, "  ".toList] (by decide)
    (by rw [hmask]; decide)
  have hposition :
      ["a \n ".toList, " <p>\n ".toList, "  ".toList].foldl Position.pass {} = ⟨3, 3⟩ := by decide
  obtain ⟨ms, -, hmet, hfound⟩ := htags _ houtline
  have hmem : ("img".toList, ⟨3, 3⟩) ∈
      tagsAll [.mk "p".toList ⟨2, 2⟩ [.mk "img".toList ⟨3, 3⟩ []]] := by
    simp [tagsAll, Element.tags]
  refine ⟨hmask, hposition ▸ hleads, _, houtline, hmem, ?_⟩
  rw [hmet] at hmem
  obtain ⟨o, ho, heq⟩ := List.mem_map.mp hmem
  have hname : o.name = "img".toList := congrArg Prod.fst heq
  have hplace : (o.met (mask brokenLines)).2 = ⟨3, 3⟩ := congrArg Prod.snd heq
  have hoffset : offsetAt (lineStarts brokenLines) ⟨3, 3⟩ = 12 := by decide
  have hstart := (hfound o ho).offsetAt_eq
  have hlocate := (hfound o ho).locate_eq
  rw [hplace, hoffset] at hstart
  rw [hplace, hname, ← hstart] at hlocate
  exact hlocate

end ResponsiveImage.Markup
