import ResponsiveImage.Proofs.Edit.WriteOut
import ResponsiveImage.Proofs.Markup.SpanTexts

/-!
# Tags in other surroundings

A start tag is read by its own characters alone: nothing before its first bracket plays a part, and
nothing behind its last one is looked at.  Put between any two texts it reads as it did, with every
span moved along (`StartTag.readAt_alone`).  So a tag survives the edits of a document that do not
touch it, however many they are: it is copied to where the edits before it move it, and reads the same
there.

That reading stops at the closing bracket is an induction on the items of the tag, none of which is
looked at beyond that bracket.
-/

namespace ResponsiveImage.Markup

open Text

/-- A tag with all its spans moved. -/
def StartTag.move (old new : Nat) (tag : StartTag) : StartTag :=
  ⟨tag.name, tag.attributes.map (·.move old new), moved old new tag.stop⟩

/-! ## The end of a tag -/

/-- A body ends with its closing bracket, and is the same body before anything else. -/
theorem IsBody.exists_bracket {i stop : Nat} {cs : List Char} {as : List Attribute}
    (h : IsBody i cs as stop) :
    ∃ inside rest, cs = inside ++ '>' :: rest ∧ stop = i + (inside.length + 1) ∧
      ∀ rest', IsBody i (inside ++ '>' :: rest') as stop := by
  induction h with
  | @close i rest => exact ⟨[], rest, rfl, rfl, fun _ ↦ .close⟩
  | @selfClose i rest => exact ⟨['/'], rest, rfl, rfl, fun _ ↦ .selfClose⟩
  | @item i stop text rest a as hitem h ih =>
    obtain ⟨inside, rest, rfl, rfl, hinside⟩ := ih
    refine ⟨text ++ inside, rest, by simp, by rw [List.length_append]; omega, fun rest' ↦ ?_⟩
    rw [List.append_assoc]
    -- what follows the item changes only behind the bracket, and the bracket shields it
    exact .item (hitem.swap rfl shields_bracket rest') (hinside rest')

/-- A tag that is read is a text of its own, which reads the same between any two others. -/
theorem StartTag.exists_own {text : List Char} {pos : Nat} {tag : StartTag}
    (h : StartTag.readAt text pos = .ok tag) :
    ∃ own rest, text.drop pos = own ++ rest ∧ tag.stop = pos + own.length ∧
      ∀ front back, StartTag.readAt (front ++ own ++ back) front.length =
        .ok (tag.move pos front.length) := by
  obtain ⟨rest, hdrop, hname, hbody⟩ := StartTag.readAt_eq_ok_iff.mp h
  obtain ⟨inside, rest, rfl, hstop, hinside⟩ := hbody.exists_bracket
  refine ⟨'<' :: (tag.name ++ (inside ++ ['>'])), rest, by simp [hdrop], ?_, fun front back ↦ ?_⟩
  · rw [hstop]
    simp only [List.length_cons, List.length_append, List.length_nil]
    omega
  · have hmoved := (hinside back).move front.length (Nat.le_add_right_of_le (Nat.le_succ pos))
    have hstart : moved pos front.length (pos + 1 + tag.name.length) =
        front.length + 1 + tag.name.length := by
      simp only [moved]
      omega
    rw [hstart] at hmoved
    refine StartTag.readAt_eq_ok_iff.mpr ⟨inside ++ '>' :: back, ?_, ⟨hname.start, ?_⟩, hmoved⟩
    · rw [List.append_assoc, List.drop_left]
      simp [StartTag.move]
    · exact hname.stops.swap back

/-! ## Between other texts -/

/-- **A tag is read by its own characters alone.**  All its spans lie inside it.  Between any two texts
it reads as it did, with its spans moved along; and so it does after any edits of the text that do not
touch it, at the offset to which those before it move it. -/
theorem StartTag.readAt_alone {text : List Char} {pos : Nat} {tag : StartTag}
    (h : StartTag.readAt text pos = .ok tag) :
    (pos < tag.stop ∧ ∀ a ∈ tag.attributes, a.LiesIn (pos + 1) (tag.stop - 1)) ∧
    (∀ front back, StartTag.readAt (front ++ text.extract pos tag.stop ++ back) front.length =
      .ok (tag.move pos front.length)) ∧
    ∀ es edited, Edit.applyAll text es = .ok edited →
      (∀ e ∈ es, e.stop ≤ pos ∨ tag.stop ≤ e.start) →
      ∃ k : Nat, (k : Int) = pos + (Drift.after (Edit.before pos es)).delta ∧
        StartTag.readAt edited k = .ok (tag.move pos k) := by
  obtain ⟨hlt, hle, -⟩ := StartTag.ends_of_readAt h
  obtain ⟨own, rest, hdrop, hstop, hread⟩ := StartTag.exists_own h
  have hown : text.extract pos tag.stop = own := hstop ▸ extract_of_drop hdrop
  refine ⟨⟨by omega, fun a ha ↦ ?_⟩, fun front back ↦ ?_, fun es edited hedited hes ↦ ?_⟩
  · obtain ⟨rest, -, -, hbody⟩ := StartTag.readAt_eq_ok_iff.mp h
    exact (hbody.liesIn.1 a ha).mono (by omega) (Nat.le_refl _)
  · rw [hown]
    exact hread front back
  · obtain ⟨horder, rfl⟩ := Edit.inOrder_of_applyAll hedited
    obtain ⟨front, back, hwritten, hlength⟩ :=
      Edit.exists_writeOut_eq horder (by omega) (by omega) (by omega) hes
    refine ⟨front.length, hlength, ?_⟩
    rw [hwritten, ← Edit.extract_eq_span, hown]
    exact hread front back

/-- A tag with a quoted bracket, an expression, and a value that ends in a slash, between texts that
would go on with each of its parts. -/
theorem StartTag.readAt_alone_bracketed :
    ∃ tag, StartTag.readAt "a<b c='>' \x7bd\x7d e=f/>g".toList 1 = .ok tag ∧ tag.stop = 19 ∧
      StartTag.readAt ("<<".toList ++ "<b c='>' \x7bd\x7d e=f/>".toList ++ ">=\"".toList) 2 =
        .ok (tag.move 1 2) ∧
      ∃ edited, Edit.applyAll "a<b c='>' \x7bd\x7d e=f/>g".toList
          [⟨0, 1, "'\x7b".toList⟩, ⟨1, 1, "<".toList⟩, ⟨19, 20, "/>".toList⟩] = .ok edited ∧
        edited = "'\x7b<<b c='>' \x7bd\x7d e=f/>/>".toList ∧
        StartTag.readAt edited 3 = .ok (tag.move 1 3) := by
  have h : StartTag.readAt "a<b c='>' \x7bd\x7d e=f/>g".toList 1 = .ok ⟨"b".toList,
      [⟨"c".toList, .static ">".toList 7 8, 4, 9⟩, ⟨"d".toList, .dynamic .shorthand, 10, 13⟩,
        ⟨"e".toList, .static "f".toList 16 17, 14, 17⟩], 19⟩ := by cbv
  have hedited : Edit.applyAll "a<b c='>' \x7bd\x7d e=f/>g".toList
      [⟨0, 1, "'\x7b".toList⟩, ⟨1, 1, "<".toList⟩, ⟨19, 20, "/>".toList⟩] =
        .ok "'\x7b<<b c='>' \x7bd\x7d e=f/>/>".toList := by decide
  obtain ⟨-, hbetween, hafter⟩ := StartTag.readAt_alone h
  obtain ⟨k, hk, hread⟩ := hafter _ _ hedited (by decide)
  have hlanding : ((1 : Nat) : Int) + (Drift.after (Edit.before ((1 : Nat) : Int)
      [⟨0, 1, "'\x7b".toList⟩, ⟨1, 1, "<".toList⟩, ⟨19, 20, "/>".toList⟩])).delta =
      ((3 : Nat) : Int) := by decide
  obtain rfl : k = 3 := Int.ofNat_inj.mp (hk.trans hlanding)
  exact ⟨_, h, rfl, hbetween "<<".toList ">=\"".toList, _, hedited, rfl, hread⟩

end ResponsiveImage.Markup
