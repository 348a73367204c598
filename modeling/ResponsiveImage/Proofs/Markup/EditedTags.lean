import ResponsiveImage.Proofs.Edit.Landings
import ResponsiveImage.Proofs.Markup.AddedAttributes
import ResponsiveImage.Proofs.Markup.Spans
import ResponsiveImage.Proofs.Markup.Transplants
import ResponsiveImage.Proofs.Markup.WrittenTags

/-!
# Tags that have been edited

The literal value of an attribute gives way to another text, and attributes are added behind it.  The tag
is read again if the text can stand there, and if the attributes are plain (`readAt_stood`).  What the
edits have made of the tag is then a tag wherever it is put (`reads_rewritten`), so that it does not
matter what becomes of the rest of the document.
-/

namespace ResponsiveImage.Markup

open Text

/-! ## A text that is a tag -/

/-- The literal value of the first attribute of a name. -/
def literalOf (name : List Char) (as : List Attribute) : Option (List Char) :=
  match as.find? (·.name == name) with
  | some ⟨_, .static text _ _, _, _⟩ => some text
  | _ => none

theorem exists_find?_of_literalOf {name t : List Char} {as : List Attribute}
    (h : literalOf name as = some t) : ∃ label start stop first last,
      as.find? (·.name == name) = some ⟨label, .static t start stop, first, last⟩ := by
  rw [literalOf] at h
  split at h
  · rename_i hfind
    cases h
    exact ⟨_, _, _, _, _, hfind⟩
  · cases h

theorem literalOf_map_move (name : List Char) (as : List Attribute) (old new : Nat) :
    literalOf name (as.map (·.move old new)) = literalOf name as := by
  have hname : ∀ a : Attribute, ((a.move old new).name == name) = (a.name == name) := fun _ ↦ rfl
  rw [literalOf, literalOf, List.find?_map]
  simp only [Function.comp_def, hname]
  cases as.find? (·.name == name) with
  | none => rfl
  | some a =>
    obtain ⟨_, value, _, _⟩ := a
    cases value <;> rfl

theorem literalOf_append {name : List Char} {before : List Attribute} (h : ∀ b ∈ before, b.name ≠ name)
    {a : Attribute} (ha : a.name = name) {t : List Char} {s e : Nat} (hvalue : a.value = .static t s e)
    (after : List Attribute) : literalOf name (before ++ a :: after) = some t := by
  have hfind : (before ++ a :: after).find? (·.name == name) = some a := by
    rw [List.find?_append, List.find?_eq_none.mpr fun b hb ↦ by simpa using h b hb, Option.none_or,
      List.find?_cons_of_pos (by simpa using ha)]
  obtain ⟨_, value, _, _⟩ := a
  obtain rfl : value = _ := hvalue
  rw [literalOf, hfind]

/-- A text that is a start tag of some name wherever it stands, with a literal value or none as the value
of one of its attributes. -/
def Reads (own name label : List Char) (literal? : Option (List Char)) : Prop :=
  ∀ front back, ∃ tag, StartTag.readAt (front ++ own ++ back) front.length = .ok tag ∧ tag.name = name ∧
    tag.stop = front.length + own.length ∧ literalOf label tag.attributes = literal?

theorem reads_of_readAt {text : List Char} {pos : Nat} {tag : StartTag}
    (h : StartTag.readAt text pos = .ok tag) (label : List Char) :
    Reads (text.extract pos tag.stop) tag.name label (literalOf label tag.attributes) := by
  obtain ⟨own, rest, hdrop, hstop, hread⟩ := StartTag.exists_own h
  have hown : text.extract pos tag.stop = own := hstop ▸ extract_of_drop hdrop
  rw [hown]
  intro front back
  refine ⟨_, hread front back, rfl, ?_, literalOf_map_move _ _ _ _⟩
  simp only [StartTag.move, hstop, moved]
  omega

/-! ## A text in place of a literal -/

/-- A text that can stand in place of a literal which ends at an offset, in an attribute which ends at
another: between quotes it holds none of them, and without any it is one run. -/
structure CanStand (text : List Char) (stop attributeStop : Nat) (new : List Char) : Prop where
  brace : '{' ∉ new
  quoted : stop < attributeStop → ∀ q ∈ text[stop]?, q ∉ new
  bare : stop = attributeStop → new ≠ [] ∧ (∀ c ∈ new, isUnquoted c = true) ∧
    (new.getLast? = some '/' → text[stop]? ≠ some '>')

namespace Slot

variable {text front lead value back left right t new : List Char} {pos : Int} {tag : StartTag}
  {before after : List Attribute} {a : Attribute} {s e : Nat}

/-- The value of an attribute around its literal, for which another text can stand. -/
theorem exists_stood (h : Slot text pos tag before a after front lead value back)
    (hvalue : IsValue (front.length + a.name.length + lead.length) value back (.static t s e))
    (hnew : CanStand text e a.stop new) :
    ∃ left right, value = left ++ (t ++ right) ∧
      s = front.length + a.name.length + lead.length + left.length ∧ e = s + t.length ∧
      IsValue (front.length + a.name.length + lead.length) (left ++ (new ++ right)) back
        (.static new s (s + new.length)) := by
  have hliteral (i : Nat) : literal new i = .static new i (i + new.length) :=
    literal_eq_static_iff.mpr ⟨hnew.brace, rfl, rfl, rfl⟩
  rcases hvalue.static_cases with ⟨q, hq, rfl, rfl, rfl⟩ | ⟨hbare, rfl, rfl, rfl⟩
  · refine ⟨[q], [q], rfl, rfl, rfl, ?_⟩
    have hclosing : text[front.length + a.name.length + lead.length + 1 + t.length]? = some q := by
      have hfront : text = (front ++ (a.name ++ lead)) ++ ([q] ++ t) ++ q :: back := by
        rw [h.text_eq]
        simp
      have hlength : front.length + a.name.length + lead.length + 1 + t.length =
          ((front ++ (a.name ++ lead)) ++ ([q] ++ t)).length := by
        simp only [List.length_append, List.length_singleton]
        omega
      rw [hfront, hlength, List.getElem?_append_right (Nat.le_refl _), Nat.sub_self]
      rfl
    have hplain : ∀ c ∈ new, c ≠ q ∧ c ≠ '{' := fun c hc ↦
      ⟨fun hcq ↦ hnew.quoted h.lt_stop q hclosing (hcq ▸ hc), fun hcb ↦ hnew.brace (hcb ▸ hc)⟩
    rw [← hliteral]
    exact .quoted hq (closes_of_plain hplain)
  · obtain ⟨hne, hrun, hslash⟩ := hnew.bare h.stop_eq.symm
    rw [← h.stop_eq, h.getElem?_stop] at hslash
    refine ⟨[], [], by simp, rfl, rfl, ?_⟩
    rw [List.nil_append, List.append_nil, ← hliteral]
    exact .bare (hbare.replace hne hrun hslash) fun hhead ↦ hnew.brace (List.mem_of_head? hhead)

/-- The tag around another literal of the attribute. -/
theorem replaced {value' : List Char} {old : Nat}
    (h : Slot text pos tag before a after front lead value back)
    (hlen : value'.length + old = value.length + new.length) :
    Slot (front ++ (a.name ++ (lead ++ value' ++ back))) pos
      (tag.replaceLiteral before a after old s new)
      before (a.replaceLiteral old s new) (after.map (·.move old new.length)) front lead value'
      back := by
  have hmoved : moved old new.length a.stop =
      front.length + a.name.length + lead.length + value'.length := by
    rw [h.stop_eq, moved]
    omega
  refine ⟨rfl, h.name_ne_nil, h.isAttributeName, h.isAssignment, h.start_eq, hmoved, ?_, h.readAt_eq⟩
  have hshift : Attribute.move value.length value'.length = Attribute.move old new.length := by
    refine Attribute.move_congr (funext fun k ↦ ?_)
    simp only [moved]
    omega
  have hbody := h.isBody.move value'.length (show value.length ≤ _ by rw [h.stop_eq]; omega)
  have hstop (k : Nat) : moved value.length value'.length k = moved old new.length k := by
    simp only [moved]
    omega
  rw [hstop, hstop] at hbody
  have hmap : after.map (·.move value.length value'.length) = after.map (·.move old new.length) :=
    List.map_congr_left fun b _ ↦ congrFun hshift b
  rw [hmap] at hbody
  exact hbody

/-- An edit of the literal, and an insertion behind the attribute. -/
theorem writeOut_stood (h : Slot text pos tag before a after front lead (left ++ (t ++ right)) back)
    (hs : s = front.length + a.name.length + lead.length + left.length) (he : e = s + t.length)
    (new added : List Char) :
    Edit.InOrder text.length 0 [⟨s, e, new⟩, ⟨a.stop, a.stop, added⟩] ∧
      Edit.writeOut text [⟨s, e, new⟩] =
        front ++ (a.name ++ (lead ++ (left ++ (new ++ right)) ++ back)) ∧
      Edit.writeOut text [⟨s, e, new⟩, ⟨a.stop, a.stop, added⟩] =
        front ++ (a.name ++ (lead ++ (left ++ (new ++ right)) ++ (added ++ back))) := by
  have htext : text = (front ++ (a.name ++ (lead ++ left))) ++ (t ++ (right ++ back)) := by
    rw [h.text_eq]
    simp
  have hlead : s = (front ++ (a.name ++ (lead ++ left))).length := by
    simp only [hs, List.length_append]
    omega
  have hstop : a.stop = e + right.length := by
    simp only [h.stop_eq, he, hs, List.length_append]
    omega
  have hlength : e + right.length + back.length = text.length := by
    rw [htext, List.length_append, ← hlead, he]
    simp only [List.length_append]
    omega
  have hse : (s : Int) ≤ e := by omega
  have hbefore : Edit.span text 0 s = front ++ (a.name ++ (lead ++ left)) := by
    rw [Edit.span, Int.toNat_natCast, Int.toNat_zero, List.drop_zero, htext, hlead, List.take_left]
  have hbetween : Edit.span text e a.stop = right := by
    rw [htext, ← List.append_assoc, ← List.append_assoc]
    refine Edit.span_append_mid ?_ ?_
    · rw [List.length_append, ← hlead, he]
    · rw [hstop]
      omega
  have hbehind : text.drop a.stop = back := by
    have hcs : text = (front ++ (a.name ++ (lead ++ left))) ++ (t ++ right) ++ back := by
      rw [htext]
      simp
    rw [hcs, List.drop_left']
    rw [List.length_append, ← hlead, List.length_append, hstop, he, Nat.add_assoc]
  have hdrop : text.drop e = right ++ back := by
    have hcs : text = (front ++ (a.name ++ (lead ++ left)) ++ t) ++ (right ++ back) := by
      rw [htext]
      simp
    rw [hcs, List.drop_left']
    rw [List.length_append, ← hlead, he]
  have horder : Edit.InOrder text.length 0 [⟨s, e, new⟩, ⟨a.stop, a.stop, added⟩] := by
    simp only [Edit.InOrder, and_true]
    omega
  refine ⟨horder, ?_, ?_⟩
  · simp only [Edit.writeOut, Edit.written, Edit.lastStop, Int.toNat_natCast, hbefore, hdrop]
    simp
  · simp only [Edit.writeOut, Edit.written, Edit.lastStop, Int.toNat_natCast, hbefore, hbetween, hbehind]
    simp

end Slot

section Read

variable {text t new : List Char} {pos : Int} {tag : StartTag} {before after : List Attribute}
  {a : Attribute} {s e : Nat}

/-- **A tag with a text in place of a literal is read with that text**, if the text can stand there, and
so it is with plain attributes added. -/
theorem readAt_stood (h : StartTag.readAt text pos = .ok tag)
    (has : tag.attributes = before ++ a :: after)
    (ha : a.value = .static t s e) (ht : t ≠ []) (hnew : CanStand text e a.stop new)
    {ps : List NamedText} (hps : ∀ p ∈ ps, IsWritable p) :
    Edit.InOrder text.length 0 [⟨s, e, new⟩, ⟨a.stop, a.stop, written ps⟩] ∧
      StartTag.readAt (Edit.writeOut text [⟨s, e, new⟩]) pos =
        .ok (tag.replaceLiteral before a after t.length s new) ∧
      StartTag.readAt (Edit.writeOut text [⟨s, e, new⟩, ⟨a.stop, a.stop, written ps⟩]) pos =
        .ok ((tag.replaceLiteral before a after t.length s new).withAdded before
          (a.replaceLiteral t.length s new) (after.map (·.move t.length new.length)) ps) := by
  obtain ⟨front, lead, value, back, hslot, hvalue⟩ := StartTag.exists_slot h has ha ht
  obtain ⟨left, right, rfl, hs, he, hstood⟩ := hslot.exists_stood hvalue hnew
  obtain ⟨horder, halone, hadded⟩ := hslot.writeOut_stood hs he new (written ps)
  have hlen : (left ++ (new ++ right)).length + t.length =
      (left ++ (t ++ right)).length + new.length := by
    simp only [List.length_append]
    omega
  have hne : left ++ (new ++ right) ≠ [] := by
    rcases hvalue.static_cases with ⟨q, -, heq, hq, -⟩ | ⟨-, hbare, -, he'⟩
    · intro hnil
      rw [(List.append_eq_nil_iff.mp hnil).1, List.length_nil, Nat.add_zero] at hs
      omega
    · have hstop : e = a.stop := by
        rw [hslot.stop_eq, hbare, he']
      intro hnil
      exact (hnew.bare hstop).1 (List.append_eq_nil_iff.mp (List.append_eq_nil_iff.mp hnil).2).1
  refine ⟨horder, ?_, ?_⟩
  · rw [halone]
    exact hslot.readAt_value hlen hstood
  · rw [hadded]
    exact (hslot.replaced hlen).readAt_written hstood rfl hne hps

/-- What edits inside a tag have made of it is a tag wherever it is put, if it is one where it stands. -/
theorem reads_rewritten {start stop : Nat} {es : List Edit} (horder : Edit.InOrder text.length 0 es)
    (hes : Edit.Between start stop es) (hle : start ≤ stop) (hstop : stop ≤ text.length)
    (hread : StartTag.readAt (Edit.writeOut text es) start = .ok tag)
    (htag : (tag.stop : Int) = stop + (Drift.after es).delta) (label : List Char) :
    Reads (Edit.rewritten text start stop es) tag.name label (literalOf label tag.attributes) := by
  have hcut : Edit.writeOut text ([] ++ (es ++ [])) = Edit.rewritten text 0 start [] ++
      (Edit.rewritten text start stop es ++ Edit.writtenOn text stop []) :=
    Edit.writeOut_append (by rwa [List.nil_append, List.append_nil]) (List.forall_mem_nil _) hes
      (List.forall_mem_nil _) (by omega) (by omega) (by omega)
  rw [List.nil_append, List.append_nil] at hcut
  have hfront : ((Edit.rewritten text 0 start []).length : Int) =
      start - 0 + (Drift.after ([] : List Edit)).delta :=
    Edit.length_rewritten trivial (Edit.between_nil _ _) (Int.le_refl 0) (by omega) (by omega)
  have hown := Edit.length_rewritten (horder.since fun e he ↦ (hes e he).1) hes (by omega) (by omega)
    (by omega)
  simp only [Drift.after, List.foldl_nil] at hfront
  have hdrop : (Edit.writeOut text es).drop start =
      Edit.rewritten text start stop es ++ Edit.writtenOn text stop [] := by
    rw [hcut, List.drop_left' (by omega)]
  have hend : tag.stop = start + (Edit.rewritten text start stop es).length := by omega
  have hextract := extract_of_drop hdrop
  rw [← hend] at hextract
  rw [← hextract]
  exact reads_of_readAt hread label

/-- A literal is as long as its span. -/
theorem stop_eq_of_literal {pos : Nat} (h : StartTag.readAt text pos = .ok tag) (ha : a ∈ tag.attributes)
    (hvalue : a.value = .static t s e) : e = s + t.length := by
  obtain ⟨rest, hdrop, -, hbody⟩ := StartTag.readAt_eq_ok_iff.mp h
  have hstands := (hbody.standsIn (drop_of_drop (drop_succ_of_drop hdrop))).2.2 a ha
  have hliteral := congrArg List.length (hstands.literal t s e hvalue).extract_eq
  have hnode : nodeAt text pos =
      some ⟨.ofName tag.name, tag.name, tag.attributes, [], pos, tag.stop⟩ := by
    rw [nodeAt, h]
  obtain ⟨-, hhigh, hspan⟩ := (spans_of_nodeAt hnode).liesIn a ha
  have hlength := (spans_of_nodeAt hnode).stop_le
  have hbounds := hspan t s e hvalue
  rw [List.extract_eq_take_drop, List.length_take, List.length_drop] at hliteral
  dsimp only at hhigh hlength
  omega

/-- **What is left of a tag in which a literal has given way to another text is a tag of the same name,
with that text in the place of the literal**, wherever it is put. -/
theorem reads_stood {pos : Nat} (h : StartTag.readAt text pos = .ok tag)
    (has : tag.attributes = before ++ a :: after) (hbefore : ∀ b ∈ before, b.name ≠ a.name)
    (ha : a.value = .static t s e) (ht : t ≠ []) (hnew : CanStand text e a.stop new)
    {ps : List NamedText} (hps : ∀ p ∈ ps, IsWritable p) {es : List Edit}
    (hes : es = [⟨s, e, new⟩] ∨ es = [⟨s, e, new⟩, ⟨a.stop, a.stop, written ps⟩]) :
    Edit.InOrder text.length 0 es ∧ Edit.Between pos tag.stop es ∧
      Reads (Edit.rewritten text pos tag.stop es) tag.name a.name (some new) := by
  have hnode : nodeAt text pos =
      some ⟨.ofName tag.name, tag.name, tag.attributes, [], pos, tag.stop⟩ := by
    rw [nodeAt, h]
  have hspans := spans_of_nodeAt hnode
  have hmem : a ∈ tag.attributes := has ▸ List.mem_append_right before List.mem_cons_self
  obtain ⟨hlow, hhigh, hvalue⟩ := hspans.liesIn a hmem
  obtain ⟨hs, hse, he⟩ := hvalue t s e ha
  have hlt := hspans.start_lt_stop
  have hlength := hspans.stop_le
  dsimp only at hlow hhigh hlt hlength
  have hextent := stop_eq_of_literal h hmem ha
  obtain ⟨horder, halone, hadded⟩ := readAt_stood h has ha ht hnew hps
  have hliteral (rest : List Attribute) :
      literalOf a.name (before ++ a.replaceLiteral t.length s new :: rest) = some new :=
    literalOf_append (a := a.replaceLiteral t.length s new) hbefore rfl rfl rest
  rcases hes with rfl | rfl
  · have hone : Edit.InOrder text.length 0 [⟨s, e, new⟩] :=
      ⟨horder.1, horder.2.1, horder.2.2.1, horder.2.2.2.1, trivial⟩
    have hbetween : Edit.Between pos tag.stop [⟨s, e, new⟩] := by
      rintro f hf
      obtain rfl := List.mem_singleton.mp hf
      exact ⟨by dsimp only; omega, by dsimp only; omega⟩
    refine ⟨hone, hbetween, ?_⟩
    have hreads := reads_rewritten hone hbetween (Nat.le_of_lt hlt) hlength halone ?_ a.name
    · rw [StartTag.replaceLiteral, hliteral] at hreads
      exact hreads
    · simp only [StartTag.replaceLiteral, moved, Drift.after, List.foldl_cons, List.foldl_nil,
        Drift.advance_delta]
      omega
  · have hbetween : Edit.Between pos tag.stop [⟨s, e, new⟩, ⟨a.stop, a.stop, written ps⟩] := by
      rintro f hf
      rcases List.mem_pair.mp hf with rfl | rfl
      · exact ⟨by dsimp only; omega, by dsimp only; omega⟩
      · exact ⟨by dsimp only; omega, by dsimp only; omega⟩
    refine ⟨horder, hbetween, ?_⟩
    have hreads := reads_rewritten horder hbetween (Nat.le_of_lt hlt) hlength hadded ?_ a.name
    · rw [StartTag.withAdded, StartTag.replaceLiteral, hliteral] at hreads
      exact hreads
    · simp only [StartTag.withAdded, StartTag.replaceLiteral, moved, Drift.after, List.foldl_cons,
        List.foldl_nil, Drift.advance_delta]
      omega

/-- What stands right before a literal could not stand in the name of a tag, and what closes it is no
bracket. -/
theorem around_literal {pos : Nat} (h : StartTag.readAt text pos = .ok tag) (ha : a ∈ tag.attributes)
    (hvalue : a.value = .static t s e) (ht : t ≠ []) :
    (∃ c, text[s - 1]? = some c ∧ c ≠ '<' ∧ isNameRest c = false) ∧
      ∀ k : Nat, e ≤ k → k < a.stop → text[k]? ≠ some '<' := by
  obtain ⟨before, after, has⟩ := List.append_of_mem ha
  obtain ⟨front, lead, value, back, hslot, hread⟩ := StartTag.exists_slot h has hvalue ht
  obtain ⟨b, hlast, hb⟩ := hslot.isAssignment.exists_getLast? (front ++ a.name)
  have hquiet : b ≠ '<' ∧ isNameRest b = false := by
    rcases hb with rfl | hb
    · decide
    · exact ⟨ne_of_isBlank hb (by decide), isNameRest_of_isBlank hb⟩
  have hlead : (front ++ a.name ++ lead).length = front.length + a.name.length + lead.length := by
    simp only [List.length_append]
  have hpos : 0 < lead.length := by
    obtain ⟨gap₁, gap₂, rfl, -, -⟩ := hslot.isAssignment
    rw [List.length_append, List.length_cons]
    omega
  have hbehind (q : Char) (rest : List Char) (hcs : value ++ back = q :: rest) :
      text[front.length + a.name.length + lead.length]? = some q := by
    have htext : text = (front ++ a.name ++ lead) ++ q :: rest := by
      rw [← hcs, hslot.text_eq]
      simp
    rw [htext, ← hlead, List.getElem?_append_right (Nat.le_refl _), Nat.sub_self]
    rfl
  rcases hread.static_cases with ⟨q, hq, rfl, rfl, rfl⟩ | ⟨hbare, rfl, rfl, rfl⟩
  · have hquote : q ≠ '<' ∧ isNameRest q = false := by
      rcases hq with rfl | rfl <;> decide
    refine ⟨⟨q, hbehind q _ rfl, hquote⟩, fun k hle hlt hk ↦ ?_⟩
    have hclose : k = (front ++ a.name ++ lead ++ [q] ++ t).length := by
      have hstop := hslot.stop_eq
      simp only [List.length_append, List.length_cons, List.length_nil] at hstop ⊢
      omega
    have htext : text = (front ++ a.name ++ lead ++ [q] ++ t) ++ q :: back := by
      rw [hslot.text_eq]
      simp
    rw [htext, hclose, List.getElem?_append_right (Nat.le_refl _), Nat.sub_self] at hk
    exact hquote.1 (Option.some_inj.mp hk)
  · refine ⟨⟨b, ?_, hquiet⟩, fun k hle hlt ↦ ?_⟩
    · have htext : text = (front ++ a.name ++ lead) ++ (value ++ back) := by
        rw [hslot.text_eq]
        simp
      rw [htext, List.getElem?_append_left (by omega), ← hlast, List.getLast?_eq_getElem?, hlead]
    · have hstop := hslot.stop_eq
      omega

end Read

end ResponsiveImage.Markup
