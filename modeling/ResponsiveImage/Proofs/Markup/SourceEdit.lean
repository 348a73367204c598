import Mathlib
import ResponsiveImage.Edit.Splice
import ResponsiveImage.Proofs.Markup.TagText
import ResponsiveImage.Proofs.Picture.InlineUri

/-!
# Replacing the value of an attribute

The literal value of an attribute gives way to an inline URI, and the tag is read again where it
stood.  The part of the tag before the value reads as it did, since no item before it is looked at
beyond the first letter of the attribute; the part behind it reads as it did, with all spans moved.
What is left is the value itself.

Between quotes an inline URI always reads back.  Without quotes it does if it holds no equals sign and
does not end in a slash before the closing bracket (`readAt_replaced_iff`): an equals sign ends the
value and makes the tag unreadable, and a slash there is taken for the end of the tag.
-/

namespace ResponsiveImage.Markup

open Text

/-! ## Moving attributes -/

/-- Where an offset comes to lie when `old` characters before it give way to `new` ones. -/
def moved (old new i : Nat) : Nat := i + new - old

def AttributeValue.move (old new : Nat) : AttributeValue → AttributeValue
  | .static text start stop => .static text (moved old new start) (moved old new stop)
  | .dynamic kind => .dynamic kind

def Attribute.move (old new : Nat) (a : Attribute) : Attribute :=
  ⟨a.name, a.value.move old new, moved old new a.start, moved old new a.stop⟩

theorem Attribute.move_congr {old new old' new' : Nat} (h : moved old new = moved old' new') :
    Attribute.move old new = Attribute.move old' new' := by
  funext b
  obtain ⟨name, value, start, stop⟩ := b
  cases value with
  | «static» text k l => simp only [Attribute.move, AttributeValue.move, h]
  | «dynamic» kind => simp only [Attribute.move, AttributeValue.move, h]

theorem moved_add {old new i : Nat} (h : old ≤ i) (k : Nat) :
    moved old new (i + k) = moved old new i + k := by
  simp only [moved]
  omega

theorem literal_move {old new i : Nat} (h : old ≤ i) (text : List Char) :
    (literal text i).move old new = literal text (moved old new i) := by
  rw [literal, literal]
  split
  · rfl
  · rw [AttributeValue.move, moved_add h]

theorem IsValue.move {old i : Nat} {text rest : List Char} {value : AttributeValue}
    (h : IsValue i text rest value) (new : Nat) (hi : old ≤ i) :
    IsValue (moved old new i) text rest (value.move old new) := by
  cases h with
  | quoted hq h =>
    rw [literal_move (by omega), moved_add hi]
    exact .quoted hq h
  | expression he => exact .expression he
  | bare h hb =>
    rw [literal_move hi]
    exact .bare h hb

theorem IsNamed.move {old i : Nat} {name text rest : List Char} {a : Attribute}
    (h : IsNamed i name text rest a) (new : Nat) (hi : old ≤ i) :
    IsNamed (moved old new i) name text rest (a.move old new) := by
  cases h with
  | boolean h =>
    simp only [Attribute.move, AttributeValue.move, moved_add hi]
    exact .boolean h
  | @assigned gap₁ gap₂ value _ _ h₁ h₂ h =>
    have hvalue := h.move new (Nat.le_trans hi (by omega))
    have hstart : moved old new (i + name.length + gap₁.length + 1 + gap₂.length) =
        moved old new i + name.length + gap₁.length + 1 + gap₂.length := by
      simp only [moved]
      omega
    have hstop : moved old new (i + name.length + gap₁.length + 1 + gap₂.length + value.length) =
        moved old new (i + name.length + gap₁.length + 1 + gap₂.length) + value.length :=
      moved_add (by omega) value.length
    rw [hstart] at hvalue hstop
    rw [Attribute.move, hstop]
    exact .assigned h₁ h₂ hvalue

theorem IsItem.move {old i : Nat} {text rest : List Char} {a : Option Attribute}
    (h : IsItem i text rest a) (new : Nat) (hi : old ≤ i) :
    IsItem (moved old new i) text rest (a.map (·.move old new)) := by
  cases h with
  | blank hc => exact .blank hc
  | slash h => exact .slash h
  | expression he =>
    have hshort : (shorthand? i text.length text).map (·.move old new) =
        shorthand? (moved old new i) text.length text := by
      simp only [shorthand?]
      split
      · rfl
      · simp [Attribute.move, AttributeValue.move, moved_add hi]
    rw [hshort]
    exact .expression he
  | named hne hname hend h => exact .named hne hname hend (h.move new hi)

theorem IsBody.move {old i stop : Nat} {cs : List Char} {as : List Attribute}
    (h : IsBody i cs as stop) (new : Nat) (hi : old ≤ i) :
    IsBody (moved old new i) cs (as.map (·.move old new)) (moved old new stop) := by
  induction h with
  | close =>
    rw [moved_add hi]
    exact .close
  | selfClose =>
    rw [moved_add hi]
    exact .selfClose
  | @item i stop text rest a as hitem h ih =>
    have hrest := ih (by omega)
    rw [moved_add hi] at hrest
    have hmap : (a.toList ++ as).map (·.move old new) =
        (a.map (·.move old new)).toList ++ as.map (·.move old new) := by
      cases a <;> rfl
    rw [hmap]
    exact .item (hitem.move new hi) hrest

/-! ## What follows an item

Nothing before a character `x` that is neither a blank nor a slash is looked at beyond it, so what
stands behind `x` may be swapped.  The first letter of the name of an attribute is such a character,
and so is the closing bracket. -/

/-- A character behind which nothing matters to what stands before it. -/
def Shields (x : Char) : Prop := isBlank x = false ∧ x ≠ '/'

theorem shields_of_isAttributeName {x : Char} (h : isAttributeName x = true) : Shields x := by
  refine ⟨?_, ?_⟩
  · cases hb : isBlank x with
    | false => rfl
    | true =>
      rw [isAttributeName_eq_false_of_isBlank hb] at h
      cases h
  · rintro rfl
    exact absurd h (by decide)

theorem shields_bracket : Shields '>' := ⟨by decide, by decide⟩

section Swap

variable {x : Char} {p q rest : List Char}

theorem head?_swap (q' : List Char) : (p ++ x :: q).head? = (p ++ x :: q').head? := by
  cases p <;> rfl

theorem Stops.swap {c : Char → Bool} (h : Stops c (p ++ x :: q)) (q' : List Char) :
    Stops c (p ++ x :: q') := by
  rw [Stops, head?_swap q]
  exact h

theorem head?_skipBlanks_swap (hx : isBlank x = false) (q' : List Char) :
    (skipBlanks (p ++ x :: q)).head? = (skipBlanks (p ++ x :: q')).head? := by
  induction p with
  | nil => simp [skipBlanks, hx]
  | cons c p ih =>
    by_cases hc : isBlank c = true
    · simpa [skipBlanks, hc] using ih
    · simp [skipBlanks, hc]

theorem IsBare.swap {run : List Char} (h : IsBare run rest) (hrest : rest = p ++ x :: q)
    (hx : Shields x) (q' : List Char) : IsBare run (p ++ x :: q') := by
  cases h with
  | ended hne hrun hstop hslash =>
    subst hrest
    exact .ended hne hrun (hstop.swap q') (head?_swap q' ▸ hslash)
  | closed hrun =>
    -- the character is the bracket or stands behind it, since it is not the slash
    match p, hrest with
    | [], hrest => exact absurd (List.cons_eq_cons.mp hrest).1.symm hx.2
    | [c], hrest =>
      obtain ⟨hc, hrest⟩ := List.cons_eq_cons.mp hrest
      rw [← hc, ← (List.cons_eq_cons.mp hrest).1]
      exact .closed hrun
    | c :: d :: p, hrest =>
      obtain ⟨hc, hrest⟩ := List.cons_eq_cons.mp hrest
      obtain ⟨hd, -⟩ := List.cons_eq_cons.mp hrest
      rw [← hc, ← hd]
      exact .closed hrun

theorem IsValue.swap {i : Nat} {text : List Char} {value : AttributeValue}
    (h : IsValue i text rest value) (hrest : rest = p ++ x :: q) (hx : Shields x)
    (q' : List Char) : IsValue i text (p ++ x :: q') value := by
  cases h with
  | quoted hq h => exact .quoted hq h
  | expression he => exact .expression he
  | bare h hb => exact .bare (h.swap hrest hx q') hb

theorem IsNamed.swap {i : Nat} {name text : List Char} {a : Attribute}
    (h : IsNamed i name text rest a) (hrest : rest = p ++ x :: q) (hx : Shields x)
    (q' : List Char) : IsNamed i name text (p ++ x :: q') a := by
  cases h with
  | boolean h =>
    subst hrest
    rw [head?_skipBlanks_swap hx.1 q'] at h
    exact .boolean h
  | assigned h₁ h₂ h => exact .assigned h₁ h₂ (h.swap hrest hx q')

theorem IsItem.swap {i : Nat} {text : List Char} {a : Option Attribute}
    (h : IsItem i text rest a) (hrest : rest = p ++ x :: q) (hx : Shields x)
    (q' : List Char) : IsItem i text (p ++ x :: q') a := by
  cases h with
  | blank hc => exact .blank hc
  | slash h =>
    subst hrest
    rw [head?_swap q'] at h
    exact .slash h
  | expression he => exact .expression he
  | named hne hname hend h =>
    refine .named hne hname ?_ (h.swap hrest hx q')
    subst hrest
    rw [← List.append_assoc] at hend ⊢
    exact hend.swap q'

end Swap

/-! ## Finding the attribute -/

/-- Where a named attribute of a body stands: behind a part that reads as it does whatever comes
behind the first letter of the attribute, and before the rest of the body. -/
structure StandsAt (i stop : Nat) (cs : List Char) (before : List Attribute) (a : Attribute)
    (after : List Attribute) (front name text back : List Char) : Prop where
  cs_eq : cs = front ++ (name ++ text ++ back)
  name_ne_nil : name ≠ []
  isAttributeName : ∀ c ∈ name, isAttributeName c = true
  named : IsNamed (i + front.length) name text back a
  isBody : IsBody a.stop back after stop
  readAttributes_eq : ∀ x q tag, name.head? = some x →
    readAttributes tag i (front ++ x :: q) =
      prepend before (readAttributes tag (i + front.length) (x :: q))

/-- An item before the attribute is passed over, as the first letter of the name shows. -/
theorem StandsAt.item {i stop : Nat} {text rest front name body back : List Char}
    {before after : List Attribute} {a : Attribute} {b : Option Attribute}
    (h : StandsAt (i + text.length) stop rest before a after front name body back)
    (hitem : IsItem i text rest b) :
    StandsAt i stop (text ++ rest) (b.toList ++ before) a after (text ++ front) name body back := by
  obtain ⟨rfl, hne, hname, hnamed, hback, hread⟩ := h
  refine ⟨by simp, hne, hname, ?_, hback, ?_⟩
  · rw [List.length_append, ← Nat.add_assoc]
    exact hnamed
  · intro x q tag hx
    obtain ⟨name, rfl⟩ := List.head?_eq_some_iff.mp hx
    have hswap := hitem.swap (p := front) (x := x) (q := name ++ (body ++ back)) (by simp)
      (shields_of_isAttributeName (hname x List.mem_cons_self)) q
    rw [List.append_assoc, hswap.readAttributes_eq, hread x q tag rfl, prepend_prepend,
      List.length_append, Nat.add_assoc]

/-- An attribute that is no shorthand has a name, and stands where its item begins. -/
theorem IsItem.exists_standsAt {i stop : Nat} {text rest : List Char} {after : List Attribute}
    {a : Attribute} (h : IsItem i text rest (some a)) (hrest : IsBody (i + text.length) rest after stop)
    (ha : a.value ≠ .dynamic .shorthand) :
    ∃ name body, StandsAt i stop (text ++ rest) [] a after [] name body rest := by
  generalize hb : some a = b at h
  cases h with
  | blank => cases hb
  | slash => cases hb
  | expression he =>
    rw [shorthand?] at hb
    split at hb
    · cases hb
    · cases hb
      exact absurd rfl ha
  | @named name body _ _ hne hname hend h =>
    cases hb
    refine ⟨name, body, rfl, hne, hname, h, ?_, ?_⟩
    · rw [h.stop_eq, Nat.add_assoc, ← List.length_append]
      exact hrest
    · intro x q tag hx
      rw [prepend_nil]
      rfl

theorem IsBody.exists_standsAt {i stop : Nat} {cs : List Char} {before after : List Attribute}
    {a : Attribute} (h : IsBody i cs (before ++ a :: after) stop)
    (ha : a.value ≠ .dynamic .shorthand) :
    ∃ front name text back, StandsAt i stop cs before a after front name text back := by
  generalize has : before ++ a :: after = as at h
  induction h generalizing before with
  | close => simp at has
  | selfClose => simp at has
  | @item i stop text rest b bs hitem hbody ih =>
    cases b with
    | none =>
      obtain ⟨front, name, body, back, h⟩ := ih has
      exact ⟨_, _, _, _, h.item hitem⟩
    | some b =>
      cases before with
      | cons b' before =>
        obtain ⟨rfl, hbs⟩ : b' = b ∧ before ++ a :: after = bs := by simpa using has
        obtain ⟨front, name, body, back, h⟩ := ih hbs
        exact ⟨_, _, _, _, h.item hitem⟩
      | nil =>
        obtain ⟨rfl, rfl⟩ : a = b ∧ after = bs := by simpa using has
        obtain ⟨name, body, h⟩ := hitem.exists_standsAt hbody ha
        exact ⟨_, _, _, _, h⟩

/-- What follows the letter where an attribute begins may be swapped, and the tag is still read up to
that letter. -/
theorem StartTag.exists_named {text : List Char} {pos : Int} {tag : StartTag}
    {before after : List Attribute} {a : Attribute} (h : StartTag.readAt text pos = .ok tag)
    (has : tag.attributes = before ++ a :: after) (ha : a.value ≠ .dynamic .shorthand) :
    ∃ front name body back, text = front ++ (name ++ (body ++ back)) ∧ name ≠ [] ∧
      (∀ c ∈ name, isAttributeName c = true) ∧ IsNamed front.length name body back a ∧
      IsBody a.stop back after tag.stop ∧
      ∀ q, StartTag.readAt (front ++ (name ++ q)) pos =
        toTag tag.name (prepend before (readAttributes tag.name front.length (name ++ q))) := by
  rw [StartTag.readAt] at h
  obtain ⟨rest, hdrop, hname, hbody⟩ := StartTag.read_eq_ok_iff.mp h
  rw [has] at hbody
  obtain ⟨front, name, body, back, rfl, hne, hletters, hnamed, hback, hread⟩ :=
    hbody.exists_standsAt ha
  obtain ⟨x, name, rfl⟩ := List.exists_cons_of_ne_nil hne
  have hpos : pos.toNat ≤ text.length := by
    rcases Nat.le_total pos.toNat text.length with hle | hle
    · exact hle
    · rw [List.drop_eq_nil_of_le hle] at hdrop
      cases hdrop
  have hlead : (text.take pos.toNat).length = pos.toNat := List.length_take_of_le hpos
  have hfront : (text.take pos.toNat ++ '<' :: (tag.name ++ front)).length =
      pos.toNat + 1 + tag.name.length + front.length := by
    rw [List.length_append, hlead, List.length_cons, List.length_append]
    omega
  refine ⟨text.take pos.toNat ++ '<' :: (tag.name ++ front), x :: name, body, back, ?_, hne, hletters,
    hfront ▸ hnamed, hback, fun q ↦ ?_⟩
  · conv => lhs; rw [← List.take_append_drop pos.toNat text, hdrop]
    simp
  · have hstop : Stops isNameRest (front ++ x :: (name ++ q)) :=
      Stops.swap (q := name ++ body ++ back) hname.stops _
    have hcs : text.take pos.toNat ++ '<' :: (tag.name ++ front) ++ (x :: name ++ q) =
        text.take pos.toNat ++ '<' :: (tag.name ++ (front ++ x :: (name ++ q))) := by simp
    rw [StartTag.readAt, hcs, List.drop_left' hlead, IsTagName.read_eq ⟨hname.start, hstop⟩,
      hread x _ _ rfl, hfront]
    rfl

/-! ## The value of the attribute -/

/-- What stands between the name of an attribute and its value. -/
def IsAssignment (lead : List Char) : Prop :=
  ∃ gap₁ gap₂, lead = gap₁ ++ '=' :: gap₂ ∧ (∀ c ∈ gap₁, isBlank c = true) ∧
    ∀ c ∈ gap₂, isBlank c = true

theorem IsAssignment.stops {lead : List Char} (h : IsAssignment lead) (q : List Char) :
    Stops isAttributeName (lead ++ q) := by
  obtain ⟨gap₁, gap₂, rfl, h₁, -⟩ := h
  cases gap₁ with
  | nil =>
    rw [List.nil_append, List.cons_append, stops_cons]
    decide
  | cons c gap₁ =>
    rw [List.cons_append, List.cons_append, stops_cons]
    exact isAttributeName_eq_false_of_isBlank (h₁ c List.mem_cons_self)

theorem IsAssignment.isNamed {i : Nat} {name lead text rest : List Char} {value : AttributeValue}
    (h : IsAssignment lead) (hvalue : IsValue (i + name.length + lead.length) text rest value) :
    IsNamed i name (lead ++ text) rest
      ⟨name, value, i, i + name.length + lead.length + text.length⟩ := by
  obtain ⟨gap₁, gap₂, rfl, h₁, h₂⟩ := h
  have hlen : i + name.length + (gap₁ ++ '=' :: gap₂).length =
      i + name.length + gap₁.length + 1 + gap₂.length := by
    simp only [List.length_append, List.length_cons]
    omega
  rw [hlen] at hvalue ⊢
  have hnamed := IsNamed.assigned h₁ h₂ hvalue
  rw [List.append_assoc, List.cons_append]
  exact hnamed

/-- A literal that is not empty is the value of an attribute with an equals sign. -/
theorem IsNamed.exists_isAssignment {i s e : Nat} {name text rest t : List Char} {a : Attribute}
    (h : IsNamed i name text rest a) (ha : a.value = .static t s e) (ht : t ≠ []) :
    ∃ lead value, IsAssignment lead ∧ text = lead ++ value ∧ a.name = name ∧ a.start = i ∧
      a.stop = i + name.length + lead.length + value.length ∧
      IsValue (i + name.length + lead.length) value rest (.static t s e) := by
  cases h with
  | boolean =>
    cases ha
    exact absurd rfl ht
  | @assigned gap₁ gap₂ value _ _ h₁ h₂ h =>
    obtain rfl : _ = AttributeValue.static t s e := ha
    have hlen : i + name.length + (gap₁ ++ '=' :: gap₂).length =
        i + name.length + gap₁.length + 1 + gap₂.length := by
      simp only [List.length_append, List.length_cons]
      omega
    refine ⟨gap₁ ++ '=' :: gap₂, value, ⟨gap₁, gap₂, rfl, h₁, h₂⟩, by simp, rfl, rfl, ?_, ?_⟩
    · rw [hlen]
    · rw [hlen]
      exact h

theorem literal_eq_static_iff {i s e : Nat} {text t : List Char} :
    literal text i = .static t s e ↔ '{' ∉ text ∧ t = text ∧ s = i ∧ e = i + text.length := by
  rw [literal]
  split
  · rename_i h
    simp only [List.contains_iff_mem] at h
    simp [h]
  · rename_i h
    simp only [List.contains_iff_mem] at h
    simp only [AttributeValue.static.injEq, h, not_false_eq_true, true_and]
    constructor
    · rintro ⟨rfl, rfl, rfl⟩
      exact ⟨rfl, rfl, rfl⟩
    · rintro ⟨rfl, rfl, rfl⟩
      exact ⟨rfl, rfl, rfl⟩

/-- A literal stands between quotes, or is all of the value. -/
theorem IsValue.static_cases {i s e : Nat} {text rest t : List Char}
    (h : IsValue i text rest (.static t s e)) :
    (∃ q, (q = '"' ∨ q = '\'') ∧ text = q :: (t ++ [q]) ∧ s = i + 1 ∧ e = i + 1 + t.length) ∨
      IsBare t rest ∧ text = t ∧ s = i ∧ e = i + t.length := by
  generalize hv : AttributeValue.static t s e = v at h
  cases h with
  | @quoted q inner _ hq h =>
    obtain ⟨-, rfl, rfl, rfl⟩ := literal_eq_static_iff.mp hv.symm
    exact .inl ⟨q, hq, rfl, rfl, rfl⟩
  | expression => cases hv
  | bare h =>
    obtain ⟨-, rfl, rfl, rfl⟩ := literal_eq_static_iff.mp hv.symm
    exact .inr ⟨h, rfl, rfl, rfl⟩

/-! ## Replacing the value -/

/-- One span of a text gives way to another text. -/
theorem applyAll_span {text : List Char} {s e : Nat} (front old back new : List Char)
    (htext : text = front ++ (old ++ back)) (hs : s = front.length) (he : e = s + old.length) :
    Edit.applyAll text [⟨s, e, new⟩] = .ok (front ++ (new ++ back)) := by
  subst htext hs he
  have hconflict : Edit.conflict? (front ++ (old ++ back))
      [⟨front.length, (front.length + old.length : Nat), new⟩] = none := by
    simp only [Edit.conflict?, Edit.conflictFrom, List.length_append]
    rw [if_neg (by omega), if_neg (by omega)]
  have hstart : ((front.length : Int) + 0).toNat = front.length := by omega
  have hstop : (((front.length + old.length : Nat) : Int) + 0).toNat = front.length + old.length := by
    omega
  simp only [Edit.applyAll, hconflict, Edit.spliceFrom, Drift.locate, Edit.replaceSpan, hstart, hstop]
  rw [List.take_left, ← List.append_assoc front old, List.drop_left' List.length_append,
    List.append_assoc]

/-- An attribute with its value, a literal of length `old` at offset `start`, replaced by another. -/
def Attribute.replaceLiteral (a : Attribute) (old start : Nat) (text : List Char) : Attribute :=
  ⟨a.name, .static text start (start + text.length), a.start, moved old text.length a.stop⟩

/-- A tag with the value of one of its attributes replaced, and all behind it moved. -/
def StartTag.replaceLiteral (tag : StartTag) (before : List Attribute) (a : Attribute)
    (after : List Attribute) (old start : Nat) (text : List Char) : StartTag :=
  ⟨tag.name,
    before ++ a.replaceLiteral old start text :: after.map (·.move old text.length),
    moved old text.length tag.stop⟩

/-- An attribute is read with a new value, and what follows it as before. -/
theorem readAttributes_assigned {tag name lead value value' back : List Char} {i stop : Nat}
    {v : AttributeValue} {after : List Attribute} (hne : name ≠ [])
    (hname : ∀ c ∈ name, isAttributeName c = true) (hlead : IsAssignment lead)
    (hvalue : IsValue (i + name.length + lead.length) value' back v)
    (hback : IsBody (i + name.length + lead.length + value.length) back after stop) :
    readAttributes tag i (name ++ (lead ++ value' ++ back)) =
      .ok (⟨name, v, i, i + name.length + lead.length + value'.length⟩ ::
        after.map (·.move value.length value'.length), moved value.length value'.length stop) := by
  have hitem : IsItem i (name ++ (lead ++ value')) back _ :=
    .named hne hname (by rw [List.append_assoc]; exact hlead.stops _) (hlead.isNamed hvalue)
  have hmoved := hback.move value'.length (Nat.le_add_left value.length _)
  have hstop : moved value.length value'.length (i + name.length + lead.length + value.length) =
      i + (name ++ (lead ++ value')).length := by
    simp only [moved, List.length_append]
    omega
  rw [hstop] at hmoved
  rw [← List.append_assoc, hitem.readAttributes_eq, readAttributes_eq_ok_iff.mpr hmoved]
  rfl

theorem readAttributes_equals (tag cs : List Char) (i : Nat) :
    readAttributes tag i ('=' :: cs) = .error (.unexpected '=' tag i) := by
  rw [readAttributes, if_neg (by decide), if_neg (by decide), if_neg (by decide), if_neg (by decide)]
  have hname : isAttributeName '=' = false := by decide
  simp [hname]

/-- What a value without quotes ends with when another one takes its place. -/
theorem IsBare.replace {run run' rest : List Char} (h : IsBare run rest) (hne : run' ≠ [])
    (hrun : ∀ c ∈ run', isUnquoted c = true)
    (hslash : run'.getLast? = some '/' → rest.head? ≠ some '>') : IsBare run' rest := by
  cases h with
  | ended _ _ hrest => exact .ended hne hrun hrest hslash
  | closed => exact .closed hrun

section Uri

variable {tag name lead uri back : List Char} {i : Nat}

theorem isUnquoted_of_isUriChar {c : Char} (h : isUriChar c = true) (hc : c ≠ '=') :
    isUnquoted c = true := by
  rw [isUriChar, Bool.and_eq_true, Bool.or_eq_true, beq_iff_eq] at h
  exact h.1.resolve_right hc

theorem not_brace_of_isUriChar (h : ∀ c ∈ uri, isUriChar c = true) : '{' ∉ uri := by
  intro hb
  exact absurd (h _ hb) (by decide)

/-- A URI between quotes is a value. -/
theorem isValue_quoted {q : Char} (hq : q = '"' ∨ q = '\'') (h : ∀ c ∈ uri, isUriChar c = true) :
    IsValue i (q :: (uri ++ [q])) back (.static uri (i + 1) (i + 1 + uri.length)) := by
  have hplain : ∀ c ∈ uri, c ≠ q ∧ c ≠ '{' := by
    intro c hc
    refine ⟨?_, fun hb ↦ not_brace_of_isUriChar h (hb ▸ hc)⟩
    rintro rfl
    have hchar := h c hc
    rcases hq with rfl | rfl <;> exact absurd hchar (by decide)
  rw [← literal_eq_static_iff.mpr ⟨not_brace_of_isUriChar h, rfl, rfl, rfl⟩]
  exact .quoted hq (closes_of_plain hplain)

/-- A URI without quotes is a value if it stands where one stood, holds no equals sign and lends its
last slash to no bracket. -/
theorem isValue_bare {run : List Char} (hbare : IsBare run back) (hne : ∃ cs, uri = 'd' :: cs)
    (h : ∀ c ∈ uri, isUriChar c = true) (heq : '=' ∉ uri)
    (hslash : uri.getLast? = some '/' → back.head? ≠ some '>') :
    IsValue i uri back (.static uri i (i + uri.length)) := by
  obtain ⟨cs, rfl⟩ := hne
  rw [← literal_eq_static_iff.mpr ⟨not_brace_of_isUriChar h, rfl, rfl, rfl⟩]
  refine .bare (hbare.replace (List.cons_ne_nil _ _) (fun c hc ↦ ?_) hslash) (by simp)
  exact isUnquoted_of_isUriChar (h c hc) fun he ↦ heq (he ▸ hc)

/-- An equals sign in a URI without quotes makes the tag unreadable. -/
theorem readAttributes_of_mem_equals (tag back : List Char) (i : Nat) (hnil : name ≠ [])
    (hname : ∀ c ∈ name, isAttributeName c = true) (hlead : IsAssignment lead)
    (hne : ∃ cs, uri = 'd' :: cs) (h : ∀ c ∈ uri, isUriChar c = true) (heq : '=' ∈ uri) :
    ∃ offset, readAttributes tag i (name ++ (lead ++ uri ++ back)) =
      .error (.unexpected '=' tag offset) := by
  obtain ⟨run, more, hsplit, hrun⟩ := List.eq_append_cons_of_mem heq
  obtain ⟨cs, hcs⟩ := hne
  obtain ⟨run, rfl⟩ : ∃ run', run = 'd' :: run' := by
    cases run with
    | nil => simp [hcs] at hsplit
    | cons c run =>
      rw [hcs, List.cons_append] at hsplit
      exact ⟨run, by rw [(List.cons_eq_cons.mp hsplit).1]⟩
  have hbare : IsBare ('d' :: run) ('=' :: (more ++ back)) := by
    refine .ended (List.cons_ne_nil _ _) (fun c hc ↦ ?_) (stops_cons.mpr (by decide)) (by simp)
    refine isUnquoted_of_isUriChar (h c ?_) fun he ↦ hrun (he ▸ hc)
    rw [hsplit]
    exact List.mem_append_left _ hc
  have hitem : IsItem i (name ++ (lead ++ 'd' :: run)) ('=' :: (more ++ back)) _ :=
    .named hnil hname (by rw [List.append_assoc]; exact hlead.stops _)
      (hlead.isNamed (.bare hbare (by simp)))
  have hcs' : name ++ (lead ++ uri ++ back) =
      name ++ (lead ++ 'd' :: run) ++ '=' :: (more ++ back) := by simp [hsplit]
  rw [hcs', hitem.readAttributes_eq, readAttributes_equals]
  exact ⟨_, rfl⟩

/-- The last slash of a URI without quotes is lost to a bracket that follows it. -/
theorem readAttributes_of_slash {r : List Attribute × Nat} (hnil : name ≠ [])
    (hname : ∀ c ∈ name, isAttributeName c = true) (hlead : IsAssignment lead)
    (h : ∀ c ∈ uri, isUriChar c = true) (hb : uri.head? ≠ some '{') (heq : '=' ∉ uri)
    (hslash : uri.getLast? = some '/')
    (hback : back.head? = some '>')
    (hread : readAttributes tag i (name ++ (lead ++ uri ++ back)) = .ok r) :
    ∃ a as, r.1 = a :: as ∧ ∀ s e, a.value ≠ .static uri s e := by
  obtain ⟨run, rfl⟩ := List.getLast?_eq_some_iff.mp hslash
  obtain ⟨rest, rfl⟩ := List.head?_eq_some_iff.mp hback
  have hbare : IsBare run ('/' :: '>' :: rest) := by
    refine .closed fun c hc ↦ isUnquoted_of_isUriChar (h c ?_) fun he ↦ heq ?_
    · exact List.mem_append_left _ hc
    · exact he ▸ List.mem_append_left _ hc
  have hhead : run.head? ≠ some '{' := by
    cases run with
    | nil => simp
    | cons => simpa using hb
  have hitem : IsItem i (name ++ (lead ++ run)) ('/' :: '>' :: rest) _ :=
    .named hnil hname (by rw [List.append_assoc]; exact hlead.stops _)
      (hlead.isNamed (.bare hbare hhead))
  have hcs : name ++ (lead ++ (run ++ ['/']) ++ '>' :: rest) =
      name ++ (lead ++ run) ++ '/' :: '>' :: rest := by simp
  rw [hcs, hitem.readAttributes_eq] at hread
  obtain ⟨bs, stop⟩ := r
  obtain ⟨as, -, hr⟩ := prepend_eq_ok hread
  refine ⟨_, as, hr, fun s e hvalue ↦ ?_⟩
  obtain ⟨-, hlost, -⟩ := literal_eq_static_iff.mp hvalue
  simp at hlost

end Uri

/-! ## Reading the tag again -/

/-- A tag of a text around the value of one of its attributes: `lead` comes between the name of the
attribute and the value. -/
structure Slot (text : List Char) (pos : Int) (tag : StartTag) (before : List Attribute)
    (a : Attribute) (after : List Attribute) (front lead value back : List Char) : Prop where
  text_eq : text = front ++ (a.name ++ (lead ++ value ++ back))
  name_ne_nil : a.name ≠ []
  isAttributeName : ∀ c ∈ a.name, isAttributeName c = true
  isAssignment : IsAssignment lead
  start_eq : a.start = front.length
  stop_eq : a.stop = front.length + a.name.length + lead.length + value.length
  isBody : IsBody a.stop back after tag.stop
  readAt_eq : ∀ q, StartTag.readAt (front ++ (a.name ++ q)) pos =
    toTag tag.name (prepend before (readAttributes tag.name front.length (a.name ++ q)))

theorem StartTag.exists_slot {text t : List Char} {pos : Int} {tag : StartTag}
    {before after : List Attribute} {a : Attribute} {s e : Nat}
    (h : StartTag.readAt text pos = .ok tag) (has : tag.attributes = before ++ a :: after)
    (ha : a.value = .static t s e) (ht : t ≠ []) :
    ∃ front lead value back, Slot text pos tag before a after front lead value back ∧
      IsValue (front.length + a.name.length + lead.length) value back (.static t s e) := by
  obtain ⟨front, name, body, back, rfl, hne, hname, hnamed, hback, hread⟩ :=
    StartTag.exists_named h has (by simp [ha])
  obtain ⟨lead, value, hlead, rfl, rfl, hstart, hstop, hvalue⟩ := hnamed.exists_isAssignment ha ht
  exact ⟨front, lead, value, back, ⟨rfl, hne, hname, hlead, hstart, hstop, hback, hread⟩, hvalue⟩

namespace Slot

variable {text front lead value back t uri : List Char} {pos : Int} {tag : StartTag}
  {before after : List Attribute} {a : Attribute}

/-- Wherever a URI is the value, all behind it moves along. -/
theorem readAt_value {value' : List Char} {old s : Nat}
    (h : Slot text pos tag before a after front lead value back)
    (hlen : value'.length + old = value.length + uri.length)
    (hvalue : IsValue (front.length + a.name.length + lead.length) value' back
      (.static uri s (s + uri.length))) :
    StartTag.readAt (front ++ (a.name ++ (lead ++ value' ++ back))) pos =
      .ok (tag.replaceLiteral before a after old s uri) := by
  have hmoved : moved value.length value'.length = moved old uri.length := by
    funext k
    simp only [moved]
    omega
  have hstop : front.length + a.name.length + lead.length + value'.length =
      moved old uri.length a.stop := by
    rw [h.stop_eq]
    simp only [moved]
    omega
  have hback := h.isBody
  rw [h.stop_eq] at hback
  rw [h.readAt_eq, readAttributes_assigned h.name_ne_nil h.isAttributeName h.isAssignment hvalue hback,
    Attribute.move_congr hmoved, hmoved, hstop, prepend_ok, toTag_ok, StartTag.replaceLiteral,
    Attribute.replaceLiteral, h.start_eq]

/-! ### Between quotes -/

variable {q : Char}

theorem applyAll_quoted (h : Slot text pos tag before a after front lead (q :: (t ++ [q])) back)
    (uri : List Char) :
    Edit.applyAll text [⟨(front.length + a.name.length + lead.length + 1 : Nat),
        (front.length + a.name.length + lead.length + 1 + t.length : Nat), uri⟩] =
      .ok (front ++ (a.name ++ (lead ++ q :: (uri ++ [q]) ++ back))) := by
  have htext : text = front ++ (a.name ++ (lead ++ [q])) ++ (t ++ q :: back) := by
    rw [h.text_eq]
    simp
  have hlen : front.length + a.name.length + lead.length + 1 =
      (front ++ (a.name ++ (lead ++ [q]))).length := by
    simp only [List.length_append, List.length_cons, List.length_nil]
    omega
  exact (applyAll_span _ t (q :: back) uri htext hlen rfl).trans (by simp)

theorem readAt_quoted (h : Slot text pos tag before a after front lead (q :: (t ++ [q])) back)
    (hq : q = '"' ∨ q = '\'') (hchars : ∀ c ∈ uri, isUriChar c = true) :
    StartTag.readAt (front ++ (a.name ++ (lead ++ q :: (uri ++ [q]) ++ back))) pos =
      .ok (tag.replaceLiteral before a after t.length
        (front.length + a.name.length + lead.length + 1) uri) := by
  refine h.readAt_value ?_ (isValue_quoted hq hchars)
  simp only [List.length_append, List.length_cons, List.length_nil]
  omega

theorem lt_stop (h : Slot text pos tag before a after front lead (q :: (t ++ [q])) back) :
    front.length + a.name.length + lead.length + 1 + t.length < a.stop := by
  rw [h.stop_eq]
  simp only [List.length_append, List.length_cons, List.length_nil]
  omega

/-! ### Without quotes -/

theorem length_front (front name lead : List Char) :
    (front ++ (name ++ lead)).length = front.length + name.length + lead.length := by
  simp only [List.length_append]
  omega

theorem applyAll_bare (h : Slot text pos tag before a after front lead value back)
    (uri : List Char) :
    Edit.applyAll text [⟨(front.length + a.name.length + lead.length : Nat),
        (front.length + a.name.length + lead.length + value.length : Nat), uri⟩] =
      .ok (front ++ (a.name ++ (lead ++ uri ++ back))) := by
  have htext : text = front ++ (a.name ++ lead) ++ (value ++ back) := by
    rw [h.text_eq]
    simp
  exact (applyAll_span _ value back uri htext (length_front ..).symm rfl).trans (by simp)

/-- What follows the attribute in the text. -/
theorem getElem?_stop (h : Slot text pos tag before a after front lead value back) :
    text[a.stop]? = back.head? := by
  have htext : text = front ++ (a.name ++ lead) ++ value ++ back := by
    rw [h.text_eq]
    simp
  have hstop : a.stop = (front ++ (a.name ++ lead) ++ value).length := by
    rw [h.stop_eq, List.length_append, length_front]
  rw [htext, hstop, List.getElem?_append_right (Nat.le_refl _), Nat.sub_self, List.head?_eq_getElem?]

theorem readAt_of_mem_equals (h : Slot text pos tag before a after front lead value back)
    (hd : ∃ cs, uri = 'd' :: cs) (hchars : ∀ c ∈ uri, isUriChar c = true) (heq : '=' ∈ uri) :
    ∃ offset, StartTag.readAt (front ++ (a.name ++ (lead ++ uri ++ back))) pos =
      .error (.unexpected '=' tag.name offset) := by
  obtain ⟨offset, herror⟩ := readAttributes_of_mem_equals tag.name back front.length
    h.name_ne_nil h.isAttributeName h.isAssignment hd hchars heq
  refine ⟨offset, ?_⟩
  rw [h.readAt_eq, herror, prepend_error, toTag_error]

/-- A slash that a bracket follows is no part of the value that is read. -/
theorem readAt_ne_of_slash {old s : Nat}
    (h : Slot text pos tag before a after front lead value back)
    (hd : ∃ cs, uri = 'd' :: cs) (hchars : ∀ c ∈ uri, isUriChar c = true) (heq : '=' ∉ uri)
    (hslash : uri.getLast? = some '/') (hclose : back.head? = some '>') :
    StartTag.readAt (front ++ (a.name ++ (lead ++ uri ++ back))) pos ≠
      .ok (tag.replaceLiteral before a after old s uri) := by
  intro hok
  have hbrace : uri.head? ≠ some '{' := by
    obtain ⟨cs, rfl⟩ := hd
    simp
  rw [h.readAt_eq] at hok
  cases hr : readAttributes tag.name front.length (a.name ++ (lead ++ uri ++ back)) with
  | error e =>
    rw [hr] at hok
    cases hok
  | ok r =>
    obtain ⟨b, as, hb, hlost⟩ := readAttributes_of_slash h.name_ne_nil h.isAttributeName
      h.isAssignment hchars hbrace heq hslash hclose hr
    rw [hr] at hok
    have hattributes : before ++ r.1 = before ++ a.replaceLiteral old s uri :: _ :=
      congrArg StartTag.attributes (Except.ok.inj hok)
    rw [hb] at hattributes
    obtain ⟨rfl, -⟩ := List.cons_eq_cons.mp (List.append_cancel_left hattributes)
    exact hlost _ _ rfl

/-- Without quotes the URI has to be one run. -/
theorem readAt_bare_iff (h : Slot text pos tag before a after front lead value back)
    (hbare : IsBare value back) (hd : ∃ cs, uri = 'd' :: cs)
    (hchars : ∀ c ∈ uri, isUriChar c = true) :
    StartTag.readAt (front ++ (a.name ++ (lead ++ uri ++ back))) pos =
        .ok (tag.replaceLiteral before a after value.length
          (front.length + a.name.length + lead.length) uri) ↔
      '=' ∉ uri ∧ (uri.getLast? = some '/' → text[a.stop]? ≠ some '>') := by
  rw [h.getElem?_stop]
  constructor
  · intro hok
    have heq : '=' ∉ uri := by
      intro heq
      obtain ⟨offset, herror⟩ := h.readAt_of_mem_equals hd hchars heq
      rw [herror] at hok
      cases hok
    exact ⟨heq, fun hslash hclose ↦ h.readAt_ne_of_slash hd hchars heq hslash hclose hok⟩
  · rintro ⟨heq, hslash⟩
    exact h.readAt_value (Nat.add_comm _ _) (isValue_bare hbare hd hchars heq hslash)

end Slot

/-- **A tag with an inline URI in place of a literal reads back as it was exactly if the literal has
quotes, or the URI holds no equals sign and does not end in a slash before the bracket.**  An equals
sign without quotes makes the tag unreadable. -/
theorem readAt_replaced_iff {text t uri : List Char} {pos : Int} {tag : StartTag}
    {before after : List Attribute} {a : Attribute} {s e : Nat}
    (h : StartTag.readAt text pos = .ok tag) (has : tag.attributes = before ++ a :: after)
    (ha : a.value = .static t s e) (ht : trim t ≠ []) (huri : IsInlineUri uri) :
    ∃ edited, Edit.applyAll text [⟨s, e, uri⟩] = .ok edited ∧
      (StartTag.readAt edited pos = .ok (tag.replaceLiteral before a after t.length s uri) ↔
        e < a.stop ∨ '=' ∉ uri ∧ (uri.getLast? = some '/' → text[e]? ≠ some '>')) ∧
      (e = a.stop → '=' ∈ uri →
        ∃ offset, StartTag.readAt edited pos = .error (.unexpected '=' tag.name offset)) := by
  obtain ⟨hd, hchars⟩ := huri.isUriChar
  have ht' : t ≠ [] := by
    rintro rfl
    exact ht rfl
  obtain ⟨front, lead, value, back, hslot, hvalue⟩ := StartTag.exists_slot h has ha ht'
  rcases hvalue.static_cases with ⟨q, hq, rfl, rfl, rfl⟩ | ⟨hbare, rfl, rfl, rfl⟩
  · -- between quotes the URI is a value
    refine ⟨_, hslot.applyAll_quoted uri, ⟨fun _ ↦ .inl hslot.lt_stop, fun _ ↦ ?_⟩, fun he ↦ ?_⟩
    · exact hslot.readAt_quoted hq hchars
    · exact absurd he (Nat.ne_of_lt hslot.lt_stop)
  · refine ⟨_, hslot.applyAll_bare uri, ?_, fun _ heq ↦ hslot.readAt_of_mem_equals hd hchars heq⟩
    rw [hslot.readAt_bare_iff hbare hd hchars, ← hslot.stop_eq]
    constructor
    · exact .inr
    · rintro (hlt | hrun)
      · exact absurd hlt (Nat.lt_irrefl _)
      · exact hrun

/-- The data of a picture do not always fill the last group of base 64; the tag is lost then. -/
theorem readAt_replaced_padding :
    StartTag.readAt "<img src=a.png>".toList 0 =
        .ok ⟨"img".toList, [⟨"src".toList, .static "a.png".toList 9 14, 5, 14⟩], 15⟩ ∧
      IsInlineUri "data:image/png;base64,/w==".toList ∧
      ∃ edited, Edit.applyAll "<img src=a.png>".toList
          [⟨9, 14, "data:image/png;base64,/w==".toList⟩] = .ok edited ∧
        ∃ offset, StartTag.readAt edited 0 = .error (.unexpected '=' "img".toList offset) := by
  have h : StartTag.readAt "<img src=a.png>".toList 0 =
      .ok ⟨"img".toList, [⟨"src".toList, .static "a.png".toList 9 14, 5, 14⟩], 15⟩ := by cbv
  have huri : IsInlineUri "data:image/png;base64,/w==".toList := by
    have hlit : (Picture.dataUri "image/png" [255]).toList = "data:image/png;base64,/w==".toList := by
      decide
    exact hlit ▸ .blurred [255]
  have has : [⟨"src".toList, .static "a.png".toList 9 14, 5, 14⟩] =
      [] ++ (⟨"src".toList, .static "a.png".toList 9 14, 5, 14⟩ : Attribute) :: [] := rfl
  obtain ⟨edited, hedited, -, herror⟩ := readAt_replaced_iff h has rfl (by decide) huri
  exact ⟨h, huri, edited, hedited, herror rfl (by simp)⟩

end ResponsiveImage.Markup
