import ResponsiveImage.Proofs.Markup.SourceEdit

/-!
# Adding attributes to a tag

Attributes are written behind a literal one, each as a blank, its name, and its value between double
quotes.  Nothing is escaped, so a name has to be made of the characters of names, and a value may hold
neither the quote that would end it nor a brace that would begin an expression.

The tag reads back with the attributes that were meant exactly if all of them are of that kind
(`readAt_added_iff`).  That they may be read is an induction on their list.  That nothing else may is
seen at each of them alone: an attribute that is read at its place has its name and its value there.
-/

namespace ResponsiveImage.Markup

open Text

/-! ## Plain text -/

/-- A text that stands for itself between double quotes. -/
def IsPlain (cs : List Char) : Prop := ∀ c ∈ cs, c ≠ '"' ∧ c ≠ '{'

instance (cs : List Char) : Decidable (IsPlain cs) :=
  List.decidableBAll (fun c ↦ c ≠ '"' ∧ c ≠ '{') cs

@[simp] theorem isPlain_nil : IsPlain [] := by
  intro c hc
  cases hc

@[simp] theorem isPlain_cons {c : Char} {cs : List Char} :
    IsPlain (c :: cs) ↔ (c ≠ '"' ∧ c ≠ '{') ∧ IsPlain cs := List.forall_mem_cons

@[simp] theorem isPlain_append {cs ds : List Char} :
    IsPlain (cs ++ ds) ↔ IsPlain cs ∧ IsPlain ds := List.forall_mem_append

theorem IsPlain.subset {cs ds : List Char} (h : IsPlain ds) (hsub : cs ⊆ ds) : IsPlain cs :=
  fun c hc ↦ h c (hsub hc)

/-- A quote closes a text without braces only if the text holds no such quote. -/
theorem Closes.not_mem {q : Char} {inner : List Char} (h : Closes q inner) (hb : '{' ∉ inner) :
    q ∉ inner := by
  intro hq
  obtain ⟨front, back, rfl, hfront⟩ := List.eq_append_cons_of_mem hq
  have hplain : Closes q front := by
    refine closes_of_plain fun c hc ↦ ⟨fun he ↦ hfront (he ▸ hc), fun he ↦ hb ?_⟩
    exact List.mem_append_left _ (he ▸ hc)
  -- the first of the quotes closes the text already
  have hfirst : quotedEnd q (front ++ q :: back ++ [q]) = .closed (front.length + 1) :=
    quotedEnd_eq_closed_iff.mpr ⟨front, back ++ [q], by simp, rfl, hplain⟩
  rw [Closes, hfirst] at h
  simp at h

/-! ## Writing attributes -/

/-- The name and the value of an attribute. -/
abbrev NamedText := List Char × List Char

/-- An attribute as it is written. -/
def writtenOne (p : NamedText) : List Char := ' ' :: (p.1 ++ '=' :: '"' :: (p.2 ++ ['"']))

def written (ps : List NamedText) : List Char := ps.flatMap writtenOne

/-- The attribute that is meant by what is written at offset `i`. -/
def meantOne (i : Nat) (p : NamedText) : Attribute :=
  ⟨p.1, .static p.2 (i + p.1.length + 3) (i + p.1.length + 3 + p.2.length), i + 1,
    i + p.1.length + 3 + p.2.length + 1⟩

def meant (i : Nat) : List NamedText → List Attribute
  | [] => []
  | p :: ps => meantOne i p :: meant (i + (writtenOne p).length) ps

/-- An attribute that reads back as it is written. -/
structure IsWritable (p : NamedText) : Prop where
  name_ne_nil : p.1 ≠ []
  isAttributeName : ∀ c ∈ p.1, isAttributeName c = true
  isPlain : IsPlain p.2

theorem isWritable_iff {name value : List Char} (hne : name ≠ []) :
    IsWritable (name, value) ↔ (∀ c ∈ name, Markup.isAttributeName c = true) ∧ IsPlain value :=
  ⟨fun h ↦ ⟨h.isAttributeName, h.isPlain⟩, fun h ↦ ⟨hne, h.1, h.2⟩⟩

@[simp] theorem written_cons (p : NamedText) (ps : List NamedText) :
    written (p :: ps) = writtenOne p ++ written ps := rfl

@[simp] theorem written_append (ps qs : List NamedText) :
    written (ps ++ qs) = written ps ++ written qs := List.flatMap_append

theorem meant_append (i : Nat) (ps qs : List NamedText) :
    meant i (ps ++ qs) = meant i ps ++ meant (i + (written ps).length) qs := by
  induction ps generalizing i with
  | nil => rfl
  | cons p ps ih =>
    rw [List.cons_append, meant, ih, meant, written_cons, List.length_append, Nat.add_assoc,
      List.cons_append]

/-! ## Reading them -/

theorem IsWritable.isItem {p : NamedText} (h : IsWritable p) (i : Nat) (rest : List Char) :
    IsItem (i + 1) (p.1 ++ ('=' :: '"' :: (p.2 ++ ['"']))) rest (some (meantOne i p)) := by
  have hassign : IsAssignment ['='] := ⟨[], [], rfl, by simp, by simp⟩
  have hliteral : literal p.2 (i + p.1.length + 3) = (meantOne i p).value := by
    refine literal_eq_static_iff.mpr ⟨fun hb ↦ (h.isPlain _ hb).2 rfl, rfl, rfl, rfl⟩
  have hvalue : IsValue (i + 1 + p.1.length + 1) ('"' :: (p.2 ++ ['"'])) rest
      (meantOne i p).value := by
    rw [← hliteral, show i + p.1.length + 3 = i + 1 + p.1.length + 1 + 1 by omega]
    exact .quoted (.inl rfl) (closes_of_plain h.isPlain)
  have hnamed := hassign.isNamed hvalue
  have hstop : i + 1 + p.1.length + 1 + ('"' :: (p.2 ++ ['"'])).length = (meantOne i p).stop := by
    simp only [meantOne, List.length_cons, List.length_append, List.length_nil]
    omega
  rw [List.length_singleton, hstop] at hnamed
  exact .named h.name_ne_nil h.isAttributeName (hassign.stops _) hnamed

/-- Writable attributes before a body make a body. -/
theorem isBody_written {ps : List NamedText} (hps : ∀ p ∈ ps, IsWritable p) {i stop : Nat}
    {back : List Char} {as : List Attribute}
    (h : IsBody (i + (written ps).length) back as stop) :
    IsBody i (written ps ++ back) (meant i ps ++ as) stop := by
  induction ps generalizing i with
  | nil => exact h
  | cons p ps ih =>
    obtain ⟨hp, hps⟩ := List.forall_mem_cons.mp hps
    rw [written_cons, List.length_append, ← Nat.add_assoc] at h
    have hrest := ih hps h
    have hitem := hp.isItem i (written ps ++ back)
    have hlen : i + (writtenOne p).length =
        i + [' '].length + (p.1 ++ ('=' :: '"' :: (p.2 ++ ['"']))).length := by
      simp only [writtenOne, List.length_cons, List.length_append, List.length_nil]
      omega
    rw [hlen] at hrest
    have hblank : IsItem i [' '] (p.1 ++ '=' :: '"' :: (p.2 ++ ['"']) ++ (written ps ++ back)) none :=
      .blank (by decide)
    have hbody := IsBody.item hblank (.item hitem hrest)
    have hcs : written (p :: ps) ++ back =
        [' '] ++ (p.1 ++ '=' :: '"' :: (p.2 ++ ['"']) ++ (written ps ++ back)) := by
      simp [writtenOne]
    rw [hcs, meant, hlen]
    exact hbody

/-! ## What reads as it was meant -/

theorem IsNamed.name_eq {i : Nat} {name text rest : List Char} {a : Attribute}
    (h : IsNamed i name text rest a) : a.name = name := by
  cases h <;> rfl

theorem IsAssignment.exists_getLast? {lead : List Char} (h : IsAssignment lead) (front : List Char) :
    ∃ c, (front ++ lead).getLast? = some c ∧ (c = '=' ∨ isBlank c = true) := by
  obtain ⟨gap₁, gap₂, rfl, -, h₂⟩ := h
  have hsplit : front ++ (gap₁ ++ '=' :: gap₂) = front ++ gap₁ ++ '=' :: gap₂ := by simp
  cases hlast : ('=' :: gap₂).getLast? with
  | none => cases List.getLast?_eq_none_iff.mp hlast
  | some c =>
    rw [hsplit, List.getLast?_append, hlast, Option.some_or]
    exact ⟨c, rfl, (List.mem_cons.mp (List.mem_of_getLast? hlast)).imp_right (h₂ c)⟩

theorem IsAssignment.getLast?_ne {lead : List Char} (h : IsAssignment lead) (front : List Char) :
    (front ++ lead).getLast? ≠ some '"' := by
  obtain ⟨c, hlast, hc⟩ := h.exists_getLast? front
  rw [hlast]
  rintro ⟨⟩
  rcases hc with hc | hc <;> exact absurd hc (by decide)

/-- A literal that begins right behind a double quote is plain. -/
theorem IsValue.isPlain {s e : Nat} {front lead value rest t : List Char}
    (h : IsValue (front ++ lead).length value rest (.static t s e)) (hlead : IsAssignment lead)
    (hquote : ((front ++ lead ++ (value ++ rest)).take s).getLast? = some '"') : IsPlain t := by
  generalize hv : AttributeValue.static t s e = v at h
  cases h with
  | @quoted q inner _ hq hcloses =>
    obtain ⟨hbrace, rfl, rfl, -⟩ := literal_eq_static_iff.mp hv.symm
    have hsplit : front ++ lead ++ (q :: (t ++ [q]) ++ rest) =
        front ++ lead ++ [q] ++ (t ++ [q] ++ rest) := by simp
    have hlen : (front ++ lead ++ [q]).length = (front ++ lead).length + 1 := List.length_append
    rw [hsplit, List.take_left' hlen, List.getLast?_concat] at hquote
    obtain rfl : q = '"' := Option.some_inj.mp hquote
    intro c hc
    exact ⟨fun he ↦ hcloses.not_mem hbrace (he ▸ hc), fun he ↦ hbrace (he ▸ hc)⟩
  | expression => cases hv
  | bare =>
    -- without quotes the literal begins behind the equals sign or a blank
    obtain ⟨-, rfl, rfl, -⟩ := literal_eq_static_iff.mp hv.symm
    rw [List.take_left] at hquote
    exact absurd hquote (hlead.getLast?_ne front)

/-- An attribute that is read where it is written is writable. -/
theorem isWritable_of_readAt {text front rest : List Char} {pos : Int} {tag : StartTag}
    {p : NamedText} (h : StartTag.readAt text pos = .ok tag)
    (hp : meantOne front.length p ∈ tag.attributes)
    (htext : text = front ++ (writtenOne p ++ rest)) : IsWritable p := by
  obtain ⟨before, after, has⟩ := List.append_of_mem hp
  obtain ⟨front', name, body, back, htext', hne, hname, hnamed, -, -⟩ :=
    StartTag.exists_named h has (by simp [meantOne])
  obtain rfl : p.1 = name := hnamed.name_eq
  refine ⟨hne, hname, ?_⟩
  by_cases ht : p.2 = []
  · rw [ht]
    exact isPlain_nil
  · obtain ⟨lead, value, hlead, rfl, -, -, -, hvalue⟩ := hnamed.exists_isAssignment rfl ht
    have hlength : front'.length + p.1.length + lead.length = (front' ++ p.1 ++ lead).length := by
      simp only [List.length_append]
    rw [hlength] at hvalue
    refine hvalue.isPlain hlead ?_
    have htext' : text = front' ++ p.1 ++ lead ++ (value ++ back) := by simp [htext']
    have hwritten : text = front ++ ' ' :: (p.1 ++ ['=']) ++ ['"'] ++ (p.2 ++ '"' :: rest) := by
      simp [htext, writtenOne]
    have hlead : (front ++ ' ' :: (p.1 ++ ['=']) ++ ['"']).length =
        front.length + p.1.length + 3 := by
      simp only [List.length_append, List.length_cons, List.length_nil]
      omega
    rw [← htext', hwritten, List.take_left' hlead, List.getLast?_concat]

/-! ## Adding them -/

/-- A value is followed as well by a blank. -/
theorem IsValue.before_blank {i : Nat} {text rest : List Char} {value : AttributeValue}
    (h : IsValue i text rest value) (hne : text ≠ []) (rest' : List Char) :
    IsValue i text (' ' :: rest') value := by
  cases h with
  | quoted hq h => exact .quoted hq h
  | expression he => exact .expression he
  | bare h hb =>
    refine .bare (.ended hne ?_ (stops_cons.mpr (by decide)) (by simp)) hb
    cases h with
    | ended _ hrun => exact hrun
    | closed hrun => exact hrun

theorem IsValue.before_written {i : Nat} {text rest : List Char} {value : AttributeValue}
    (h : IsValue i text rest value) (hne : text ≠ []) (ps : List NamedText) :
    IsValue i text (written ps ++ rest) value := by
  cases ps with
  | nil => exact h
  | cons p ps => exact h.before_blank hne _

/-- A tag with attributes added behind one of its own, and all behind it moved. -/
def StartTag.withAdded (tag : StartTag) (before : List Attribute) (a : Attribute)
    (after : List Attribute) (ps : List NamedText) : StartTag :=
  ⟨tag.name, before ++ a :: (meant a.stop ps ++ after.map (·.move 0 (written ps).length)),
    moved 0 (written ps).length tag.stop⟩

namespace Slot

variable {text front lead value back t : List Char} {pos : Int} {tag : StartTag}
  {before after : List Attribute} {a : Attribute}

theorem applyAll_written (h : Slot text pos tag before a after front lead value back)
    (new : List Char) :
    Edit.applyAll text [⟨a.stop, a.stop, new⟩] =
      .ok (front ++ (a.name ++ (lead ++ value ++ (new ++ back)))) := by
  have htext : text = front ++ (a.name ++ (lead ++ value)) ++ ([] ++ back) := by
    rw [h.text_eq]
    simp
  have hlen : a.stop = (front ++ (a.name ++ (lead ++ value))).length := by
    rw [h.stop_eq]
    simp only [List.length_append]
    omega
  exact (applyAll_span _ [] back new htext hlen rfl).trans (by simp)

theorem readAt_written {s e : Nat} {ps : List NamedText}
    (h : Slot text pos tag before a after front lead value back)
    (hvalue : IsValue (front.length + a.name.length + lead.length) value back (.static t s e))
    (ha : a.value = .static t s e) (hne : value ≠ []) (hps : ∀ p ∈ ps, IsWritable p) :
    StartTag.readAt (front ++ (a.name ++ (lead ++ value ++ (written ps ++ back)))) pos =
      .ok (tag.withAdded before a after ps) := by
  have hnamed := h.isAssignment.isNamed (hvalue.before_written hne ps)
  have hself : (⟨a.name, .static t s e, front.length,
      front.length + a.name.length + lead.length + value.length⟩ : Attribute) = a := by
    rw [← ha, ← h.stop_eq, ← h.start_eq]
  rw [hself] at hnamed
  have hitem : IsItem front.length (a.name ++ (lead ++ value)) (written ps ++ back) (some a) := by
    refine .named h.name_ne_nil h.isAttributeName ?_ hnamed
    rw [List.append_assoc]
    exact h.isAssignment.stops _
  have hmoved := h.isBody.move (written ps).length (Nat.zero_le _)
  have hbody := isBody_written hps hmoved
  have hstop : a.stop = front.length + (a.name ++ (lead ++ value)).length := by
    rw [h.stop_eq]
    simp only [List.length_append]
    omega
  rw [h.readAt_eq, ← List.append_assoc, hitem.readAttributes_eq, ← hstop,
    readAttributes_eq_ok_iff.mpr hbody]
  rfl

theorem isWritable_of_readAt_written {ps : List NamedText} {p : NamedText}
    (h : Slot text pos tag before a after front lead value back)
    (hread : StartTag.readAt (front ++ (a.name ++ (lead ++ value ++ (written ps ++ back)))) pos =
      .ok (tag.withAdded before a after ps)) (hp : p ∈ ps) : IsWritable p := by
  obtain ⟨qs, rs, rfl⟩ := List.append_of_mem hp
  have hlen : (front ++ (a.name ++ (lead ++ value)) ++ written qs).length =
      a.stop + (written qs).length := by
    rw [h.stop_eq]
    simp only [List.length_append]
    omega
  have hmeant : meantOne (front ++ (a.name ++ (lead ++ value)) ++ written qs).length p ∈
      (tag.withAdded before a after (qs ++ p :: rs)).attributes := by
    rw [hlen, StartTag.withAdded, meant_append]
    simp [meant]
  have htext : front ++ (a.name ++ (lead ++ value ++ (written (qs ++ p :: rs) ++ back))) =
      (front ++ (a.name ++ (lead ++ value)) ++ written qs) ++
        (writtenOne p ++ (written rs ++ back)) := by
    simp
  exact isWritable_of_readAt hread hmeant htext

end Slot

/-- **A tag with attributes added behind a literal one reads back as it was meant exactly if all of
them are writable.** -/
theorem readAt_added_iff {text t : List Char} {pos : Int} {tag : StartTag}
    {before after : List Attribute} {a : Attribute} {s e : Nat} (ps : List NamedText)
    (h : StartTag.readAt text pos = .ok tag) (has : tag.attributes = before ++ a :: after)
    (ha : a.value = .static t s e) (ht : t ≠ []) :
    ∃ edited, Edit.applyAll text [⟨a.stop, a.stop, written ps⟩] = .ok edited ∧
      (StartTag.readAt edited pos = .ok (tag.withAdded before a after ps) ↔
        ∀ p ∈ ps, IsWritable p) := by
  obtain ⟨front, lead, value, back, hslot, hvalue⟩ := StartTag.exists_slot h has ha ht
  have hne : value ≠ [] := by
    rcases hvalue.static_cases with ⟨q, -, rfl, -⟩ | ⟨-, rfl, -⟩
    · exact List.cons_ne_nil _ _
    · exact ht
  refine ⟨_, hslot.applyAll_written (written ps), fun hread p hp ↦ ?_, fun hps ↦ ?_⟩
  · exact hslot.isWritable_of_readAt_written hread hp
  · exact hslot.readAt_written hvalue ha hne hps

end ResponsiveImage.Markup
