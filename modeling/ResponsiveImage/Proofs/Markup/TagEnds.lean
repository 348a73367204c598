import ResponsiveImage.Proofs.Markup.Pieces
import ResponsiveImage.Proofs.Markup.SpanTexts

/-!
# Where masking takes a tag to end

A start tag is looked at twice.  It is read for its attributes, and masking passes it to get at the
text behind it; to find its bracket masking only keeps track of quotes and expressions.  The two agree
wherever the quotes and the braces of a tag are closed in it (`tagEnd_eq_stop_iff`).

Reading a tag closes all of them but those in a value without quotes.  Such a value is a run of
characters, and a brace in it is one of them, while for masking it opens an expression that may go on
behind the tag.
-/

namespace ResponsiveImage.Markup

open Text Expression

/-! ## Text that masking passes inside a tag -/

/-- A character that is passed alone. -/
def IsInert (c : Char) : Prop := c ≠ '>' ∧ c ≠ '"' ∧ c ≠ '\'' ∧ c ≠ '{'

instance (c : Char) : Decidable (IsInert c) := inferInstanceAs (Decidable (_ ∧ _))

/-- A text whose quotes and expressions are closed in it, without a closing bracket between them. -/
inductive SelfContained : List Char → Prop
  | nil : SelfContained []
  | inert {c : Char} {cs : List Char} (hc : IsInert c) (h : SelfContained cs) : SelfContained (c :: cs)
  | quoted {q : Char} {inner cs : List Char} (hq : q = '"' ∨ q = '\'') (hinner : Closes q inner)
      (h : SelfContained cs) : SelfContained (q :: (inner ++ q :: cs))
  | expression {e cs : List Char} (he : Whole e) (h : SelfContained cs) : SelfContained (e ++ cs)

theorem selfContained_of_isInert {cs : List Char} (h : ∀ c ∈ cs, IsInert c) : SelfContained cs := by
  induction cs with
  | nil => exact .nil
  | cons c cs ih =>
    obtain ⟨hc, hcs⟩ := List.forall_mem_cons.mp h
    exact .inert hc (ih hcs)

theorem SelfContained.append {cs ds : List Char} (h : SelfContained cs) (hd : SelfContained ds) :
    SelfContained (cs ++ ds) := by
  induction h with
  | nil => exact hd
  | inert hc _ ih => exact .inert hc ih
  | quoted hq hinner _ ih =>
    rw [List.cons_append, List.append_assoc]
    exact .quoted hq hinner ih
  | expression he _ ih =>
    rw [List.append_assoc]
    exact .expression he ih

section TagExtent

variable {rest : List Char}

theorem tagExtent_bracket : tagExtent ('>' :: rest) = some 1 := by
  rw [tagExtent, if_pos rfl]

theorem tagExtent_inert {c : Char} (h : IsInert c) :
    tagExtent (c :: rest) = (tagExtent rest).map (· + 1) := by
  obtain ⟨hbracket, hdouble, hsingle, hbrace⟩ := h
  rw [tagExtent, if_neg hbracket, if_neg (by simp [hdouble, hsingle]), if_neg hbrace]

theorem tagExtent_quoted {q : Char} {inner : List Char} (hq : q = '"' ∨ q = '\'')
    (h : Closes q inner) :
    tagExtent (q :: (inner ++ q :: rest)) = (tagExtent rest).map (· + (inner.length + 1 + 1)) := by
  have hne : q ≠ '>' := by rcases hq with rfl | rfl <;> decide
  have hend : quotedEnd q (inner ++ q :: rest) = .closed (inner.length + 1) :=
    quotedEnd_eq_closed_iff.mpr ⟨inner, rest, rfl, rfl, h⟩
  rw [tagExtent, if_neg hne, if_pos (by simpa using hq), hend]
  simp only [← List.drop_drop, List.drop_left, List.drop_one, List.tail_cons]

theorem tagExtent_expression {e : List Char} (h : Whole e) :
    tagExtent (e ++ rest) = (tagExtent rest).map (· + e.length) := by
  obtain ⟨c, e, rfl⟩ := List.exists_cons_of_ne_nil h.ne_nil
  obtain rfl : c = '{' := by simpa using h.head?_eq
  have hlen := h.length?_append rest
  rw [List.cons_append] at hlen ⊢
  rw [tagExtent, if_neg (by decide), if_neg (by decide), if_pos rfl, hlen]
  simp only [List.length_cons, Nat.add_sub_cancel, List.drop_left]

end TagExtent

/-- Masking goes on behind such a text as it would without it. -/
theorem SelfContained.tagExtent_append {cs : List Char} (h : SelfContained cs) (rest : List Char) :
    tagExtent (cs ++ rest) = (tagExtent rest).map (· + cs.length) := by
  induction h with
  | nil => simp
  | inert hc _ ih =>
    rw [List.cons_append, tagExtent_inert hc, ih]
    simp [Function.comp_def, Nat.add_assoc]
  | @quoted q inner cs hq hinner _ ih =>
    rw [List.cons_append, List.append_assoc, List.cons_append, tagExtent_quoted hq hinner, ih,
      Option.map_map]
    congr 1
    funext n
    simp only [Function.comp_apply, List.length_cons, List.length_append]
    omega
  | @expression e cs he _ ih =>
    rw [List.append_assoc, tagExtent_expression he, ih, Option.map_map, List.length_append]
    congr 1
    funext n
    simp only [Function.comp_apply]
    omega

theorem SelfContained.tagExtent_eq {cs : List Char} (h : SelfContained cs) (rest : List Char) :
    tagExtent (cs ++ '>' :: rest) = some (cs.length + 1) := by
  rw [h.tagExtent_append, tagExtent_bracket, Option.map_some, Nat.add_comm]

/-- A bracket that masking finds before the end of a text stands behind such a text.  Only at the end
it might be none: there, a quote that is never closed takes the rest of the text. -/
theorem exists_selfContained_of_tagExtent {cs : List Char} {n : Nat} (h : tagExtent cs = some n)
    (hlt : n < cs.length) :
    ∃ inside rest, cs = inside ++ '>' :: rest ∧ n = inside.length + 1 ∧ SelfContained inside := by
  fun_induction tagExtent cs generalizing n with
  | case1 => exact absurd hlt (Nat.not_lt_zero n)
  | case2 cs =>
    cases h
    exact ⟨[], cs, rfl, rfl, .nil⟩
  | case3 q cs _ hq m hm ih =>
    obtain ⟨k, hk, rfl⟩ := Option.map_eq_some_iff.mp h
    obtain ⟨inner, behind, rfl, rfl, hinner⟩ := quotedEnd_eq_closed_iff.mp hm
    have hdrop : (inner ++ q :: behind).drop (inner.length + 1) = behind := by
      rw [← List.drop_drop, List.drop_left, List.drop_one, List.tail_cons]
    rw [hdrop] at ih hk
    rw [List.length_cons, List.length_append, List.length_cons] at hlt
    obtain ⟨inside, rest, rfl, rfl, hinside⟩ := ih hk (by omega)
    refine ⟨q :: (inner ++ q :: inside), rest, by simp, ?_, .quoted (by simpa using hq) hinner hinside⟩
    simp only [List.length_cons, List.length_append]
    omega
  | case4 =>
    cases h
    exact absurd hlt (by simp)
  | case5 => cases h
  | case6 => cases h
  | case7 cs m _ _ hm ih =>
    obtain ⟨k, hk, rfl⟩ := Option.map_eq_some_iff.mp h
    obtain ⟨e, behind, hcs, rfl, he⟩ := length?_eq_some_iff.mp hm
    rw [drop_pred (c := '{') (length?_pos hm), hcs, List.drop_left] at ih hk
    rw [hcs, List.length_append] at hlt
    obtain ⟨inside, rest, rfl, rfl, hinside⟩ := ih hk (by omega)
    refine ⟨e ++ inside, rest, by simp [hcs], ?_, .expression he hinside⟩
    rw [List.length_append]
    omega
  | case8 c cs hbracket hquote hbrace ih =>
    obtain ⟨k, hk, rfl⟩ := Option.map_eq_some_iff.mp h
    obtain ⟨inside, rest, rfl, rfl, hinside⟩ := ih hk (Nat.lt_of_succ_lt_succ hlt)
    have hquotes : c ≠ '"' ∧ c ≠ '\'' := by simpa using hquote
    have hc : IsInert c := ⟨hbracket, hquotes.1, hquotes.2, hbrace⟩
    exact ⟨c :: inside, rest, rfl, rfl, .inert hc hinside⟩

theorem selfContained_iff {cs : List Char} :
    SelfContained cs ↔ tagExtent (cs ++ ['>', '>']) = some (cs.length + 1) := by
  refine ⟨fun h ↦ h.tagExtent_eq ['>'], fun h ↦ ?_⟩
  obtain ⟨inside, rest, heq, hlen, hinside⟩ := exists_selfContained_of_tagExtent h (by simp)
  obtain ⟨rfl, -⟩ := List.append_inj heq (Nat.succ.inj hlen)
  exact hinside

instance (cs : List Char) : Decidable (SelfContained cs) := decidable_of_iff' _ selfContained_iff

/-! ## What stands in a tag that is read -/

/-- The characters of a class are inert if the class leaves out those that are not. -/
theorem isInert_of_class {p : Char → Bool} {c : Char} (hc : p c = true)
    (hp : p '>' = false ∧ p '"' = false ∧ p '\'' = false ∧ p '{' = false) : IsInert c := by
  obtain ⟨hbracket, hdouble, hsingle, hbrace⟩ := hp
  refine ⟨?_, ?_, ?_, ?_⟩ <;> rintro rfl <;> simp_all

theorem isInert_of_isUnquoted {c : Char} (hc : isUnquoted c = true) (hbrace : c ≠ '{') :
    IsInert c := by
  have hp : (isUnquoted c && c != '{') = true := by simp [hc, hbrace]
  exact isInert_of_class (p := fun c ↦ isUnquoted c && c != '{') hp (by decide)

theorem isNameRest_of_isLetter {c : Char} (h : isLetter c = true) : isNameRest c = true := by
  rw [isLetter] at h
  simp [isNameRest, isAlphanumeric, h]

theorem IsTagName.isNameRest {name rest : List Char} (h : IsTagName name rest) :
    ∀ c ∈ name, Markup.isNameRest c = true := by
  obtain ⟨c, cs, rfl, hc, hcs⟩ := h.start
  exact List.forall_mem_cons.mpr ⟨isNameRest_of_isLetter (isLetter_of_isAlpha hc), hcs⟩

theorem selfContained_of_whole {e : List Char} (he : Whole e) : SelfContained e := by
  rw [← List.append_nil e]
  exact .expression he .nil

/-- Only a value without quotes may leave an expression open. -/
theorem IsValue.selfContained {i : Nat} {val rest : List Char} {value : AttributeValue}
    (h : IsValue i val rest value) (hclosed : value = .dynamic .mustache → SelfContained val) :
    SelfContained val := by
  cases h with
  | quoted hq hinner => exact .quoted hq hinner .nil
  | expression he => exact selfContained_of_whole he
  | bare hrun =>
    by_cases hbrace : '{' ∈ val
    · exact hclosed (literal_of_mem hbrace i)
    · refine selfContained_of_isInert fun c hc ↦ isInert_of_isUnquoted (hrun.isUnquoted c hc) ?_
      rintro rfl
      exact hbrace hc

theorem IsNamed.start_eq {i : Nat} {name val rest : List Char} {a : Attribute}
    (h : IsNamed i name val rest a) : a.start = i := by
  cases h with
  | boolean => rfl
  | assigned => rfl

/-- An item is self-contained if its attribute is, where that holds an expression. -/
theorem IsItem.selfContained {text val rest : List Char} {i : Nat} {a : Option Attribute}
    (h : IsItem i val rest a) (hdrop : text.drop i = val ++ rest)
    (hclosed : ∀ b ∈ a, b.value = .dynamic .mustache → SelfContained (text.extract b.start b.stop)) :
    SelfContained val := by
  cases h with
  | blank hc => exact .inert (isInert_of_class hc (by decide)) .nil
  | slash => exact .inert (by decide) .nil
  | expression he => exact selfContained_of_whole he
  | @named name val _ a hne hname _ h =>
    by_cases hvalue : a.value = .dynamic .mustache
    · have hspan : text.extract a.start a.stop = name ++ val := by
        rw [h.start_eq, h.stop_eq, Nat.add_assoc, ← List.length_append]
        exact extract_of_drop hdrop
      rw [← hspan]
      exact hclosed a rfl hvalue
    · have hname : SelfContained name :=
        selfContained_of_isInert fun c hc ↦ isInert_of_class (hname c hc) (by decide)
      cases h with
      | boolean => exact hname.append .nil
      | @assigned gap₁ gap₂ val _ value h₁ h₂ h =>
        have hgap {gap : List Char} (hgap : ∀ c ∈ gap, isBlank c = true) : SelfContained gap :=
          selfContained_of_isInert fun c hc ↦ isInert_of_class (hgap c hc) (by decide)
        have hval := h.selfContained fun hmustache ↦ absurd hmustache hvalue
        exact hname.append ((hgap h₁).append (.inert (by decide) ((hgap h₂).append hval)))

theorem IsBody.selfContained {text cs : List Char} {i stop : Nat} {as : List Attribute}
    (h : IsBody i cs as stop) (hdrop : text.drop i = cs)
    (hclosed : ∀ a ∈ as, a.value = .dynamic .mustache → SelfContained (text.extract a.start a.stop)) :
    SelfContained (text.extract i (stop - 1)) := by
  induction h with
  | @close i =>
    rw [Nat.add_sub_cancel, List.extract_eq_take_drop, Nat.sub_self, List.take_zero]
    exact .nil
  | @selfClose i rest =>
    have hslash : text.extract i (i + ['/'].length) = ['/'] := extract_of_drop hdrop
    rw [show i + 2 - 1 = i + ['/'].length from rfl, hslash]
    exact .inert (by decide) .nil
  | @item i stop val rest a as hitem h ih =>
    obtain ⟨-, hlt, -⟩ := h.liesIn
    rw [extract_append_of_drop hdrop (Nat.le_sub_one_of_lt hlt)]
    refine (hitem.selfContained hdrop fun b hb ↦ hclosed b ?_).append
      (ih (drop_of_drop hdrop) fun b hb ↦ hclosed b ?_)
    · exact List.mem_append_left _ (Option.mem_toList.mpr hb)
    · exact List.mem_append_right _ hb

/-! ## The ends of tags -/

/-- How much of a text that begins with a bracket masking takes for a start tag.  If an expression in
the tag is never closed, it is the bracket alone. -/
def tagLength (cs : List Char) : Nat :=
  match tagExtent (cs.drop 1) with
  | some n => n + 1
  | none => 1

/-- Masking passes a tag, and the content of a script or a style behind it. -/
theorem elementExtent_eq (cs : List Char) : elementExtent cs =
    match rawName? (cs.drop 1) with
    | none => tagLength cs
    | some name =>
      match past (closingTag name) (cs.drop (tagLength cs)) with
      | some n => tagLength cs + n
      | none => cs.length := rfl

/-- Where masking takes the tag at an offset of a text to end. -/
def tagEnd (text : List Char) (pos : Nat) : Nat := pos + tagLength (text.drop pos)

section ReadTag

variable {text : List Char} {pos : Nat} {tag : StartTag}

/-- Behind its first bracket a tag that is read is its inside and the bracket that closes it. -/
theorem StartTag.drop_eq (h : StartTag.readAt text pos = .ok tag) :
    text.drop (pos + 1) =
      text.extract (pos + 1) (tag.stop - 1) ++ '>' :: text.drop tag.stop := by
  obtain ⟨hlt, hle, hlast⟩ := StartTag.ends_of_readAt h
  have hbracket : text.drop (tag.stop - 1) = '>' :: text.drop tag.stop := by
    obtain ⟨hget, hchar⟩ := List.getElem?_eq_some_iff.mp hlast
    rw [List.drop_eq_getElem_cons hget, hchar, show tag.stop - 1 + 1 = tag.stop by omega]
  have hsplit : pos + 1 + (tag.stop - 1 - (pos + 1)) = tag.stop - 1 := by omega
  calc
    text.drop (pos + 1)
    _ = (text.drop (pos + 1)).take (tag.stop - 1 - (pos + 1)) ++
        (text.drop (pos + 1)).drop (tag.stop - 1 - (pos + 1)) := (List.take_append_drop _ _).symm
    _ = text.extract (pos + 1) (tag.stop - 1) ++ text.drop (tag.stop - 1) := by
      rw [List.drop_drop, hsplit, List.extract_eq_take_drop]
    _ = text.extract (pos + 1) (tag.stop - 1) ++ '>' :: text.drop tag.stop := by rw [hbracket]

/-- A tag that is read is self-contained if its attributes are, where they hold expressions. -/
theorem StartTag.selfContained (h : StartTag.readAt text pos = .ok tag)
    (hclosed : ∀ a ∈ tag.attributes, a.value = .dynamic .mustache →
      SelfContained (text.extract a.start a.stop)) :
    SelfContained (text.extract (pos + 1) (tag.stop - 1)) := by
  obtain ⟨rest, hdrop, hname, hbody⟩ := StartTag.readAt_eq_ok_iff.mp h
  have hinside : text.drop (pos + 1) = tag.name ++ rest := drop_succ_of_drop hdrop
  obtain ⟨-, hlt, -⟩ := hbody.liesIn
  rw [extract_append_of_drop hinside (Nat.le_sub_one_of_lt hlt)]
  have hchars : SelfContained tag.name :=
    selfContained_of_isInert fun c hc ↦ isInert_of_class (hname.isNameRest c hc) (by decide)
  exact hchars.append (hbody.selfContained (drop_of_drop hinside) hclosed)

/-- Masking passes a self-contained tag up to its bracket. -/
theorem tagEnd_of_selfContained (h : StartTag.readAt text pos = .ok tag)
    (hinside : SelfContained (text.extract (pos + 1) (tag.stop - 1))) :
    tagEnd text pos = tag.stop := by
  obtain ⟨hlt, hle, -⟩ := StartTag.ends_of_readAt h
  have hlen : (text.extract (pos + 1) (tag.stop - 1)).length = tag.stop - 1 - (pos + 1) := by
    rw [List.extract_eq_take_drop, List.length_take, List.length_drop]
    omega
  rw [tagEnd, tagLength, List.drop_drop, StartTag.drop_eq h, hinside.tagExtent_eq]
  dsimp only
  omega

/-- A tag whose end masking finds before the end of the text is self-contained. -/
theorem selfContained_of_tagEnd (h : StartTag.readAt text pos = .ok tag)
    (hbehind : tag.stop < text.length) (heq : tagEnd text pos = tag.stop) :
    SelfContained (text.extract (pos + 1) (tag.stop - 1)) := by
  obtain ⟨hlt, -, -⟩ := StartTag.ends_of_readAt h
  rw [tagEnd, tagLength, List.drop_drop] at heq
  cases hextent : tagExtent (text.drop (pos + 1)) with
  | none =>
    rw [hextent] at heq
    exact absurd heq (Nat.ne_of_lt hlt)
  | some n =>
    rw [hextent] at heq
    have hstop : pos + (n + 1) = tag.stop := heq
    have hbefore : n < (text.drop (pos + 1)).length := by
      rw [List.length_drop]
      omega
    obtain ⟨inside, rest, hsplit, rfl, hinside⟩ := exists_selfContained_of_tagExtent hextent hbefore
    have hends : tag.stop - 1 = pos + 1 + inside.length := by omega
    rw [hends, extract_of_drop hsplit]
    exact hinside

end ReadTag

/-- **Masking and reading agree on the end of a tag** if each attribute that holds an expression is
self-contained, and, in a text that goes on behind the tag, exactly if the whole tag is. -/
theorem tagEnd_eq_stop_iff {text : List Char} {pos : Nat} {tag : StartTag}
    (h : StartTag.readAt text pos = .ok tag) :
    ((∀ a ∈ tag.attributes, a.value = .dynamic .mustache →
        SelfContained (text.extract a.start a.stop)) → tagEnd text pos = tag.stop) ∧
      (tag.stop < text.length →
        (tagEnd text pos = tag.stop ↔ SelfContained (text.extract (pos + 1) (tag.stop - 1)))) := by
  constructor
  · intro hclosed
    exact tagEnd_of_selfContained h (StartTag.selfContained h hclosed)
  · intro hbehind
    exact ⟨selfContained_of_tagEnd h hbehind, tagEnd_of_selfContained h⟩

/-- Brackets in closed expressions are passed both times.  A brace that a value without quotes leaves
open is a character of it, but for masking the tag is its bracket alone. -/
theorem tagEnd_eq_stop_iff_unquoted :
    (∃ tag, StartTag.readAt "<p a=\x7bb>c\x7d d='e\x7b\">\"\x7d' f=g\x7bh\x7d/>".toList 0 = .ok tag ∧
      tagEnd "<p a=\x7bb>c\x7d d='e\x7b\">\"\x7d' f=g\x7bh\x7d/>".toList 0 = tag.stop) ∧
    ∃ tag, StartTag.readAt "<p a=b\x7bc>\x7bd\x7d</p>".toList 0 = .ok tag ∧ tag.stop = 9 ∧
      tagEnd "<p a=b\x7bc>\x7bd\x7d</p>".toList 0 = 1 ∧
      ¬ SelfContained ("<p a=b\x7bc>\x7bd\x7d</p>".toList.extract 1 8) := by
  constructor
  · have h : StartTag.readAt "<p a=\x7bb>c\x7d d='e\x7b\">\"\x7d' f=g\x7bh\x7d/>".toList (0 : Nat) =
        .ok ⟨"p".toList, [⟨"a".toList, .dynamic .mustache, 3, 10⟩,
          ⟨"d".toList, .dynamic .mustache, 11, 21⟩, ⟨"f".toList, .dynamic .mustache, 22, 28⟩], 30⟩ := by
      cbv
    exact ⟨_, h, (tagEnd_eq_stop_iff h).1 (by decide +kernel)⟩
  · have h : StartTag.readAt "<p a=b\x7bc>\x7bd\x7d</p>".toList (0 : Nat) =
        .ok ⟨"p".toList, [⟨"a".toList, .dynamic .mustache, 3, 8⟩], 9⟩ := by cbv
    have hend : tagEnd "<p a=b\x7bc>\x7bd\x7d</p>".toList 0 = 1 := by decide +kernel
    refine ⟨_, h, rfl, hend, fun hinside ↦ ?_⟩
    have hagree := ((tagEnd_eq_stop_iff h).2 (by decide)).mpr hinside
    rw [hend] at hagree
    exact absurd hagree (by decide)

end ResponsiveImage.Markup
