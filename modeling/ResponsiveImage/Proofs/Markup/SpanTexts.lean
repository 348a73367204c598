import ResponsiveImage.Proofs.Markup.AddedAttributes
import ResponsiveImage.Proofs.Markup.Spans
import ResponsiveImage.Proofs.Markup.WrittenTags

/-!
# What stands at the spans of a tag

An attribute is read with its span, and a literal value with its own.  Whatever the text, if a tag is
read there then these spans hold what they are said to hold: the name at the start of an attribute, the
braces of a shorthand around its name, a literal value between its quotes or at the end of its attribute
(`StartTag.standsIn_of_readAt`).  This is all that an edit of an attribute relies on.

The text is followed by what is left of it: a part of a tag at offset `i` is known by what `text.drop i`
begins with.
-/

namespace ResponsiveImage.Markup

open Text Expression

/-! ## Spans of a text -/

section Spans

variable {text front rest : List Char} {i : Nat}

theorem extract_of_drop (h : text.drop i = front ++ rest) :
    text.extract i (i + front.length) = front := by
  rw [List.extract_eq_take_drop, h, Nat.add_sub_cancel_left, List.take_left]

theorem drop_of_drop (h : text.drop i = front ++ rest) : text.drop (i + front.length) = rest := by
  rw [← List.drop_drop, h, List.drop_left]

theorem drop_succ_of_drop {c : Char} (h : text.drop i = c :: rest) : text.drop (i + 1) = rest := by
  rw [← List.drop_drop, h, List.drop_one, List.tail_cons]

theorem extract_append_of_drop {j : Nat} (h : text.drop i = front ++ rest)
    (hle : i + front.length ≤ j) :
    text.extract i j = front ++ text.extract (i + front.length) j := by
  have hlen : j - i = front.length + (j - (i + front.length)) := by omega
  rw [List.extract_eq_take_drop, List.extract_eq_take_drop, drop_of_drop h, h, hlen,
    List.take_length_add_append]

theorem getElem?_of_drop {c : Char} (h : text.drop i = c :: rest) : text[i]? = some c := by
  rw [← List.head?_drop, h, List.head?_cons]

end Spans

/-! ## What is said of a span -/

/-- A literal value stands between two equal quotes that it does not hold, the second of which ends
the attribute, or it is the end of the attribute and holds nothing that would need quotes. -/
inductive IsSetOff (text : List Char) (a : Attribute) (v : List Char) (s e : Nat) : Prop
  | quoted {q : Char} (hq : q = '"' ∨ q = '\'') (hstart : a.start < s) (hopen : text[s - 1]? = some q)
      (hclose : text[e]? = some q) (hv : q ∉ v) (hstop : a.stop = e + 1) : IsSetOff text a v s e
  | bare (hv : ∀ c ∈ v, isUnquoted c = true) (hstop : a.stop = e) : IsSetOff text a v s e

/-- A literal value `v` of an attribute stands at the span from `s` to `e`. -/
structure IsLiteralAt (text : List Char) (a : Attribute) (v : List Char) (s e : Nat) : Prop where
  extract_eq : text.extract s e = v
  start_le : a.start ≤ s
  le : s ≤ e
  stop_le : e ≤ a.stop
  not_brace : '{' ∉ v
  isSetOff : IsSetOff text a v s e

/-- An attribute that stands in a text where its spans say. -/
structure Attribute.StandsIn (text : List Char) (a : Attribute) : Prop where
  start_lt_stop : a.start < a.stop
  name_ne_nil : a.name ≠ []
  name : a.value ≠ .dynamic .shorthand →
    text.extract a.start (a.start + a.name.length) = a.name
  shorthand : a.value = .dynamic .shorthand → ∃ inside, IsBalanced inside ∧
    text.extract a.start a.stop = '{' :: (inside ++ ['}']) ∧ trim inside = a.name
  literal : ∀ v s e, a.value = .static v s e → IsLiteralAt text a v s e

/-- A start tag that stands at an offset of a text, with its attributes one behind the other between
its name and its closing bracket. -/
structure StartTag.StandsIn (text : List Char) (pos : Nat) (tag : StartTag) : Prop where
  pos_lt_stop : pos < tag.stop
  stop_le : tag.stop ≤ text.length
  bracket : text[tag.stop - 1]? = some '>'
  ascending : tag.attributes.Pairwise fun a b ↦ a.stop ≤ b.start
  inside : ∀ a ∈ tag.attributes, pos < a.start ∧ a.stop ≤ tag.stop - 1
  attributes : ∀ a ∈ tag.attributes, a.StandsIn text

/-! ## Values -/

theorem IsValue.not_brace {i s e : Nat} {val rest v : List Char}
    (h : IsValue i val rest (.static v s e)) : '{' ∉ v := by
  generalize hvalue : AttributeValue.static v s e = value at h
  cases h with
  | quoted =>
    obtain ⟨hv, rfl, -⟩ := literal_eq_static_iff.mp hvalue.symm
    exact hv
  | expression => cases hvalue
  | bare =>
    obtain ⟨hv, rfl, -⟩ := literal_eq_static_iff.mp hvalue.symm
    exact hv

theorem IsBare.isUnquoted {run rest : List Char} (h : IsBare run rest) :
    ∀ c ∈ run, isUnquoted c = true := by
  cases h with
  | ended _ hrun => exact hrun
  | closed hrun => exact hrun

/-- Quotes close a literal only if it holds none of them. -/
theorem IsValue.quote_not_mem {i s e : Nat} {rest v : List Char} {q : Char}
    (h : IsValue i (q :: (v ++ [q])) rest (.static v s e)) (hq : q = '"' ∨ q = '\'') : q ∉ v := by
  have hbrace := h.not_brace
  generalize hval : q :: (v ++ [q]) = val at h
  generalize hvalue : AttributeValue.static v s e = value at h
  cases h with
  | @quoted q' inner _ _ hcloses =>
    obtain ⟨rfl, hinner⟩ := List.cons_eq_cons.mp hval
    obtain rfl := List.append_cancel_right hinner
    exact hcloses.not_mem hbrace
  | expression => cases hvalue
  | bare h =>
    have hbare := h.isUnquoted q (hval ▸ List.mem_cons_self)
    rw [quote_of_not_isUnquoted hq] at hbare
    cases hbare

/-- A literal value stands where it is read. -/
theorem IsValue.isLiteralAt {text val rest v : List Char} {i s e : Nat} {a : Attribute}
    (h : IsValue i val rest (.static v s e)) (hdrop : text.drop i = val ++ rest)
    (hstart : a.start < i) (hstop : a.stop = i + val.length) : IsLiteralAt text a v s e := by
  have hbrace := h.not_brace
  obtain ⟨q, hq, rfl, rfl, rfl⟩ | ⟨hbare, rfl, rfl, rfl⟩ := h.static_cases
  · rw [List.cons_append, List.append_assoc] at hdrop
    have hinner : text.drop (i + 1) = v ++ ([q] ++ rest) := drop_succ_of_drop hdrop
    have hclose : text.drop (i + 1 + v.length) = q :: rest := drop_of_drop hinner
    have hlen : a.stop = i + 1 + v.length + 1 := by
      rw [hstop, List.length_cons, List.length_append, List.length_singleton]
      omega
    refine ⟨extract_of_drop hinner, by omega, by omega, by omega, hbrace, ?_⟩
    exact .quoted hq (by omega) (getElem?_of_drop hdrop) (getElem?_of_drop hclose)
      (h.quote_not_mem hq) hlen
  · refine ⟨extract_of_drop hdrop, by omega, by omega, by omega, hbrace, ?_⟩
    exact .bare hbare.isUnquoted hstop

/-! ## Attributes -/

theorem IsValue.ne_shorthand {i : Nat} {val rest : List Char} {value : AttributeValue}
    (h : IsValue i val rest value) : value ≠ .dynamic .shorthand := by
  have hliteral (run : List Char) (k : Nat) : literal run k ≠ .dynamic .shorthand := by
    rw [literal]
    split
    · simp
    · simp
  cases h with
  | quoted => exact hliteral _ _
  | expression => simp
  | bare => exact hliteral _ _

/-- A named attribute stands where it is read. -/
theorem IsNamed.standsIn {text name val rest : List Char} {i : Nat} {a : Attribute}
    (h : IsNamed i name val rest a) (hne : name ≠ [])
    (hdrop : text.drop i = name ++ (val ++ rest)) : a.StandsIn text := by
  have hpos : 0 < name.length := List.length_pos_iff.mpr hne
  cases h with
  | boolean =>
    refine ⟨by dsimp only; omega, hne, fun _ ↦ extract_of_drop hdrop, fun h ↦ (nomatch h), ?_⟩
    rintro v s e ⟨⟩
    refine ⟨by simp, by dsimp only; omega, Nat.le_refl _, Nat.le_refl _, List.not_mem_nil, ?_⟩
    exact .bare (fun c hc ↦ (nomatch hc)) rfl
  | @assigned gap₁ gap₂ val _ value h₁ h₂ h =>
    refine ⟨by dsimp only; omega, hne, fun _ ↦ extract_of_drop hdrop,
      fun hvalue ↦ absurd hvalue h.ne_shorthand, fun v s e hvalue ↦ ?_⟩
    obtain rfl : value = .static v s e := hvalue
    have hbefore : text.drop i = name ++ (gap₁ ++ ['='] ++ gap₂) ++ (val ++ rest) := by
      rw [hdrop]
      simp
    have hafter := drop_of_drop hbefore
    simp only [List.length_append, List.length_singleton, ← Nat.add_assoc] at hafter
    exact h.isLiteralAt hafter (by dsimp only; omega) rfl

/-- An expression in place of an attribute stands where it is read, with its name between the
braces. -/
theorem standsIn_of_shorthand? {text e rest : List Char} {i : Nat} {a : Attribute}
    (he : Whole e) (hdrop : text.drop i = e ++ rest) (ha : shorthand? i e.length e = some a) :
    a.StandsIn text := by
  obtain ⟨inside, rfl, hinside⟩ := whole_iff_exists_isBalanced.mp he
  simp only [shorthand?, inner_braces] at ha
  split at ha
  · cases ha
  · rename_i hname
    cases ha
    simp only [Bool.or_eq_true, List.isEmpty_iff, not_or] at hname
    refine ⟨by simp, hname.1, fun h ↦ absurd rfl h, fun _ ↦ ?_, ?_⟩
    · exact ⟨inside, hinside, extract_of_drop hdrop, rfl⟩
    · rintro v s e ⟨⟩

theorem IsItem.standsIn {text val rest : List Char} {i : Nat} {a : Option Attribute}
    (h : IsItem i val rest a) (hdrop : text.drop i = val ++ rest) : ∀ b ∈ a, b.StandsIn text := by
  cases h with
  | blank => exact fun b hb ↦ (nomatch hb)
  | slash => exact fun b hb ↦ (nomatch hb)
  | expression he => exact fun b hb ↦ standsIn_of_shorthand? he hdrop hb
  | named hne _ _ h =>
    rintro b ⟨⟩
    rw [List.append_assoc] at hdrop
    exact h.standsIn hne hdrop

/-! ## Tags -/

/-- The attributes of a body stand where they are read, each behind the ones before it, and the bracket
stands at its end. -/
theorem IsBody.standsIn {text cs : List Char} {i stop : Nat} {as : List Attribute}
    (h : IsBody i cs as stop) (hdrop : text.drop i = cs) :
    text[stop - 1]? = some '>' ∧ (as.Pairwise fun a b ↦ a.stop ≤ b.start) ∧
      ∀ a ∈ as, a.StandsIn text := by
  induction h with
  | close => exact ⟨getElem?_of_drop hdrop, .nil, fun a ha ↦ (nomatch ha)⟩
  | @selfClose i rest =>
    have hbracket : text.drop (i + 1) = '>' :: rest := drop_succ_of_drop hdrop
    exact ⟨getElem?_of_drop hbracket, .nil, fun a ha ↦ (nomatch ha)⟩
  | @item i stop val rest a as hitem h ih =>
    obtain ⟨hbracket, hascending, hstands⟩ := ih (drop_of_drop hdrop)
    refine ⟨hbracket, ?_, fun b hb ↦ ?_⟩
    · refine List.pairwise_append.mpr ⟨?_, hascending, fun b hb c hc ↦ ?_⟩
      · cases a with
        | none => exact .nil
        | some b => exact List.pairwise_singleton _ _
      · have hfirst := (hitem.liesIn b (Option.mem_toList.mp hb)).stop_le
        have hnext := (h.liesIn.1 c hc).low_le
        exact Nat.le_trans hfirst hnext
    · rcases List.mem_append.mp hb with hb | hb
      · exact hitem.standsIn hdrop b (Option.mem_toList.mp hb)
      · exact hstands b hb

/-- A tag that is read ends with a bracket, in the text. -/
theorem StartTag.ends_of_readAt {text : List Char} {pos : Nat} {tag : StartTag}
    (h : StartTag.readAt text pos = .ok tag) :
    pos + 1 < tag.stop ∧ tag.stop ≤ text.length ∧ text[tag.stop - 1]? = some '>' := by
  obtain ⟨rest, hdrop, -, hbody⟩ := StartTag.readAt_eq_ok_iff.mp h
  have hrest : text.drop (pos + 1 + tag.name.length) = rest :=
    drop_of_drop (drop_succ_of_drop hdrop)
  obtain ⟨-, hlt, hle⟩ := hbody.liesIn
  have hlength := congrArg List.length hdrop
  rw [List.length_drop, List.length_cons, List.length_append] at hlength
  exact ⟨by omega, by omega, (hbody.standsIn hrest).1⟩

/-- The attributes of the images of a document stand in it. -/
theorem standsIn_of_mem_candidates {text tagName : List Char} {root n : Node} {a : Attribute}
    (h : parse text tagName = .ok root) (hn : n ∈ candidates root tagName) (ha : a ∈ n.attributes) :
    a.StandsIn text := by
  obtain ⟨k, hk⟩ := exists_nodeAt_of_mem_candidates h hn
  rw [nodeAt] at hk
  split at hk
  · rename_i tag htag
    obtain ⟨rest, hdrop, -, hbody⟩ := StartTag.readAt_eq_ok_iff.mp htag
    have hattributes : tag.attributes = n.attributes := congrArg Node.attributes (Option.some_inj.mp hk)
    exact (hbody.standsIn (drop_of_drop (drop_succ_of_drop hdrop))).2.2 a (hattributes ▸ ha)
  · cases hk

/-- **A tag that is read stands in the text as it is read**: it ends with a bracket, its attributes lie
one behind the other inside it, and every span holds what it is said to hold. -/
theorem StartTag.standsIn_of_readAt {text : List Char} {pos : Nat} {tag : StartTag}
    (h : StartTag.readAt text pos = .ok tag) : tag.StandsIn text pos := by
  obtain ⟨hlt, hle, hbracket⟩ := StartTag.ends_of_readAt h
  obtain ⟨rest, hdrop, -, hbody⟩ := StartTag.readAt_eq_ok_iff.mp h
  have hrest : text.drop (pos + 1 + tag.name.length) = rest :=
    drop_of_drop (drop_succ_of_drop hdrop)
  obtain ⟨-, hascending, hstands⟩ := hbody.standsIn hrest
  refine ⟨Nat.lt_of_succ_lt hlt, hle, hbracket, hascending, fun a ha ↦ ?_, hstands⟩
  have hlies := hbody.liesIn.1 a ha
  have hlow := hlies.low_le
  exact ⟨by omega, hlies.stop_le⟩

/-- A shorthand, a literal of each kind, an attribute without a value, and a slash that is left to the
bracket. -/
theorem StartTag.standsIn_of_readAt_forms :
    ∃ tag, StartTag.readAt "<a \x7bb\x7d c='' d e=\"f\" g=h/>".toList 0 = .ok tag ∧
      tag.StandsIn "<a \x7bb\x7d c='' d e=\"f\" g=h/>".toList 0 ∧ tag.stop = 25 ∧
      tag.attributes.map Attribute.value = [.dynamic .shorthand, .static [] 10 10,
        .static [] 13 13, .static "f".toList 17 18, .static "h".toList 22 23] := by
  have h : StartTag.readAt "<a \x7bb\x7d c='' d e=\"f\" g=h/>".toList 0 = .ok ⟨"a".toList,
      [⟨"b".toList, .dynamic .shorthand, 3, 6⟩, ⟨"c".toList, .static [] 10 10, 7, 11⟩,
        ⟨"d".toList, .static [] 13 13, 12, 13⟩, ⟨"e".toList, .static "f".toList 17 18, 14, 19⟩,
        ⟨"g".toList, .static "h".toList 22 23, 20, 23⟩], 25⟩ := by cbv
  exact ⟨_, h, StartTag.standsIn_of_readAt h, rfl, rfl⟩

end ResponsiveImage.Markup
