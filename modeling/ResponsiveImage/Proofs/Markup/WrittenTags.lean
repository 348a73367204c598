import ResponsiveImage.Proofs.Markup.Balanced
import ResponsiveImage.Proofs.Markup.TagText

/-!
# Start tags as they are written

The grammar of start tags, given by what an author writes: the name of the tag, attributes with white
space before each, and a bracket that closes the tag.  An attribute is a name, a name with a value, or
an expression.  Each form carries the conditions under which it is what it looks like.

Written into any text, such a tag is read back with the attributes that were written, each with its
span (`WrittenTag.readAt_text`).  Nothing here looks at how tags are read; what is written is shown to
be an item of a body (`IsItem`), one attribute at a time.
-/

namespace ResponsiveImage.Markup

open Text Expression

/-! ## White space -/

/-- White space, or nothing. -/
structure Gap where
  text : List Char
  blank : ∀ c ∈ text, isBlank c = true

/-- White space that separates what stands before it from what follows. -/
structure Separator extends Gap where
  ne_nil : text ≠ []

theorem ne_of_isBlank {c d : Char} (h : isBlank c = true) (hd : isBlank d = false) : c ≠ d := by
  rintro rfl
  simp [hd] at h

theorem isPlain_of_isBlank {c : Char} (h : isBlank c = true) : IsPlain c := by
  refine ⟨?_, ne_of_isBlank h (by decide), ne_of_isBlank h (by decide)⟩
  simp only [isQuote, Bool.or_eq_false_iff, beq_eq_false_iff_ne]
  exact ⟨⟨ne_of_isBlank h (by decide), ne_of_isBlank h (by decide)⟩, ne_of_isBlank h (by decide)⟩

/-- The code points of white space. -/
def blankCodes : List Nat :=
  List.range' 0x09 5 ++ List.range' 0x1c 5 ++ [0x85, 0xa0, 0x1680] ++ List.range' 0x2000 11 ++
    [0x2028, 0x2029, 0x202f, 0x205f, 0x3000]

theorem mem_blankCodes_of_isBlank {c : Char} (h : isBlank c = true) : c.toNat ∈ blankCodes := by
  simp only [isBlank, Bool.or_eq_true, Bool.and_eq_true, decide_eq_true_eq, beq_iff_eq] at h
  simp only [blankCodes, List.mem_append, List.mem_range'_1, List.mem_cons, List.not_mem_nil,
    or_false]
  omega

/-- White space is not part of a word. -/
theorem isAlphanumeric_of_isBlank {c : Char} (h : isBlank c = true) : isAlphanumeric c = false := by
  have hcodes : ∀ n ∈ blankCodes, (letters.holds n || numerics.holds n) = false := by
    decide +kernel
  exact hcodes c.toNat (mem_blankCodes_of_isBlank h)

theorem isNameRest_of_isBlank {c : Char} (h : isBlank c = true) : isNameRest c = false := by
  simp only [isNameRest, Bool.or_eq_false_iff, beq_eq_false_iff_ne]
  exact ⟨⟨⟨⟨isAlphanumeric_of_isBlank h, ne_of_isBlank h (by decide)⟩,
    ne_of_isBlank h (by decide)⟩, ne_of_isBlank h (by decide)⟩, ne_of_isBlank h (by decide)⟩

theorem Gap.isBalanced (g : Gap) : IsBalanced g.text :=
  isBalanced_of_isPlain fun c hc ↦ isPlain_of_isBlank (g.blank c hc)

theorem Gap.skipBlanks_append (g : Gap) (cs : List Char) :
    skipBlanks (g.text ++ cs) = skipBlanks cs :=
  List.dropWhile_append_of_pos g.blank

theorem skipBlanks_cons {c : Char} (h : isBlank c = false) (cs : List Char) :
    skipBlanks (c :: cs) = c :: cs := by
  simp [skipBlanks, h]

/-- Trimming takes off the white space that was written around a text. -/
theorem trim_between (before after : Gap) (cs : List Char) :
    trim (before.text ++ (cs ++ after.text)) = trim cs := by
  have hafter : after.text.dropWhile isBlank = [] := by
    have hnil : Stops isBlank [] := by simp [Stops]
    simpa using dropWhile_run after.blank hnil
  rw [trim, trim, before.skipBlanks_append]
  simp only [skipBlanks, List.dropWhile_append]
  split
  · rename_i h
    rw [List.isEmpty_iff.mp h, hafter]
  · rw [List.reverse_append,
      List.dropWhile_append_of_pos fun c hc ↦ after.blank c (List.mem_reverse.mp hc)]

/-- Trimming leaves the dots that a text begins with. -/
theorem isPrefixOf_trim_dots (before : Gap) (cs : List Char) :
    ['.', '.', '.'].isPrefixOf (trim (before.text ++ (['.', '.', '.'] ++ cs))) = true := by
  rw [List.isPrefixOf_iff_prefix, trim, before.skipBlanks_append]
  have hdots : skipBlanks (['.', '.', '.'] ++ cs) = ['.', '.', '.'] ++ cs := rfl
  rw [hdots, List.reverse_append, skipBlanks, List.dropWhile_append]
  split
  · exact ⟨[], rfl⟩
  · rw [List.reverse_append]
    exact ⟨_, rfl⟩

/-! ## Values -/

/-- The text between the quotes `q` of a value that may hold expressions.  Inside an expression the
quote counts for nothing. -/
inductive IsMixture (q : Char) : List Char → Prop
  | nil : IsMixture q []
  | text {c : Char} {cs : List Char} (hq : c ≠ q) (hb : c ≠ '{') (h : IsMixture q cs) :
      IsMixture q (c :: cs)
  | expression {body cs : List Char} (hi : IsBalanced body) (h : IsMixture q cs) :
      IsMixture q ('{' :: (body ++ '}' :: cs))

/-- An expression before a text does not change where the text is closed. -/
theorem closes_of_whole {q : Char} {e cs : List Char} (he : Whole e) (h : Closes q cs)
    (hq : '{' ≠ q) : Closes q (e ++ cs) := by
  obtain ⟨c, e, rfl⟩ := List.exists_cons_of_ne_nil he.ne_nil
  obtain rfl : c = '{' := by simpa using he.head?_eq
  have hlen := he.length?_append (cs ++ [q])
  rw [Closes] at h ⊢
  rw [List.cons_append] at hlen
  rw [List.append_assoc, List.cons_append, quotedEnd, if_neg hq, if_pos rfl, hlen]
  simp only [List.length_cons, Nat.add_sub_cancel, List.drop_left, h, QuotedEnd.shift,
    List.length_append]
  congr 1
  omega

theorem IsMixture.closes {q : Char} {cs : List Char} (h : IsMixture q cs) (hq : '{' ≠ q) :
    Closes q cs := by
  induction h with
  | nil => exact closes_of_plain (by simp)
  | text hne hb _ ih =>
    rw [Closes] at ih ⊢
    rw [List.cons_append, quotedEnd, if_neg hne, if_neg hb, ih]
    rfl
  | @expression body cs hi _ ih =>
    have hcs : '{' :: (body ++ '}' :: cs) = '{' :: (body ++ ['}']) ++ cs := by simp
    rw [hcs]
    exact closes_of_whole hi.whole ih hq

/-- A value as it is written. -/
inductive WrittenValue where
  /-- Literal text between quotes. -/
  | quoted (q : Char) (hq : q = '"' ∨ q = '\'') (text : List Char)
      (htext : ∀ c ∈ text, c ≠ q ∧ c ≠ '{')
  /-- Text and expressions between quotes, with at least one expression. -/
  | mixed (q : Char) (hq : q = '"' ∨ q = '\'') (text : List Char) (htext : IsMixture q text)
      (hexpression : '{' ∈ text)
  /-- Literal text without quotes. -/
  | unquoted (text : List Char) (hne : text ≠ []) (htext : ∀ c ∈ text, isUnquoted c = true)
      (hbrace : '{' ∉ text)
  | expression (body : List Char) (hbody : IsBalanced body)

namespace WrittenValue

def text : WrittenValue → List Char
  | quoted q _ text _ => q :: (text ++ [q])
  | mixed q _ text _ _ => q :: (text ++ [q])
  | unquoted text _ _ _ => text
  | expression body _ => '{' :: (body ++ ['}'])

/-- What was written at offset `i`: literal text verbatim, with its span inside the quotes. -/
def value (i : Nat) : WrittenValue → AttributeValue
  | quoted _ _ text _ => .static text (i + 1) (i + 1 + text.length)
  | mixed _ _ _ _ _ => .dynamic .mustache
  | unquoted text _ _ _ => .static text i (i + text.length)
  | expression _ _ => .dynamic .mustache

end WrittenValue

theorem literal_of_not_mem {text : List Char} (h : '{' ∉ text) (i : Nat) :
    literal text i = .static text i (i + text.length) := by
  rw [literal, if_neg]
  simpa using h

theorem literal_of_mem {text : List Char} (h : '{' ∈ text) (i : Nat) :
    literal text i = .dynamic .mustache := by
  rw [literal, if_pos]
  simpa using h

/-! ## What may follow an attribute -/

/-- What may follow a text for the text to end there: white space or the end of the tag, with no
equals sign behind the white space.  A bracket alone takes a slash before it for itself. -/
structure Ends (text rest : List Char) : Prop where
  parted : (∃ c cs, rest = c :: cs ∧ (isBlank c = true ∨ c = '>')) ∨ ∃ cs, rest = '/' :: '>' :: cs
  unassigned : (skipBlanks rest).head? ≠ some '='
  slash : text.getLast? = some '/' → rest.head? ≠ some '>'

/-- No run of characters without white space, slashes and brackets goes on there. -/
theorem Ends.stops {text rest : List Char} (h : Ends text rest) {p : Char → Bool}
    (hblank : ∀ c, isBlank c = true → p c = false) (hslash : p '/' = false)
    (hbracket : p '>' = false) : Stops p rest := by
  obtain ⟨c, cs, rfl, hc | rfl⟩ | ⟨cs, rfl⟩ := h.parted
  · exact stops_cons.mpr (hblank c hc)
  · exact stops_cons.mpr hbracket
  · exact stops_cons.mpr hslash

theorem Ends.isBare {run rest : List Char} (h : Ends run rest) (hne : run ≠ [])
    (hrun : ∀ c ∈ run, isUnquoted c = true) : IsBare run rest := by
  obtain ⟨c, cs, rfl, hc⟩ | ⟨cs, rfl⟩ := h.parted
  · refine .ended hne hrun (stops_cons.mpr ?_) h.slash
    rcases hc with hc | rfl
    · simp [isUnquoted, hc]
    · decide
  · exact .closed hrun

theorem Ends.right {text cs rest : List Char} (h : Ends (text ++ cs) rest) : Ends cs rest where
  parted := h.parted
  unassigned := h.unassigned
  slash hlast := h.slash (by simp [List.getLast?_append, hlast])

/-- Every text ends before white space that no equals sign follows. -/
theorem Separator.ends (s : Separator) (text : List Char) {d : Char} (cs : List Char)
    (hd : isBlank d = false) (hne : d ≠ '=') : Ends text (s.text ++ d :: cs) := by
  obtain ⟨c, gap, hc⟩ := List.exists_cons_of_ne_nil s.ne_nil
  have hblank : isBlank c = true := s.blank c (by simp [hc])
  constructor
  · exact .inl ⟨c, gap ++ d :: cs, by rw [hc]; rfl, .inl hblank⟩
  · rw [s.skipBlanks_append, skipBlanks_cons hd]
    simpa using hne
  · intro _
    rw [hc, List.cons_append, List.head?_cons]
    simpa using ne_of_isBlank hblank (by decide)

/-- A written value is a value, and the one that was written. -/
theorem WrittenValue.isValue (v : WrittenValue) (i : Nat) {rest : List Char}
    (h : Ends v.text rest) : IsValue i v.text rest (v.value i) := by
  cases v with
  | quoted q hq text htext =>
    have hb : '{' ∉ text := fun hb ↦ (htext '{' hb).2 rfl
    rw [value, ← literal_of_not_mem hb]
    exact .quoted hq (closes_of_plain htext)
  | mixed q hq text htext hexpression =>
    have hne : '{' ≠ q := by rcases hq with rfl | rfl <;> decide
    rw [value, ← literal_of_mem hexpression (i + 1)]
    exact .quoted hq (htext.closes hne)
  | unquoted text hne htext hbrace =>
    rw [value, ← literal_of_not_mem hbrace]
    exact .bare (h.isBare hne htext) fun hhead ↦ hbrace (List.mem_of_head? hhead)
  | expression body hbody => exact .expression hbody.whole

/-! ## Attributes -/

/-- The name of an attribute, whatever it consists of. -/
structure IsAttributeLabel (name : List Char) : Prop where
  ne_nil : name ≠ []
  isAttributeName : ∀ c ∈ name, isAttributeName c = true

/-- An attribute as it is written. -/
inductive WrittenAttribute where
  | boolean (name : List Char) (hname : IsAttributeLabel name)
  | assigned (name : List Char) (hname : IsAttributeLabel name) (before after : Gap)
      (value : WrittenValue)
  /-- An expression that names the attribute. -/
  | shorthand (before : Gap) (name : List Char) (after : Gap) (hname : IsBalanced name)
      (hne : name ≠ []) (htrim : trim name = name) (hdots : ¬ ['.', '.', '.'] <+: name)
  /-- An expression behind dots, which names nothing. -/
  | spread (before : Gap) (body : List Char) (hbody : IsBalanced body)

namespace WrittenAttribute

def text : WrittenAttribute → List Char
  | boolean name _ => name
  | assigned name _ before after value =>
    name ++ (before.text ++ '=' :: (after.text ++ value.text))
  | shorthand before name after _ _ _ _ => '{' :: (before.text ++ (name ++ after.text) ++ ['}'])
  | spread before body _ => '{' :: (before.text ++ (['.', '.', '.'] ++ body) ++ ['}'])

/-- What was written at offset `i`, with its span; nothing for a spread. -/
def attribute? (i : Nat) (a : WrittenAttribute) : Option Attribute :=
  match a with
  | boolean name _ =>
    some ⟨name, .static [] (i + name.length) (i + name.length), i, i + a.text.length⟩
  | assigned name _ before after value =>
    let start := i + name.length + before.text.length + 1 + after.text.length
    some ⟨name, value.value start, i, i + a.text.length⟩
  | shorthand _ name _ _ _ _ _ => some ⟨name, .dynamic .shorthand, i, i + a.text.length⟩
  | spread _ _ _ => none

end WrittenAttribute

theorem isPlain_dot : IsPlain '.' := by
  refine ⟨?_, ?_, ?_⟩ <;> decide

theorem inner_braces (cs : List Char) :
    Expression.inner ('{' :: (cs ++ ['}'])) ('{' :: (cs ++ ['}'])).length = cs := by
  simp [Expression.inner]

theorem shorthand?_eq_some {i n : Nat} {cs name : List Char}
    (h : trim (Expression.inner cs n) = name) (hne : name ≠ []) (hdots : ¬ ['.', '.', '.'] <+: name) :
    shorthand? i n cs = some ⟨name, .dynamic .shorthand, i, i + n⟩ := by
  simp only [shorthand?, h]
  rw [if_neg]
  simp only [Bool.or_eq_true, List.isEmpty_iff, List.isPrefixOf_iff_prefix, not_or]
  exact ⟨hne, hdots⟩

theorem shorthand?_eq_none {i n : Nat} {cs : List Char}
    (h : ['.', '.', '.'].isPrefixOf (trim (Expression.inner cs n)) = true) :
    shorthand? i n cs = none := by
  simp only [shorthand?, h, Bool.or_true, if_true]

/-- The name of an attribute ends before a gap and an equals sign. -/
theorem Gap.stops_isAttributeName (g : Gap) (cs : List Char) :
    Stops isAttributeName (g.text ++ '=' :: cs) := by
  obtain ⟨text, hblank⟩ := g
  cases text with
  | nil => exact stops_cons.mpr (by decide)
  | cons c text =>
    exact stops_cons.mpr (isAttributeName_eq_false_of_isBlank (hblank c List.mem_cons_self))

/-- A written attribute is an item, which makes the attribute that was written. -/
theorem WrittenAttribute.isItem (a : WrittenAttribute) (i : Nat) {rest : List Char}
    (h : Ends a.text rest) : IsItem i a.text rest (a.attribute? i) := by
  cases a with
  | boolean name hname =>
    have hstop : Stops isAttributeName ([] ++ rest) :=
      h.stops (fun _ ↦ isAttributeName_eq_false_of_isBlank) (by decide) (by decide)
    have hitem := IsItem.named (i := i) hname.ne_nil hname.isAttributeName hstop
      (.boolean h.unassigned)
    rwa [List.append_nil] at hitem
  | assigned name hname before after value =>
    have hvalue : Ends value.text rest := by
      rw [text, List.append_cons, List.append_cons, ← List.append_assoc, ← List.append_assoc,
        ← List.append_assoc] at h
      exact h.right
    have hstop : Stops isAttributeName
        (before.text ++ '=' :: (after.text ++ value.text) ++ rest) := by
      rw [List.append_assoc, List.cons_append]
      exact before.stops_isAttributeName _
    have hitem := IsItem.named hname.ne_nil hname.isAttributeName hstop
      (.assigned before.blank after.blank
        (value.isValue (i + name.length + before.text.length + 1 + after.text.length) hvalue))
    have hlen : i + (name ++ (before.text ++ '=' :: (after.text ++ value.text))).length =
        i + name.length + before.text.length + 1 + after.text.length + value.text.length := by
      simp only [List.length_append, List.length_cons]
      omega
    rw [attribute?, text, hlen]
    exact hitem
  | shorthand before name after hname hne htrim hdots =>
    have hbody := before.isBalanced.append (hname.append after.isBalanced)
    have hitem : IsItem i _ rest _ := .expression hbody.whole
    rw [shorthand?_eq_some (by rw [inner_braces, trim_between, htrim]) hne hdots] at hitem
    exact hitem
  | spread before body hbody =>
    have hdots : IsBalanced ['.', '.', '.'] := isBalanced_of_isPlain (by simp [isPlain_dot])
    have hbalanced := before.isBalanced.append (hdots.append hbody)
    have hitem : IsItem i _ rest _ := .expression hbalanced.whole
    rw [shorthand?_eq_none (by rw [inner_braces]; exact isPrefixOf_trim_dots before body)]
      at hitem
    exact hitem

/-- An attribute begins neither with white space nor with an equals sign. -/
theorem WrittenAttribute.exists_text_eq_cons (a : WrittenAttribute) :
    ∃ c cs, a.text = c :: cs ∧ isBlank c = false ∧ c ≠ '=' := by
  have hlabel {name : List Char} (h : IsAttributeLabel name) :
      ∃ c cs, name = c :: cs ∧ isBlank c = false ∧ c ≠ '=' := by
    obtain ⟨c, cs, rfl⟩ := List.exists_cons_of_ne_nil h.ne_nil
    have hc := h.isAttributeName c List.mem_cons_self
    refine ⟨c, cs, rfl, ?_, ?_⟩
    · cases hb : isBlank c with
      | false => rfl
      | true => exact absurd hc (by simp [isAttributeName_eq_false_of_isBlank hb])
    · rintro rfl
      exact absurd hc (by decide)
  cases a with
  | boolean name hname => exact hlabel hname
  | assigned name hname before after value =>
    obtain ⟨c, cs, rfl, hc⟩ := hlabel hname
    exact ⟨c, _, rfl, hc⟩
  | shorthand => exact ⟨'{', _, rfl, by decide, by decide⟩
  | spread => exact ⟨'{', _, rfl, by decide, by decide⟩

/-! ## Tags -/

/-- How a tag is closed. -/
inductive Ending where
  | bracket (space : Gap)
  | selfClosing (space : Gap)

def Ending.text : Ending → List Char
  | bracket space => space.text ++ ['>']
  | selfClosing space => space.text ++ ['/', '>']

/-- The name of a start tag, whatever it consists of. -/
def IsTagLabel (name : List Char) : Prop :=
  ∃ c cs, name = c :: cs ∧ isNameStart c = true ∧ ∀ d ∈ cs, isNameRest d = true

/-- Attributes as they are written, each behind its white space. -/
def attributesText : List (Separator × WrittenAttribute) → List Char
  | [] => []
  | (space, a) :: as => space.text ++ (a.text ++ attributesText as)

/-- A start tag as it is written.  Between a value that ends in a slash and a bracket there is white
space, lest the slash be taken for part of the bracket. -/
structure WrittenTag where
  name : List Char
  isTagLabel : IsTagLabel name
  attributes : List (Separator × WrittenAttribute)
  ending : Ending
  slash : (attributesText attributes).getLast? = some '/' → ending.text.head? ≠ some '>'

/-- The attributes that were written from offset `i` on. -/
def attributesFrom (i : Nat) : List (Separator × WrittenAttribute) → List Attribute
  | [] => []
  | (space, a) :: as =>
    let start := i + space.text.length
    (a.attribute? start).toList ++ attributesFrom (start + a.text.length) as

namespace WrittenTag

def text (t : WrittenTag) : List Char :=
  '<' :: (t.name ++ (attributesText t.attributes ++ t.ending.text))

/-- What was written at offset `i`. -/
def tag (i : Nat) (t : WrittenTag) : StartTag :=
  ⟨t.name, attributesFrom (i + 1 + t.name.length) t.attributes, i + t.text.length⟩

end WrittenTag

/-- White space is a sequence of items. -/
theorem Gap.isBody (g : Gap) {i stop : Nat} {rest : List Char} {as : List Attribute}
    (h : IsBody (i + g.text.length) rest as stop) : IsBody i (g.text ++ rest) as stop := by
  obtain ⟨text, hblank⟩ := g
  induction text generalizing i with
  | nil => exact h
  | cons c text ih =>
    have htail : IsBody (i + 1) (text ++ rest) as stop := by
      refine ih (fun d hd ↦ hblank d (List.mem_cons_of_mem c hd)) ?_
      rwa [Nat.add_assoc, Nat.add_comm 1]
    have hitem : IsItem i [c] (text ++ rest) none := .blank (hblank c List.mem_cons_self)
    exact .item hitem htail

theorem Ending.isBody (e : Ending) (i : Nat) (rest : List Char) :
    IsBody i (e.text ++ rest) [] (i + e.text.length) := by
  cases e with
  | bracket space =>
    rw [text, List.append_assoc, List.length_append, ← Nat.add_assoc]
    exact space.isBody .close
  | selfClosing space =>
    rw [text, List.append_assoc, List.length_append, ← Nat.add_assoc]
    exact space.isBody .selfClose

theorem Ending.ends (e : Ending) {text : List Char} (rest : List Char)
    (h : text.getLast? = some '/' → e.text.head? ≠ some '>') : Ends text (e.text ++ rest) := by
  cases e with
  | bracket space =>
    cases hspace : space.text with
    | nil =>
      rw [Ending.text, hspace] at h ⊢
      refine ⟨.inl ⟨'>', rest, rfl, .inr rfl⟩, ?_, h⟩
      rw [List.nil_append, List.singleton_append, skipBlanks_cons (by decide)]
      simp
    | cons c cs =>
      have hends := Separator.ends ⟨space, by simp [hspace]⟩ text rest
        (d := '>') (by decide) (by decide)
      rwa [Ending.text, List.append_assoc]
  | selfClosing space =>
    cases hspace : space.text with
    | nil =>
      rw [Ending.text, hspace]
      refine ⟨.inr ⟨rest, rfl⟩, ?_, fun _ ↦ by simp⟩
      rw [List.nil_append, List.cons_append, skipBlanks_cons (by decide)]
      simp
    | cons c cs =>
      have hends := Separator.ends ⟨space, by simp [hspace]⟩ text ('>' :: rest)
        (d := '/') (by decide) (by decide)
      rwa [Ending.text, List.append_assoc]

/-- Before attributes, every text ends; before none, what ended there does. -/
theorem ends_attributesText {text rest : List Char} (as : List (Separator × WrittenAttribute))
    (h : Ends (text ++ attributesText as) rest) : Ends text (attributesText as ++ rest) := by
  match as, h with
  | [], h => rwa [attributesText, List.append_nil] at h
  | (space, a) :: as, _ =>
    obtain ⟨c, cs, hcs, hc, hne⟩ := a.exists_text_eq_cons
    rw [attributesText, List.append_assoc, hcs]
    exact space.ends text _ hc hne

/-- Attributes go before a body. -/
theorem isBody_attributesText (as : List (Separator × WrittenAttribute)) {i stop : Nat}
    {rest : List Char} (hends : Ends (attributesText as) rest)
    (h : IsBody (i + (attributesText as).length) rest [] stop) :
    IsBody i (attributesText as ++ rest) (attributesFrom i as) stop := by
  induction as generalizing i with
  | nil => exact h
  | cons p as ih =>
    obtain ⟨space, a⟩ := p
    have htail : IsBody (i + space.text.length + a.text.length) (attributesText as ++ rest)
        (attributesFrom (i + space.text.length + a.text.length) as) stop := by
      refine ih hends.right.right ?_
      rw [attributesText, List.length_append, List.length_append] at h
      rwa [Nat.add_assoc (i + space.text.length), Nat.add_assoc i]
    rw [attributesText, List.append_assoc, List.append_assoc]
    exact space.isBody (.item (a.isItem _ (ends_attributesText as hends.right)) htail)

theorem WrittenTag.ends (t : WrittenTag) (rest : List Char) :
    Ends (attributesText t.attributes) (t.ending.text ++ rest) := t.ending.ends rest t.slash

theorem WrittenTag.isTagName (t : WrittenTag) (rest : List Char) :
    IsTagName t.name (attributesText t.attributes ++ (t.ending.text ++ rest)) where
  start := t.isTagLabel
  stops := by
    have hends : Ends [] (attributesText t.attributes ++ (t.ending.text ++ rest)) :=
      ends_attributesText t.attributes (t.ends rest)
    exact hends.stops (fun _ ↦ isNameRest_of_isBlank) (by decide) (by decide)

/-- **A start tag that is written into a text is read back.**  Its attributes are the ones that were
written, spreads excepted, in their order and with their spans. -/
theorem WrittenTag.readAt_text (t : WrittenTag) (before after : List Char) :
    StartTag.readAt (before ++ t.text ++ after) before.length = .ok (t.tag before.length) := by
  have htext : (before ++ t.text ++ after).drop before.length =
      '<' :: (t.name ++ (attributesText t.attributes ++ (t.ending.text ++ after))) := by
    rw [List.append_assoc, List.drop_left, text]
    simp
  have hstop : before.length + t.text.length = before.length + 1 + t.name.length +
      (attributesText t.attributes).length + t.ending.text.length := by
    rw [text, List.length_cons, List.length_append, List.length_append]
    omega
  rw [StartTag.readAt, Int.toNat_natCast, htext, StartTag.read_eq_ok_iff, tag]
  refine ⟨_, rfl, t.isTagName after, ?_⟩
  rw [hstop]
  exact isBody_attributesText t.attributes (t.ends after) (t.ending.isBody _ after)

/-- A slash at the end of a value without quotes closes the tag with the bracket behind it. -/
example : ∃ t : WrittenTag, t.text = "<img hidden src=a.png/>".toList ∧
    t.tag 0 = ⟨"img".toList,
      [⟨"hidden".toList, .static [] 11 11, 5, 11⟩,
        ⟨"src".toList, .static "a.png".toList 16 21, 12, 21⟩], 23⟩ := by
  let space : Separator := ⟨⟨[' '], List.all_eq_true.mp (by decide)⟩, by decide⟩
  let none : Gap := ⟨[], List.all_eq_true.mp rfl⟩
  exact ⟨⟨"img".toList, ⟨'i', ['m', 'g'], by decide, by decide, List.all_eq_true.mp (by decide)⟩,
    [(space, .boolean "hidden".toList ⟨by decide, List.all_eq_true.mp (by decide)⟩),
      (space, .assigned "src".toList ⟨by decide, List.all_eq_true.mp (by decide)⟩ none none
        (.unquoted "a.png".toList (by decide) (List.all_eq_true.mp (by decide)) (by decide)))],
    .selfClosing none, by decide⟩, by decide, by decide⟩

end ResponsiveImage.Markup
