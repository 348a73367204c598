import ResponsiveImage.Proofs.Markup.RawElements

/-!
# Documents written in segments

A document as it is written: text, expressions, comments, tags, and scripts and styles with their
content, one behind the other.  Masking blanks the expressions among the segments and leaves all else
as it is (`mask_segments`), whatever the order of the segments and whatever stands in comments, in the
values of tags, and in scripts.

Masking has to find each segment's end by itself.  It does not for a tag that is not self-contained,
and it takes a script or a style that is closed in itself for the beginning of an element, with all
that follows up to a closing tag for its content.
-/

namespace ResponsiveImage.Markup

open Text
open Expression (IsBalanced)

/-! ## Tags -/

/-- A start tag that is the whole of a text. -/
structure WholeTag where
  text : List Char
  tag : StartTag
  read : StartTag.readAt text (0 : Nat) = .ok tag
  stop_eq : tag.stop = text.length

namespace WholeTag

/-- What stands between the brackets. -/
def inside (t : WholeTag) : List Char := t.text.extract 1 (t.text.length - 1)

/-- What stands behind the name. -/
def behindName (t : WholeTag) : List Char := t.text.drop (1 + t.tag.name.length)

/-- A tag that is closed in itself. -/
def IsSelfClosed (t : WholeTag) : Prop := ['/', '>'] <:+ t.text

instance (t : WholeTag) : Decidable t.IsSelfClosed :=
  inferInstanceAs (Decidable (['/', '>'] <:+ t.text))

/-- A tag that masking takes for that of a script or a style. -/
def OpensRaw (t : WholeTag) : Prop := IsRawName t.tag.name ∧ endsName t.behindName = true

instance (t : WholeTag) : Decidable t.OpensRaw := inferInstanceAs (Decidable (_ ∧ _))

variable (t : WholeTag)

/-- A name stands behind the bracket, and something behind the name. -/
theorem parts : t.text = '<' :: (t.tag.name ++ t.behindName) ∧
    IsTagName t.tag.name t.behindName ∧ t.behindName ≠ [] := by
  obtain ⟨rest, hdrop, hname, hbody⟩ := StartTag.readAt_eq_ok_iff.mp t.read
  have htext : t.text = '<' :: (t.tag.name ++ rest) := hdrop
  have hbehind : t.behindName = rest := by
    rw [behindName, htext, Nat.add_comm, List.drop_succ_cons, List.drop_left]
  obtain ⟨-, hlt, hle⟩ := hbody.liesIn
  rw [hbehind]
  refine ⟨htext, hname, List.ne_nil_of_length_pos ?_⟩
  omega

theorem text_eq_inside : t.text = '<' :: (t.inside ++ ['>']) := by
  have hdrop := StartTag.drop_eq t.read
  obtain ⟨htext, -⟩ := t.parts
  rw [t.stop_eq, List.drop_length] at hdrop
  rw [inside, ← hdrop, htext]
  rfl

end WholeTag

/-! ## Segments -/

/-- A segment of a document, as it is written. -/
inductive Segment where
  | text (cs : List Char) (hcs : ∀ c ∈ cs, c ≠ '<' ∧ c ≠ '{')
  | expression (body : List Char) (hbody : IsBalanced body)
  | comment (body : List Char) (hbody : ¬ "-->".toList <:+: body)
  | endTag (body : List Char) (hbody : ∀ c ∈ body, c ≠ '<' ∧ c ≠ '{' ∧ c ≠ '>')
  /-- A start tag without content, also that of a script or a style that is closed in itself. -/
  | startTag (t : WholeTag)
  /-- A script or a style with its content. -/
  | element (t : WholeTag) (ht : IsRawName t.tag.name) (hopen : ¬ t.IsSelfClosed)
      (content : List Char) (hcontent : IsContent t.tag.name content)
      (closing : List Char) (hclosing : IsClosingTag t.tag.name closing)

namespace Segment

def source : Segment → List Char
  | text cs _ => cs
  | expression body _ => '{' :: (body ++ ['}'])
  | comment body _ => "<!--".toList ++ (body ++ "-->".toList)
  | endTag body _ => '<' :: '/' :: (body ++ ['>'])
  | startTag t => t.text
  | element t _ _ content _ closing _ => t.text ++ (content ++ closing)

/-- A segment with spaces in place of an expression. -/
def masked : Segment → List Char
  | expression body hbody => blankOut (expression body hbody).source
  | s => s.source

/-- A segment that masking takes for what it is: a tag is self-contained, and taken for that of a
script or a style if it has content. -/
def IsTaken : Segment → Prop
  | startTag t => SelfContained t.inside ∧ ¬ t.OpensRaw
  | element t _ _ _ _ _ _ => SelfContained t.inside ∧ t.OpensRaw
  | _ => True

instance (s : Segment) : Decidable s.IsTaken :=
  match s with
  | startTag _ => inferInstanceAs (Decidable (_ ∧ _))
  | element _ _ _ _ _ _ _ => inferInstanceAs (Decidable (_ ∧ _))
  | text _ _ => .isTrue trivial
  | expression _ _ => .isTrue trivial
  | comment _ _ => .isTrue trivial
  | endTag _ _ => .isTrue trivial

end Segment

/-! ## Masking one segment -/

/-- What masking passes at the start of a text stays. -/
theorem mask_append {own rest : List Char} (hhead : (own ++ rest).head? ≠ some '{')
    (h : untouched (own ++ rest) = own.length) : mask (own ++ rest) = own ++ mask rest := by
  rw [mask_untouched hhead, h, List.take_left, List.drop_left]

/-- Text is passed one character at a time. -/
theorem mask_text {cs : List Char} (h : ∀ c ∈ cs, c ≠ '<' ∧ c ≠ '{') (rest : List Char) :
    mask (cs ++ rest) = cs ++ mask rest := by
  induction cs with
  | nil => rfl
  | cons c cs ih =>
    obtain ⟨⟨hbracket, hbrace⟩, hcs⟩ := List.forall_mem_cons.mp h
    have hone : untouched ([c] ++ (cs ++ rest)) = [c].length := by
      refine untouched_other (fun hcomment ↦ ?_) fun d ds heq ↦ ?_
      · obtain ⟨tail, htail⟩ := List.isPrefixOf_iff_prefix.mp hcomment
        exact hbracket (List.cons_eq_cons.mp htail).1.symm
      · exact hbracket (List.cons_eq_cons.mp heq).1
    have hhead : ([c] ++ (cs ++ rest)).head? ≠ some '{' := by simpa using hbrace
    calc
      mask (c :: cs ++ rest)
      _ = [c] ++ mask (cs ++ rest) := mask_append hhead hone
      _ = c :: cs ++ mask rest := by rw [ih hcs, List.singleton_append, List.cons_append]

theorem mask_comment {body : List Char} (h : ¬ "-->".toList <:+: body) (rest : List Char) :
    mask ("<!--".toList ++ (body ++ "-->".toList) ++ rest) =
      "<!--".toList ++ (body ++ "-->".toList) ++ mask rest := by
  have hsearch : past (word "-->".toList) (body ++ ("-->".toList ++ rest)) =
      some (body.length + 3) := by
    refine past_append (by simp) (by simp [word]) fun xs ys heq hys ↦ ?_
    rw [word, if_neg]
    rw [List.isPrefixOf_iff_prefix]
    rintro ⟨tail, htail⟩
    -- an end that began in the body would have to hold a dash where its bracket is
    obtain ⟨a, ys, rfl⟩ := List.exists_cons_of_ne_nil hys
    rcases ys with _ | ⟨b, _ | ⟨c, ys⟩⟩
    · simp at htail
    · simp at htail
    · obtain ⟨⟨rfl, rfl, rfl⟩, -⟩ : ('-' = a ∧ '-' = b ∧ '>' = c) ∧ _ := by
        simpa [and_assoc] using htail
      exact h ⟨xs, ys, by rw [heq, List.append_assoc]; rfl⟩
  have hcs : "<!--".toList ++ (body ++ "-->".toList) ++ rest =
      "<!--".toList ++ (body ++ ("-->".toList ++ rest)) := by
    simp only [List.append_assoc]
  refine mask_append (by simp) ?_
  have hcomment : "<!--".toList.isPrefixOf
      ("<!--".toList ++ (body ++ "-->".toList) ++ rest) = true := by
    rw [List.isPrefixOf_iff_prefix, hcs]
    exact List.prefix_append _ _
  have hdrop : ("<!--".toList ++ (body ++ ("-->".toList ++ rest))).drop 4 =
      body ++ ("-->".toList ++ rest) := rfl
  rw [untouched_comment hcomment, commentExtent, hcs, hdrop, hsearch]
  simp

theorem mask_endTag {body : List Char} (h : ∀ c ∈ body, c ≠ '<' ∧ c ≠ '{' ∧ c ≠ '>')
    (rest : List Char) :
    mask ('<' :: '/' :: (body ++ ['>']) ++ rest) = '<' :: '/' :: (body ++ ['>']) ++ mask rest := by
  have hone : untouched (['<'] ++ ('/' :: (body ++ ['>']) ++ rest)) = 1 :=
    (untouched_bracket (by simp [List.isPrefixOf])).trans (if_neg (by decide))
  have hbehind : ∀ c ∈ '/' :: (body ++ ['>']), c ≠ '<' ∧ c ≠ '{' := by
    intro c hc
    simp only [List.mem_cons, List.mem_append, List.not_mem_nil, or_false] at hc
    rcases hc with rfl | hc | rfl
    · decide
    · exact ⟨(h c hc).1, (h c hc).2.1⟩
    · decide
  calc
    mask ('<' :: '/' :: (body ++ ['>']) ++ rest)
    _ = ['<'] ++ mask ('/' :: (body ++ ['>']) ++ rest) := mask_append (by simp) hone
    _ = '<' :: '/' :: (body ++ ['>']) ++ mask rest := by rw [mask_text hbehind]; rfl

section Tags

variable {t : WholeTag}

/-- Where a tag stands, masking passes an element. -/
theorem WholeTag.untouched_eq (t : WholeTag) (rest : List Char) :
    untouched (t.text ++ rest) = elementExtent (t.text ++ rest) := by
  obtain ⟨htext, hname, -⟩ := t.parts
  obtain ⟨c, cs, hcs, hc, -⟩ := hname.start
  have hbang : c ≠ '!' := by
    rintro rfl
    exact absurd hc (by decide)
  rw [htext, hcs, List.cons_append, List.cons_append, List.cons_append,
    untouched_bracket (by simp [List.isPrefixOf, hbang.symm]), if_pos (isLetter_of_isAlpha hc)]

theorem WholeTag.tagLength_eq (h : SelfContained t.inside) (rest : List Char) :
    tagLength (t.text ++ rest) = t.text.length := by
  have hcs : (t.text ++ rest).drop 1 = t.inside ++ '>' :: rest := by
    rw [t.text_eq_inside]
    simp
  rw [tagLength, hcs, h.tagExtent_eq, t.text_eq_inside]
  simp

theorem WholeTag.drop_eq (t : WholeTag) (rest : List Char) :
    (t.text ++ rest).drop 1 = t.tag.name ++ (t.behindName ++ rest) := by
  rw [t.parts.1]
  simp

theorem WholeTag.isTagName_append (t : WholeTag) (rest : List Char) :
    IsTagName t.tag.name (t.behindName ++ rest) := by
  obtain ⟨-, hname, hne⟩ := t.parts
  refine ⟨hname.start, ?_⟩
  obtain ⟨c, cs, hcs⟩ := List.exists_cons_of_ne_nil hne
  have hstop := hname.stops
  rw [hcs] at hstop ⊢
  exact stops_cons.mpr (stops_cons.mp hstop)

theorem WholeTag.head?_ne (t : WholeTag) (rest : List Char) :
    (t.text ++ rest).head? ≠ some '{' := by
  rw [t.parts.1]
  simp

/-- A tag that opens no script and no style is passed. -/
theorem mask_startTag (h : SelfContained t.inside) (ht : ¬ t.OpensRaw) (rest : List Char) :
    mask (t.text ++ rest) = t.text ++ mask rest := by
  have hraw : rawName? (t.tag.name ++ (t.behindName ++ rest)) = none := by
    refine rawName?_eq_none (t.isTagName_append rest) ?_
    rwa [endsName_append t.parts.2.2]
  refine mask_append (t.head?_ne rest) ?_
  rw [t.untouched_eq, elementExtent_eq, t.drop_eq, hraw]
  exact WholeTag.tagLength_eq h rest

theorem WholeTag.OpensRaw.rawName?_eq (ht : t.OpensRaw) (rest : List Char) :
    rawName? ((t.text ++ rest).drop 1) = some t.tag.name := by
  rw [t.drop_eq]
  refine rawName?_eq_some (t.isTagName_append rest) ht.1 ?_
  rw [endsName_append t.parts.2.2]
  exact ht.2

/-- Behind the tag of a script or a style, what closes it is searched for. -/
theorem WholeTag.OpensRaw.untouched_eq (ht : t.OpensRaw) (h : SelfContained t.inside)
    (behind : List Char) :
    untouched (t.text ++ behind) =
      match past (closingTag t.tag.name) behind with
      | some n => t.text.length + n
      | none => (t.text ++ behind).length := by
  have hextent := elementExtent_eq (t.text ++ behind)
  rw [ht.rawName?_eq, WholeTag.tagLength_eq h, List.drop_left] at hextent
  exact (t.untouched_eq behind).trans hextent

/-- A script or a style is passed with its content. -/
theorem mask_element (h : SelfContained t.inside) (ht : t.OpensRaw) {content closing : List Char}
    (hcontent : IsContent t.tag.name content) (hclosing : IsClosingTag t.tag.name closing)
    (rest : List Char) :
    mask (t.text ++ (content ++ closing) ++ rest) = t.text ++ (content ++ closing) ++ mask rest := by
  have hcs : t.text ++ (content ++ closing) ++ rest =
      t.text ++ (content ++ (closing ++ rest)) := by simp only [List.append_assoc]
  refine mask_append (hcs ▸ t.head?_ne _) ?_
  rw [hcs, ht.untouched_eq h, past_closingTag_eq_some ht.1 hcontent hclosing]
  simp only [List.length_append]

/-- Without a closing tag, everything behind the tag of a script or a style stays as it is. -/
theorem mask_unclosed (h : SelfContained t.inside) (ht : t.OpensRaw) {content : List Char}
    (hcontent : IsContent t.tag.name content) : mask (t.text ++ content) = t.text ++ content := by
  have hall : untouched (t.text ++ content) = (t.text ++ content).length := by
    rw [ht.untouched_eq h, isContent_iff.mp hcontent]
  rw [mask_untouched (t.head?_ne content), hall, List.take_length, List.drop_length, mask,
    List.append_nil]

end Tags

/-! ## Masking a document -/

theorem mask_segment {s : Segment} (h : s.IsTaken) (rest : List Char) :
    mask (s.source ++ rest) = s.masked ++ mask rest := by
  cases s with
  | text cs hcs => exact mask_text hcs rest
  | expression body hbody =>
    have hlen := hbody.whole.length?_append rest
    rw [Segment.source, mask_expression hlen, List.take_left, List.drop_left]
    rfl
  | comment body hbody => exact mask_comment hbody rest
  | endTag body hbody => exact mask_endTag hbody rest
  | startTag t => exact mask_startTag h.1 h.2 rest
  | element t ht hopen content hcontent closing hclosing =>
    exact mask_element h.1 h.2 hcontent hclosing rest

/-- Segments are masked one by one, whatever follows them. -/
theorem mask_segments_append {ss : List Segment} (h : ∀ s ∈ ss, s.IsTaken) (rest : List Char) :
    mask (ss.flatMap Segment.source ++ rest) = ss.flatMap Segment.masked ++ mask rest := by
  induction ss with
  | nil => rfl
  | cons s ss ih =>
    obtain ⟨hs, hss⟩ := List.forall_mem_cons.mp h
    rw [List.flatMap_cons, List.flatMap_cons, List.append_assoc, mask_segment hs, ih hss,
      List.append_assoc]

/-- **Masking a document blanks the expressions among its segments and nothing else**, as far as its
segments are taken for what they are.  From a tag that is mistaken for that of a script or a style on,
nothing is blanked up to a closing tag. -/
theorem mask_segments {ss : List Segment} (h : ∀ s ∈ ss, s.IsTaken) :
    mask (ss.flatMap Segment.source) = ss.flatMap Segment.masked ∧
      ∀ (t : WholeTag) (content : List Char), SelfContained t.inside → t.OpensRaw →
        IsContent t.tag.name content →
        mask (ss.flatMap Segment.source ++ (t.text ++ content)) =
          ss.flatMap Segment.masked ++ (t.text ++ content) := by
  constructor
  · have hall := mask_segments_append h []
    rwa [List.append_nil, mask, List.append_nil] at hall
  · intro t content hinside ht hcontent
    rw [mask_segments_append h, mask_unclosed hinside ht hcontent]

/-! ## A document with all kinds of segments -/

def paragraphTag : WholeTag where
  text := "<p a=\x7bb>c\x7d>".toList
  tag := ⟨"p".toList, [⟨"a".toList, .dynamic .mustache, 3, 10⟩], 11⟩
  read := by cbv
  stop_eq := rfl

def scriptTag : WholeTag where
  text := "<script>".toList
  tag := ⟨"script".toList, [], 8⟩
  read := by cbv
  stop_eq := rfl

/-- A script that is closed in itself. -/
def emptyScriptTag : WholeTag where
  text := "<script src='a.js'/>".toList
  tag := ⟨"script".toList, [⟨"src".toList, .static "a.js".toList 13 17, 8, 18⟩], 20⟩
  read := by cbv
  stop_eq := rfl

theorem isClosingTag_script : IsClosingTag "script".toList "</script>".toList :=
  ⟨"script".toList, [], rfl, rfl, by simp⟩

def mixedDocument : List Segment :=
  [.text "a ".toList (by simp), .expression ['b'] (.plain ⟨rfl, by decide, by decide⟩ .nil),
    .comment "\x7bc\x7d".toList (by decide), .startTag paragraphTag, .endTag "p".toList (by simp),
    .element scriptTag (by decide) (by decide) "\x7bd\x7d".toList (by decide)
      "</script>".toList isClosingTag_script,
    .expression ['e'] (.plain ⟨rfl, by decide, by decide⟩ .nil)]

/-- Behind a script that is closed in itself, no expression is blanked. -/
theorem mask_segments_mixed :
    mask "a \x7bb\x7d<!--\x7bc\x7d--><p a=\x7bb>c\x7d></p><script>\x7bd\x7d</script>\x7be\x7d".toList =
        "a    <!--\x7bc\x7d--><p a=\x7bb>c\x7d></p><script>\x7bd\x7d</script>   ".toList ∧
      mask (mixedDocument.flatMap Segment.source ++ "<script src='a.js'/>\x7bf\x7d".toList) =
        mixedDocument.flatMap Segment.masked ++ "<script src='a.js'/>\x7bf\x7d".toList := by
  have htaken : ∀ s ∈ mixedDocument, s.IsTaken := by decide +kernel
  have hinside : SelfContained emptyScriptTag.inside := by decide +kernel
  have hcontent : IsContent "script".toList "\x7bf\x7d".toList := by decide
  obtain ⟨hmask, hbehind⟩ := mask_segments htaken
  exact ⟨hmask, hbehind emptyScriptTag _ hinside (by decide) hcontent⟩

end ResponsiveImage.Markup
