import ResponsiveImage.Proofs.Markup.TagEnds

/-!
# Scripts and styles

The content of a script or a style is not markup, and masking leaves it as it is up to the tag that
closes it.  Such an element is known by its name, in any mixture of capitals, if white space, a slash
or a bracket follows the name (`rawName?_eq_some`, `rawName?_eq_none`).  Nothing else in its tag
matters; also one that is closed in itself is taken to have content.
-/

namespace ResponsiveImage.Markup

open Text

/-! ## Words in any mixture of capitals -/

theorem afterWord_eq_some_iff {w cs rest : List Char} :
    afterWord w cs = some rest ↔ ∃ own, cs = own ++ rest ∧ own.map fold = w.map fold := by
  induction w generalizing cs with
  | nil => simp [eq_comm]
  | cons d w ih =>
    cases cs with
    | nil => simp [afterWord]
    | cons c cs =>
      rw [afterWord]
      constructor
      · intro h
        split at h
        · rename_i hletter
          obtain ⟨own, rfl, hown⟩ := ih.mp h
          have hfold : fold d = fold c := by simpa [sameLetter] using hletter
          exact ⟨c :: own, rfl, by rw [List.map_cons, List.map_cons, hown, hfold]⟩
        · cases h
      · rintro ⟨own, heq, hown⟩
        cases own with
        | nil => cases hown
        | cons b own =>
          obtain ⟨rfl, rfl⟩ := List.cons_eq_cons.mp heq
          obtain ⟨hfold, hown⟩ := List.cons_eq_cons.mp hown
          rw [if_pos (by simp [sameLetter, hfold])]
          exact ih.mpr ⟨own, rfl, hown⟩

/-- Only letters are one letter with a small Latin one. -/
theorem isLetter_of_isLower_fold {c : Char} (h : (fold c).isLower = true) : isLetter c = true := by
  rw [fold] at h
  split at h
  · rename_i hc
    rw [hc]
    decide
  · split at h
    · rename_i hc
      rcases (by simpa using hc : c = '\u0130' ∨ c = '\u0131') with rfl | rfl <;> decide
    · refine isLetter_of_isAlpha ?_
      rw [Char.isAlpha, Bool.or_eq_true]
      by_cases hupper : c.isUpper = true
      · exact .inl hupper
      · rw [Char.toLower_eq_of_not_isUpper hupper] at h
        exact .inr h

/-! ## Searching -/

/-- A search passes a text in which the pattern matches nowhere. -/
theorem past_append {pattern : Pattern} {front back : List Char} {n : Nat} (hback : back ≠ [])
    (hmatch : pattern back = some n)
    (hfront : ∀ xs ys, front = xs ++ ys → ys ≠ [] → pattern (ys ++ back) = none) :
    past pattern (front ++ back) = some (front.length + n) := by
  induction front with
  | nil =>
    obtain ⟨c, cs, rfl⟩ := List.exists_cons_of_ne_nil hback
    rw [List.nil_append, past_of_match hmatch, List.length_nil, Nat.zero_add]
  | cons c front ih =>
    have hnext : pattern (c :: (front ++ back)) = none :=
      hfront [] (c :: front) rfl (List.cons_ne_nil c front)
    have hrest := ih fun xs ys heq ↦ hfront (c :: xs) ys (by rw [heq, List.cons_append])
    rw [List.cons_append, past_of_no_match hnext, hrest, Option.map_some, List.length_cons]
    congr 1
    omega

/-- A search that finds nothing has looked everywhere. -/
theorem past_eq_none_iff {pattern : Pattern} {cs : List Char} :
    past pattern cs = none ↔ ∀ xs ys, cs = xs ++ ys → ys ≠ [] → pattern ys = none := by
  induction cs with
  | nil =>
    refine ⟨fun _ xs ys heq hys ↦ absurd ?_ hys, fun _ ↦ rfl⟩
    exact (List.append_eq_nil_iff.mp heq.symm).2
  | cons c cs ih =>
    constructor
    · intro h xs ys heq hys
      rw [past] at h
      split at h
      · cases h
      · rename_i hmatch
        cases xs with
        | nil =>
          obtain rfl : c :: cs = ys := heq
          exact hmatch
        | cons x xs =>
          exact ih.mp (Option.map_eq_none_iff.mp h) xs ys (List.cons_eq_cons.mp heq).2 hys
    · intro h
      have hrest := ih.mpr fun xs ys heq ↦ h (c :: xs) ys (by rw [heq, List.cons_append])
      rw [past_of_no_match (h [] (c :: cs) rfl (List.cons_ne_nil c cs)), hrest, Option.map_none]

/-! ## Names -/

/-- The name of a script or a style, in any mixture of capitals. -/
def IsRawName (name : List Char) : Prop := ∃ raw ∈ rawNames, name.map fold = raw.map fold

instance (name : List Char) : Decidable (IsRawName name) :=
  inferInstanceAs (Decidable (∃ raw ∈ rawNames, name.map fold = raw.map fold))

theorem isLetter_of_mem_of_map_fold {own raw : List Char} (hraw : raw ∈ rawNames)
    (hown : own.map fold = raw.map fold) : ∀ c ∈ own, isLetter c = true := by
  intro c hc
  have hlower : ∀ raw ∈ rawNames, ∀ d ∈ raw, (fold d).isLower = true := by simp [rawNames, fold]
  have hmem : fold c ∈ raw.map fold := hown ▸ List.mem_map_of_mem hc
  obtain ⟨d, hd, hfold⟩ := List.mem_map.mp hmem
  exact isLetter_of_isLower_fold (hfold ▸ hlower raw hraw d hd)

theorem endsName_append {cs : List Char} (hne : cs ≠ []) (rest : List Char) :
    endsName (cs ++ rest) = endsName cs := by
  obtain ⟨c, cs, rfl⟩ := List.exists_cons_of_ne_nil hne
  rfl

theorem isNameRest_of_endsName {c : Char} {cs : List Char} (h : endsName (c :: cs) = true) :
    isNameRest c = false := by
  simp only [endsName, Bool.or_eq_true, beq_iff_eq] at h
  rcases h with (h | rfl) | rfl
  · exact isNameRest_of_isBlank h
  · decide
  · decide

/-- What can be taken for the name of a script or a style at the start of a tag is its name. -/
theorem eq_of_endsName {name rest own behind raw : List Char} (hname : IsTagName name rest)
    (hraw : raw ∈ rawNames) (hown : own.map fold = raw.map fold) (hends : endsName behind = true)
    (heq : name ++ rest = own ++ behind) : own = name ∧ behind = rest := by
  have hstop : Stops isNameRest behind := by
    cases behind with
    | nil => cases hends
    | cons c cs => exact stops_cons.mpr (isNameRest_of_endsName hends)
  have hletters : ∀ c ∈ own, isNameRest c = true := fun c hc ↦
    isNameRest_of_isLetter (isLetter_of_mem_of_map_fold hraw hown c hc)
  -- both are the longest run of the characters of names
  have hrun : (name ++ rest).takeWhile isNameRest = own := heq ▸ takeWhile_run hletters hstop
  obtain rfl : name = own := (takeWhile_run hname.isNameRest hname.stops).symm.trans hrun
  exact ⟨rfl, (List.append_cancel_left heq).symm⟩

/-- A name is taken for that of a script or a style if it is one and ends as the name of a tag. -/
theorem matches_rawName_iff {name rest raw : List Char} (hname : IsTagName name rest)
    (hraw : raw ∈ rawNames) :
    ((afterWord raw (name ++ rest)).map endsName).getD false = true ↔
      name.map fold = raw.map fold ∧ endsName rest = true := by
  constructor
  · intro h
    cases hafter : afterWord raw (name ++ rest) with
    | none =>
      rw [hafter] at h
      cases h
    | some behind =>
      rw [hafter] at h
      obtain ⟨own, heq, hown⟩ := afterWord_eq_some_iff.mp hafter
      obtain ⟨rfl, rfl⟩ := eq_of_endsName hname hraw hown h heq
      exact ⟨hown, h⟩
  · rintro ⟨hfold, hends⟩
    rw [afterWord_eq_some_iff.mpr ⟨name, rfl, hfold⟩]
    exact hends

section RawName

variable {name rest : List Char}

theorem rawName?_eq_some (hname : IsTagName name rest) (hraw : IsRawName name)
    (hends : endsName rest = true) : rawName? (name ++ rest) = some name := by
  obtain ⟨raw, hmem, hfold⟩ := hraw
  rw [rawName?, Option.map_eq_some_iff]
  cases hfind : rawNames.find? fun raw ↦
      ((afterWord raw (name ++ rest)).map endsName).getD false with
  | none =>
    have hmatch := (matches_rawName_iff hname hmem).mpr ⟨hfold, hends⟩
    exact absurd hmatch (List.find?_eq_none.mp hfind raw hmem)
  | some first =>
    have hmatch := List.find?_some hfind
    obtain ⟨hfirst, -⟩ := (matches_rawName_iff hname (List.mem_of_find?_eq_some hfind)).mp hmatch
    have hlen : first.length = name.length := by
      simpa using congrArg List.length hfirst.symm
    exact ⟨first, rfl, List.take_left' hlen.symm⟩

theorem rawName?_eq_none (hname : IsTagName name rest)
    (h : ¬ (IsRawName name ∧ endsName rest = true)) : rawName? (name ++ rest) = none := by
  rw [rawName?, Option.map_eq_none_iff, List.find?_eq_none]
  intro raw hmem hmatch
  obtain ⟨hfold, hends⟩ := (matches_rawName_iff hname hmem).mp hmatch
  exact h ⟨⟨raw, hmem, hfold⟩, hends⟩

end RawName

/-! ## Closing tags -/

/-- A tag that closes an element of the given name. -/
def IsClosingTag (name closing : List Char) : Prop :=
  ∃ own gap, closing = '<' :: '/' :: (own ++ (gap ++ ['>'])) ∧ own.map fold = name.map fold ∧
    ∀ c ∈ gap, isBlank c = true

theorem closingTag_eq_some_iff {name cs : List Char} {n : Nat} :
    closingTag name cs = some n ↔
      ∃ closing rest, cs = closing ++ rest ∧ n = closing.length ∧ IsClosingTag name closing := by
  constructor
  · intro h
    unfold closingTag at h
    split at h
    · rename_i cs
      split at h
      · rename_i behind hafter
        split at h
        · rename_i rest hskip
          cases h
          obtain ⟨own, rfl, hown⟩ := afterWord_eq_some_iff.mp hafter
          have hbehind : behind = behind.takeWhile isBlank ++ '>' :: rest := by
            rw [← hskip, skipBlanks, List.takeWhile_append_dropWhile]
          have hlen : own.length = name.length := by simpa using congrArg List.length hown
          refine ⟨'<' :: '/' :: (own ++ (behind.takeWhile isBlank ++ ['>'])), rest, ?_, ?_,
            own, behind.takeWhile isBlank, rfl, hown, of_mem_takeWhile⟩
          · simpa using hbehind
          · simp only [List.length_cons, List.length_append, List.length_nil, blanks]
            omega
        · cases h
      · cases h
    · cases h
  · rintro ⟨_, rest, rfl, rfl, own, gap, rfl, hown, hgap⟩
    have hstop : Stops isBlank ('>' :: rest) := stops_cons.mpr (by decide)
    have hafter : afterWord name (own ++ (gap ++ '>' :: rest)) = some (gap ++ '>' :: rest) :=
      afterWord_eq_some_iff.mpr ⟨own, rfl, hown⟩
    have hlen : own.length = name.length := by simpa using congrArg List.length hown
    have hcs : '<' :: '/' :: (own ++ (gap ++ ['>'])) ++ rest =
        '<' :: '/' :: (own ++ (gap ++ '>' :: rest)) := by simp
    simp only [hcs, closingTag, hafter, skipBlanks, dropWhile_run hgap hstop, blanks,
      takeWhile_run hgap hstop]
    simp only [List.length_cons, List.length_append, List.length_nil, Option.some_inj]
    omega

/-- Behind its first bracket a closing tag holds no other. -/
theorem IsClosingTag.bracket_not_mem {name cs : List Char} {c : Char}
    (h : IsClosingTag name (c :: cs)) (hname : IsRawName name) : '<' ∉ cs := by
  obtain ⟨own, gap, heq, hown, hgap⟩ := h
  obtain ⟨raw, hraw, hfold⟩ := hname
  obtain ⟨-, rfl⟩ := List.cons_eq_cons.mp heq
  have hletters := isLetter_of_mem_of_map_fold hraw (hown.trans hfold)
  simp only [List.mem_cons, List.mem_append, List.not_mem_nil, or_false]
  rintro (h | h | h | h)
  · exact absurd h (by decide)
  · exact absurd (hletters _ h) (by decide)
  · exact absurd (hgap _ h) (by decide)
  · exact absurd h (by decide)

/-- A text without a tag that closes an element of the given name. -/
def IsContent (name content : List Char) : Prop :=
  ∀ closing, IsClosingTag name closing → ¬ closing <:+: content

theorem IsContent.closingTag_eq_none {name content : List Char} (h : IsContent name content)
    {xs ys : List Char} (heq : content = xs ++ ys) : closingTag name ys = none := by
  rw [Option.eq_none_iff_forall_ne_some]
  intro n hn
  obtain ⟨closing, rest, rfl, -, hclosing⟩ := closingTag_eq_some_iff.mp hn
  exact h closing hclosing ⟨xs, rest, by rw [heq, List.append_assoc]⟩

theorem isContent_iff {name content : List Char} :
    IsContent name content ↔ past (closingTag name) content = none := by
  constructor
  · exact fun h ↦ past_eq_none_iff.mpr fun _ _ heq _ ↦ h.closingTag_eq_none heq
  · rintro h closing hclosing ⟨xs, rest, heq⟩
    have hmatch := closingTag_eq_some_iff.mpr ⟨closing, rest, rfl, rfl, hclosing⟩
    obtain ⟨own, gap, rfl, -⟩ := hclosing
    rw [past_eq_none_iff.mp h xs _ (by rw [← heq, List.append_assoc]) (by simp)] at hmatch
    cases hmatch

instance (name content : List Char) : Decidable (IsContent name content) :=
  decidable_of_iff' _ isContent_iff

/-- The search for the closing tag passes the content, and nothing behind the tag. -/
theorem past_closingTag_eq_some {name content closing : List Char} (hname : IsRawName name)
    (hcontent : IsContent name content) (hclosing : IsClosingTag name closing) (rest : List Char) :
    past (closingTag name) (content ++ (closing ++ rest)) =
      some (content.length + closing.length) := by
  have hstart : ∃ cs, closing ++ rest = '<' :: cs := by
    obtain ⟨own, gap, rfl, -⟩ := hclosing
    exact ⟨_, rfl⟩
  have hmatch := closingTag_eq_some_iff.mpr ⟨closing, rest, rfl, rfl, hclosing⟩
  obtain ⟨cs, hcs⟩ := hstart
  refine past_append (by simp [hcs]) hmatch fun xs ys heq hys ↦ ?_
  rw [Option.eq_none_iff_forall_ne_some]
  intro n hn
  obtain ⟨early, behind, hsplit, -, hearly⟩ := closingTag_eq_some_iff.mp hn
  have hnot : ¬ early <:+: content := hcontent early hearly
  obtain ⟨zs, rfl, hzs⟩ | ⟨zs, rfl, -⟩ := List.append_eq_append_iff.mp hsplit
  · cases zs with
    | nil => exact hnot ⟨xs, [], by rw [heq, List.append_nil, List.append_nil]⟩
    | cons z zs =>
      -- a tag that begins in the content would go on where the closing one begins
      obtain ⟨y, ys, rfl⟩ := List.exists_cons_of_ne_nil hys
      obtain rfl : '<' = z := (List.cons_eq_cons.mp (hcs.symm.trans hzs)).1
      exact hearly.bracket_not_mem hname (by simp)
  · exact hnot ⟨xs, zs, by rw [heq, List.append_assoc]⟩

end ResponsiveImage.Markup
