import ResponsiveImage.Proofs.Markup.Lookahead

/-!
# The text of a start tag

What a start tag may be made of, as relations on its characters: a value, an attribute with its name,
an item between the name of the tag and its closing bracket, and the body that the items and the
bracket make up.  Each relation holds of the characters `text` of the thing, before a `rest` of which
it says how much of it matters.

The main statement is that the body is read exactly if it is one (`readAttributes_eq_ok_iff`); from
then on nothing needs to be known about how it is read.
-/

namespace ResponsiveImage.Markup

open Text

/-! ## Runs of characters -/

/-- A text that does not begin with a character of a class. -/
def Stops (p : Char → Bool) (rest : List Char) : Prop := ∀ c ∈ rest.head?, p c = false

theorem stops_cons {p : Char → Bool} {c : Char} {rest : List Char} :
    Stops p (c :: rest) ↔ p c = false := by
  simp [Stops]

theorem stops_dropWhile (p : Char → Bool) (cs : List Char) : Stops p (cs.dropWhile p) := by
  intro c hc
  have h := List.head?_dropWhile_not p cs
  rw [Option.mem_def.mp hc] at h
  exact h

theorem takeWhile_run {p : Char → Bool} {run rest : List Char} (hrun : ∀ c ∈ run, p c = true)
    (hrest : Stops p rest) : (run ++ rest).takeWhile p = run := by
  rw [List.takeWhile_append_of_pos hrun]
  cases rest with
  | nil => simp
  | cons c rest => simp [stops_cons.mp hrest]

theorem dropWhile_run {p : Char → Bool} {run rest : List Char} (hrun : ∀ c ∈ run, p c = true)
    (hrest : Stops p rest) : (run ++ rest).dropWhile p = rest := by
  rw [List.dropWhile_append_of_pos hrun]
  cases rest with
  | nil => simp
  | cons c rest => simp [stops_cons.mp hrest]

theorem of_mem_takeWhile {p : Char → Bool} {cs : List Char} :
    ∀ c ∈ cs.takeWhile p, p c = true := by
  intro c hc
  exact List.all_eq_true.mp (List.all_takeWhile) c hc

/-! ## Values -/

/-- A value without quotes, and what follows it.  A slash before a closing bracket is not part of
it. -/
inductive IsBare : List Char → List Char → Prop
  | ended {run rest : List Char} (hne : run ≠ []) (hrun : ∀ c ∈ run, isUnquoted c = true)
      (hrest : Stops isUnquoted rest) (hslash : run.getLast? = some '/' → rest.head? ≠ some '>') :
      IsBare run rest
  | closed {run rest : List Char} (hrun : ∀ c ∈ run, isUnquoted c = true) :
      IsBare run ('/' :: '>' :: rest)

/-- A value at offset `i`, and what follows it. -/
inductive IsValue (i : Nat) : List Char → List Char → AttributeValue → Prop
  | quoted {q : Char} {inner rest : List Char} (hq : q = '"' ∨ q = '\'') (h : Closes q inner) :
      IsValue i (q :: (inner ++ [q])) rest (literal inner (i + 1))
  | expression {e rest : List Char} (he : Expression.Whole e) :
      IsValue i e rest (.dynamic .mustache)
  | bare {run rest : List Char} (h : IsBare run rest) (hb : run.head? ≠ some '{') :
      IsValue i run rest (literal run i)

theorem quote_of_not_isUnquoted {q : Char} (hq : q = '"' ∨ q = '\'') : isUnquoted q = false := by
  rcases hq with rfl | rfl <;> decide

theorem not_isBlank_of_isUnquoted {c : Char} (h : isUnquoted c = true) : isBlank c = false := by
  simp only [isUnquoted, Bool.not_eq_true', Bool.or_eq_false_iff] at h
  exact h.1.1.1.1.1.1

/-- No value begins with a blank. -/
theorem IsValue.stops_isBlank {i : Nat} {text rest : List Char} {value : AttributeValue}
    (h : IsValue i text rest value) : Stops isBlank (text ++ rest) := by
  cases h with
  | quoted hq h =>
    rw [List.cons_append, stops_cons]
    rcases hq with rfl | rfl <;> decide
  | expression he =>
    obtain ⟨c, e, rfl⟩ := List.exists_cons_of_ne_nil he.ne_nil
    obtain rfl : c = '{' := by simpa using he.head?_eq
    rw [List.cons_append, stops_cons]
    decide
  | bare h hb =>
    cases h with
    | ended hne hrun hrest hslash =>
      obtain ⟨c, run, rfl⟩ := List.exists_cons_of_ne_nil hne
      rw [List.cons_append, stops_cons]
      exact not_isBlank_of_isUnquoted (hrun c List.mem_cons_self)
    | closed hrun =>
      cases text with
      | nil =>
        rw [List.nil_append, stops_cons]
        decide
      | cons c run =>
        rw [List.cons_append, stops_cons]
        exact not_isBlank_of_isUnquoted (hrun c List.mem_cons_self)

theorem withoutClosing_of_slash {run rest : List Char} (hrest : rest.head? = some '>') :
    withoutClosing (run ++ ['/']) rest = run := by
  simp [withoutClosing, hrest]

theorem withoutClosing_eq_self {run rest : List Char}
    (h : run.getLast? = some '/' → rest.head? ≠ some '>') : withoutClosing run rest = run := by
  rw [withoutClosing, if_neg]
  simpa using h

/-- A run of characters without quotes is a value, less the slash of a closing `/>`. -/
theorem isBare_withoutClosing {run rest : List Char} (hne : run ≠ [])
    (hrun : ∀ c ∈ run, isUnquoted c = true) (hrest : Stops isUnquoted rest) :
    ∃ tail, run ++ rest = withoutClosing run rest ++ tail ∧
      IsBare (withoutClosing run rest) tail := by
  by_cases hslash : run.getLast? = some '/' ∧ rest.head? = some '>'
  · obtain ⟨h₁, h₂⟩ := hslash
    obtain ⟨init, rfl⟩ := List.getLast?_eq_some_iff.mp h₁
    obtain ⟨tail, rfl⟩ := List.head?_eq_some_iff.mp h₂
    rw [withoutClosing_of_slash h₂]
    refine ⟨'/' :: '>' :: tail, by simp, .closed fun c hc ↦ hrun c ?_⟩
    exact List.mem_append_left _ hc
  · have hkeep : run.getLast? = some '/' → rest.head? ≠ some '>' := fun h₁ h₂ ↦ hslash ⟨h₁, h₂⟩
    rw [withoutClosing_eq_self hkeep]
    exact ⟨rest, rfl, .ended hne hrun hrest hkeep⟩

/-- A value without quotes is what is read where it stands. -/
theorem IsBare.withoutClosing_eq {run rest : List Char} (h : IsBare run rest) :
    (run ++ rest).takeWhile isUnquoted ≠ [] ∧
      withoutClosing ((run ++ rest).takeWhile isUnquoted) ((run ++ rest).dropWhile isUnquoted) =
        run := by
  cases h with
  | ended hne hrun hrest hslash =>
    rw [takeWhile_run hrun hrest, dropWhile_run hrun hrest]
    exact ⟨hne, withoutClosing_eq_self hslash⟩
  | @closed rest hrun =>
    have hsplit : run ++ '/' :: '>' :: rest = (run ++ ['/']) ++ '>' :: rest := by simp
    have hrun' : ∀ c ∈ run ++ ['/'], isUnquoted c = true := by
      intro c hc
      rcases List.mem_append.mp hc with hc | hc
      · exact hrun c hc
      · rw [List.mem_singleton.mp hc]
        decide
    have hstop : Stops isUnquoted ('>' :: rest) := stops_cons.mpr (by decide)
    rw [hsplit, takeWhile_run hrun' hstop, dropWhile_run hrun' hstop]
    exact ⟨by simp, withoutClosing_of_slash rfl⟩

theorem readValue_eq_ok {i stop : Nat} {cs : List Char} {value : AttributeValue}
    (h : readValue i cs = .ok (value, stop)) :
    ∃ text rest, cs = text ++ rest ∧ stop = i + text.length ∧ IsValue i text rest value := by
  match cs, h with
  | c :: cs, h =>
    rw [readValue] at h
    split at h
    · -- a quote
      rename_i hq
      split at h
      · rename_i n hn
        obtain ⟨inner, rest, rfl, rfl, hinner⟩ := quotedEnd_eq_closed_iff.mp hn
        rw [Nat.add_sub_cancel, List.take_left] at h
        cases h
        exact ⟨c :: (inner ++ [c]), rest, by simp, by simp; omega, .quoted (by simpa using hq) hinner⟩
      · cases h
      · cases h
    · split at h
      · -- a brace
        split at h
        · cases h
        · rename_i n hn
          obtain ⟨e, rest, he, rfl, hwhole⟩ := Expression.length?_eq_some_iff.mp hn
          cases h
          exact ⟨e, rest, he, rfl, .expression hwhole⟩
      · -- neither
        rename_i hq hb
        split at h
        · cases h
        · rename_i run hrun
          cases h
          have hstop := stops_dropWhile isUnquoted (c :: cs)
          have hmem : ∀ d ∈ (c :: cs).takeWhile isUnquoted, isUnquoted d = true := of_mem_takeWhile
          obtain ⟨tail, hsplit, hbare⟩ := isBare_withoutClosing hrun hmem hstop
          rw [List.takeWhile_append_dropWhile] at hsplit
          refine ⟨_, tail, hsplit, rfl, .bare hbare fun hhead ↦ hb ?_⟩
          rw [← Option.some_inj, ← hhead]
          generalize withoutClosing _ _ = value at hsplit hhead
          cases value with
          | nil => cases hhead
          | cons d value => exact congrArg List.head? hsplit

theorem IsValue.readValue_eq {i : Nat} {text rest : List Char} {value : AttributeValue}
    (h : IsValue i text rest value) :
    readValue i (text ++ rest) = .ok (value, i + text.length) := by
  cases h with
  | @quoted q inner _ hq h =>
    have hend : quotedEnd q (inner ++ q :: rest) = .closed (inner.length + 1) :=
      quotedEnd_eq_closed_iff.mpr ⟨inner, rest, rfl, rfl, h⟩
    have hcs : q :: (inner ++ [q]) ++ rest = q :: (inner ++ q :: rest) := by simp
    rw [hcs, readValue, if_pos (by simpa using hq), hend]
    simp only [Nat.add_sub_cancel, List.take_left, List.length_cons, List.length_append,
      List.length_nil, Nat.zero_add]
    congr 2
    omega
  | expression he =>
    obtain ⟨c, e, rfl⟩ := List.exists_cons_of_ne_nil he.ne_nil
    obtain rfl : c = '{' := by simpa using he.head?_eq
    have hlen := he.length?_append rest
    rw [List.cons_append] at hlen ⊢
    rw [readValue, if_neg (by decide), if_pos rfl, hlen]
  | bare h hb =>
    obtain ⟨hne, hrun⟩ := h.withoutClosing_eq
    obtain ⟨c, cs, hcs⟩ : ∃ c cs, text ++ rest = c :: cs := by
      cases hcs : text ++ rest with
      | nil => simp [hcs] at hne
      | cons c cs => exact ⟨c, cs, rfl⟩
    rw [hcs] at hne hrun ⊢
    have hc : isUnquoted c = true := by
      cases hc : isUnquoted c with
      | true => rfl
      | false => simp [hc] at hne
    have hq : ¬ (c = '"' ∨ c = '\'') := fun hq ↦ by
      rw [quote_of_not_isUnquoted hq] at hc
      cases hc
    have hbrace : c ≠ '{' := by
      rintro rfl
      cases text with
      | nil =>
        cases h with
        | ended hne => exact hne rfl
        | closed => cases hcs
      | cons d text =>
        obtain rfl : d = '{' := (List.cons_eq_cons.mp hcs).1
        exact hb rfl
    rw [readValue, if_neg (by simpa using hq), if_neg hbrace]
    split
    · rename_i h
      exact absurd h hne
    · rw [hrun]

/-! ## Attributes -/

/-- What follows the name of an attribute at offset `i`, what follows that, and the attribute.
Without an equals sign nothing of it follows the name. -/
inductive IsNamed (i : Nat) (name : List Char) : List Char → List Char → Attribute → Prop
  | boolean {rest : List Char} (h : (skipBlanks rest).head? ≠ some '=') :
      IsNamed i name [] rest
        ⟨name, .static [] (i + name.length) (i + name.length), i, i + name.length⟩
  | assigned {gap₁ gap₂ text rest : List Char} {value : AttributeValue}
      (h₁ : ∀ c ∈ gap₁, isBlank c = true) (h₂ : ∀ c ∈ gap₂, isBlank c = true)
      (h : IsValue (i + name.length + gap₁.length + 1 + gap₂.length) text rest value) :
      IsNamed i name (gap₁ ++ '=' :: (gap₂ ++ text)) rest
        ⟨name, value, i, i + name.length + gap₁.length + 1 + gap₂.length + text.length⟩

theorem IsNamed.stop_eq {i : Nat} {name text rest : List Char} {a : Attribute}
    (h : IsNamed i name text rest a) : a.stop = i + name.length + text.length := by
  cases h with
  | boolean => rfl
  | assigned =>
    simp only [List.length_append, List.length_cons]
    omega

theorem readNamed_eq_ok {i : Nat} {name cs : List Char} {a : Attribute}
    (h : readNamed i name cs = .ok a) :
    ∃ text rest, cs = text ++ rest ∧ IsNamed i name text rest a := by
  rw [readNamed] at h
  split at h
  · rename_i ds hds
    have hcs : cs = cs.takeWhile isBlank ++ '=' :: ds := by
      rw [← hds, skipBlanks, List.takeWhile_append_dropWhile]
    split at h
    · cases h
    · rename_i value stop hvalue
      cases h
      obtain ⟨text, rest, hsplit, rfl, htext⟩ := readValue_eq_ok hvalue
      have hds : ds = ds.takeWhile isBlank ++ (text ++ rest) := by
        rw [← hsplit, skipBlanks, List.takeWhile_append_dropWhile]
      refine ⟨cs.takeWhile isBlank ++ '=' :: (ds.takeWhile isBlank ++ text), rest, ?_,
        .assigned of_mem_takeWhile of_mem_takeWhile htext⟩
      rw [List.append_assoc, List.cons_append, List.append_assoc, ← hds]
      exact hcs
  · rename_i hne
    cases h
    refine ⟨[], cs, rfl, .boolean fun hhead ↦ ?_⟩
    obtain ⟨ds, hds⟩ := List.head?_eq_some_iff.mp hhead
    exact hne ds hds

theorem IsNamed.readNamed_eq {i : Nat} {name text rest : List Char} {a : Attribute}
    (h : IsNamed i name text rest a) : readNamed i name (text ++ rest) = .ok a := by
  cases h with
  | boolean h =>
    rw [List.nil_append, readNamed]
    split
    · rename_i ds hds
      rw [hds] at h
      exact absurd rfl h
    · rfl
  | @assigned gap₁ gap₂ text _ value h₁ h₂ h =>
    have hcs : gap₁ ++ '=' :: (gap₂ ++ text) ++ rest =
        gap₁ ++ '=' :: (gap₂ ++ (text ++ rest)) := by simp
    have hstop : Stops isBlank ('=' :: (gap₂ ++ (text ++ rest))) := stops_cons.mpr (by decide)
    rw [hcs, readNamed, skipBlanks, dropWhile_run h₁ hstop, blanks, takeWhile_run h₁ hstop]
    simp only [skipBlanks, blanks, dropWhile_run h₂ h.stops_isBlank,
      takeWhile_run h₂ h.stops_isBlank, h.readValue_eq]

/-! ## Items and bodies -/

/-- What stands between the name of a tag and its closing bracket at offset `i`, what follows it, and
the attribute that it makes, if any. -/
inductive IsItem (i : Nat) : List Char → List Char → Option Attribute → Prop
  | blank {c : Char} {rest : List Char} (hc : isBlank c = true) : IsItem i [c] rest none
  | slash {rest : List Char} (h : rest.head? ≠ some '>') : IsItem i ['/'] rest none
  | expression {e rest : List Char} (he : Expression.Whole e) :
      IsItem i e rest (shorthand? i e.length e)
  | named {name text rest : List Char} {a : Attribute} (hne : name ≠ [])
      (hname : ∀ c ∈ name, isAttributeName c = true) (hend : Stops isAttributeName (text ++ rest))
      (h : IsNamed i name text rest a) : IsItem i (name ++ text) rest (some a)

/-- The rest of a start tag from offset `i` on, with its attributes and the offset past its closing
bracket.  What follows the bracket does not matter. -/
inductive IsBody : Nat → List Char → List Attribute → Nat → Prop
  | close {i : Nat} {rest : List Char} : IsBody i ('>' :: rest) [] (i + 1)
  | selfClose {i : Nat} {rest : List Char} : IsBody i ('/' :: '>' :: rest) [] (i + 2)
  | item {i stop : Nat} {text rest : List Char} {a : Option Attribute} {as : List Attribute}
      (hitem : IsItem i text rest a) (h : IsBody (i + text.length) rest as stop) :
      IsBody i (text ++ rest) (a.toList ++ as) stop

/-- What is read of a tag, with attributes put before it. -/
def prepend (as : List Attribute) (r : Except TagError (List Attribute × Nat)) :
    Except TagError (List Attribute × Nat) := r.map fun t ↦ (as ++ t.1, t.2)

@[simp] theorem prepend_nil (r : Except TagError (List Attribute × Nat)) : prepend [] r = r := by
  cases r <;> rfl

@[simp] theorem prepend_ok (as bs : List Attribute) (stop : Nat) :
    prepend as (.ok (bs, stop)) = .ok (as ++ bs, stop) := rfl

@[simp] theorem prepend_error (as : List Attribute) (e : TagError) :
    prepend as (.error e) = .error e := rfl

@[simp] theorem prepend_prepend (as bs : List Attribute)
    (r : Except TagError (List Attribute × Nat)) :
    prepend as (prepend bs r) = prepend (as ++ bs) r := by
  cases r with
  | error => rfl
  | ok t => simp [prepend, Except.map]

theorem bind_eq_prepend (as : List Attribute) (r : Except TagError (List Attribute × Nat)) :
    (r >>= fun t ↦ pure (as ++ t.1, t.2)) = prepend as r := by
  cases r <;> rfl

/-- An expression in place of an attribute is known by its own characters. -/
theorem shorthand?_append {i : Nat} {e : List Char} (h : Expression.Whole e) (rest : List Char) :
    shorthand? i e.length (e ++ rest) = shorthand? i e.length e := by
  obtain ⟨c, e, rfl⟩ := List.exists_cons_of_ne_nil h.ne_nil
  have hinner : Expression.inner (c :: e ++ rest) (c :: e).length =
      Expression.inner (c :: e) (c :: e).length := by
    simp only [Expression.inner, List.cons_append, List.drop_succ_cons, List.drop_zero]
    rw [List.take_append_of_le_length (by simp)]
  rw [shorthand?, shorthand?, hinner]

theorem isAttributeName_eq_false_of_isBlank {c : Char} (h : isBlank c = true) :
    isAttributeName c = false := by
  simp [isAttributeName, h]

/-- Reading passes over an item and goes on behind it. -/
theorem IsItem.readAttributes_eq {i : Nat} {text rest : List Char} {a : Option Attribute}
    (h : IsItem i text rest a) (tag : List Char) :
    readAttributes tag i (text ++ rest) =
      prepend a.toList (readAttributes tag (i + text.length) rest) := by
  cases h with
  | blank hc =>
    rw [List.singleton_append, readAttributes, if_pos hc]
    simp
  | slash h =>
    rw [List.singleton_append, readAttributes, if_neg (by decide), if_neg (by decide),
      if_pos rfl, if_neg h]
    simp
  | expression he =>
    obtain ⟨c, e, rfl⟩ := List.exists_cons_of_ne_nil he.ne_nil
    obtain rfl : c = '{' := by simpa using he.head?_eq
    have hlen := he.length?_append rest
    have hshort := shorthand?_append (i := i) he rest
    rw [List.cons_append] at hlen hshort ⊢
    rw [readAttributes, if_neg (by decide), if_neg (by decide), if_neg (by decide), if_pos rfl, hlen]
    simp only [hshort]
    rw [List.length_cons, Nat.add_sub_cancel, List.drop_left]
    exact bind_eq_prepend _ _
  | @named name text _ a hne hname hend h =>
    obtain ⟨c, name, rfl⟩ := List.exists_cons_of_ne_nil hne
    have hc := hname c List.mem_cons_self
    have hblank : ¬ isBlank c = true := fun hb ↦ by
      rw [isAttributeName_eq_false_of_isBlank hb] at hc
      cases hc
    have hclose : c ≠ '>' := by rintro rfl; exact absurd hc (by decide)
    have hslash : c ≠ '/' := by rintro rfl; exact absurd hc (by decide)
    have hbrace : c ≠ '{' := by rintro rfl; exact absurd hc (by decide)
    have hrun := takeWhile_run hname hend
    have hdrop := dropWhile_run hname hend
    have hlen : a.stop - i - 1 = (name ++ text).length := by
      rw [h.stop_eq, List.length_cons, List.length_append]
      omega
    have hstop : a.stop = i + (c :: name ++ text).length := by
      rw [h.stop_eq, List.length_append]
      omega
    rw [List.cons_append] at hrun hdrop
    rw [List.append_assoc, List.cons_append, readAttributes, if_neg hblank, if_neg hclose,
      if_neg hslash, if_neg hbrace, hrun, hdrop]
    simp only [h.readNamed_eq, bind, Except.bind]
    rw [hlen, ← List.append_assoc, List.drop_left, hstop]
    exact bind_eq_prepend [a] _

theorem prepend_eq_ok {as bs : List Attribute} {stop : Nat}
    {r : Except TagError (List Attribute × Nat)} (h : prepend as r = .ok (bs, stop)) :
    ∃ cs, r = .ok (cs, stop) ∧ bs = as ++ cs := by
  cases r with
  | error e => cases h
  | ok t =>
    cases h
    exact ⟨t.1, rfl, rfl⟩

theorem isBody_of_readAttributes {tag cs : List Char} {i stop : Nat} {as : List Attribute}
    (h : readAttributes tag i cs = .ok (as, stop)) : IsBody i cs as stop := by
  fun_induction readAttributes tag i cs generalizing as stop with
  | case1 => cases h
  | case2 i c cs hc ih => exact .item (.blank hc) (ih h)
  | case3 i cs =>
    cases h
    exact .close
  | case4 i cs hhead =>
    cases h
    obtain ⟨rest, rfl⟩ := List.head?_eq_some_iff.mp hhead
    exact .selfClose
  | case5 i cs hhead _ _ ih => exact .item (.slash hhead) (ih h)
  | case6 => cases h
  | case7 i cs n _ _ _ hn ih =>
    obtain ⟨e, rest, hcs, rfl, hwhole⟩ := Expression.length?_eq_some_iff.mp hn
    obtain ⟨d, e, rfl⟩ := List.exists_cons_of_ne_nil hwhole.ne_nil
    obtain ⟨rfl, rfl⟩ : '{' = d ∧ cs = e ++ rest := by simpa using hcs
    obtain ⟨as', has', rfl⟩ := prepend_eq_ok ((bind_eq_prepend _ _).symm.trans h)
    have hbody := ih has'
    rw [List.length_cons, Nat.add_sub_cancel, List.drop_left] at hbody
    rw [← List.cons_append, shorthand?_append hwhole]
    exact .item (.expression hwhole) hbody
  | case8 => cases h
  | case9 i c cs _ _ _ _ hne ih =>
    cases hnamed : readNamed i ((c :: cs).takeWhile isAttributeName)
        ((c :: cs).dropWhile isAttributeName) with
    | error e =>
      rw [hnamed] at h
      cases h
    | ok a =>
      rw [hnamed] at h
      obtain ⟨as', has', rfl⟩ := prepend_eq_ok ((bind_eq_prepend [a] _).symm.trans h)
      obtain ⟨text, rest, hrest, hattr⟩ := readNamed_eq_ok hnamed
      have hbody := ih a has'
      have hcs : c :: cs = (c :: cs).takeWhile isAttributeName ++ text ++ rest := by
        rw [List.append_assoc, ← hrest, List.takeWhile_append_dropWhile]
      have hend := hrest ▸ stops_dropWhile isAttributeName (c :: cs)
      have hname : ∀ d ∈ (c :: cs).takeWhile isAttributeName, isAttributeName d = true :=
        of_mem_takeWhile
      generalize (c :: cs).takeWhile isAttributeName = name at *
      have hstop : a.stop = i + (name ++ text).length := by
        rw [hattr.stop_eq, List.length_append, Nat.add_assoc]
      have hpos : 0 < name.length := List.length_pos_iff.mpr hne
      have hdrop : List.drop (a.stop - i - 1) cs = rest := by
        have hsucc : a.stop - i = a.stop - i - 1 + 1 := by
          rw [hstop, List.length_append]
          omega
        rw [← List.drop_succ_cons (a := c), ← hsucc, hcs, hstop, Nat.add_sub_cancel_left,
          List.drop_left]
      rw [hdrop, hstop] at hbody
      rw [hcs]
      exact .item (.named hne hname hend hattr) hbody

/-- **The attributes of a tag are read exactly if its rest is a body.** -/
theorem readAttributes_eq_ok_iff {tag cs : List Char} {i stop : Nat} {as : List Attribute} :
    readAttributes tag i cs = .ok (as, stop) ↔ IsBody i cs as stop := by
  refine ⟨isBody_of_readAttributes, fun h ↦ ?_⟩
  induction h with
  | close => rw [readAttributes, if_neg (by decide), if_pos rfl]
  | selfClose =>
    rw [readAttributes, if_neg (by decide), if_neg (by decide), if_pos rfl,
      if_pos List.head?_cons]
  | item hitem _ ih => rw [hitem.readAttributes_eq, ih, prepend_ok]

/-! ## Start tags -/

/-- The name of a start tag, and what follows it. -/
structure IsTagName (name rest : List Char) : Prop where
  start : ∃ c cs, name = c :: cs ∧ isNameStart c = true ∧ ∀ d ∈ cs, isNameRest d = true
  stops : Stops isNameRest rest

/-- A tag with its name and what was read behind the name. -/
def toTag (name : List Char) (r : Except TagError (List Attribute × Nat)) : Except TagError StartTag :=
  r.map fun t ↦ ⟨name, t.1, t.2⟩

@[simp] theorem toTag_ok (name : List Char) (as : List Attribute) (stop : Nat) :
    toTag name (.ok (as, stop)) = .ok ⟨name, as, stop⟩ := rfl

@[simp] theorem toTag_error (name : List Char) (e : TagError) : toTag name (.error e) = .error e := rfl

theorem IsTagName.read_eq {name rest : List Char} (h : IsTagName name rest) (i : Nat) :
    StartTag.read i ('<' :: (name ++ rest)) =
      toTag name (readAttributes name (i + 1 + name.length) rest) := by
  obtain ⟨c, cs, rfl, hc, hcs⟩ := h.start
  rw [List.cons_append, StartTag.read, if_pos hc, takeWhile_run hcs h.stops,
    dropWhile_run hcs h.stops]
  cases hread : readAttributes (c :: cs) (i + 1 + (c :: cs).length) rest with
  | error e => simp only [hread, bind, Except.bind, toTag_error]
  | ok t => simp only [hread, bind, Except.bind, toTag, Except.map, pure, Except.pure]

/-- A start tag is read exactly if its name and a body stand behind the bracket. -/
theorem StartTag.read_eq_ok_iff {i : Nat} {cs : List Char} {tag : StartTag} :
    StartTag.read i cs = .ok tag ↔ ∃ rest, cs = '<' :: (tag.name ++ rest) ∧
      IsTagName tag.name rest ∧
      IsBody (i + 1 + tag.name.length) rest tag.attributes tag.stop := by
  constructor
  · intro h
    unfold StartTag.read at h
    split at h
    · rename_i c cs
      split at h
      · rename_i hc
        have hname : IsTagName (c :: cs.takeWhile isNameRest) (cs.dropWhile isNameRest) :=
          ⟨⟨c, _, rfl, hc, of_mem_takeWhile⟩, stops_dropWhile _ _⟩
        cases hread : readAttributes (c :: cs.takeWhile isNameRest)
            (i + 1 + (c :: cs.takeWhile isNameRest).length) (cs.dropWhile isNameRest) with
        | error e =>
          simp only [hread, bind, Except.bind] at h
          cases h
        | ok t =>
          simp only [hread, bind, Except.bind] at h
          cases h
          refine ⟨_, ?_, hname, readAttributes_eq_ok_iff.mp hread⟩
          rw [List.cons_append, List.takeWhile_append_dropWhile]
      · cases h
    · cases h
  · rintro ⟨rest, rfl, hname, hbody⟩
    rw [hname.read_eq, readAttributes_eq_ok_iff.mpr hbody]
    rfl

/-- A start tag is read at an offset exactly if its name and a body stand there. -/
theorem StartTag.readAt_eq_ok_iff {text : List Char} {pos : Nat} {tag : StartTag} :
    StartTag.readAt text pos = .ok tag ↔ ∃ rest, text.drop pos = '<' :: (tag.name ++ rest) ∧
      IsTagName tag.name rest ∧
      IsBody (pos + 1 + tag.name.length) rest tag.attributes tag.stop := by
  rw [StartTag.readAt, Int.toNat_natCast]
  exact StartTag.read_eq_ok_iff

end ResponsiveImage.Markup
