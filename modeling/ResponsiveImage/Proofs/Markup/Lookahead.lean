import ResponsiveImage.Markup.StartTag

/-!
# How far expressions and quoted values are looked at

The length of an expression, and that of a quoted value, is found by looking at its own characters
alone: what follows the closing brace or the closing quote plays no part.  An expression or a quoted
value is therefore described by its own text (`IsExpression`, `Closes`), and finding one at the start
of a text is cutting the text in two.
-/

namespace ResponsiveImage.Markup

open Text

/-! ## Expressions -/

namespace Expression

/-- What is left of an expression is a text of its own, found whatever follows it. -/
theorem lengthFrom_eq_some {depth : Nat} {quote : Option Char} {cs : List Char} {n : Nat}
    (h : lengthFrom depth quote cs = some n) :
    ∃ own rest, cs = own ++ rest ∧ own.length = n ∧
      ∀ rest', lengthFrom depth quote (own ++ rest') = some n := by
  fun_induction lengthFrom depth quote cs generalizing n with
  | case1 => cases h
  | case2 => cases h
  | case3 depth q d cs ih =>
    obtain ⟨m, hm, rfl⟩ := Option.map_eq_some_iff.mp h
    obtain ⟨own, rest, rfl, rfl, hown⟩ := ih hm
    refine ⟨'\\' :: d :: own, rest, rfl, rfl, fun rest' ↦ ?_⟩
    simp [lengthFrom, hown rest']
  | case4 depth q c cs hc ih =>
    obtain ⟨m, hm, rfl⟩ := Option.map_eq_some_iff.mp h
    obtain ⟨own, rest, rfl, rfl, hown⟩ := ih hm
    refine ⟨c :: own, rest, rfl, rfl, fun rest' ↦ ?_⟩
    rw [lengthFrom.eq_def]
    simp only [List.cons_append, if_neg hc, hown rest', Option.map_some]
  | case5 depth c cs hc ih =>
    obtain ⟨m, hm, rfl⟩ := Option.map_eq_some_iff.mp h
    obtain ⟨own, rest, rfl, rfl, hown⟩ := ih hm
    refine ⟨c :: own, rest, rfl, rfl, fun rest' ↦ ?_⟩
    simp [lengthFrom, hc, hown rest']
  | case6 depth cs hc ih =>
    obtain ⟨m, hm, rfl⟩ := Option.map_eq_some_iff.mp h
    obtain ⟨own, rest, rfl, rfl, hown⟩ := ih hm
    refine ⟨'{' :: own, rest, rfl, rfl, fun rest' ↦ ?_⟩
    simp [lengthFrom, hc, hown rest']
  | case7 cs hc hb =>
    cases h
    exact ⟨['}'], cs, rfl, rfl, fun rest' ↦ rfl⟩
  | case8 cs depth hc hb ih =>
    obtain ⟨m, hm, rfl⟩ := Option.map_eq_some_iff.mp h
    obtain ⟨own, rest, rfl, rfl, hown⟩ := ih hm
    refine ⟨'}' :: own, rest, rfl, rfl, fun rest' ↦ ?_⟩
    simp [lengthFrom, hc, hown rest']
  | case9 depth c cs hc hb hd ih =>
    obtain ⟨m, hm, rfl⟩ := Option.map_eq_some_iff.mp h
    obtain ⟨own, rest, rfl, rfl, hown⟩ := ih hm
    refine ⟨c :: own, rest, rfl, rfl, fun rest' ↦ ?_⟩
    simp [lengthFrom, hc, hb, hd, hown rest']

/-- A text that is one expression from its first character to its last. -/
def Whole (e : List Char) : Prop := length? e = some e.length

theorem length?_eq_some_iff {cs : List Char} {n : Nat} :
    length? cs = some n ↔ ∃ e rest, cs = e ++ rest ∧ n = e.length ∧ Whole e := by
  constructor
  · intro h
    cases cs with
    | nil => cases h
    | cons c cs =>
      rw [length?] at h
      split at h
      · rename_i hc
        obtain ⟨m, hm, rfl⟩ := Option.map_eq_some_iff.mp h
        obtain ⟨own, rest, rfl, rfl, hown⟩ := lengthFrom_eq_some hm
        refine ⟨c :: own, rest, rfl, rfl, ?_⟩
        have hnil := hown []
        rw [List.append_nil] at hnil
        simp [Whole, length?, hc, hnil]
      · cases h
  · rintro ⟨e, rest, rfl, rfl, he⟩
    cases e with
    | nil => cases he
    | cons c cs =>
      rw [Whole, length?] at he
      split at he
      · rename_i hc
        obtain ⟨m, hm, hlen⟩ := Option.map_eq_some_iff.mp he
        obtain ⟨own, tail, rfl, rfl, hown⟩ := lengthFrom_eq_some hm
        have htail : tail = [] := by simpa using hlen
        subst htail
        simp [length?, hc, hown rest]
      · cases he

theorem Whole.head?_eq {e : List Char} (h : Whole e) : e.head? = some '{' := by
  match e, h with
  | c :: cs, h =>
    rw [Whole, length?] at h
    split at h
    · rename_i hc
      rw [hc]
      rfl
    · cases h

theorem Whole.ne_nil {e : List Char} (h : Whole e) : e ≠ [] := by
  rintro rfl
  cases h

theorem Whole.length?_append {e : List Char} (h : Whole e) (rest : List Char) :
    length? (e ++ rest) = some e.length := length?_eq_some_iff.mpr ⟨e, rest, rfl, rfl, h⟩

end Expression

/-! ## Quoted values -/

theorem QuotedEnd.shift_eq_closed_iff {r : QuotedEnd} {k n : Nat} :
    r.shift k = .closed n ↔ ∃ m, r = .closed m ∧ n = m + k := by
  cases r <;> simp [QuotedEnd.shift, eq_comm]

/-- A text that a quote `q` behind it closes, and none before. -/
def Closes (q : Char) (inner : List Char) : Prop :=
  quotedEnd q (inner ++ [q]) = .closed (inner.length + 1)

/-- A quoted value that ends is a text of its own, which ends whatever follows it. -/
theorem quotedEnd_eq_closed {q : Char} {cs : List Char} {n : Nat}
    (h : quotedEnd q cs = .closed n) :
    ∃ inner rest, cs = inner ++ q :: rest ∧ n = inner.length + 1 ∧
      ∀ rest', quotedEnd q (inner ++ q :: rest') = .closed n := by
  fun_induction quotedEnd q cs generalizing n with
  | case1 => cases h
  | case2 cs =>
    cases h
    refine ⟨[], cs, rfl, rfl, fun rest' ↦ ?_⟩
    rw [List.nil_append, quotedEnd, if_pos rfl]
  | case3 => cases h
  | case4 cs m hq hm ih =>
    obtain ⟨k, hk, rfl⟩ := QuotedEnd.shift_eq_closed_iff.mp h
    obtain ⟨inner, rest, hcs, rfl, hinner⟩ := ih hk
    obtain ⟨e, rest₁, he, rfl, hwhole⟩ := Expression.length?_eq_some_iff.mp hm
    obtain ⟨d, e, rfl⟩ := List.exists_cons_of_ne_nil hwhole.ne_nil
    obtain ⟨rfl, rfl⟩ : '{' = d ∧ cs = e ++ rest₁ := by simpa using he
    rw [List.length_cons, Nat.add_sub_cancel, List.drop_left] at hcs
    refine ⟨'{' :: e ++ inner, rest, by simp [hcs], by simp; omega, fun rest' ↦ ?_⟩
    have hnext := hwhole.length?_append (inner ++ q :: rest')
    rw [List.append_assoc, List.cons_append, quotedEnd, if_neg hq, if_pos rfl]
    rw [List.cons_append] at hnext
    rw [hnext]
    simp only [List.length_cons, Nat.add_sub_cancel, List.drop_left, hinner rest', QuotedEnd.shift]
  | case5 c cs hq hb ih =>
    obtain ⟨k, hk, rfl⟩ := QuotedEnd.shift_eq_closed_iff.mp h
    obtain ⟨inner, rest, rfl, rfl, hinner⟩ := ih hk
    refine ⟨c :: inner, rest, rfl, rfl, fun rest' ↦ ?_⟩
    rw [List.cons_append, quotedEnd, if_neg hq, if_neg hb, hinner rest']
    rfl

theorem quotedEnd_eq_closed_iff {q : Char} {cs : List Char} {n : Nat} :
    quotedEnd q cs = .closed n ↔
      ∃ inner rest, cs = inner ++ q :: rest ∧ n = inner.length + 1 ∧ Closes q inner := by
  constructor
  · intro h
    obtain ⟨inner, rest, rfl, rfl, hinner⟩ := quotedEnd_eq_closed h
    exact ⟨inner, rest, rfl, rfl, hinner []⟩
  · rintro ⟨inner, rest, rfl, rfl, h⟩
    obtain ⟨inner', rest', heq, hlen, hinner⟩ := quotedEnd_eq_closed h
    have hsame := List.append_inj heq (by omega)
    rw [hsame.1]
    exact hsame.1 ▸ hinner rest

/-- A text without the quote and without braces is closed by the first quote behind it. -/
theorem closes_of_plain {q : Char} {inner : List Char}
    (h : ∀ c ∈ inner, c ≠ q ∧ c ≠ '{') : Closes q inner := by
  rw [Closes]
  induction inner with
  | nil => rw [List.nil_append, quotedEnd, if_pos rfl]; rfl
  | cons c cs ih =>
    obtain ⟨hq, hb⟩ := h c List.mem_cons_self
    rw [List.cons_append, quotedEnd, if_neg hq, if_neg hb,
      ih fun d hd ↦ h d (List.mem_cons_of_mem c hd)]
    rfl

end ResponsiveImage.Markup
