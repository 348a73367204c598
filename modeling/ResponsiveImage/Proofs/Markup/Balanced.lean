import ResponsiveImage.Proofs.Markup.Lookahead

/-!
# Balanced expressions

The grammar of expressions: between its braces an expression holds plain characters, strings, and
expressions in turn.  The search for the closing brace does not know the grammar; it keeps a depth and
a quote.  It finds the expressions of the grammar and no others (`whole_iff_exists_isBalanced`), at any
offset of a text, and fails only where there is none (`closing?_iff_isExpression`).
-/

namespace ResponsiveImage.Markup.Expression

/-- The text between the quotes `q` of a string.  A backslash takes the next character with it. -/
inductive IsString (q : Char) : List Char → Prop
  | nil : IsString q []
  | plain {c : Char} {s : List Char} (hq : c ≠ q) (hc : c ≠ '\\') (h : IsString q s) :
      IsString q (c :: s)
  | escaped {c : Char} {s : List Char} (h : IsString q s) : IsString q ('\\' :: c :: s)

/-- A character that neither opens nor closes anything in an expression. -/
def IsPlain (c : Char) : Prop := isQuote c = false ∧ c ≠ '{' ∧ c ≠ '}'

/-- The text between the braces of an expression. -/
inductive IsBalanced : List Char → Prop
  | nil : IsBalanced []
  | plain {c : Char} {cs : List Char} (hc : IsPlain c) (h : IsBalanced cs) : IsBalanced (c :: cs)
  | string {q : Char} {s cs : List Char} (hq : isQuote q = true) (hs : IsString q s)
      (h : IsBalanced cs) : IsBalanced (q :: (s ++ q :: cs))
  | braces {inner cs : List Char} (h₁ : IsBalanced inner) (h₂ : IsBalanced cs) :
      IsBalanced ('{' :: (inner ++ '}' :: cs))

theorem IsBalanced.append {cs ds : List Char} (h : IsBalanced cs) (hd : IsBalanced ds) :
    IsBalanced (cs ++ ds) := by
  induction h with
  | nil => exact hd
  | plain hc _ ih => exact .plain hc ih
  | @string q s cs hq hs _ ih =>
    rw [List.cons_append, List.append_assoc]
    exact .string hq hs ih
  | @braces inner cs h₁ _ _ ih =>
    rw [List.cons_append, List.append_assoc]
    exact .braces h₁ ih

theorem isBalanced_of_isPlain {cs : List Char} (h : ∀ c ∈ cs, IsPlain c) : IsBalanced cs := by
  induction cs with
  | nil => exact .nil
  | cons c cs ih =>
    exact .plain (h c List.mem_cons_self) (ih fun d hd ↦ h d (List.mem_cons_of_mem c hd))

/-! ## Expressions of the grammar are found -/

theorem lengthFrom_plain {depth : Nat} {c : Char} (hc : IsPlain c) (cs : List Char) :
    lengthFrom depth none (c :: cs) = (lengthFrom depth none cs).map (· + 1) := by
  obtain ⟨hq, hopen, hclose⟩ := hc
  rw [lengthFrom.eq_def]
  simp [hq, hopen, hclose]

/-- The search passes over a string. -/
theorem IsString.lengthFrom_eq {q : Char} {s : List Char} (h : IsString q s) (hq : isQuote q = true)
    (depth : Nat) (rest : List Char) :
    lengthFrom depth (some q) (s ++ q :: rest) =
      (lengthFrom depth none rest).map (· + (s.length + 1)) := by
  have hslash : q ≠ '\\' := by
    rintro rfl
    exact absurd hq (by decide)
  induction h with
  | nil =>
    rw [List.nil_append, lengthFrom.eq_def]
    simp [hslash]
  | @plain c s hne hc _ ih =>
    rw [List.cons_append, lengthFrom.eq_def]
    simp [hc, hne, ih, Function.comp_def, Nat.add_assoc]
  | @escaped c s _ ih =>
    rw [List.cons_append, List.cons_append, lengthFrom.eq_def]
    simp [ih, Function.comp_def, Nat.add_assoc]

/-- The search passes over a balanced text, whatever its depth. -/
theorem IsBalanced.lengthFrom_eq {cs : List Char} (h : IsBalanced cs) (depth : Nat)
    (rest : List Char) :
    lengthFrom depth none (cs ++ rest) = (lengthFrom depth none rest).map (· + cs.length) := by
  induction h generalizing depth rest with
  | nil => simp
  | plain hc _ ih =>
    rw [List.cons_append, lengthFrom_plain hc, ih]
    simp [Function.comp_def, Nat.add_assoc]
  | @string q s cs hq hs _ ih =>
    rw [List.cons_append, List.append_assoc, List.cons_append, lengthFrom.eq_def]
    simp only [hq, if_true, hs.lengthFrom_eq hq, ih]
    simp [Function.comp_def, Nat.add_assoc, Nat.add_comm, Nat.add_left_comm]
  | @braces inner cs _ _ ih₁ ih₂ =>
    -- the inner text is passed one level deeper, and its brace leads back
    have hopen (ds : List Char) :
        lengthFrom depth none ('{' :: ds) = (lengthFrom (depth + 1) none ds).map (· + 1) := by
      simp [lengthFrom, isQuote]
    have hclose (ds : List Char) :
        lengthFrom (depth + 1) none ('}' :: ds) = (lengthFrom depth none ds).map (· + 1) := by
      simp [lengthFrom, isQuote]
    rw [List.cons_append, List.append_assoc, List.cons_append, hopen, ih₁, hclose, ih₂]
    simp [Function.comp_def, Nat.add_assoc, Nat.add_comm, Nat.add_left_comm]

theorem IsBalanced.whole {inner : List Char} (h : IsBalanced inner) :
    Whole ('{' :: (inner ++ ['}'])) := by
  have hclose : lengthFrom 0 none ['}'] = some 1 := by simp [lengthFrom, isQuote]
  rw [Whole, length?, if_pos rfl, h.lengthFrom_eq, hclose]
  simp [Nat.add_comm]

/-! ## What is found is an expression of the grammar -/

/-- Inside a string, the search first comes to its end. -/
theorem lengthFrom_string {depth : Nat} {q : Char} {cs : List Char} {n : Nat}
    (h : lengthFrom depth (some q) cs = some n) :
    ∃ s rest m, cs = s ++ q :: rest ∧ IsString q s ∧ lengthFrom depth none rest = some m ∧
      n = m + (s.length + 1) := by
  cases cs with
  | nil => cases h
  | cons c cs =>
    rw [lengthFrom.eq_def] at h
    by_cases hc : c = '\\'
    · subst hc
      cases cs with
      | nil => cases h
      | cons d cs =>
        obtain ⟨k, hk, rfl⟩ := Option.map_eq_some_iff.mp h
        obtain ⟨s, rest, m, rfl, hs, hm, rfl⟩ := lengthFrom_string hk
        exact ⟨'\\' :: d :: s, rest, m, rfl, .escaped hs, hm, by simp; omega⟩
    · simp only [if_neg hc] at h
      obtain ⟨k, hk, rfl⟩ := Option.map_eq_some_iff.mp h
      by_cases hq : c = q
      · subst hq
        rw [if_pos rfl] at hk
        exact ⟨[], cs, k, rfl, .nil, hk, rfl⟩
      · rw [if_neg hq] at hk
        obtain ⟨s, rest, m, rfl, hs, hm, rfl⟩ := lengthFrom_string hk
        exact ⟨c :: s, rest, m, rfl, .plain hq hc hs, hm, by simp; omega⟩

/-- What the search goes on with once the innermost brace is closed. -/
def lengthAbove : Nat → List Char → Option Nat
  | 0, _ => some 0
  | depth + 1, rest => lengthFrom depth none rest

/-- The search first comes to the brace that closes the innermost expression, behind a balanced
text.  The induction is on the length of the text, since behind an inner expression it starts anew. -/
theorem lengthFrom_balanced {depth : Nat} {cs : List Char} {n : Nat}
    (h : lengthFrom depth none cs = some n) :
    ∃ inner rest m, cs = inner ++ '}' :: rest ∧ IsBalanced inner ∧
      lengthAbove depth rest = some m ∧ n = m + (inner.length + 1) := by
  match cs with
  | [] => cases h
  | c :: cs =>
    rw [lengthFrom.eq_def] at h
    by_cases hq : isQuote c = true
    · simp only [if_pos hq] at h
      obtain ⟨k, hk, rfl⟩ := Option.map_eq_some_iff.mp h
      obtain ⟨s, rest, m, hcs, hs, hm, rfl⟩ := lengthFrom_string hk
      have hlt : rest.length < cs.length := by simp [hcs]; omega
      obtain ⟨inner, rest, l, rfl, hi, hl, rfl⟩ := lengthFrom_balanced hm
      exact ⟨c :: (s ++ c :: inner), rest, l, by simp [hcs], .string hq hs hi, hl, by simp; omega⟩
    · simp only [if_neg hq] at h
      by_cases hopen : c = '{'
      · subst hopen
        obtain ⟨k, hk, rfl⟩ := Option.map_eq_some_iff.mp h
        obtain ⟨inner₁, rest, m, hcs, h₁, hm, rfl⟩ := lengthFrom_balanced hk
        have hlt : rest.length < cs.length := by simp [hcs]; omega
        obtain ⟨inner₂, rest, l, rfl, h₂, hl, rfl⟩ := lengthFrom_balanced hm
        exact ⟨'{' :: (inner₁ ++ '}' :: inner₂), rest, l, by simp [hcs], .braces h₁ h₂, hl,
          by simp; omega⟩
      · simp only [if_neg hopen] at h
        by_cases hclose : c = '}'
        · subst hclose
          rw [if_pos rfl] at h
          match depth with
          | 0 =>
            cases h
            exact ⟨[], cs, 0, rfl, .nil, rfl, rfl⟩
          | depth + 1 =>
            obtain ⟨k, hk, rfl⟩ := Option.map_eq_some_iff.mp h
            exact ⟨[], cs, k, rfl, .nil, hk, rfl⟩
        · rw [if_neg hclose] at h
          obtain ⟨k, hk, rfl⟩ := Option.map_eq_some_iff.mp h
          obtain ⟨inner, rest, m, rfl, hi, hm, rfl⟩ := lengthFrom_balanced hk
          exact ⟨c :: inner, rest, m, rfl, .plain ⟨by simpa using hq, hopen, hclose⟩ hi, hm,
            by simp; omega⟩
termination_by cs.length
decreasing_by all_goals simp only [List.length_cons]; omega

/-- **The expressions that are found are those of the grammar.** -/
theorem whole_iff_exists_isBalanced {e : List Char} :
    Whole e ↔ ∃ inner, e = '{' :: (inner ++ ['}']) ∧ IsBalanced inner := by
  constructor
  · intro h
    obtain ⟨c, cs, rfl⟩ := List.exists_cons_of_ne_nil h.ne_nil
    obtain rfl : c = '{' := by simpa using h.head?_eq
    rw [Whole, length?, if_pos rfl] at h
    obtain ⟨k, hk, hlen⟩ := Option.map_eq_some_iff.mp h
    obtain ⟨inner, rest, m, rfl, hi, hm, rfl⟩ := lengthFrom_balanced hk
    cases hm
    obtain rfl : rest = [] := by simpa using hlen
    exact ⟨inner, rfl, hi⟩
  · rintro ⟨inner, rfl, h⟩
    exact h.whole

/-! ## Expressions at the beginning of a text -/

/-- A text that is an expression of the grammar. -/
def IsExpression (e : List Char) : Prop := ∃ inner, e = '{' :: (inner ++ ['}']) ∧ IsBalanced inner

theorem IsExpression.whole {e : List Char} (h : IsExpression e) : Whole e :=
  whole_iff_exists_isBalanced.mpr h

theorem not_isExpression_nil : ¬ IsExpression [] := by
  rintro ⟨inner, h, -⟩
  cases h

theorem length?_eq_some_iff_isExpression {cs : List Char} {n : Nat} :
    length? cs = some n ↔ n ≤ cs.length ∧ IsExpression (cs.take n) := by
  rw [length?_eq_some_iff]
  constructor
  · rintro ⟨e, rest, rfl, rfl, he⟩
    rw [List.take_left]
    exact ⟨by simp, whole_iff_exists_isBalanced.mp he⟩
  · rintro ⟨hle, he⟩
    exact ⟨cs.take n, cs.drop n, (List.take_append_drop n cs).symm, by simp [hle], he.whole⟩

theorem length?_eq_none_iff {cs : List Char} :
    length? cs = none ↔ ∀ e, e <+: cs → ¬ IsExpression e := by
  constructor
  · rintro h e ⟨rest, rfl⟩ he
    rw [he.whole.length?_append rest] at h
    cases h
  · intro h
    rw [Option.eq_none_iff_forall_ne_some]
    intro n hn
    exact h _ (List.take_prefix n cs) (length?_eq_some_iff_isExpression.mp hn).2

/-! ## Expressions at an offset of a text -/

/-- The offset of the brace that closes the expression which opens at an offset of a text. -/
def closing? (text : List Char) (i : Nat) : Option Nat :=
  (length? (text.drop i)).map fun n ↦ i + n - 1

/-- A text from one offset to another, both included. -/
def between (text : List Char) (i j : Nat) : List Char := (text.drop i).take (j + 1 - i)

theorem closing?_eq_some_iff {text : List Char} {i j : Nat} :
    closing? text i = some j ↔ j < text.length ∧ IsExpression (between text i j) := by
  rw [closing?, Option.map_eq_some_iff]
  constructor
  · rintro ⟨n, hn, rfl⟩
    have hpos := length?_pos hn
    obtain ⟨hle, he⟩ := length?_eq_some_iff_isExpression.mp hn
    rw [List.length_drop] at hle
    have hsame : i + n - 1 + 1 - i = n := by omega
    rw [between, hsame]
    exact ⟨by omega, he⟩
  · rintro ⟨hlt, he⟩
    have hij : i ≤ j := by
      rw [← Nat.not_lt]
      intro hji
      rw [between, Nat.sub_eq_zero_of_le hji] at he
      exact not_isExpression_nil he
    refine ⟨j + 1 - i, length?_eq_some_iff_isExpression.mpr ⟨?_, he⟩, by omega⟩
    rw [List.length_drop]
    omega

theorem closing?_eq_none_iff {text : List Char} {i : Nat} :
    closing? text i = none ↔ ∀ e, e <+: text.drop i → ¬ IsExpression e := by
  rw [closing?, Option.map_eq_none_iff, length?_eq_none_iff]

/-- A value that begins with a brace is refused as unbalanced if the brace is never closed, and only
then. -/
theorem readValue_eq_unbalanced_iff {cs : List Char} (i : Nat) (h : cs.head? = some '{') :
    readValue i cs = .error (.unbalanced i) ↔ length? cs = none := by
  obtain ⟨rest, rfl⟩ := List.head?_eq_some_iff.mp h
  rw [readValue, if_neg (by decide), if_pos rfl]
  cases length? ('{' :: rest) with
  | none => simp
  | some n => simp

/-- **The brace that closes an expression is found exactly.**  Of a brace in a text the closing one is
at `j` if and only if the text from the one to the other is an expression, which it is for one `j` at
most.  None is found, and a value that begins with the brace is refused, if and only if the text from
the brace on does not begin with an expression. -/
theorem closing?_iff_isExpression {text : List Char} {i : Nat} (h : text[i]? = some '{') :
    (∀ j, closing? text i = some j ↔ j < text.length ∧ IsExpression (between text i j)) ∧
      (∀ j k, j < text.length → IsExpression (between text i j) → k < text.length →
        IsExpression (between text i k) → j = k) ∧
      (closing? text i = none ↔ ∀ e, e <+: text.drop i → ¬ IsExpression e) ∧
      (readValue i (text.drop i) = .error (.unbalanced i) ↔
        ∀ e, e <+: text.drop i → ¬ IsExpression e) := by
  refine ⟨fun j ↦ closing?_eq_some_iff, fun j k hj hej hk hek ↦ ?_, closing?_eq_none_iff, ?_⟩
  · have hfound := closing?_eq_some_iff.mpr ⟨hj, hej⟩
    rw [closing?_eq_some_iff.mpr ⟨hk, hek⟩] at hfound
    exact (Option.some_inj.mp hfound).symm
  · rw [readValue_eq_unbalanced_iff i (by rw [List.head?_drop, h]), length?_eq_none_iff]

/-- An expression with a string that holds its quote and a closing brace, and with an inner expression
that holds an opening one. -/
def quotedBraces : List Char := "a\x7bb'\\'\x7d'+\x7b`\x7b`\x7d\x7dc".toList

theorem closing?_iff_isExpression_quoted :
    quotedBraces[1]? = some '{' ∧ closing? quotedBraces 1 = some 14 ∧
      IsExpression (between quotedBraces 1 14) := by
  have hopen : quotedBraces[1]? = some '{' := by decide +kernel
  have hfound : closing? quotedBraces 1 = some 14 := by decide +kernel
  exact ⟨hopen, hfound, (((closing?_iff_isExpression hopen).1 14).mp hfound).2⟩

end ResponsiveImage.Markup.Expression
