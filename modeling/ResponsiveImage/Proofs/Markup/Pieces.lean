import Mathlib
import ResponsiveImage.Proofs.Markup.Masked

/-!
# The pieces of a document

Masking cuts a document into pieces: expressions, comments, start tags (with the content of scripts
and styles), and single characters.  After it, a bracket with a letter behind it is left only where a
start tag begins, or inside a start tag or a comment (`exists_piece`); expressions are gone, and a
single character is never one.
-/

namespace ResponsiveImage.Markup

open Text

/-! ## Pieces -/

inductive PieceKind where
  | expression
  | comment
  /-- A start tag, and all of the element if it is a script or a style. -/
  | tag
  | character
deriving DecidableEq, Repr

/-- A piece of a text, with the span that it occupies. -/
structure Piece where
  kind : PieceKind
  start : Nat
  stop : Nat
deriving DecidableEq, Repr

/-- The kind and length of the piece that a text begins with, none if an expression in it is never
closed. -/
def pieceAt? (cs : List Char) : Option (PieceKind × Nat) :=
  if cs.head? = some '{' then (Expression.length? cs).map (.expression, ·)
  else if "<!--".toList.isPrefixOf cs then some (.comment, commentExtent cs)
  else
    match cs with
    | '<' :: c :: rest =>
      if isLetter c then (tagExtent (c :: rest)).map fun _ ↦ (.tag, elementExtent cs)
      else some (.character, 1)
    | _ => some (.character, 1)

/-- What one piece can be. -/
inductive IsPiece : PieceKind → Nat → List Char → Prop
  | expression {n : Nat} {cs : List Char} (h : Expression.length? cs = some n) :
      IsPiece .expression n cs
  | comment {cs : List Char} (h : "<!--".toList.isPrefixOf cs = true) :
      IsPiece .comment (untouched cs) cs
  | tag {c : Char} {rest : List Char} (hc : isLetter c = true) :
      IsPiece .tag (untouched ('<' :: c :: rest)) ('<' :: c :: rest)
  | character {c : Char} {rest : List Char} (hc : c ≠ '{') (hone : untouched (c :: rest) = 1)
      (h : c = '<' → ∀ d ∈ rest.head?, isLetter d = false) : IsPiece .character 1 (c :: rest)

section Untouched

variable {cs rest : List Char} {c : Char}

theorem untouched_comment (h : "<!--".toList.isPrefixOf cs = true) :
    untouched cs = commentExtent cs := if_pos h

theorem untouched_bracket (h : ¬ "<!--".toList.isPrefixOf ('<' :: c :: rest) = true) :
    untouched ('<' :: c :: rest) =
      if isLetter c then elementExtent ('<' :: c :: rest) else 1 := if_neg h

theorem untouched_other (h : ¬ "<!--".toList.isPrefixOf cs = true)
    (hother : ∀ c rest, cs ≠ '<' :: c :: rest) : untouched cs = 1 := by
  unfold untouched
  rw [if_neg h]
  split
  · rename_i c rest
    exact absurd rfl (hother c rest)
  · rfl

end Untouched

theorem pieceAt?_isPiece {cs : List Char} {kind : PieceKind} {n : Nat}
    (h : pieceAt? cs = some (kind, n)) (hcs : cs ≠ []) : IsPiece kind n cs := by
  unfold pieceAt? at h
  split at h
  · obtain ⟨m, hm, heq⟩ := Option.map_eq_some_iff.mp h
    cases heq
    exact .expression hm
  · rename_i hbrace
    split at h
    · rename_i hcomment
      cases h
      rw [← untouched_comment hcomment]
      exact .comment hcomment
    · rename_i hcomment
      split at h
      · rename_i c rest
        have hlen := untouched_bracket hcomment
        split at h
        · rename_i hc
          rw [if_pos hc] at hlen
          obtain ⟨m, -, heq⟩ := Option.map_eq_some_iff.mp h
          cases heq
          rw [← hlen]
          exact .tag hc
        · rename_i hc
          rw [if_neg hc] at hlen
          cases h
          refine .character (by decide) hlen fun _ d hd ↦ ?_
          obtain rfl : c = d := Option.some.inj hd
          simpa using hc
      · rename_i hother
        cases h
        obtain ⟨c, cs, rfl⟩ := List.exists_cons_of_ne_nil hcs
        refine .character (fun hc ↦ hbrace (congrArg some hc)) (untouched_other hcomment hother) ?_
        rintro rfl d hd
        obtain ⟨rest, rfl⟩ := List.head?_eq_some_iff.mp hd
        exact absurd rfl (hother d rest)

theorem IsPiece.pos {kind : PieceKind} {n : Nat} {cs : List Char} (h : IsPiece kind n cs) : 0 < n := by
  cases h with
  | expression h => exact Expression.length?_pos h
  | comment h =>
    refine untouched_pos ?_
    rintro rfl
    exact absurd h (by decide)
  | tag => exact untouched_pos (List.cons_ne_nil _ _)
  | character => exact Nat.one_pos

/-- The pieces of a text from offset `i` on, none if an expression is met that is never closed. -/
def piecesFrom? (i : Nat) : List Char → Option (List Piece)
  | [] => some []
  | c :: cs =>
    match pieceAt? (c :: cs) with
    | none => none
    | some (kind, n) =>
      (piecesFrom? (i + n) (cs.drop (n - 1))).map (⟨kind, i, i + n⟩ :: ·)
termination_by cs => cs.length
decreasing_by simp only [List.length_drop, List.length_cons]; omega

/-- The pieces of a text. -/
def pieces? (text : List Char) : Option (List Piece) := piecesFrom? 0 text

/-- A cut of a text into pieces, the first at offset `i`. -/
inductive Cut : Nat → List Char → List Piece → Prop
  | nil {i : Nat} : Cut i [] []
  | cons {i n : Nat} {cs : List Char} {kind : PieceKind} {ps : List Piece} (h : IsPiece kind n cs)
      (hrest : Cut (i + n) (cs.drop n) ps) : Cut i cs (⟨kind, i, i + n⟩ :: ps)

theorem cut_of_piecesFrom? {i : Nat} {cs : List Char} {ps : List Piece}
    (h : piecesFrom? i cs = some ps) : Cut i cs ps := by
  fun_induction piecesFrom? i cs generalizing ps with
  | case1 =>
    cases h
    exact .nil
  | case2 => cases h
  | case3 i c cs kind n hpiece ih =>
    obtain ⟨ps, hps, rfl⟩ := Option.map_eq_some_iff.mp h
    have hcut := pieceAt?_isPiece hpiece (List.cons_ne_nil c cs)
    have hrest := ih hps
    rw [drop_pred hcut.pos] at hrest
    exact .cons hcut hrest

/-! ## The order of pieces -/

theorem Cut.bounds {i : Nat} {cs : List Char} {ps : List Piece} (h : Cut i cs ps) :
    ∀ p ∈ ps, i ≤ p.start ∧ p.start < p.stop := by
  induction h with
  | nil => simp
  | cons h hrest ih =>
    have hpos := h.pos
    intro p hp
    rcases List.mem_cons.mp hp with rfl | hp
    · exact ⟨Nat.le_refl _, Nat.lt_add_of_pos_right hpos⟩
    · obtain ⟨hle, hlt⟩ := ih p hp
      exact ⟨Nat.le_trans (Nat.le_add_right _ _) hle, hlt⟩

/-- A piece ends where the next one begins, or before. -/
theorem Cut.pairwise {i : Nat} {cs : List Char} {ps : List Piece} (h : Cut i cs ps) :
    ps.Pairwise fun p q ↦ p.stop ≤ q.start := by
  induction h with
  | nil => exact .nil
  | cons h hrest ih => exact .cons (fun q hq ↦ (hrest.bounds q hq).1) ih

/-! ## What masking makes of a piece -/

/-- A piece as it stands in the masked text. -/
def PieceKind.mask (kind : PieceKind) (cs : List Char) : List Char :=
  match kind with
  | .expression => blankOut cs
  | _ => cs

theorem IsPiece.mask_eq {kind : PieceKind} {n : Nat} {cs : List Char} (h : IsPiece kind n cs) :
    mask cs = kind.mask (cs.take n) ++ mask (cs.drop n) := by
  cases h with
  | expression h => exact mask_expression h
  | comment h =>
    refine mask_untouched fun hbrace ↦ ?_
    obtain ⟨rest, rfl⟩ := List.head?_eq_some_iff.mp hbrace
    exact absurd h (by simp [List.isPrefixOf])
  | tag => exact mask_untouched (by simp)
  | @character c rest hc hone =>
    have hbrace : (c :: rest).head? ≠ some '{' := fun hbrace ↦ hc (Option.some.inj hbrace)
    have hmask := mask_untouched hbrace
    rw [hone] at hmask
    exact hmask

/-- A text masked is its pieces, each as it stands then. -/
theorem Cut.mask_eq {i : Nat} {cs : List Char} {ps : List Piece} (h : Cut i cs ps) :
    mask cs = ps.flatMap fun p ↦
      p.kind.mask ((cs.drop (p.start - i)).take (p.stop - p.start)) := by
  induction h with
  | nil => rw [mask, List.flatMap_nil]
  | @cons i n cs kind ps h hrest ih =>
    rw [h.mask_eq, ih, List.flatMap_cons]
    simp only [Nat.sub_self, List.drop_zero, Nat.add_sub_cancel_left]
    congr 1
    refine List.flatMap_congr fun p hp ↦ ?_
    have hle := (hrest.bounds p hp).1
    have hoffset : n + (p.start - (i + n)) = p.start - i := by omega
    rw [List.drop_drop, hoffset]

/-! ## Where a tag may begin -/

theorem isLetter_of_isAlpha {c : Char} (h : c.isAlpha = true) : isLetter c = true := by
  have hrange : 0x41 ≤ c.toNat ∧ c.toNat < 0x5b ∨ 0x61 ≤ c.toNat ∧ c.toNat < 0x7b := by
    simp only [Char.isAlpha, Char.isUpper, Char.isLower, Bool.or_eq_true, decide_eq_true_eq,
      Bool.and_eq_true, UInt32.le_iff_toNat_le, ge_iff_le] at h
    rcases h with ⟨h₁, h₂⟩ | ⟨h₁, h₂⟩
    · exact .inl ⟨h₁, Nat.lt_succ_of_le h₂⟩
    · exact .inr ⟨h₁, Nat.lt_succ_of_le h₂⟩
  rw [isLetter, Boundaries.contains, letters]
  rcases hrange with ⟨h₁, h₂⟩ | ⟨h₁, h₂⟩
  · rw [Boundaries.holds_of_le _ h₁, Boundaries.holds_of_lt _ h₂]
    rfl
  · rw [Boundaries.holds_of_le _ (by omega), Boundaries.holds_of_le _ (by omega),
      Boundaries.holds_of_le _ h₁, Boundaries.holds_of_lt _ h₂]
    rfl

theorem two_le_untouched {cs : List Char} (h : "<!--".toList.isPrefixOf cs = true) :
    2 ≤ untouched cs := by
  obtain ⟨rest, rfl⟩ := List.isPrefixOf_iff_prefix.mp h
  rw [untouched_comment h, commentExtent]
  split
  · omega
  · rw [List.length_append]
    exact Nat.le_add_right_of_le (by decide)

theorem not_isAlpha_of_mem_blankOut {cs : List Char} {c : Char} (h : c ∈ blankOut cs) :
    c ≠ '<' ∧ c.isAlpha = false := by
  obtain ⟨d, -, rfl⟩ := List.mem_map.mp h
  split
  · exact ⟨by decide, by decide⟩
  · exact ⟨by decide, by decide⟩

/-- A letter at the start of a masked text stood there before. -/
theorem IsPiece.head?_eq {kind : PieceKind} {n : Nat} {d c : Char} {cs : List Char}
    (h : IsPiece kind n (d :: cs)) (hhead : (mask (d :: cs)).head? = some c)
    (hc : c.isAlpha = true) : c = d := by
  rw [h.mask_eq] at hhead
  have hpos := h.pos
  obtain ⟨m, rfl⟩ := Nat.exists_eq_succ_of_ne_zero (Nat.ne_of_gt hpos)
  rw [List.take_succ_cons] at hhead
  cases kind with
  | expression =>
    have hmem : c ∈ blankOut (d :: cs.take m) := by
      obtain rfl := Option.some.inj hhead
      exact List.mem_cons_self
    rw [(not_isAlpha_of_mem_blankOut hmem).2] at hc
    cases hc
  | comment => exact (Option.some.inj hhead).symm
  | tag => exact (Option.some.inj hhead).symm
  | character => exact (Option.some.inj hhead).symm

/-- A bracket and a letter are left in no expression and by no single character, and no comment begins
with them. -/
theorem IsPiece.kind_of_drop {kind : PieceKind} {k n : Nat} {cs ds rest : List Char} {c : Char}
    {ps : List Piece} (h : IsPiece kind n cs) (hrest : Cut k ds ps) (hds : ds = cs.drop n)
    {j : Nat} (hj : (mask cs).drop j = '<' :: c :: rest) (hc : c.isAlpha = true) (hjn : j < n)
    (hlt : j < cs.length) : (kind = .tag ∨ kind = .comment) ∧ (j = 0 → kind = .tag) := by
  have hmask := h.mask_eq
  cases h with
  | expression h =>
    have hget : (mask cs)[j]? = some '<' := by
      rw [← List.head?_drop, hj]
      rfl
    have hlen : j < (blankOut (cs.take n)).length := by
      rw [length_blankOut, List.length_take]
      exact Nat.lt_min.mpr ⟨hjn, hlt⟩
    rw [hmask, PieceKind.mask, List.getElem?_append_left hlen] at hget
    exact absurd rfl (not_isAlpha_of_mem_blankOut (List.mem_of_getElem? hget)).1
  | comment h =>
    refine ⟨.inr rfl, ?_⟩
    rintro rfl
    obtain ⟨m, hm⟩ := Nat.exists_eq_add_of_le' (two_le_untouched h)
    obtain ⟨tail, rfl⟩ := List.isPrefixOf_iff_prefix.mp h
    rw [hm] at hmask
    have hsecond : c = '!' := by
      rw [List.drop_zero, hmask] at hj
      exact (List.cons_eq_cons.mp (List.cons_eq_cons.mp hj).2).1.symm
    rw [hsecond] at hc
    exact absurd hc (by decide)
  | tag => exact ⟨.inl rfl, fun _ ↦ rfl⟩
  | @character d tail hd hone hletter =>
    obtain rfl : j = 0 := Nat.lt_one_iff.mp hjn
    rw [List.drop_zero, hmask] at hj
    obtain ⟨hd', htail⟩ := List.cons_eq_cons.mp hj
    obtain rfl : ds = tail := hds
    have hmasked : mask ds = c :: rest := htail
    cases hrest with
    | nil =>
      rw [mask] at hmasked
      cases hmasked
    | cons hpiece =>
      cases ds with
      | nil =>
        rw [mask] at hmasked
        cases hmasked
      | cons e tail =>
        have hfirst := hpiece.head?_eq (congrArg List.head? hmasked) hc
        have hother := hletter hd' e rfl
        rw [← hfirst, isLetter_of_isAlpha hc] at hother
        cases hother

/-- **Where a bracket and a letter are left by masking, a start tag begins, or they lie inside a start
tag or a comment.** -/
theorem Cut.exists_piece {i k : Nat} {cs rest : List Char} {c : Char} {ps : List Piece}
    (h : Cut i cs ps) (hk : (mask cs).drop k = '<' :: c :: rest) (hc : c.isAlpha = true) :
    ∃ p ∈ ps, p.start ≤ i + k ∧ i + k < p.stop ∧ (p.kind = .tag ∨ p.kind = .comment) ∧
      (p.start = i + k → p.kind = .tag) := by
  induction h generalizing k with
  | nil =>
    rw [mask, List.drop_nil] at hk
    cases hk
  | @cons i n cs kind ps h hrest ih =>
    have hlt : k < cs.length := by
      have hlen := congrArg List.length hk
      rw [List.length_drop, length_mask, List.length_cons] at hlen
      omega
    have hmask := h.mask_eq
    rcases Nat.lt_or_ge k n with hkn | hkn
    · -- the place is in the first piece
      obtain ⟨hkind, hstart⟩ := h.kind_of_drop hrest rfl hk hc hkn hlt
      refine ⟨_, List.mem_cons_self, Nat.le_add_right i k, Nat.add_lt_add_left hkn i, hkind, ?_⟩
      exact fun heq ↦ hstart (Nat.left_eq_add.mp heq)
    · -- the place is behind it
      have hlen : (kind.mask (cs.take n)).length = n := by
        have htake : (cs.take n).length = n := List.length_take_of_le (by omega)
        cases kind with
        | expression => rw [PieceKind.mask, length_blankOut, htake]
        | comment => exact htake
        | tag => exact htake
        | character => exact htake
      rw [hmask, List.drop_append, hlen, List.drop_eq_nil_of_le (by rw [hlen]; exact hkn),
        List.nil_append] at hk
      obtain ⟨p, hp, hp'⟩ := ih hk
      have hoffset : i + n + (k - n) = i + k := by omega
      rw [hoffset] at hp'
      exact ⟨p, List.mem_cons_of_mem _ hp, hp'⟩

end ResponsiveImage.Markup
