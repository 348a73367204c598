import ResponsiveImage.Proofs.Path.Urls

/-!
# Resolving a path behind another

A double dot takes the name before it away.  A relative path first takes away some names of the
directory that it is resolved in, as many as it climbs, and then adds those of its own that are left
(`collapse_eq`).
-/

namespace ResponsiveImage.Path

open Text

variable {cwd : List String} {p q : Path} {n : String}

/-- How many names before them some names take away. -/
def climbs : List String → Nat
  | [] => 0
  | n :: ns => if n = ".." then climbs ns + 1 else climbs ns - 1

theorem collapse_append (done ps qs : List String) :
    collapse done (ps ++ qs) = collapse (collapse done ps).reverse qs := by
  induction ps generalizing done with
  | nil => simp [collapse]
  | cons p ps ih =>
    rw [List.cons_append, collapse, collapse]
    split
    · exact ih _
    · exact ih _

/-- What the names take away of those before, and what they add. -/
theorem collapse_eq (done ps : List String) :
    collapse done ps = (done.drop (climbs ps)).reverse ++ collapse [] ps := by
  induction ps generalizing done with
  | nil => simp [collapse, climbs]
  | cons p ps ih =>
    rw [collapse, collapse, climbs]
    split
    · rw [ih, List.tail_nil, List.drop_tail]
    · rw [ih (p :: done), ih [p]]
      cases climbs ps with
      | zero => simp
      | succ n => simp

/-- Nothing is left of the names before exactly if the names behind them climb as high. -/
theorem collapse_eq_collapse_nil_iff {done ps : List String} :
    collapse done ps = collapse [] ps ↔ done.length ≤ climbs ps := by
  rw [collapse_eq done ps, List.append_left_eq_self, List.reverse_eq_nil_iff, List.drop_eq_nil_iff]

theorem collapse_concat (done ps : List String) (hn : n ≠ "..") :
    collapse done (ps ++ [n]) = collapse done ps ++ [n] := by
  rw [collapse_append, collapse, if_neg hn]
  simp [collapse]

/-! ## One path behind another -/

theorem resolve_join (p : Path) (hq : q.anchor = .relative) :
    (p / q).resolve cwd = ofParts (collapse (p.resolve cwd).parts.reverse q.parts) := by
  obtain ⟨anchor, parts⟩ := p
  obtain ⟨_, parts'⟩ := q
  obtain rfl : _ = Anchor.relative := hq
  refine congrArg ofParts ?_
  cases anchor with
  | relative => exact (congrArg (collapse []) (List.append_assoc ..).symm).trans (collapse_append ..)
  | root => exact collapse_append ..
  | doubleRoot => exact collapse_append ..

theorem resolve_join_of_anchor (p : Path) (hq : q.anchor ≠ .relative) :
    (p / q).resolve cwd = ofParts (collapse [] q.parts) := by
  obtain ⟨anchor, parts⟩ := q
  cases anchor with
  | relative => exact absurd rfl hq
  | root => rfl
  | doubleRoot => rfl

/-- The last name of a path stays the last one behind another path. -/
theorem name_resolve_join (p : Path) {ns : List String} (hq : q.parts = ns ++ [n]) (hn : n ≠ "..") :
    ((p / q).resolve cwd).name = n := by
  by_cases hanchor : q.anchor = .relative
  · rw [resolve_join p hanchor, hq, collapse_concat _ _ hn]
    exact name_child (ofParts _) n
  · rw [resolve_join_of_anchor p hanchor, hq, collapse_concat _ _ hn]
    exact name_child (ofParts _) n

/-! ## Slashes at the ends -/

theorem partsOf_concat_slash (cs : List Char) : partsOf (cs ++ ['/']) = partsOf cs :=
  (partsOf_append_slash cs []).trans (List.append_nil _)

theorem partsOf_trimLeft (cs : List Char) : partsOf (trimLeft '/' cs) = partsOf cs := by
  obtain ⟨n, hn⟩ := exists_eq_append_trimLeft '/' cs
  conv_rhs => rw [hn]
  clear hn
  induction n with
  | zero => rfl
  | succ n ih => rw [List.replicate_succ, List.cons_append, partsOf_slash_cons, ih]

theorem partsOf_trimRight (cs : List Char) : partsOf (trimRight '/' cs) = partsOf cs := by
  obtain ⟨n, hn⟩ := exists_eq_trimRight_append '/' cs
  conv_rhs => rw [hn]
  clear hn
  induction n with
  | zero => rw [List.replicate_zero, List.append_nil]
  | succ n ih => rw [List.replicate_succ', ← List.append_assoc, partsOf_concat_slash, ← ih]

theorem partsOf_headOf (url : List Char) : partsOf (Url.headOf url) = partsOf url := by
  rw [Url.headOf]
  split
  · rfl
  · exact partsOf_concat_slash url

theorem partsOf_head_append {head : List Char} (hhead : Url.IsHead head) (hn : IsName n) :
    partsOf (head ++ n.toList) = partsOf head ++ [n] := by
  rcases hhead with rfl | ⟨before, rfl⟩
  · exact partsOf_of_isName hn
  · rw [partsOf_concat_slash, List.append_assoc, List.singleton_append, partsOf_append_slash,
      partsOf_of_isName hn]

end ResponsiveImage.Path
