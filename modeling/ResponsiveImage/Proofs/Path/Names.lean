import ResponsiveImage.Path.Basic

/-!
# Names and resolved paths

The names on a resolved path are names that files can have: they are not empty, hold no slash and are
neither of the dots.  Such a name, read as a path, is that one name; so a file in a directory is named
by the path of the directory and one more name.
-/

namespace ResponsiveImage

open Text

/-- A name that an entry of a directory can have, as far as slashes and dots go. -/
structure IsName (n : String) : Prop where
  ne_empty : n ≠ ""
  ne_dot : n ≠ "."
  ne_dots : n ≠ ".."
  no_slash : '/' ∉ n.toList

instance (n : String) : Decidable (IsName n) :=
  decidable_of_iff (n ≠ "" ∧ n ≠ "." ∧ n ≠ ".." ∧ '/' ∉ n.toList)
    ⟨fun ⟨h₁, h₂, h₃, h₄⟩ ↦ ⟨h₁, h₂, h₃, h₄⟩, fun ⟨h₁, h₂, h₃, h₄⟩ ↦ ⟨h₁, h₂, h₃, h₄⟩⟩

theorem splitOn_of_not_mem {sep : Char} {cs : List Char} (h : sep ∉ cs) : splitOn sep cs = [cs] := by
  induction cs with
  | nil => rfl
  | cons c cs ih =>
    obtain ⟨hc, hcs⟩ := not_or.mp (mt List.mem_cons.mpr h)
    rw [splitOn, if_neg (Ne.symm hc), ih hcs]

theorem not_mem_of_mem_splitOn {sep : Char} {cs piece : List Char} (h : piece ∈ splitOn sep cs) :
    sep ∉ piece := by
  induction cs generalizing piece with
  | nil =>
    rw [List.mem_singleton.mp h]
    exact List.not_mem_nil
  | cons c cs ih =>
    rw [splitOn] at h
    split at h
    · rcases List.mem_cons.mp h with rfl | h
      · exact List.not_mem_nil
      · exact ih h
    · rename_i hc
      split at h
      · rw [List.mem_singleton.mp h]
        simpa using Ne.symm hc
      · rename_i first pieces hpieces
        rw [hpieces] at ih
        rcases List.mem_cons.mp h with rfl | h
        · exact mt List.mem_cons.mp (not_or.mpr ⟨Ne.symm hc, ih List.mem_cons_self⟩)
        · exact ih (List.mem_cons_of_mem _ h)

theorem splitOn_append_cons {sep : Char} (cs ds : List Char) :
    splitOn sep (cs ++ sep :: ds) = splitOn sep cs ++ splitOn sep ds := by
  induction cs with
  | nil => simp [splitOn]
  | cons c cs ih =>
    rw [List.cons_append, splitOn, splitOn]
    split
    · rw [ih, List.cons_append]
    · rw [ih]
      cases hcs : splitOn sep cs with
      | nil => exact absurd hcs (splitOn_ne_nil sep cs)
      | cons piece pieces => rfl

namespace Path

theorem anchorOf_eq_relative_iff {cs : List Char} :
    anchorOf cs = .relative ↔ cs.head? ≠ some '/' := by
  cases cs with
  | nil => simp [anchorOf]
  | cons c cs =>
    by_cases hc : c = '/'
    · subst hc
      have hne : anchorOf ('/' :: cs) ≠ .relative := by
        rw [anchorOf]
        split
        · rename_i h
          simp at h
        · nofun
        · nofun
      simp [hne]
    · simp [anchorOf, hc]

theorem partsOf_append_slash (cs ds : List Char) :
    partsOf (cs ++ '/' :: ds) = partsOf cs ++ partsOf ds := by
  simp only [partsOf, splitOn_append_cons, List.filter_append, List.map_append]

theorem partsOf_slash_cons (cs : List Char) : partsOf ('/' :: cs) = partsOf cs :=
  partsOf_append_slash [] cs

theorem partsOf_of_isName {n : String} (h : IsName n) : partsOf n.toList = [n] := by
  have hne : n.toList ≠ [] := by simpa using h.ne_empty
  have hdot : n.toList ≠ ['.'] := fun hd ↦ h.ne_dot (by rw [← String.ofList_toList (s := n), hd])
  rw [partsOf, splitOn_of_not_mem h.no_slash]
  simp [hne, hdot]

theorem head?_ne_slash {n : String} (h : '/' ∉ n.toList) : n.toList.head? ≠ some '/' :=
  fun hhead ↦ h (List.mem_of_mem_head? hhead)

theorem ofString_of_isName {n : String} (h : IsName n) : ofString n = ⟨.relative, [n]⟩ := by
  rw [ofString, partsOf_of_isName h, anchorOf_eq_relative_iff.mpr (head?_ne_slash h.no_slash)]

/-- What a text can name: all but the double dots are names of files. -/
theorem mem_parts_ofString {s n : String} (h : n ∈ (ofString s).parts) : IsName n ∨ n = ".." := by
  obtain ⟨piece, hpiece, rfl⟩ := List.mem_map.mp h
  obtain ⟨hmem, hkeep⟩ := List.mem_filter.mp hpiece
  have hkeep' : piece ≠ [] ∧ piece ≠ ['.'] := by simpa using hkeep
  by_cases hdots : String.ofList piece = ".."
  · exact .inr hdots
  · refine .inl ⟨?_, ?_, hdots, ?_⟩
    · simpa using hkeep'.1
    · intro he
      exact hkeep'.2 (by rw [← String.toList_ofList (l := piece), he]; rfl)
    · rw [String.toList_ofList]
      exact not_mem_of_mem_splitOn hmem

/-- A path from the root without dots. -/
structure IsResolved (p : Path) : Prop where
  anchor_eq : p.anchor = .root
  isName : ∀ n ∈ p.parts, IsName n

instance (p : Path) : Decidable p.IsResolved :=
  decidable_of_iff (p.anchor = .root ∧ ∀ n ∈ p.parts, IsName n)
    ⟨fun ⟨h₁, h₂⟩ ↦ ⟨h₁, h₂⟩, fun ⟨h₁, h₂⟩ ↦ ⟨h₁, h₂⟩⟩

theorem IsResolved.ext {p q : Path} (hp : p.IsResolved) (hq : q.IsResolved)
    (h : p.parts = q.parts) : p = q := by
  obtain ⟨anchor, parts⟩ := p
  obtain ⟨anchor', parts'⟩ := q
  obtain rfl : anchor = .root := hp.anchor_eq
  obtain rfl : anchor' = .root := hq.anchor_eq
  exact congrArg (Path.mk .root) h

theorem mem_collapse {n : String} {done ps : List String} (h : n ∈ collapse done ps) :
    n ∈ done ∨ n ∈ ps ∧ n ≠ ".." := by
  induction ps generalizing done with
  | nil => exact .inl (List.mem_reverse.mp h)
  | cons p ps ih =>
    rw [collapse] at h
    split at h
    · rcases ih h with h | ⟨h, hne⟩
      · exact .inl (List.mem_of_mem_tail h)
      · exact .inr ⟨List.mem_cons_of_mem _ h, hne⟩
    · rename_i hp
      rcases ih h with h | ⟨h, hne⟩
      · rcases List.mem_cons.mp h with rfl | h
        · exact .inr ⟨List.mem_cons_self, hp⟩
        · exact .inl h
      · exact .inr ⟨List.mem_cons_of_mem _ h, hne⟩

theorem resolve_isResolved {cwd : List String} {p : Path} (hcwd : ∀ n ∈ cwd, IsName n)
    (hp : ∀ n ∈ p.parts, IsName n ∨ n = "..") : (p.resolve cwd).IsResolved := by
  refine ⟨rfl, fun n hn ↦ ?_⟩
  have hmem : n ∈ cwd ++ p.parts ∧ n ≠ ".." := by
    rw [resolve, ofParts, resolveParts] at hn
    split at hn
    · rcases mem_collapse hn with h | h
      · cases h
      · exact h
    · rcases mem_collapse hn with h | h
      · cases h
      · exact ⟨List.mem_append_right _ h.1, h.2⟩
  rcases List.mem_append.mp hmem.1 with h | h
  · exact hcwd n h
  · exact (hp n h).resolve_right hmem.2

theorem mem_parts_join {p q : Path} {n : String} (h : n ∈ (p / q).parts) :
    n ∈ p.parts ∨ n ∈ q.parts := by
  have hdiv : p / q = p.join q := rfl
  rw [hdiv, join] at h
  split at h
  · exact List.mem_append.mp h
  · exact .inr h

/-! ## A file in a directory -/

/-- The last name of a path behind another is one of its own. -/
theorem name_mem_of_relative (d : Path) {parts : List String} (hne : parts ≠ []) :
    (d / (⟨.relative, parts⟩ : Path)).name ∈ parts := by
  have hlast : (d.parts ++ parts).getLast? = some (parts.getLast hne) := by
    rw [List.getLast?_append, List.getLast?_eq_some_getLast hne]
    rfl
  have hname : (d / (⟨.relative, parts⟩ : Path)).name = (d.parts ++ parts).getLast?.getD "" := rfl
  rw [hname, hlast]
  exact List.getLast_mem hne

theorem join_ofString_of_isName (d : Path) {n : String} (h : IsName n) :
    d / ofString n = d.child n := by
  rw [ofString_of_isName h]
  rfl

theorem IsResolved.child {d : Path} (hd : d.IsResolved) {n : String} (hn : IsName n) :
    (d.child n).IsResolved := by
  refine ⟨hd.anchor_eq, fun m hm ↦ ?_⟩
  rcases List.mem_append.mp hm with hm | hm
  · exact hd.isName m hm
  · rw [List.mem_singleton.mp hm]
    exact hn

theorem IsResolved.isName_name {p : Path} (hp : p.IsResolved) (hne : p.parts ≠ []) :
    IsName p.name := by
  rw [name, List.getLast?_eq_some_getLast hne]
  exact hp.isName _ (List.getLast_mem hne)

theorem IsResolved.parent {p : Path} (hp : p.IsResolved) : p.parent.IsResolved :=
  ⟨hp.anchor_eq, fun n hn ↦ hp.isName n ((List.dropLast_sublist _).subset hn)⟩

theorem child_inj {p q : Path} {n : String} : p.child n = q.child n ↔ p = q := by
  cases p
  cases q
  simp [child]

@[simp] theorem parts_child (d : Path) (n : String) : (d.child n).parts = d.parts ++ [n] := rfl

@[simp] theorem parts_parent (p : Path) : p.parent.parts = p.parts.dropLast := rfl

theorem child_name {p : Path} (hne : p.parts ≠ []) : p.parent.child p.name = p := by
  cases p with
  | mk anchor parts =>
    have h : parts.dropLast ++ [parts.getLast?.getD ""] = parts := by
      rw [List.getLast?_eq_some_getLast hne]
      exact List.dropLast_concat_getLast hne
    exact congrArg (Path.mk anchor) h

end Path

end ResponsiveImage
