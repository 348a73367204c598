import ResponsiveImage.Proofs.Markup.Listing
import ResponsiveImage.Proofs.Markup.TagText

/-!
# Where attributes lie

The attributes of a start tag lie inside it, between its name and its closing bracket, and a literal
value lies inside its attribute.
-/

namespace ResponsiveImage.Markup

open Text

/-- An attribute that lies between two offsets, with its literal value, if it has one, inside it. -/
structure Attribute.LiesIn (low high : Nat) (a : Attribute) : Prop where
  low_le : low ≤ a.start
  stop_le : a.stop ≤ high
  value : ∀ text s e, a.value = .static text s e → a.start ≤ s ∧ s ≤ e ∧ e ≤ a.stop

theorem Attribute.LiesIn.mono {low high low' high' : Nat} {a : Attribute} (h : a.LiesIn low high)
    (hlow : low' ≤ low) (hhigh : high ≤ high') : a.LiesIn low' high' :=
  ⟨Nat.le_trans hlow h.low_le, Nat.le_trans h.stop_le hhigh, h.value⟩

theorem literal_bounds {text t : List Char} {i s e : Nat} (h : literal text i = .static t s e) :
    i ≤ s ∧ s ≤ e ∧ e ≤ i + text.length := by
  rw [literal] at h
  split at h
  · cases h
  · cases h
    omega

theorem IsValue.bounds {i s e : Nat} {text rest t : List Char} {value : AttributeValue}
    (h : IsValue i text rest value) (hvalue : value = .static t s e) :
    i ≤ s ∧ s ≤ e ∧ e ≤ i + text.length := by
  cases h with
  | quoted hq h =>
    have := literal_bounds hvalue
    simp only [List.length_cons, List.length_append, List.length_nil]
    omega
  | expression he => cases hvalue
  | bare h hb => exact literal_bounds hvalue

theorem IsNamed.liesIn {i : Nat} {name text rest : List Char} {a : Attribute}
    (h : IsNamed i name text rest a) : a.LiesIn i (i + name.length + text.length) := by
  cases h with
  | boolean =>
    refine ⟨Nat.le_refl _, by simp, fun t s e hvalue ↦ ?_⟩
    cases hvalue
    simp
  | assigned h₁ h₂ h =>
    refine ⟨Nat.le_refl _, ?_, fun t s e hvalue ↦ ?_⟩
    · simp only [List.length_append, List.length_cons]
      omega
    · have := h.bounds hvalue
      dsimp only
      omega

theorem IsItem.liesIn {i : Nat} {text rest : List Char} {a : Option Attribute}
    (h : IsItem i text rest a) : ∀ b ∈ a, b.LiesIn i (i + text.length) := by
  cases h with
  | blank => simp
  | slash => simp
  | expression he =>
    intro b hb
    rw [shorthand?] at hb
    split at hb
    · cases hb
    · cases hb
      refine ⟨Nat.le_refl _, Nat.le_refl _, ?_⟩
      rintro _ _ _ ⟨⟩
  | named hne hname hend h =>
    rintro b ⟨⟩
    rw [List.length_append, ← Nat.add_assoc]
    exact h.liesIn

/-- The attributes of a tag lie before its closing bracket, which lies in the text. -/
theorem IsBody.liesIn {i stop : Nat} {cs : List Char} {as : List Attribute}
    (h : IsBody i cs as stop) :
    (∀ a ∈ as, a.LiesIn i (stop - 1)) ∧ i < stop ∧ stop ≤ i + cs.length := by
  induction h with
  | close => simp
  | selfClose => simp
  | @item i stop text rest a as hitem h ih =>
    obtain ⟨has, hlt, hle⟩ := ih
    refine ⟨fun b hb ↦ ?_, by omega, ?_⟩
    · rcases List.mem_append.mp hb with hb | hb
      · exact (hitem.liesIn b (Option.mem_toList.mp hb)).mono (Nat.le_refl _) (by omega)
      · exact (has b hb).mono (by omega) (Nat.le_refl _)
    · rw [List.length_append]
      omega

/-- A node whose attributes lie inside its tag, and its tag in a text of some length. -/
structure Node.Spans (length : Nat) (n : Node) : Prop where
  liesIn : ∀ a ∈ n.attributes, a.LiesIn (n.start + 1) (n.stop - 1)
  start_lt_stop : n.start < n.stop
  stop_le : n.stop ≤ length

theorem Node.Spans.of_bare {length : Nat} {n : Node} (h : n.bare.Spans length) : n.Spans length :=
  ⟨h.liesIn, h.start_lt_stop, h.stop_le⟩

/-- A node that is read in a text lies in it. -/
theorem spans_of_nodeAt {text : List Char} {k : Nat} {n : Node} (h : nodeAt text k = some n) :
    n.Spans text.length := by
  rw [nodeAt] at h
  split at h
  · rename_i tag htag
    cases h
    obtain ⟨rest, hdrop, -, hbody⟩ := StartTag.readAt_eq_ok_iff.mp htag
    obtain ⟨has, hlt, hle⟩ := hbody.liesIn
    have hlength := congrArg List.length hdrop
    rw [List.length_drop, List.length_cons, List.length_append] at hlength
    refine ⟨fun a ha ↦ (has a ha).mono (by dsimp only; omega) (Nat.le_refl _), ?_, ?_⟩
    · dsimp only
      omega
    · dsimp only
      omega
  · cases h

/-- An image of a document is read in it. -/
theorem exists_nodeAt_of_mem_candidates {text tagName : List Char} {root n : Node}
    (h : parse text tagName = .ok root) (hn : n ∈ candidates root tagName) :
    ∃ k : Nat, nodeAt text k = some n.bare := by
  obtain ⟨os, hlisting⟩ := exists_isListing h
  rw [hlisting.candidates_eq] at hn
  have hbare : n.bare ∈ (flattenAll root.children).map Node.bare :=
    List.mem_map_of_mem (List.mem_of_mem_filter hn)
  rw [hlisting.nodes_eq] at hbare
  obtain ⟨o, -, ho⟩ := List.mem_filterMap.mp hbare
  exact ⟨o.offset, ho⟩

/-- The images of a document lie in it, one beginning behind the other. -/
theorem spans_candidates {text tagName : List Char} {root : Node}
    (h : parse text tagName = .ok root) :
    (∀ n ∈ candidates root tagName, n.Spans text.length) ∧
      (candidates root tagName).Pairwise fun m n ↦ m.start < n.start := by
  obtain ⟨os, hlisting⟩ := exists_isListing h
  refine ⟨fun n hn ↦ .of_bare ?_, hlisting.increasing⟩
  obtain ⟨k, hk⟩ := exists_nodeAt_of_mem_candidates h hn
  exact spans_of_nodeAt hk

end ResponsiveImage.Markup
