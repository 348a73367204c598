import Mathlib.Data.List.Sort
import ResponsiveImage.Proofs.Markup.Listing
import ResponsiveImage.Proofs.Markup.Pieces

/-!
# Two readings of a document

Masking steps over the start tags of a document, and the tags of the masked document are then read in
a way of their own, which knows no expressions: it ends a tag at a bracket inside an expression, and
has other rules for comments and raw elements.  Where the two come apart, what lies inside a tag may
become an image, and an image may be lost.

No image is ever found in an expression between the tags, nor anywhere else but where masking steps
over a tag, or inside a tag or a comment.  So the images of a document are those of the tags that
masking steps over exactly if none of these is lost and none is found inside another piece
(`candidates_eq_topImages_iff`), and it is enough to look at each piece by itself: they are if reading
comes through each piece, and each stretch between, having met the images that masking stepped over
there (`keepsStep`).
-/

namespace ResponsiveImage.Markup

open Text

/-! ## The images that masking steps over -/

/-- The image, without what is inside it, whose tag can be read at an offset of a text. -/
def imageAt (text tagName : List Char) (k : Nat) : Option Node :=
  (nodeAt text k).filter (Node.isImage tagName)

/-- Where a piece begins, if it is a start tag. -/
def Piece.tagStart? (p : Piece) : Option Nat := if p.kind = .tag then some p.start else none

/-- Where the start tags among pieces begin. -/
def tagStarts (ps : List Piece) : List Nat := ps.filterMap Piece.tagStart?

/-- The images among the tags that masking steps over. -/
def topImages (text tagName : List Char) (ps : List Piece) : List Node :=
  (tagStarts ps).filterMap (imageAt text tagName)

theorem start_of_imageAt {text tagName : List Char} {k : Nat} {n : Node}
    (h : imageAt text tagName k = some n) : n.start = k :=
  start_of_nodeAt (Option.filter_eq_some_iff.mp h).1

theorem Piece.tagStart?_eq_some_iff {p : Piece} {k : Nat} :
    p.tagStart? = some k ↔ p.kind = .tag ∧ p.start = k := by
  rw [tagStart?]
  split <;> simp_all

theorem mem_tagStarts {ps : List Piece} {k : Nat} :
    k ∈ tagStarts ps ↔ ∃ p ∈ ps, p.kind = .tag ∧ p.start = k := by
  simp only [tagStarts, List.mem_filterMap, Piece.tagStart?_eq_some_iff]

theorem Cut.tagStarts_pairwise {i : Nat} {cs : List Char} {ps : List Piece} (h : Cut i cs ps) :
    (tagStarts ps).Pairwise (· < ·) := by
  have hpieces : ps.Pairwise fun p q ↦ p.start < q.start := by
    refine h.pairwise.imp_of_mem ?_
    intro p q hp _ hle
    exact Nat.lt_of_lt_of_le (h.bounds p hp).2 hle
  refine List.pairwise_filterMap.mpr (hpieces.imp ?_)
  intro p q hlt j hj k hk
  obtain ⟨-, rfl⟩ := Piece.tagStart?_eq_some_iff.mp hj
  obtain ⟨-, rfl⟩ := Piece.tagStart?_eq_some_iff.mp hk
  exact hlt

/-! ## The images that are found -/

namespace IsListing

variable {text tagName : List Char} {root : Node} {os : List Opening}

theorem map_bare_candidates (h : IsListing text tagName root os) :
    (candidates root tagName).map Node.bare =
      (os.map Opening.offset).filterMap (imageAt text tagName) := by
  have hbare : (flattenAll root.children).filter (Node.isImage tagName) =
      (flattenAll root.children).filter (Node.isImage tagName ∘ Node.bare) := rfl
  rw [h.candidates_eq, hbare, ← List.filter_map, h.nodes_eq, List.filter_filterMap,
    List.filterMap_map]
  rfl

theorem offsets_pairwise (h : IsListing text tagName root os) :
    (os.map Opening.offset).Pairwise (· < ·) := by
  rw [List.pairwise_map]
  exact h.openIn.increasing

/-- An image that is found is read at its offset, where an element opens. -/
theorem imageAt_candidate (h : IsListing text tagName root os) {n : Node}
    (hn : n ∈ candidates root tagName) :
    imageAt text tagName n.start = some n.bare ∧ ∃ o ∈ os, o.offset = n.start := by
  have hmem : n.bare ∈ (candidates root tagName).map Node.bare := List.mem_map_of_mem hn
  rw [h.map_bare_candidates] at hmem
  obtain ⟨k, hk, himage⟩ := List.mem_filterMap.mp hmem
  obtain ⟨o, ho, rfl⟩ := List.mem_map.mp hk
  have hstart : n.bare.start = o.offset := start_of_imageAt himage
  rw [Node.bare_start] at hstart
  rw [hstart]
  exact ⟨himage, o, ho, rfl⟩

end IsListing

theorem filterMap_filter_isSome (f : Nat → Option Node) (ks : List Nat) :
    (ks.filter fun k ↦ (f k).isSome).filterMap f = ks.filterMap f := by
  rw [List.filterMap_filter]
  refine List.filterMap_congr fun k _ ↦ ?_
  cases f k with
  | none => rfl
  | some n => rfl

/-- Two ascending lists of offsets have the same images exactly if every image is on both or none. -/
theorem filterMap_eq_iff {f : Nat → Option Node} (hf : ∀ k n, f k = some n → n.start = k)
    {xs ys : List Nat} (hxs : xs.Pairwise (· < ·)) (hys : ys.Pairwise (· < ·)) :
    xs.filterMap f = ys.filterMap f ↔ ∀ k, f k ≠ none → (k ∈ xs ↔ k ∈ ys) := by
  have hmem : ∀ {zs : List Nat} {k : Nat}, f k ≠ none →
      (k ∈ zs ↔ ∃ n ∈ zs.filterMap f, n.start = k) := by
    intro zs k hk
    obtain ⟨n, hn⟩ := Option.ne_none_iff_exists'.mp hk
    constructor
    · intro hzs
      exact ⟨n, List.mem_filterMap.mpr ⟨k, hzs, hn⟩, hf k n hn⟩
    · rintro ⟨m, hm, rfl⟩
      obtain ⟨j, hj, hfj⟩ := List.mem_filterMap.mp hm
      rw [hf j m hfj]
      exact hj
  constructor
  · intro heq k hk
    rw [hmem hk, hmem hk, heq]
  · intro hiff
    have hfilter : xs.filter (fun k ↦ (f k).isSome) = ys.filter fun k ↦ (f k).isSome := by
      refine (hxs.filter _).eq_of_mem_iff (hys.filter _) fun k ↦ ?_
      rw [List.mem_filter, List.mem_filter]
      refine and_congr_left fun hk ↦ hiff k ?_
      exact Option.isSome_iff_ne_none.mp hk
    rw [← filterMap_filter_isSome f xs, hfilter, filterMap_filter_isSome]

/-! ## Piece by piece -/

/-- The place of a step at offset `i`, if an element opens there. -/
def ReadStep.opening? (i : Nat) (s : ReadStep) : Option Opening :=
  s.mark?.bind fun m ↦ Mark.opening? (i, m)

/-- The places where elements open between two offsets, if reading comes from the one to the other
without ever becoming lenient, and ends outside raw elements. -/
def readTo (text : List Char) (raw : Option (List Char)) (i j : Nat) : Option (List Opening) :=
  if i = j then if raw.isNone then some [] else none
  else
    match h : readStep? false raw (text.drop i) with
    | .ok (some s) =>
      have := readStep?_length_pos h
      if _ : s.lenient = false ∧ i + s.length ≤ j then
        (readTo text s.raw (i + s.length) j).map ((s.opening? i).toList ++ ·)
      else none
    | _ => none
termination_by j - i
decreasing_by omega

/-- The offsets among some at which images can be read. -/
def imageOffsets (text tagName : List Char) (ks : List Nat) : List Nat :=
  ks.filter fun k ↦ (imageAt text tagName k).isSome

/-- Whether reading keeps step with masking from offset `i` on: it comes to every tag and comment, and
through it, having met the images that masking steps over there. -/
def keepsStep (text tagName : List Char) : Nat → List Piece → Bool
  | _, [] => true
  | i, p :: ps =>
    readTo (mask text) none i p.start == some [] &&
    (readTo (mask text) none p.start p.stop).map
        (fun os ↦ imageOffsets text tagName (os.map Opening.offset)) ==
      some (imageOffsets text tagName p.tagStart?.toList) &&
    keepsStep text tagName p.stop ps

/-- The pieces that are tags or comments. -/
def markup (ps : List Piece) : List Piece :=
  ps.filter fun p ↦ p.kind = .tag || p.kind = .comment

theorem filterMap_opening?_step {i : Nat} {s : ReadStep} {ms : List (Nat × Mark)} :
    ((s.mark?.map (i, ·)).toList ++ ms).filterMap Mark.opening? =
      (s.opening? i).toList ++ ms.filterMap Mark.opening? := by
  rw [List.filterMap_append]
  congr 1
  cases hm : s.mark? with
  | none => simp [ReadStep.opening?, hm]
  | some m =>
    simp only [ReadStep.opening?, hm, Option.map_some, Option.toList_some, Option.bind_some]
    cases ho : Mark.opening? (i, m) with
    | none => simp [ho]
    | some o => simp [ho]

/-- A run that begins at the one offset comes to the other. -/
theorem exists_run_of_readTo {text : List Char} {raw : Option (List Char)} {i j : Nat}
    {os : List Opening} {ms : List (Nat × Mark)} (h : readTo text raw i j = some os)
    (hrun : Run text false raw i ms) :
    ∃ ms', Run text false none j ms' ∧
      ms.filterMap Mark.opening? = os ++ ms'.filterMap Mark.opening? := by
  fun_induction readTo text raw i j generalizing os ms with
  | case1 raw hraw =>
    cases h
    rw [Option.isNone_iff_eq_none.mp hraw] at hrun
    exact ⟨ms, hrun, rfl⟩
  | case2 => cases h
  | case3 raw i hne s hs hpos hnext ih =>
    obtain ⟨os, hos, rfl⟩ := Option.map_eq_some_iff.mp h
    obtain ⟨hlenient, -⟩ := hnext
    cases hrun with
    | ended hended =>
      rw [hs] at hended
      cases hended
    | step hs' hrun =>
      rw [hs] at hs'
      cases hs'
      rw [hlenient] at hrun
      obtain ⟨ms', hrun', hms⟩ := ih hos hrun
      refine ⟨ms', hrun', ?_⟩
      rw [filterMap_opening?_step, hms, List.append_assoc]
  | case4 => cases h
  | case5 => cases h

/-- **Reading that keeps step finds the images that masking steps over.** -/
theorem images_eq_of_keepsStep {text tagName : List Char} {i : Nat} {ps : List Piece}
    {ms : List (Nat × Mark)} (h : keepsStep text tagName i ps = true)
    (hrun : Run (mask text) false none i ms)
    (hcover : ∀ o ∈ ms.filterMap Mark.opening?, ∃ p ∈ ps, o.offset < p.stop) :
    ((ms.filterMap Mark.opening?).map Opening.offset).filterMap (imageAt text tagName) =
      topImages text tagName ps := by
  induction ps generalizing i ms with
  | nil =>
    have hnil : ms.filterMap Mark.opening? = [] := by
      refine List.eq_nil_iff_forall_not_mem.mpr fun o ho ↦ ?_
      obtain ⟨p, hp, -⟩ := hcover o ho
      cases hp
    rw [hnil]
    rfl
  | cons p ps ih =>
    rw [keepsStep, Bool.and_eq_true, Bool.and_eq_true, beq_iff_eq, beq_iff_eq] at h
    obtain ⟨⟨hbefore, hpiece⟩, hafter⟩ := h
    obtain ⟨os, hos, himages⟩ := Option.map_eq_some_iff.mp hpiece
    obtain ⟨ms₁, hrun₁, hms₁⟩ := exists_run_of_readTo hbefore hrun
    obtain ⟨ms₂, hrun₂, hms₂⟩ := exists_run_of_readTo hos hrun₁
    rw [List.nil_append] at hms₁
    rw [hms₁, hms₂] at hcover ⊢
    -- what opens behind the piece is covered by the pieces behind it
    have hcover₂ : ∀ o ∈ ms₂.filterMap Mark.opening?, ∃ q ∈ ps, o.offset < q.stop := by
      intro o ho
      obtain ⟨q, hq, hlt⟩ := hcover o (List.mem_append_right _ ho)
      rcases List.mem_cons.mp hq with rfl | hq
      · obtain ⟨m, hm, hopen⟩ := List.mem_filterMap.mp ho
        have hle := (hrun₂.lt_length m hm).1
        rw [offset_of_opening? hopen] at hlt
        exact absurd hle (Nat.not_le_of_lt hlt)
      · exact ⟨q, hq, hlt⟩
    have hsame : (os.map Opening.offset).filterMap (imageAt text tagName) =
        p.tagStart?.toList.filterMap (imageAt text tagName) := by
      rw [← filterMap_filter_isSome, ← filterMap_filter_isSome _ p.tagStart?.toList]
      exact congrArg (List.filterMap _) himages
    have htop : topImages text tagName (p :: ps) =
        p.tagStart?.toList.filterMap (imageAt text tagName) ++ topImages text tagName ps := by
      rw [topImages, tagStarts, List.filterMap_cons, topImages, tagStarts]
      cases p.tagStart? with
      | none => rfl
      | some k => rw [Option.toList_some, ← List.filterMap_append, List.singleton_append]
    rw [List.map_append, List.filterMap_append, hsame, ih hafter hrun₂ hcover₂, htop]

example : (pieces? "<p id='a > b'>\x7b#if x<y\x7d</p><!-- <img> --><img src=a.png>".toList).map
    (fun ps ↦ keepsStep "<p id='a > b'>\x7b#if x<y\x7d</p><!-- <img> --><img src=a.png>".toList
      "Image".toList 0 (markup ps)) = some true := by
  decide +kernel

theorem tagStarts_markup (ps : List Piece) : tagStarts (markup ps) = tagStarts ps := by
  rw [tagStarts, markup, List.filterMap_filter]
  refine List.filterMap_congr fun p _ ↦ ?_
  rw [Piece.tagStart?]
  cases p.kind <;> rfl

/-! ## Agreement -/

/-- No piece begins inside another. -/
theorem Cut.le_start {i : Nat} {cs : List Char} {ps : List Piece} (h : Cut i cs ps) {p q : Piece}
    (hp : p ∈ ps) (hq : q ∈ ps) (hlt : p.start < q.start) : p.stop ≤ q.start := by
  induction h with
  | nil => cases hp
  | cons h hrest ih =>
    rcases List.mem_cons.mp hp with rfl | hp
    · rcases List.mem_cons.mp hq with rfl | hq
      · exact absurd hlt (Nat.lt_irrefl _)
      · exact (hrest.bounds q hq).1
    · rcases List.mem_cons.mp hq with rfl | hq
      · obtain ⟨hle, -⟩ := hrest.bounds p hp
        simp only at hle hlt
        omega
      · exact ih hp hq

section Pieces

variable {text tagName : List Char} {root : Node} {os : List Opening} {ps : List Piece}

/-- An element opens where masking steps over a tag, or inside a tag or a comment. -/
theorem exists_piece_of_opening (hcut : Cut 0 text ps) (hopen : OpenIn (mask text) os) {o : Opening}
    (ho : o ∈ os) :
    ∃ p ∈ ps, p.start ≤ o.offset ∧ o.offset < p.stop ∧ (p.kind = .tag ∨ p.kind = .comment) ∧
      (p.start = o.offset → p.kind = .tag) := by
  obtain ⟨c, rest, hdrop, hc⟩ := hopen.bracket o ho
  have h := hcut.exists_piece hdrop hc
  rw [Nat.zero_add] at h
  exact h

/-- Every image that masking steps over is found. -/
def LosesNone (text tagName : List Char) (ps : List Piece) (os : List Opening) : Prop :=
  ∀ k ∈ tagStarts ps, imageAt text tagName k ≠ none → ∃ o ∈ os, o.offset = k

/-- No image is found inside a piece. -/
def FindsNoneInside (text tagName : List Char) (ps : List Piece) (os : List Opening) : Prop :=
  ∀ p ∈ ps, ∀ o ∈ os, p.start < o.offset → o.offset < p.stop → imageAt text tagName o.offset = none

theorem map_bare_eq_topImages_iff (hcut : Cut 0 text ps) (h : IsListing text tagName root os) :
    (candidates root tagName).map Node.bare = topImages text tagName ps ↔
      LosesNone text tagName ps os ∧ FindsNoneInside text tagName ps os := by
  rw [h.map_bare_candidates, topImages,
    filterMap_eq_iff (fun _ _ ↦ start_of_imageAt) h.offsets_pairwise hcut.tagStarts_pairwise]
  constructor
  · intro hiff
    refine ⟨fun k hk himage ↦ ?_, fun p hp o ho hstart hstop ↦ ?_⟩
    · exact List.mem_map.mp ((hiff k himage).mpr hk)
    · by_cases himage : imageAt text tagName o.offset = none
      · exact himage
      · -- a tag would begin inside the piece
        obtain ⟨q, hq, -, hqstart⟩ :=
          mem_tagStarts.mp ((hiff _ himage).mp (List.mem_map_of_mem ho))
        rw [← hqstart] at hstart hstop
        exact absurd (hcut.le_start hp hq hstart) (Nat.not_le_of_lt hstop)
  · rintro ⟨hloses, hinside⟩ k himage
    constructor
    · intro hk
      obtain ⟨o, ho, rfl⟩ := List.mem_map.mp hk
      obtain ⟨p, hp, hle, hlt, -, htag⟩ := exists_piece_of_opening hcut h.openIn ho
      rcases Nat.eq_or_lt_of_le hle with heq | hstart
      · exact mem_tagStarts.mpr ⟨p, hp, htag heq, heq⟩
      · exact absurd (hinside p hp o ho hstart hlt) himage
    · intro hk
      exact List.mem_map.mpr (hloses k hk himage)

theorem map_bare_eq_topImages (hcut : Cut 0 text ps) (h : IsListing text tagName root os)
    (hsteps : keepsStep text tagName 0 (markup ps) = true) :
    (candidates root tagName).map Node.bare = topImages text tagName ps := by
  have hopen := h.openIn
  obtain ⟨ms, hrun, hms⟩ := h.run
  have htop : topImages text tagName ps = topImages text tagName (markup ps) := by
    rw [topImages, topImages, tagStarts_markup]
  rw [h.map_bare_candidates, htop, hms]
  refine images_eq_of_keepsStep hsteps hrun fun o ho ↦ ?_
  obtain ⟨p, hp, -, hlt, hkind, -⟩ := exists_piece_of_opening hcut hopen (hms ▸ ho)
  exact ⟨p, List.mem_filter.mpr ⟨hp, by simpa using hkind⟩, hlt⟩

end Pieces

/-- **The images of a document are those of the tags that masking steps over exactly if none of them
is lost and none is found inside a piece.**  Wherever masking meets no expression that is never closed,
every image that is found is read where masking steps over a tag, or inside a tag or a comment, and
they come in order.  They are all the images that masking steps over, and no others, if reading keeps
step with masking. -/
theorem candidates_eq_topImages_iff {text tagName : List Char} {ps : List Piece} {root : Node}
    (hps : pieces? text = some ps) (hroot : parse text tagName = .ok root) :
    ∃ os, openings text = .ok os ∧
      (∀ n ∈ candidates root tagName, imageAt text tagName n.start = some n.bare ∧
        ∃ p ∈ ps, p.start ≤ n.start ∧ n.start < p.stop ∧ (p.kind = .tag ∨ p.kind = .comment) ∧
          (p.start = n.start → p.kind = .tag)) ∧
      ((candidates root tagName).Pairwise fun m n ↦ m.start < n.start) ∧
      ((candidates root tagName).map Node.bare = topImages text tagName ps ↔
        LosesNone text tagName ps os ∧ FindsNoneInside text tagName ps os) ∧
      (keepsStep text tagName 0 (markup ps) = true →
        (candidates root tagName).map Node.bare = topImages text tagName ps) := by
  have hcut : Cut 0 text ps := cut_of_piecesFrom? hps
  obtain ⟨os, h⟩ := exists_isListing hroot
  refine ⟨os, h.openings_eq, fun n hn ↦ ?_, h.increasing, map_bare_eq_topImages_iff hcut h,
    map_bare_eq_topImages hcut h⟩
  obtain ⟨himage, o, ho, hstart⟩ := h.imageAt_candidate hn
  refine ⟨himage, ?_⟩
  rw [← hstart]
  exact exists_piece_of_opening hcut h.openIn ho

/-- A tag with an expression in which another tag stands behind a bracket. -/
def tagInExpression : List Char := "<i a=\x7bb><img src=c>\x7d>".toList

/-- A bracket in an expression ends the tag for one reading, and what is left of the expression holds
an image then. -/
theorem candidates_tagInExpression :
    pieces? tagInExpression = some [⟨.tag, 0, 21⟩] ∧
      ∃ root, parse tagInExpression "Image".toList = .ok root ∧
        (candidates root "Image".toList).map Node.bare ≠
          topImages tagInExpression "Image".toList [⟨.tag, 0, 21⟩] := by
  have hps : pieces? tagInExpression = some [⟨.tag, 0, 21⟩] := by decide +kernel
  have hopen : openings tagInExpression = .ok [⟨"i".toList, 0⟩, ⟨"img".toList, 8⟩] := by
    decide +kernel
  have himage : (imageAt tagInExpression "Image".toList 8).isSome = true := by decide +kernel
  have hok : (parse tagInExpression "Image".toList).isOk = true := by decide +kernel
  refine ⟨hps, ?_⟩
  cases hroot : parse tagInExpression "Image".toList with
  | error e =>
    rw [hroot] at hok
    cases hok
  | ok root =>
    refine ⟨root, rfl, fun heq ↦ ?_⟩
    obtain ⟨os, hos, -, -, hiff, -⟩ := candidates_eq_topImages_iff hps hroot
    obtain rfl := Except.ok.inj (hopen.symm.trans hos)
    obtain ⟨-, hinside⟩ := hiff.mp heq
    have hnone := hinside _ List.mem_cons_self ⟨"img".toList, 8⟩ (by simp) (by decide) (by decide)
    rw [hnone] at himage
    cases himage

end ResponsiveImage.Markup
