import Mathlib
import ResponsiveImage.Markup.Document
import ResponsiveImage.Proofs.Markup.Masked
import ResponsiveImage.Proofs.Markup.Nesting
import ResponsiveImage.Proofs.Markup.Reading
import ResponsiveImage.Proofs.Text.Position

/-!
# The nodes of a document in one list

Nesting does not matter to the nodes of a document: listed each before its children, they are what is
read at the places where elements open, one place after the other.  A place where no tag can be read
makes no node, and is an error only if the element is an image; the other way to fail is that the tags
of the document are not read at all (`parse_lists_openings`).

Each place is found again from its line and column, since masking keeps the lines.
-/

namespace ResponsiveImage.Markup

open Text

/-! ## The reference -/

/-- A place where an element opens, with the name under which it is met. -/
structure Opening where
  name : List Char
  offset : Nat
deriving DecidableEq, Repr

/-- The place of an event in a text, if it opens an element. -/
def Event.opening? (text : List Char) : Event → Option Opening
  | .opened name _ position => some ⟨name, position.offsetIn text⟩
  | .closed _ => none

/-- The places where the elements of a document open, in the order in which they are met. -/
def openings (text : List Char) : Except Rejection (List Opening) :=
  (eventsOf (mask text)).map fun es ↦ es.filterMap (Event.opening? (mask text))

/-- The node, without what is inside it, whose tag can be read at an offset of a text. -/
def nodeAt (text : List Char) (k : Nat) : Option Node :=
  match StartTag.readAt text k with
  | .ok tag => some ⟨.ofName tag.name, tag.name, tag.attributes, [], k, tag.stop⟩
  | .error _ => none

/-- The node, without what is inside it, that stands at a place in a text. -/
def Opening.node? (text : List Char) (o : Opening) : Option Node := nodeAt text o.offset

/-- Whether the elements of a name are images, where components are called `tagName`. -/
def isImageName (tagName name : List Char) : Bool :=
  ["img".toList, lowerChars tagName].contains (lowerChars name)

/-- Whether a node is an image. -/
def Node.isImage (tagName : List Char) (n : Node) : Bool :=
  n.name == "img".toList || n.name == tagName

/-- A node without what is inside it. -/
def Node.bare (n : Node) : Node := { n with children := [] }

@[simp] theorem Node.bare_start (n : Node) : n.bare.start = n.start := rfl

theorem flattenAll_append (xs ys : List Node) :
    flattenAll (xs ++ ys) = flattenAll xs ++ flattenAll ys := by
  induction xs with
  | nil => rfl
  | cons x xs ih => rw [List.cons_append, flattenAll, flattenAll, ih, List.append_assoc]

/-! ## Reading the elements again -/

namespace Source

variable {s : Source}

/-- The node, without what is inside it, that an element makes. -/
def node? (s : Source) (t : Met) : Option Node :=
  match s.readTag t.1 t.2 with
  | .ok (start, tag) => some ⟨.ofName tag.name, tag.name, tag.attributes, [], start, tag.stop⟩
  | .error _ => none

/-- What reading elements must come to, given their tags in order. -/
def Lists (s : Source) (ts : List Met) : Except ParseError (List Node) → Prop
  | .ok nodes => (flattenAll nodes).map Node.bare = ts.filterMap s.node? ∧
      ∀ t ∈ ts, s.requires t.1 = true → s.node? t ≠ none
  | .error e => ∃ t ∈ ts, s.requires t.1 = true ∧ s.readTag t.1 t.2 = .error e

theorem lists_nil : s.Lists [] (.ok []) := ⟨rfl, by simp⟩

theorem Lists.append {ts us : List Met} {first rest : Except ParseError (List Node)}
    (h₁ : s.Lists ts first) (h₂ : s.Lists us rest) :
    s.Lists (ts ++ us) (do let a ← first; let b ← rest; return a ++ b) := by
  cases first with
  | error e =>
    obtain ⟨t, ht, h⟩ := h₁
    exact ⟨t, List.mem_append_left _ ht, h⟩
  | ok a =>
    cases rest with
    | error e =>
      obtain ⟨t, ht, h⟩ := h₂
      exact ⟨t, List.mem_append_right _ ht, h⟩
    | ok b =>
      obtain ⟨hnodes₁, hall₁⟩ := h₁
      obtain ⟨hnodes₂, hall₂⟩ := h₂
      refine ⟨?_, fun t ht ↦ ?_⟩
      · rw [flattenAll_append, List.map_append, hnodes₁, hnodes₂, List.filterMap_append]
      · rcases List.mem_append.mp ht with ht | ht
        · exact hall₁ t ht
        · exact hall₂ t ht

/-- An element that can be read comes before what is inside it; one that cannot gives way to it. -/
theorem Lists.element {name : List Char} {position : Position} {ts : List Met}
    {children : List Element} (h : s.Lists ts (s.readElements children)) :
    s.Lists ((name, position) :: ts) (s.readElement (.mk name position children)) := by
  rw [readElement]
  cases hchildren : s.readElements children with
  | error e =>
    rw [hchildren] at h
    obtain ⟨t, ht, h⟩ := h
    exact ⟨t, List.mem_cons_of_mem _ ht, h⟩
  | ok nodes =>
    rw [hchildren] at h
    obtain ⟨hnodes, hall⟩ := h
    cases hread : s.readTag name position with
    | ok r =>
      obtain ⟨start, tag⟩ := r
      have hnode : s.node? (name, position) =
          some ⟨.ofName tag.name, tag.name, tag.attributes, [], start, tag.stop⟩ := by
        simp only [node?, hread]
      simp only [bind, Except.bind, pure, Except.pure]
      refine ⟨?_, fun t ht ↦ ?_⟩
      · rw [flattenAll, Node.flatten, flattenAll, List.append_nil, List.map_cons, hnodes,
          List.filterMap_cons, hnode]
        rfl
      · rcases List.mem_cons.mp ht with rfl | ht
        · rw [hnode]
          exact fun _ ↦ Option.some_ne_none _
        · exact hall t ht
    | error e =>
      have hnode : s.node? (name, position) = none := by simp only [node?, hread]
      simp only [bind, Except.bind, pure, Except.pure]
      split
      · rename_i hrequires
        exact ⟨_, List.mem_cons_self, hrequires, hread⟩
      · rename_i hrequires
        refine ⟨?_, fun t ht ↦ ?_⟩
        · rw [List.filterMap_cons, hnode]
          exact hnodes
        · rcases List.mem_cons.mp ht with rfl | ht
          · exact fun h ↦ absurd h hrequires
          · exact hall t ht

mutual

theorem readElement_lists (s : Source) : ∀ e : Element, s.Lists e.tags (s.readElement e)
  | .mk name position children => by
    rw [Element.tags]
    exact (readElements_lists s children).element

/-- Reading elements lists what their tags make, and fails only at an element that is required. -/
theorem readElements_lists (s : Source) : ∀ es : List Element, s.Lists (tagsAll es) (s.readElements es)
  | [] => by
    rw [tagsAll, readElements]
    exact lists_nil
  | e :: es => by
    rw [tagsAll, readElements]
    exact (readElement_lists s e).append (readElements_lists s es)

end

end Source

/-! ## Finding the places again -/

/-- The tag of an element that opens at a place. -/
def Opening.met (text : List Char) (o : Opening) : Met :=
  (o.name, Position.advance {} (text.take o.offset))

/-- The place of a tag that is met, if it opens an element. -/
def Mark.opening? (m : Nat × Mark) : Option Opening :=
  match m.2 with
  | .opened name _ => some ⟨name, m.1⟩
  | .closed _ => none

theorem offset_of_opening? {m : Nat × Mark} {o : Opening} (h : Mark.opening? m = some o) :
    o.offset = m.1 := by
  obtain ⟨k, mark⟩ := m
  cases mark with
  | opened name selfClosing =>
    cases h
    rfl
  | closed name => cases h

theorem opening?_eventAt {text : List Char} {m : Nat × Mark} (h : m.1 ≤ text.length) :
    (eventAt text m).opening? text = Mark.opening? m := by
  obtain ⟨k, mark⟩ := m
  cases mark with
  | opened name selfClosing =>
    rw [eventAt, Mark.event, Event.opening?, offsetIn_advance_take h, Mark.opening?]
  | closed name => rfl

theorem tag?_eventAt (text : List Char) (m : Nat × Mark) :
    (eventAt text m).tag? = (Mark.opening? m).map (Opening.met text) := by
  obtain ⟨k, mark⟩ := m
  cases mark with
  | opened name selfClosing => rfl
  | closed name => rfl

/-- The places of the events of a text: each begins a tag, and they follow one another. -/
structure OpenIn (text : List Char) (os : List Opening) : Prop where
  bracket : ∀ o ∈ os, ∃ c rest, text.drop o.offset = '<' :: c :: rest ∧ c.isAlpha = true
  increasing : os.Pairwise fun o p ↦ o.offset < p.offset

theorem Run.openIn {text : List Char} {lenient : Bool} {raw : Option (List Char)} {k : Nat}
    {ms : List (Nat × Mark)} (h : Run text lenient raw k ms) :
    OpenIn text (ms.filterMap Mark.opening?) := by
  have hmark : ∀ (m : Nat × Mark) (o : Opening), Mark.opening? m = some o →
      ∃ selfClosing, m = (o.offset, .opened o.name selfClosing) := by
    intro m o ho
    obtain ⟨j, mark⟩ := m
    cases mark with
    | opened name selfClosing =>
      cases ho
      exact ⟨selfClosing, rfl⟩
    | closed name => cases ho
  constructor
  · intro o ho
    obtain ⟨m, hm, ho⟩ := List.mem_filterMap.mp ho
    obtain ⟨selfClosing, rfl⟩ := hmark m o ho
    exact h.opened hm
  · refine List.pairwise_filterMap.mpr (h.pairwise.imp ?_)
    intro m n hlt o ho p hp
    obtain ⟨_, hm⟩ := hmark m o ho
    obtain ⟨_, hn⟩ := hmark n p hp
    rw [hm, hn] at hlt
    exact hlt

/-- The elements of a text open where a run over it meets them. -/
theorem exists_run_of_eventsOf {text : List Char} {es : List Event} (h : eventsOf text = .ok es) :
    ∃ ms, Run text false none 0 ms ∧
      es.filterMap (Event.opening? text) = ms.filterMap Mark.opening? ∧
      es.filterMap Event.tag? = (ms.filterMap Mark.opening?).map (Opening.met text) := by
  have hrun : events false none (Position.advance {} (text.take 0)) (text.drop 0) = .ok es := h
  obtain ⟨ms, hms, rfl⟩ := exists_run hrun
  refine ⟨ms, hms, ?_, ?_⟩
  · rw [List.filterMap_map]
    exact List.filterMap_congr fun m hm ↦ opening?_eventAt (Nat.le_of_lt (hms.lt_length m hm).2)
  · rw [List.filterMap_map, List.map_filterMap]
    exact List.filterMap_congr fun m _ ↦ tag?_eventAt text m

section Locate

variable {text : List Char} (tagName : List Char) {o : Opening} {c : Char} {rest : List Char}

/-- The line and the column of a place lead back to it. -/
theorem offsetAt_met (h : (mask text).drop o.offset = '<' :: rest) :
    offsetAt (lineStarts text) (o.met (mask text)).2 = o.offset := by
  have hle : o.offset ≤ (mask text).length := by
    cases Nat.le_total o.offset (mask text).length with
    | inl hle => exact hle
    | inr hle =>
      rw [List.drop_eq_nil_of_le hle] at h
      cases h
  rw [← lineStarts_mask]
  exact offsetAt_advance_take hle

/-- A place where a tag begins is found from its line and column. -/
theorem locate_met (h : (mask text).drop o.offset = '<' :: rest) :
    (Source.ofText text tagName).locate o.name (o.met (mask text)).2 = .ok o.offset := by
  simp only [Source.locate, Source.ofText, offsetAt_met h]
  rw [if_pos]
  rw [h]
  rfl

theorem readTag_met (h : (mask text).drop o.offset = '<' :: rest) :
    (Source.ofText text tagName).readTag o.name (o.met (mask text)).2 =
      match StartTag.readAt text o.offset with
      | .ok tag => .ok (o.offset, tag)
      | .error e => .error (.unreadable o.offset e) := by
  rw [Source.readTag, locate_met tagName h]
  simp only [bind, Except.bind]
  rfl

theorem node?_met (h : (mask text).drop o.offset = '<' :: rest) :
    (Source.ofText text tagName).node? (o.met (mask text)) = o.node? text := by
  have hread := readTag_met tagName h
  rw [Opening.met] at hread ⊢
  rw [Source.node?, hread, Opening.node?, nodeAt]
  cases StartTag.readAt text o.offset with
  | error e => rfl
  | ok tag => rfl

end Locate

/-! ## Parsing -/

theorem outline_eq_of_openings {text : List Char} {os : List Opening} (h : openings text = .ok os) :
    (∃ ms, Run (mask text) false none 0 ms ∧ os = ms.filterMap Mark.opening?) ∧
      ∃ es, outline text = .ok es ∧ tagsAll es = os.map (Opening.met (mask text)) := by
  rw [openings] at h
  cases hes : eventsOf (mask text) with
  | error r =>
    rw [hes] at h
    cases h
  | ok es =>
    rw [hes] at h
    cases h
    obtain ⟨ms, hrun, hopen, htags⟩ := exists_run_of_eventsOf hes
    refine ⟨⟨ms, hrun, hopen⟩, elementsOf es, ?_, ?_⟩
    · rw [outline, hes]
      rfl
    · rw [tagsAll_elementsOf, htags]
      exact congrArg (List.map _) hopen.symm

theorem parse_eq_rejected {text : List Char} {r : Rejection} (h : openings text = .error r)
    (tagName : List Char) : parse text tagName = .error (.rejected r) := by
  rw [openings] at h
  cases hes : eventsOf (mask text) with
  | error r' =>
    rw [hes] at h
    cases h
    rw [parse, outline, hes]
    rfl
  | ok es =>
    rw [hes] at h
    cases h

/-- A document whose tags are read is a fragment of the nodes at their places, or one of its images
cannot be read. -/
theorem parse_eq_of_openings {text : List Char} {os : List Opening} (h : openings text = .ok os)
    (tagName : List Char) :
    (∃ nodes, parse text tagName = .ok ⟨.fragment, [], [], nodes, 0, text.length⟩ ∧
        (flattenAll nodes).map Node.bare = os.filterMap (Opening.node? text) ∧
        ∀ o ∈ os, isImageName tagName o.name = true → o.node? text ≠ none) ∨
      ∃ o ∈ os, ∃ reason, isImageName tagName o.name = true ∧
        StartTag.readAt text o.offset = .error reason ∧
        parse text tagName = .error (.unreadable o.offset reason) := by
  obtain ⟨⟨ms, hrun, hms⟩, es, hes, htags⟩ := outline_eq_of_openings h
  have hopen : OpenIn (mask text) os := hms ▸ hrun.openIn
  have hnode : ∀ o ∈ os,
      (Source.ofText text tagName).node? (o.met (mask text)) = o.node? text := by
    intro o ho
    obtain ⟨c, rest, hdrop, -⟩ := hopen.bracket o ho
    exact node?_met tagName hdrop
  have hlists := Source.readElements_lists (Source.ofText text tagName) es
  rw [htags] at hlists
  cases hread : (Source.ofText text tagName).readElements es with
  | ok nodes =>
    rw [hread] at hlists
    obtain ⟨hnodes, hall⟩ := hlists
    left
    refine ⟨nodes, ?_, ?_, fun o ho himage ↦ ?_⟩
    · rw [parse, hes]
      simp only [hread, bind, Except.bind, pure, Except.pure]
    · rw [hnodes, List.filterMap_map]
      exact List.filterMap_congr hnode
    · rw [← hnode o ho]
      exact hall _ (List.mem_map_of_mem ho) himage
  | error e =>
    rw [hread] at hlists
    obtain ⟨t, ht, hrequires, herror⟩ := hlists
    obtain ⟨o, ho, rfl⟩ := List.mem_map.mp ht
    obtain ⟨c, rest, hdrop, -⟩ := hopen.bracket o ho
    have htag := readTag_met tagName hdrop
    right
    cases hreason : StartTag.readAt text o.offset with
    | ok tag =>
      rw [hreason] at htag
      exact absurd (herror.symm.trans htag) (by simp)
    | error reason =>
      rw [hreason] at htag
      obtain rfl : e = .unreadable o.offset reason := Except.error.inj (herror.symm.trans htag)
      refine ⟨o, ho, reason, hrequires, hreason, ?_⟩
      rw [parse, hes]
      simp only [hread, bind, Except.bind]

theorem Opening.node?_eq_none_iff {text : List Char} {o : Opening} :
    o.node? text = none ↔ ∃ reason, StartTag.readAt text o.offset = .error reason := by
  rw [Opening.node?, nodeAt]
  cases StartTag.readAt text o.offset with
  | error e => simp
  | ok tag => simp

/-- Nodes that stand one behind the other are not moved by sorting. -/
theorem candidates_eq_filter (root : Node) (tagName : List Char)
    (h : (flattenAll root.children).Pairwise fun m n ↦ m.start < n.start) :
    candidates root tagName = (flattenAll root.children).filter (Node.isImage tagName) := by
  rw [candidates]
  refine List.mergeSort_of_pairwise ((h.filter _).imp ?_)
  intro m n hlt
  exact decide_eq_true (Nat.le_of_lt hlt)

theorem start_of_nodeAt {text : List Char} {k : Nat} {n : Node} (h : nodeAt text k = some n) :
    n.start = k := by
  rw [nodeAt] at h
  split at h
  · cases h
    rfl
  · cases h

theorem pairwise_start_of_openIn {text masked : List Char} {nodes : List Node} {os : List Opening}
    (hos : OpenIn masked os)
    (h : (flattenAll nodes).map Node.bare = os.filterMap (Opening.node? text)) :
    (flattenAll nodes).Pairwise fun m n ↦ m.start < n.start := by
  have hbare : ((flattenAll nodes).map Node.bare).Pairwise fun m n ↦ m.start < n.start := by
    rw [h]
    refine List.pairwise_filterMap.mpr (hos.increasing.imp ?_)
    intro o p hlt m hm n hn
    rw [start_of_nodeAt hm, start_of_nodeAt hn]
    exact hlt
  rw [List.pairwise_map] at hbare
  exact hbare

/-- What is known of a document that is parsed. -/
structure IsListing (text tagName : List Char) (root : Node) (os : List Opening) : Prop where
  openings_eq : openings text = .ok os
  run : ∃ ms, Run (mask text) false none 0 ms ∧ os = ms.filterMap Mark.opening?
  nodes_eq : (flattenAll root.children).map Node.bare = os.filterMap (Opening.node? text)
  candidates_eq : candidates root tagName =
    (flattenAll root.children).filter (Node.isImage tagName)
  increasing : (candidates root tagName).Pairwise fun m n ↦ m.start < n.start

/-- The images of a document in the order in which they are met, none if it is not parsed. -/
def imagesOf (text tagName : List Char) : List Node :=
  match parse text tagName with
  | .ok root => (flattenAll root.children).filter (Node.isImage tagName)
  | .error _ => []

theorem IsListing.openIn {text tagName : List Char} {root : Node} {os : List Opening}
    (h : IsListing text tagName root os) : OpenIn (mask text) os := by
  obtain ⟨ms, hrun, rfl⟩ := h.run
  exact hrun.openIn

theorem exists_isListing {text tagName : List Char} {root : Node}
    (h : parse text tagName = .ok root) : ∃ os, IsListing text tagName root os := by
  cases hos : openings text with
  | error r =>
    rw [parse_eq_rejected hos tagName] at h
    cases h
  | ok os =>
    obtain ⟨nodes, hparse, hnodes, -⟩ | ⟨o, -, reason, -, -, hparse⟩ :=
      parse_eq_of_openings hos tagName
    · obtain rfl := Except.ok.inj (hparse.symm.trans h)
      obtain ⟨⟨ms, hrun, hms⟩, -⟩ := outline_eq_of_openings hos
      have hpairwise := pairwise_start_of_openIn (hms ▸ hrun.openIn) hnodes
      have hfilter := candidates_eq_filter ⟨.fragment, [], [], nodes, 0, text.length⟩ tagName
        hpairwise
      refine ⟨os, hos, ⟨ms, hrun, hms⟩, hnodes, hfilter, ?_⟩
      rw [hfilter]
      exact hpairwise.filter _
    · rw [hparse] at h
      cases h

/-- **Parsing lists what is read where elements open.**  It fails exactly if the tags of the document
are not read at all, or one of its images cannot be read where it opens.  Otherwise the nodes, each
before its children, are those that can be read, in the order of their places; and the images are
those of them with such a name. -/
theorem parse_lists_openings (text tagName : List Char) :
    ((∃ e, parse text tagName = .error e) ↔
      (∃ r, openings text = .error r) ∨
        ∃ os, openings text = .ok os ∧
          ∃ o ∈ os, isImageName tagName o.name = true ∧ o.node? text = none) ∧
    ∀ root, parse text tagName = .ok root → ∃ os, openings text = .ok os ∧
      (flattenAll root.children).map Node.bare = os.filterMap (Opening.node? text) ∧
      candidates root tagName = (flattenAll root.children).filter (Node.isImage tagName) ∧
      (candidates root tagName).Pairwise fun m n ↦ m.start < n.start := by
  refine ⟨⟨?_, ?_⟩, fun root hroot ↦ ?_⟩
  · rintro ⟨e, he⟩
    cases hos : openings text with
    | error r => exact .inl ⟨r, rfl⟩
    | ok os =>
      obtain ⟨nodes, hparse, -⟩ | ⟨o, ho, reason, himage, hreason, -⟩ :=
        parse_eq_of_openings hos tagName
      · rw [hparse] at he
        cases he
      · exact .inr ⟨os, rfl, o, ho, himage, Opening.node?_eq_none_iff.mpr ⟨reason, hreason⟩⟩
  · rintro (⟨r, hr⟩ | ⟨os, hos, o, ho, himage, hnode⟩)
    · exact ⟨_, parse_eq_rejected hr tagName⟩
    · obtain ⟨nodes, -, -, hall⟩ | ⟨_, -, reason, -, -, hparse⟩ := parse_eq_of_openings hos tagName
      · exact absurd hnode (hall o ho himage)
      · exact ⟨_, hparse⟩
  · obtain ⟨os, h⟩ := exists_isListing hroot
    exact ⟨os, h.openings_eq, h.nodes_eq, h.candidates_eq, h.increasing⟩

/-- A marked section without a name is rejected, though no tag begins anywhere in the document. -/
theorem parse_rejects_section :
    (∀ pos : Nat, ∃ e, StartTag.readAt "<![]>".toList pos = .error e) ∧
      ¬ ((∃ e, parse "<![]>".toList "Image".toList = .error e) ↔
        ∃ os, openings "<![]>".toList = .ok os ∧
          ∃ o ∈ os, isImageName "Image".toList o.name = true ∧ o.node? "<![]>".toList = none) := by
  have hrejected : openings "<![]>".toList = .error (.unnamedSection "<![]>".toList) := by
    decide +kernel
  refine ⟨fun pos ↦ ?_, fun hiff ↦ ?_⟩
  · match pos with
    | 0 => exact ⟨.noTag, by cbv⟩
    | 1 => exact ⟨.noTag, by cbv⟩
    | 2 => exact ⟨.noTag, by cbv⟩
    | 3 => exact ⟨.noTag, by cbv⟩
    | 4 => exact ⟨.noTag, by cbv⟩
    | n + 5 =>
      have hdrop : "<![]>".toList.drop (n + 5) = [] := List.drop_eq_nil_of_le (Nat.le_add_left 5 n)
      refine ⟨.noTag, ?_⟩
      rw [StartTag.readAt, Int.toNat_natCast, hdrop]
      rfl
  · obtain ⟨os, hos, -⟩ := hiff.mp ⟨_, parse_eq_rejected hrejected _⟩
    rw [hrejected] at hos
    cases hos

end ResponsiveImage.Markup
