import ResponsiveImage.Markup.Event
import ResponsiveImage.Proofs.Markup.Masked

/-!
# Reading step by step

Reading tag events is a run of steps, each of which passes at least one character and meets at most
one tag, at its first character.  A run over a text lists the tags it meets with their offsets
(`Run`), and the events are these tags with their positions (`exists_run`); whatever is proved of the
events is proved of runs, by what one step can do.
-/

namespace ResponsiveImage.Markup

open Text

/-! ## Steps -/

/-- A tag as it is met. -/
inductive Mark where
  | opened (name : List Char) (selfClosing : Bool)
  | closed (name : List Char)
deriving DecidableEq, Repr

/-- The event of a tag that is met at a position. -/
def Mark.event (p : Position) : Mark → Event
  | .opened name selfClosing => .opened name selfClosing p
  | .closed name => .closed name

/-- What a step leaves behind: how reading goes on, how much was passed, and the tag that was met. -/
structure ReadStep where
  lenient : Bool
  raw : Option (List Char)
  length : Nat
  mark? : Option Mark := none
deriving DecidableEq, Repr

/-- The step over a construct of a text. -/
def constructStep (lenient : Bool) (cs : List Char) : Option Construct → ReadStep
  | none => ⟨lenient, none, 1, none⟩
  | some (.opening name selfClosing n) =>
    let inside := if isRawElement name && !selfClosing then some name else none
    ⟨lenient, inside, n, some (.opened name selfClosing)⟩
  | some (.closing name n) => ⟨lenient, none, n, some (.closed name)⟩
  | some (.passed n) => ⟨lenient, none, n, none⟩
  | some .incomplete => ⟨true, none, incompleteExtent cs, none⟩

/-- The step inside a raw element. -/
def rawStep (lenient : Bool) (element cs : List Char) : ReadStep :=
  if (rawEnd element cs).isSome then
    match endTag (some element) cs with
    | .closing name n => ⟨lenient, none, n, some (.closed name)⟩
    | .passed n => ⟨lenient, some element, n, none⟩
    | _ => ⟨lenient, some element, 1, none⟩
  else ⟨lenient, some element, 1, none⟩

/-- The step over what may be a character reference. -/
def referenceStep? (lenient : Bool) (cs : List Char) : Option ReadStep :=
  match characterReference cs with
  | some n => some ⟨lenient, none, n, none⟩
  | none => if !lenient && (cs.drop 1).contains ';' then some ⟨true, none, 2, none⟩ else none

/-- The step at the beginning of a text, none if reading is over. -/
def readStep? (lenient : Bool) (raw : Option (List Char)) :
    List Char → Except Rejection (Option ReadStep)
  | [] => .ok none
  | c :: cs =>
    match raw with
    | some element => .ok (some (rawStep lenient element (c :: cs)))
    | none =>
      if c = '&' && cs.head? = some '#' then .ok (referenceStep? lenient (c :: cs))
      else if c = '<' then (construct? (c :: cs)).map fun k ↦ some (constructStep lenient (c :: cs) k)
      else .ok (some ⟨lenient, none, 1, none⟩)

/-- What is read after a step. -/
def readOn (p : Position) (cs : List Char) (s : ReadStep) : Except Rejection (List Event) :=
  (events s.lenient s.raw (p.advance (cs.take s.length)) (cs.drop s.length)).map
    ((s.mark?.map (Mark.event p)).toList ++ ·)

/-! ## What a construct can be -/

theorem past_pos {pattern : Pattern} (hpattern : ∀ cs n, pattern cs = some n → 0 < n)
    {cs : List Char} {n : Nat} (h : past pattern cs = some n) : 0 < n := by
  cases cs with
  | nil => cases h
  | cons c cs =>
    rw [past] at h
    split at h
    · rename_i m hm
      cases h
      exact hpattern _ _ hm
    · obtain ⟨m, -, rfl⟩ := Option.map_eq_some_iff.mp h
      exact Nat.succ_pos m

theorem past_word_pos {c : Char} {cs : List Char} {n : Nat} (h : past (word [c]) cs = some n) :
    0 < n := by
  refine past_pos (fun ds m hm ↦ ?_) h
  rw [word] at hm
  split at hm
  · cases hm
    exact Nat.one_pos
  · cases hm

/-- A construct that opens no element; it passes a character, if it is complete. -/
inductive Construct.IsSilent : Construct → Prop
  | closing {name : List Char} {n : Nat} (hn : 0 < n) : IsSilent (.closing name n)
  | passed {n : Nat} (hn : 0 < n) : IsSilent (.passed n)
  | incomplete : IsSilent .incomplete

theorem endTag_isSilent (raw : Option (List Char)) (cs : List Char) : (endTag raw cs).IsSilent := by
  unfold endTag
  split
  · exact .incomplete
  · rename_i n hn
    have hpos := past_word_pos hn
    split
    · exact .closing hpos
    · split
      · exact .closing hpos
      · exact .passed hpos
    · exact .passed hpos
    · split
      · exact .closing hpos
      · exact .passed hpos

theorem passedTo_isSilent {pattern : Pattern} {skipped : Nat} (h : 0 < skipped) (cs : List Char) :
    (passedTo pattern skipped cs).IsSilent := by
  unfold passedTo
  split
  · exact .passed (Nat.add_pos_left h _)
  · exact .incomplete

theorem markedSection_isSilent {cs : List Char} {k : Construct} (h : markedSection cs = .ok k) :
    k.IsSilent := by
  simp only [markedSection] at h
  split at h
  · cases h
    exact .incomplete
  · split at h
    · split at h
      · cases h
        exact .incomplete
      · split at h
        · cases h
          exact passedTo_isSilent (by decide) cs
        · split at h
          · cases h
            exact passedTo_isSilent (by decide) cs
          · cases h
    · cases h

theorem startTagEnd_pos {cs : List Char} {name n : Nat} (hname : 0 < name)
    (h : startTagEnd cs name = some n) : 0 < n := by
  simp only [startTagEnd] at h
  split at h
  · cases h
  · cases h
    omega
  · cases h
    omega
  · split at h
    · cases h
    · cases h
      omega

theorem startTag_cases (cs : List Char) :
    (startTag cs).IsSilent ∨
      ∃ name selfClosing n, startTag cs = .opening name selfClosing n ∧ 0 < n := by
  simp only [startTag]
  split
  · exact .inl .incomplete
  · rename_i n hn
    have hpos := startTagEnd_pos (by omega) hn
    split
    · exact .inr ⟨_, _, _, rfl, hpos⟩
    · exact .inr ⟨_, _, _, rfl, hpos⟩
    · exact .inl (.passed hpos)

/-- A construct opens no element, unless it is a start tag, with a letter after its bracket. -/
theorem construct?_cases {cs : List Char} {k : Construct} (h : construct? cs = .ok (some k)) :
    k.IsSilent ∨ ∃ c rest name selfClosing n, cs.drop 1 = c :: rest ∧ c.isAlpha = true ∧
      startTag cs = .opening name selfClosing n ∧ k = .opening name selfClosing n ∧ 0 < n := by
  unfold construct? at h
  split at h
  · cases h
    exact .inl (endTag_isSilent none cs)
  · cases h
    exact .inl (passedTo_isSilent (by decide) cs)
  · cases h
    exact .inl (passedTo_isSilent (by decide) cs)
  · cases hsection : markedSection cs with
    | error r =>
      rw [hsection] at h
      cases h
    | ok k' =>
      rw [hsection] at h
      cases h
      exact .inl (markedSection_isSilent hsection)
  · split at h
    · cases h
      exact .inl (passedTo_isSilent (by decide) cs)
    · cases h
      exact .inl (passedTo_isSilent (by decide) cs)
  · rename_i c rest _ _ _ _ _ hdrop
    split at h
    · rename_i hc
      cases h
      rcases startTag_cases cs with hsilent | ⟨name, selfClosing, n, hstart, hn⟩
      · exact .inl hsilent
      · exact .inr ⟨c, rest, name, selfClosing, n, hdrop, hc, hstart, hstart, hn⟩
    · cases h
  · cases h

theorem incompleteExtent_pos (cs : List Char) : 0 < incompleteExtent cs := by
  unfold incompleteExtent
  split
  · exact Nat.succ_pos _
  · exact Nat.add_pos_left Nat.one_pos _

theorem characterReference_pos {cs : List Char} {n : Nat} (h : characterReference cs = some n) :
    0 < n := by
  unfold characterReference at h
  split at h
  · cases h
  · split at h
    · cases h
    · split at h
      · cases h
      · cases h
        omega

/-! ## What a step can do -/

/-- A step that passes a character and meets no element opening. -/
structure ReadStep.IsSilent (s : ReadStep) : Prop where
  pos : 0 < s.length
  mark : ∀ name selfClosing, s.mark? ≠ some (.opened name selfClosing)

theorem ReadStep.IsSilent.of_unmarked {s : ReadStep} (hpos : 0 < s.length) (h : s.mark? = none) :
    s.IsSilent := by
  refine ⟨hpos, fun name selfClosing hmark ↦ ?_⟩
  rw [h] at hmark
  cases hmark

/-- A step over a start tag of a text. -/
structure ReadStep.IsStartTag (s : ReadStep) (name : List Char) (selfClosing : Bool)
    (cs : List Char) : Prop where
  pos : 0 < s.length
  mark : s.mark? = some (.opened name selfClosing)
  bracket : ∃ c rest, cs = '<' :: c :: rest ∧ c.isAlpha = true
  tag : startTag cs = .opening name selfClosing s.length

theorem constructStep_isSilent {lenient : Bool} {cs : List Char} {k : Construct} (h : k.IsSilent) :
    (constructStep lenient cs (some k)).IsSilent := by
  cases h with
  | closing hn => exact ⟨hn, nofun⟩
  | passed hn => exact .of_unmarked hn rfl
  | incomplete => exact .of_unmarked (incompleteExtent_pos cs) rfl

theorem rawStep_isSilent (lenient : Bool) (element cs : List Char) :
    (rawStep lenient element cs).IsSilent := by
  have hsilent := endTag_isSilent (some element) cs
  unfold rawStep
  split
  · cases hk : endTag (some element) cs with
    | opening => exact .of_unmarked Nat.one_pos rfl
    | closing name n =>
      rw [hk] at hsilent
      cases hsilent with
      | closing hn => exact ⟨hn, nofun⟩
    | passed n =>
      rw [hk] at hsilent
      cases hsilent with
      | passed hn => exact .of_unmarked hn rfl
    | incomplete => exact .of_unmarked Nat.one_pos rfl
  · exact .of_unmarked Nat.one_pos rfl

theorem referenceStep?_isSilent {lenient : Bool} {cs : List Char} {s : ReadStep}
    (h : referenceStep? lenient cs = some s) : s.IsSilent := by
  unfold referenceStep? at h
  split at h
  · rename_i n hn
    cases h
    exact .of_unmarked (characterReference_pos hn) rfl
  · split at h
    · cases h
      exact .of_unmarked Nat.two_pos rfl
    · cases h

/-- A step meets no element opening, unless it is a step over a start tag. -/
theorem readStep?_cases {lenient : Bool} {raw : Option (List Char)} {cs : List Char} {s : ReadStep}
    (h : readStep? lenient raw cs = .ok (some s)) :
    s.IsSilent ∨ ∃ name selfClosing, s.IsStartTag name selfClosing cs := by
  unfold readStep? at h
  split at h
  · cases h
  · rename_i c cs
    split at h
    · cases h
      exact .inl (rawStep_isSilent ..)
    · split at h
      · exact .inl (referenceStep?_isSilent (Except.ok.inj h))
      · split at h
        · rename_i hc
          cases hk : construct? (c :: cs) with
          | error r =>
            rw [hk] at h
            cases h
          | ok k =>
            rw [hk] at h
            cases h
            cases k with
            | none => exact .inl (.of_unmarked Nat.one_pos rfl)
            | some k =>
              rcases construct?_cases hk with
                hsilent | ⟨d, rest, name, selfClosing, n, hdrop, hd, hstart, rfl, hn⟩
              · exact .inl (constructStep_isSilent hsilent)
              · obtain rfl : cs = d :: rest := hdrop
                exact .inr ⟨name, selfClosing, hn, rfl, ⟨d, rest, by rw [hc], hd⟩, hstart⟩
        · cases h
          exact .inl (.of_unmarked Nat.one_pos rfl)

theorem readStep?_length_pos {lenient : Bool} {raw : Option (List Char)} {cs : List Char}
    {s : ReadStep} (h : readStep? lenient raw cs = .ok (some s)) : 0 < s.length := by
  rcases readStep?_cases h with hsilent | ⟨_, _, hstart⟩
  · exact hsilent.pos
  · exact hstart.pos

/-! ## Reading is stepping -/

theorem readOn_eq {s : ReadStep} (hs : 0 < s.length) (p : Position) (c : Char) (cs : List Char) :
    readOn p (c :: cs) s =
      (events s.lenient s.raw (p.advance ((c :: cs).take s.length)) (cs.drop (s.length - 1))).map
        ((s.mark?.map (Mark.event p)).toList ++ ·) := by
  rw [readOn, ← drop_pred hs]

theorem map_nil_append (r : Except Rejection (List Event)) : r.map ([] ++ ·) = r := by
  cases r <;> rfl

theorem bind_cons_eq_map (r : Except Rejection (List Event)) (e : Event) :
    (do let rest ← r; return e :: rest) = r.map ([e] ++ ·) := by
  cases r <;> rfl

theorem events_raw (lenient : Bool) (element : List Char) (p : Position) (c : Char) (cs : List Char) :
    events lenient (some element) p (c :: cs) =
      readOn p (c :: cs) (rawStep lenient element (c :: cs)) := by
  rw [events, readOn_eq (rawStep_isSilent lenient element (c :: cs)).pos, rawStep]
  split
  · cases endTag (some element) (c :: cs) with
    | opening => exact (map_nil_append _).symm
    | closing name n => exact bind_cons_eq_map _ _
    | passed n => exact (map_nil_append _).symm
    | incomplete => exact (map_nil_append _).symm
  · exact (map_nil_append _).symm

theorem events_reference {c : Char} {cs : List Char} (h : c = '&' && cs.head? = some '#')
    (lenient : Bool) (p : Position) :
    events lenient none p (c :: cs) =
      (referenceStep? lenient (c :: cs)).elim (.ok []) (readOn p (c :: cs)) := by
  have hpos : ∀ s, referenceStep? lenient (c :: cs) = some s → 0 < s.length :=
    fun _ h ↦ (referenceStep?_isSilent h).pos
  rw [events, if_pos h]
  simp only [referenceStep?, List.drop_succ_cons, List.drop_zero] at hpos ⊢
  cases hn : characterReference (c :: cs) with
  | some n =>
    rw [hn] at hpos
    simp only [Option.elim]
    rw [readOn_eq (hpos _ rfl)]
    exact (map_nil_append _).symm
  | none =>
    cases !lenient && cs.contains ';' with
    | true =>
      simp only [if_true, Option.elim]
      rw [readOn_eq Nat.two_pos]
      exact (map_nil_append _).symm
    | false => rfl

theorem events_construct (lenient : Bool) (p : Position) (cs : List Char) :
    events lenient none p ('<' :: cs) =
      (construct? ('<' :: cs)).bind fun k ↦
        readOn p ('<' :: cs) (constructStep lenient ('<' :: cs) k) := by
  have hreference : ¬ ('<' = '&' && cs.head? = some '#') := by simp
  rw [events, if_neg hreference, if_pos rfl]
  cases hk : construct? ('<' :: cs) with
  | error r => rfl
  | ok k =>
    have hstep : readStep? lenient none ('<' :: cs) =
        .ok (some (constructStep lenient ('<' :: cs) k)) := by
      rw [readStep?, if_neg hreference, if_pos rfl, hk]
      rfl
    simp only [bind, Except.bind]
    rw [readOn_eq (readStep?_length_pos hstep)]
    cases k with
    | none => exact (map_nil_append _).symm
    | some k =>
      cases k with
      | opening name selfClosing n => exact bind_cons_eq_map _ _
      | closing name n => exact bind_cons_eq_map _ _
      | passed n => exact (map_nil_append _).symm
      | incomplete => exact (map_nil_append _).symm

/-- Reading a text is its first step and reading on. -/
theorem events_eq (lenient : Bool) (raw : Option (List Char)) (p : Position) (cs : List Char) :
    events lenient raw p cs =
      (readStep? lenient raw cs).bind fun s? ↦ s?.elim (.ok []) (readOn p cs) := by
  cases cs with
  | nil =>
    rw [events]
    rfl
  | cons c cs =>
    cases raw with
    | some element => exact events_raw lenient element p c cs
    | none =>
      rw [readStep?]
      by_cases hreference : c = '&' && cs.head? = some '#'
      · rw [if_pos hreference]
        exact events_reference hreference lenient p
      · rw [if_neg hreference]
        by_cases hbracket : c = '<'
        · subst hbracket
          rw [if_pos rfl, events_construct]
          cases construct? ('<' :: cs) with
          | error r => rfl
          | ok k => rfl
        · rw [if_neg hbracket, events, if_neg hreference, if_neg hbracket]
          exact (map_nil_append _).symm

/-- Reading that succeeds is over, or takes a step and succeeds from there on. -/
theorem events_eq_ok {lenient : Bool} {raw : Option (List Char)} {p : Position} {cs : List Char}
    {es : List Event} (h : events lenient raw p cs = .ok es) :
    readStep? lenient raw cs = .ok none ∧ es = [] ∨
      ∃ s rest, readStep? lenient raw cs = .ok (some s) ∧
        events s.lenient s.raw (p.advance (cs.take s.length)) (cs.drop s.length) = .ok rest ∧
        es = (s.mark?.map (Mark.event p)).toList ++ rest := by
  rw [events_eq] at h
  cases hs : readStep? lenient raw cs with
  | error r =>
    rw [hs] at h
    cases h
  | ok s? =>
    rw [hs] at h
    cases s? with
    | none =>
      cases h
      exact .inl ⟨rfl, rfl⟩
    | some s =>
      have hread : readOn p cs s = .ok es := h
      rw [readOn] at hread
      cases hrest : events s.lenient s.raw (p.advance (cs.take s.length)) (cs.drop s.length) with
      | error r =>
        rw [hrest] at hread
        cases hread
      | ok rest =>
        rw [hrest] at hread
        cases hread
        exact .inr ⟨s, rest, rfl, hrest, rfl⟩

/-! ## Runs -/

/-- A run of reading steps over a text from offset `k` on, with the tags that are met and their
offsets. -/
inductive Run (text : List Char) : Bool → Option (List Char) → Nat → List (Nat × Mark) → Prop
  | ended {lenient : Bool} {raw : Option (List Char)} {k : Nat}
      (h : readStep? lenient raw (text.drop k) = .ok none) : Run text lenient raw k []
  | step {lenient : Bool} {raw : Option (List Char)} {k : Nat} {s : ReadStep}
      {ms : List (Nat × Mark)} (h : readStep? lenient raw (text.drop k) = .ok (some s))
      (hrun : Run text s.lenient s.raw (k + s.length) ms) :
      Run text lenient raw k ((s.mark?.map (k, ·)).toList ++ ms)

/-- The event of a tag that is met in a text at an offset. -/
def eventAt (text : List Char) (m : Nat × Mark) : Event :=
  m.2.event (Position.advance {} (text.take m.1))

theorem lt_length_of_readStep? {text : List Char} {lenient : Bool} {raw : Option (List Char)}
    {k : Nat} {s : ReadStep} (h : readStep? lenient raw (text.drop k) = .ok (some s)) :
    k < text.length := by
  cases Nat.lt_or_ge k text.length with
  | inl hlt => exact hlt
  | inr hle =>
    rw [List.drop_eq_nil_of_le hle] at h
    cases h

/-- Events are those of a run. -/
theorem exists_run {text : List Char} {lenient : Bool} {raw : Option (List Char)} {k : Nat}
    {es : List Event}
    (h : events lenient raw (Position.advance {} (text.take k)) (text.drop k) = .ok es) :
    ∃ ms, Run text lenient raw k ms ∧ es = ms.map (eventAt text) := by
  induction hn : text.length - k using Nat.strongRecOn generalizing lenient raw k es with
  | ind n ih =>
    rcases events_eq_ok h with ⟨hended, rfl⟩ | ⟨s, rest, hs, hrest, rfl⟩
    · exact ⟨[], .ended hended, rfl⟩
    · have hpos := readStep?_length_pos hs
      have hlt := lt_length_of_readStep? hs
      rw [← Position.advance_append, ← List.take_add, List.drop_drop] at hrest
      obtain ⟨ms, hrun, rfl⟩ := ih _ (by omega) hrest rfl
      refine ⟨_, .step hs hrun, ?_⟩
      rw [List.map_append]
      cases s.mark? with
      | none => rfl
      | some m => rfl

theorem Run.lt_length {text : List Char} {lenient : Bool} {raw : Option (List Char)} {k : Nat}
    {ms : List (Nat × Mark)} (h : Run text lenient raw k ms) :
    ∀ m ∈ ms, k ≤ m.1 ∧ m.1 < text.length := by
  induction h with
  | ended => simp
  | @step _ _ k s ms h hrun ih =>
    intro m hm
    rcases List.mem_append.mp hm with hm | hm
    · obtain ⟨mark, -, rfl⟩ : ∃ mark, s.mark? = some mark ∧ (k, mark) = m := by
        simpa using hm
      exact ⟨Nat.le_refl k, lt_length_of_readStep? h⟩
    · obtain ⟨hle, hlt⟩ := ih m hm
      exact ⟨by omega, hlt⟩

/-- The tags of a run are met one behind the other. -/
theorem Run.pairwise {text : List Char} {lenient : Bool} {raw : Option (List Char)} {k : Nat}
    {ms : List (Nat × Mark)} (h : Run text lenient raw k ms) :
    ms.Pairwise fun m n ↦ m.1 < n.1 := by
  induction h with
  | ended => exact .nil
  | @step _ _ k s ms h hrun ih =>
    have hpos := readStep?_length_pos h
    refine List.pairwise_append.mpr ⟨?_, ih, ?_⟩
    · cases s.mark? with
      | none => exact .nil
      | some m => exact List.pairwise_singleton _ _
    · intro m hm n hn
      obtain ⟨mark, -, rfl⟩ : ∃ mark, s.mark? = some mark ∧ (k, mark) = m := by
        simpa using hm
      have hle := (hrun.lt_length n hn).1
      simp only
      omega

/-- Wherever an element opens, the text goes on with a bracket and a letter. -/
theorem Run.opened {text name : List Char} {lenient selfClosing : Bool} {raw : Option (List Char)}
    {j k : Nat} {ms : List (Nat × Mark)} (h : Run text lenient raw k ms)
    (hm : (j, Mark.opened name selfClosing) ∈ ms) :
    ∃ c rest, text.drop j = '<' :: c :: rest ∧ c.isAlpha = true := by
  induction h with
  | ended => cases hm
  | @step _ _ k s ms h hrun ih =>
    rcases List.mem_append.mp hm with hm | hm
    · obtain ⟨mark, hmark, heq⟩ : ∃ mark, s.mark? = some mark ∧
          (k, mark) = (j, Mark.opened name selfClosing) := by simpa using hm
      cases heq
      rcases readStep?_cases h with hsilent | ⟨_, _, hstart⟩
      · exact absurd hmark (hsilent.mark name selfClosing)
      · exact hstart.bracket
    · exact ih hm

end ResponsiveImage.Markup
