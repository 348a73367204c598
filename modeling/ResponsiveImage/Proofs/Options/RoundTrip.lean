import ResponsiveImage.Proofs.Options.Checks
import ResponsiveImage.Proofs.Options.Defaults

/-!
# Reading options again

Options are written as the members of an object, one for each field, and reading these gives the
same options (`ofMapping_toMapping`).  What is written is not what was read: texts have been taken
apart into lists of characters, members of nested settings have the other spelling, and older keys
are gone.  So this needs that what each check lets through is let through again, as itself, from its
written form (`ofDraft_draft`).

Reading forgets all but the last of the members that stand for a field (`eq_of_setMembers`).  So does
the written form, and so does every selection of the members that keeps these last ones.
-/

namespace ResponsiveImage.Options

open Json (Value)

variable {α : Type}

/-! ## What a check gives is given again -/

@[simp] theorem number_ofNumber (n : Number) : number (.ofNumber n) = .ok n := by
  rw [number_eq_ok_iff, Value.number?_ofNumber]

theorem inRange_ofNumber {low high n : Number} (reason : Number → OptionsFault)
    (hlow : low.le n = true) (hhigh : n.le high = true) :
    inRange low high reason (.ofNumber n) = .ok n := by
  have hin : (low.le n && n.le high) = true := by rw [hlow, hhigh, Bool.and_self]
  rw [inRange, number_ofNumber]
  exact if_pos hin

theorem positiveSizes_ofNumber (given : List Value) {ns : List Number}
    (h : ∀ n ∈ ns, n.le 0 = false) : positiveSizes given (ns.map .ofNumber) = .ok ns := by
  induction ns with
  | nil => rfl
  | cons n ns ih =>
    obtain ⟨hn, hns⟩ := List.forall_mem_cons.mp h
    rw [List.map_cons, positiveSizes, number_ofNumber, ih hns]
    exact if_neg (Bool.eq_false_iff.mp hn)

@[simp] theorem placeholderKind_text (kind : PlaceholderKind) :
    placeholderKind (.string kind.text) = .ok kind := by
  cases kind <;> rfl

/-- A way to write settings, as members from which they are read as they were. -/
def Writes (read : List (String × Value) → Except Fault α) (write : α → Value) : Prop :=
  ∀ a, ∃ ms, write a = .object ms ∧ read ms = .ok a

theorem writes_altFormat : Writes AltFormat.ofMembers AltFormat.toValue :=
  fun _ ↦ ⟨_, rfl, rfl⟩

/-- The members written have none of the other spelling, so that none is put in its place. -/
theorem writes_traceSettings : Writes TraceSettings.ofMembers TraceSettings.toValue :=
  fun _ ↦ ⟨_, rfl, rfl⟩

/-- Nested settings are read again from what they are written as.  A value that was kept for not being
an object is no object when it is written either. -/
theorem Writes.ofValue_toValue {read : List (String × Value) → Except Fault α} {write : α → Value}
    (hwrites : Writes read write) {v : Value} {s : Settings α}
    (h : Settings.ofValue read v = .ok s) :
    Settings.ofValue read (s.toValue write) = .ok s := by
  cases s with
  | given a =>
    obtain ⟨ms, hms, hread⟩ := hwrites a
    rw [Settings.toValue, hms, Settings.ofValue, hread]
    rfl
  | other w =>
    cases v with
    | object ms =>
      rw [Settings.ofValue] at h
      cases hread : read ms with
      | error e => rw [hread] at h; cases h
      | ok a => rw [hread] at h; cases h
    | null | bool | int | float | string | array =>
      cases h
      rfl

/-- **Accepted options are what their own draft gives.** -/
theorem ofDraft_draft {d : Draft} {o : Options} (h : ofDraft d = .ok o) :
    ofDraft o.draft = .ok o := by
  have ho := isAccepted_of_ofDraft h
  have hreads := ofDraft_eq_ok_iff.mp h
  exact ofDraft_eq_ok_iff.mpr {
    imgTagExtensions := rfl
    componentExtensions := rfl
    sizes := ⟨_, rfl, positiveSizes_ofNumber _ ho.sizes⟩
    breakpoints := rfl
    altFormatOptions := writes_altFormat.ofValue_toValue hreads.altFormatOptions
    traceOptions := writes_traceSettings.ofValue_toValue hreads.traceOptions
    placeholder := placeholderKind_text o.placeholder
    paired := ho.breakpoints
    compressionLevel := inRange_ofNumber _ ho.compressionLevel.1 ho.compressionLevel.2
    quality := inRange_ofNumber _ ho.quality.1 ho.quality.2
    tagName := ho.tagName
    kept := fun _ _ ↦ rfl }

/-! ## The members that stand for a field -/

namespace Field

@[simp] theorem ofKey?_key (f : Field) : ofKey? f.key = some f := by
  cases f <;> decide +kernel

end Field

/-- Whether a member gives a field its value, by any of its keys. -/
def standsFor (f : Field) (m : String × Value) : Bool := Field.ofKey? m.1 == some f

/-- The last of the members that stand for a field. -/
def lastFor (f : Field) (ms : List (String × Value)) : Option (String × Value) :=
  (ms.filter (standsFor f)).getLast?

theorem lastFor_cons (f : Field) (m : String × Value) (ms : List (String × Value)) :
    lastFor f (m :: ms) = (lastFor f ms).or (if standsFor f m then some m else none) := by
  rw [lastFor, lastFor, List.filter_cons]
  split
  · rw [List.getLast?_cons]
    cases (ms.filter (standsFor f)).getLast? <;> rfl
  · rw [Option.or_none]

/-- Setting members leaves each field with the value of the last one that stands for it. -/
theorem eq_of_setMembers {d d' : Draft} {ms : List (String × Value)}
    (h : setMembers d ms = .ok d') (f : Field) :
    d' f = ((lastFor f ms).map (·.2)).getD (d f) := by
  induction ms generalizing d with
  | nil => cases h; rfl
  | cons m ms ih =>
    obtain ⟨key, v⟩ := m
    rw [setMembers] at h
    split at h
    case h_2 => cases h
    rename_i g hg
    rw [ih h, lastFor_cons]
    by_cases hgf : g = f
    · subst hgf
      have hm : standsFor g (key, v) = true := by simp [standsFor, hg]
      cases lastFor g ms <;> simp [hm]
    · have hm : standsFor f (key, v) = false := by simp [standsFor, hg, hgf]
      rw [d.set_of_ne v (Ne.symm hgf), hm]
      cases lastFor f ms <;> rfl

/-- Members can be set if each stands for some field. -/
theorem exists_setMembers_eq_ok_iff {d : Draft} {ms : List (String × Value)} :
    (∃ d', setMembers d ms = .ok d') ↔ ∀ m ∈ ms, (Field.ofKey? m.1).isSome = true := by
  induction ms generalizing d with
  | nil => simp [setMembers]
  | cons m ms ih =>
    obtain ⟨key, v⟩ := m
    rw [setMembers, List.forall_mem_cons]
    cases hkey : Field.ofKey? key with
    | none => simp
    | some g => simpa using ih

/-! ## Mappings -/

/-- A selection of members that keeps, for each field, the last one that stands for it and no other.
The ones kept may stand in any order. -/
structure KeepsLast (ms ms' : List (String × Value)) : Prop where
  subset : ∀ m ∈ ms', m ∈ ms
  last : ∀ f, ms'.filter (standsFor f) = (lastFor f ms).toList

/-- What is left out was set before a member that is kept, which set the same field again. -/
theorem KeepsLast.setMembers_eq {ms ms' : List (String × Value)} (hkeeps : KeepsLast ms ms')
    {d d' : Draft} (h : setMembers d ms = .ok d') : setMembers d ms' = .ok d' := by
  have hknown := exists_setMembers_eq_ok_iff.mp ⟨d', h⟩
  obtain ⟨d'', h''⟩ := exists_setMembers_eq_ok_iff (d := d).mpr
    fun m hm ↦ hknown m (hkeeps.subset m hm)
  have hlast (f : Field) : lastFor f ms' = lastFor f ms := by
    rw [lastFor, hkeeps.last f]
    cases lastFor f ms <;> rfl
  have heq : d'' = d' := by
    funext f
    rw [eq_of_setMembers h'' f, eq_of_setMembers h f, hlast f]
  rw [h'', heq]

theorem lastFor_toMapping (o : Options) (f : Field) :
    lastFor f o.toMapping = some (f.key, o.draft f) := by
  have hfilter : Field.all.filter (fun g ↦ g == f) = [f] := by cases f <;> decide
  have hstands : (standsFor f ∘ fun g ↦ (g.key, o.draft g)) = fun g ↦ g == f := by
    funext g
    simp [standsFor]
  rw [lastFor, toMapping, List.filter_map, hstands, hfilter]
  rfl

/-- The members that options are written as set all fields, whatever they were. -/
theorem setMembers_toMapping (d : Draft) (o : Options) : setMembers d o.toMapping = .ok o.draft := by
  have hknown : ∀ m ∈ o.toMapping, (Field.ofKey? m.1).isSome = true := by
    simp [toMapping]
  obtain ⟨d', h⟩ := exists_setMembers_eq_ok_iff (d := d).mpr hknown
  have heq : d' = o.draft := by
    funext f
    rw [eq_of_setMembers h f, lastFor_toMapping]
    rfl
  rw [h, heq]

/-- **Options that are read survive being written**, and they are those of every selection that keeps
the last member of each field. -/
theorem ofMapping_toMapping {ms : List (String × Value)} {o : Options}
    (h : ofMapping ms = .ok o) :
    ofMapping o.toMapping = .ok o ∧ ∀ ms', KeepsLast ms ms' → ofMapping ms' = .ok o := by
  obtain ⟨d, hd, ho⟩ := exists_of_bind_eq_ok h
  constructor
  · rw [ofMapping, setMembers_toMapping]
    exact ofDraft_draft ho
  · intro ms' hkeeps
    rw [ofMapping, hkeeps.setMembers_eq hd]
    exact ho

/-- Members with keys of all spellings, two of which stand for one field. -/
def spelledVariously : List (String × Value) :=
  [("webp", .bool false),
    ("trace", .object [("turdSize", .int 4), ("color", .string "red"), ("turd_size", .int 3)]),
    ("tag_name", .string "Picture"),
    ("componentExtensions", .string "xy"),
    ("webpOptions", .object [("force", .bool true), ("quality", .int 60)]),
    ("altFormat", .null),
    ("sizes", .array [.bool true, .float (.ofDecimal false 25 (-1))])]

/-- The options of `spelledVariously`. -/
def spelledOptions : Options :=
  { defaults with
    traceOptions := .given { color := .string "red", turdSize := .int 4 }
    tagName := .string "Picture"
    componentExtensions := [.string "x", .string "y"]
    altFormatOptions := .given { quality := .int 60 }
    altFormat := .null
    sizes := [.flag true, .float (.ofDecimal false 25 (-1))] }

theorem ofMapping_toMapping_spelledVariously :
    ofMapping spelledVariously = .ok spelledOptions ∧
      ofMapping spelledOptions.toMapping = .ok spelledOptions ∧
      ofMapping spelledVariously.tail.reverse = .ok spelledOptions := by
  have h : ofMapping spelledVariously = .ok spelledOptions := by rfl
  have hkeeps : KeepsLast spelledVariously spelledVariously.tail.reverse :=
    { subset := fun _ hm ↦ List.mem_of_mem_tail (List.mem_reverse.mp hm)
      last := fun f ↦ by cases f <;> rfl }
  have hround := ofMapping_toMapping h
  exact ⟨h, hround.1, hround.2 _ hkeeps⟩

end ResponsiveImage.Options
