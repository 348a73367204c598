import ResponsiveImage.Options.Basic

/-!
# Which options are accepted

Options are made from a draft by a chain of checks.  A check fails in one of two ways: a value has the
wrong type to be looked at, or it can be looked at and is out of range.  Both kinds are described
apart, as properties of the draft (`IsWellTyped`, `IsInRange`), and the chain is shown to judge by
them (`judges_ofDraft`): a draft is accepted if it has both, a fault of type means that it lacks the
first, and a refusal that it lacks the second.  A draft that lacks both fails in the way of the check
that comes first.
-/

namespace ResponsiveImage.Options

open Json (Value)

variable {α β : Type}

/-! ## Judging -/

theorem exists_of_bind_eq_ok {ε : Type} {r : Except ε α} {f : α → Except ε β} {b : β}
    (h : (r >>= f) = .ok b) : ∃ a, r = .ok a ∧ f a = .ok b := by
  cases r with
  | error e => cases h
  | ok a => exact ⟨a, rfl, h⟩

/-- An outcome that depends on whether what was looked at is well typed and in range. -/
structure Judges (r : Except Fault α) (typed ranged : Prop) : Prop where
  of_ok : ∀ a, r = .ok a → typed ∧ ranged
  of_error : ∀ f, r = .error f →
    f = .mistyped ∧ ¬ typed ∨ (∃ reason, f = .options reason) ∧ ¬ ranged

namespace Judges

variable {r : Except Fault α} {typed typed' ranged ranged' : Prop}

theorem ok {a : α} (ht : typed) (hr : ranged) : Judges (.ok a) typed ranged :=
  ⟨fun _ _ ↦ ⟨ht, hr⟩, fun _ h ↦ (nomatch h)⟩

theorem mistyped (h : ¬ typed) : Judges (.error .mistyped : Except Fault α) typed ranged := by
  refine ⟨fun _ h ↦ (nomatch h), fun f hf ↦ ?_⟩
  cases hf
  exact .inl ⟨rfl, h⟩

theorem refused {reason : OptionsFault} (h : ¬ ranged) :
    Judges (.error (.options reason) : Except Fault α) typed ranged := by
  refine ⟨fun _ h ↦ (nomatch h), fun f hf ↦ ?_⟩
  cases hf
  exact .inr ⟨⟨reason, rfl⟩, h⟩

theorem congr (h : Judges r typed ranged) (ht : typed ↔ typed') (hr : ranged ↔ ranged') :
    Judges r typed' ranged' := by
  rwa [← propext ht, ← propext hr]

/-- One check of several.  What passes is known from then on. -/
theorem step {f : α → Except Fault β} (h : Judges r typed ranged) (ht : typed' → typed)
    (hr : ranged' → ranged)
    (hf : ∀ a, r = .ok a → typed → ranged → Judges (f a) typed' ranged') :
    Judges (r >>= f) typed' ranged' := by
  cases r with
  | ok a => exact hf a rfl (h.of_ok a rfl).1 (h.of_ok a rfl).2
  | error e =>
    refine ⟨fun _ h ↦ (nomatch h), fun f hf ↦ ?_⟩
    cases hf
    rcases h.of_error _ rfl with ⟨rfl, hnot⟩ | ⟨hreason, hnot⟩
    · exact .inl ⟨rfl, fun h ↦ hnot (ht h)⟩
    · exact .inr ⟨hreason, fun h ↦ hnot (hr h)⟩

/-- One check after another judges by what both look at. -/
theorem bind {f : α → Except Fault β} (h : Judges r typed ranged)
    (hf : ∀ a, r = .ok a → Judges (f a) typed' ranged') :
    Judges (r >>= f) (typed ∧ typed') (ranged ∧ ranged') :=
  h.step And.left And.left fun a ha ht hr ↦ (hf a ha).congr (by simp [ht]) (by simp [hr])

theorem map (g : α → β) (h : Judges r typed ranged) : Judges (r.map g) typed ranged := by
  cases r with
  | ok a => exact .ok (h.of_ok a rfl).1 (h.of_ok a rfl).2
  | error e =>
    refine ⟨fun _ h ↦ (nomatch h), fun f hf ↦ ?_⟩
    cases hf
    exact h.of_error _ rfl

theorem exists_eq_ok (h : Judges r typed ranged) (ht : typed) (hr : ranged) : ∃ a, r = .ok a := by
  cases r with
  | ok a => exact ⟨a, rfl⟩
  | error e =>
    rcases h.of_error e rfl with ⟨-, hnot⟩ | ⟨-, hnot⟩
    · exact absurd ht hnot
    · exact absurd hr hnot

end Judges

/-! ## Single values -/

/-- A value that can be taken apart as a list. -/
def IsList : Value → Prop
  | .array _ | .string _ | .object _ => True
  | _ => False

/-- A value that compares with numbers. -/
def IsNumber (v : Value) : Prop := v.number?.isSome = true

theorem judges_items (v : Value) : Judges (items v) (IsList v) True := by
  cases v with
  | array | string | object => exact .ok trivial trivial
  | null | bool | int | float => exact .mistyped id

theorem judges_number (v : Value) : Judges (number v) (IsNumber v) True := by
  rw [number, IsNumber]
  cases v.number? with
  | some n => exact .ok rfl trivial
  | none => exact .mistyped (by simp)

theorem number_eq_ok_iff {v : Value} {n : Number} : number v = .ok n ↔ v.number? = some n := by
  rw [number]
  cases v.number? <;> simp

theorem judges_inRange (low high : Number) (reason : Number → OptionsFault) (v : Value) :
    Judges (inRange low high reason v) (IsNumber v)
      (∀ n, v.number? = some n → low.le n = true ∧ n.le high = true) := by
  have hrest : ∀ n, number v = .ok n → Judges
      (if low.le n && n.le high then pure n else .error (.options (reason n)) : Except Fault Number)
      True (∀ n, v.number? = some n → low.le n = true ∧ n.le high = true) := by
    intro n hn
    rw [number_eq_ok_iff] at hn
    split
    · rename_i h
      refine .ok trivial fun m hm ↦ ?_
      obtain rfl : n = m := Option.some_inj.mp (hn.symm.trans hm)
      simpa using h
    · rename_i h
      refine .refused fun hall ↦ h ?_
      simpa using hall n hn
  exact ((judges_number v).bind hrest).congr (by simp) (by simp)

/-- Sizes are judged in their order, each by itself. -/
theorem judges_positiveSizes (given vs : List Value) :
    Judges (positiveSizes given vs) (∀ v ∈ vs, IsNumber v)
      (∀ v ∈ vs, ∀ n, v.number? = some n → n.le 0 = false) := by
  induction vs with
  | nil => exact .ok (by simp) (by simp)
  | cons v vs ih =>
    have hrest : ∀ n, number v = .ok n → Judges
        (if n.le 0 then .error (.options (.sizes given))
          else positiveSizes given vs >>= fun ns ↦ pure (n :: ns) : Except Fault (List Number))
        (∀ v ∈ vs, IsNumber v)
        ((∀ n, v.number? = some n → n.le 0 = false) ∧
          ∀ v ∈ vs, ∀ n, v.number? = some n → n.le 0 = false) := by
      intro n hn
      rw [number_eq_ok_iff] at hn
      split
      · rename_i h
        refine .refused fun hall ↦ ?_
        rw [hall.1 n hn] at h
        cases h
      · rename_i h
        have hfirst : ∀ m, v.number? = some m → m.le 0 = false := by
          intro m hm
          obtain rfl : n = m := Option.some_inj.mp (hn.symm.trans hm)
          simpa using h
        have hmore := ih.bind (f := fun ns ↦ (pure (n :: ns) : Except Fault (List Number)))
          fun ns _ ↦ Judges.ok trivial trivial
        exact hmore.congr (by simp) (by simpa using fun _ ↦ hfirst)
    exact ((judges_number v).bind hrest).congr List.forall_mem_cons.symm
      (by rw [true_and, List.forall_mem_cons])

theorem judges_placeholderKind (v : Value) :
    Judges (placeholderKind v) True (∃ kind : PlaceholderKind, v = .string kind.text) := by
  unfold placeholderKind
  split
  · exact .ok trivial ⟨.trace, rfl⟩
  · exact .ok trivial ⟨.blur, rfl⟩
  · rename_i htrace hblur
    refine .refused ?_
    rintro ⟨kind, rfl⟩
    cases kind with
    | trace => exact htrace rfl
    | blur => exact hblur rfl

/-! ## Nested settings -/

/-- The members that settings of the alternate format may have. -/
def altFormatKeys : List String := ["format", "quality", "lossless", "force"]

/-- The members that settings of traced placeholders may have. -/
def traceKeys : List String :=
  ["background", "color", "threshold", "size", "turd_size", "turdSize"]

/-- A value in place of settings: if it is an object, it has no other members than these. -/
def IsSettings (keys : List String) (v : Value) : Prop :=
  ∀ members, v = .object members → ∀ m ∈ members, m.1 ∈ keys

/-- Members are set one after another as long as each is known. -/
theorem judges_foldlM {set : α → String × Value → Except Fault α} {known : String × Value → Prop}
    (hset : ∀ a m, Judges (set a m) (known m) True) (ms : List (String × Value)) (a : α) :
    Judges (ms.foldlM set a) (∀ m ∈ ms, known m) True := by
  induction ms generalizing a with
  | nil => exact .ok (by simp) trivial
  | cons m ms ih =>
    rw [List.foldlM_cons]
    exact ((hset a m).bind fun b _ ↦ ih b).congr List.forall_mem_cons.symm (by simp)

theorem judges_altFormat (ms : List (String × Value)) :
    Judges (AltFormat.ofMembers ms) (∀ m ∈ ms, m.1 ∈ altFormatKeys) True := by
  refine judges_foldlM (fun a m ↦ ?_) ms ({} : AltFormat)
  rw [AltFormat.setMember]
  split
  case h_5 => exact .mistyped (by simp_all [altFormatKeys])
  all_goals exact .ok (by simp_all [altFormatKeys]) trivial

theorem judges_setTrace (t : TraceSettings) (m : String × Value) :
    Judges (t.setMember m) (m.1 ∈ ["background", "color", "threshold", "size", "turd_size"])
      True := by
  rw [TraceSettings.setMember]
  split
  case h_6 => exact .mistyped (by simp_all)
  all_goals exact .ok (by simp_all) trivial

/-- Setting a member brings in no key but its own. -/
theorem forall_mem_setMember {P : String → Prop} {key : String} (v : Value)
    (ms : List (String × Value)) (hkey : P key) :
    (∀ m ∈ Json.setMember key v ms, P m.1) ↔ ∀ m ∈ ms, P m.1 := by
  induction ms with
  | nil => simp [Json.setMember, hkey]
  | cons m ms ih =>
    obtain ⟨k, w⟩ := m
    rw [Json.setMember]
    split
    · rename_i h
      simp [h]
    · simp only [List.forall_mem_cons, ih]

/-- The other spelling of a member counts as known. -/
theorem judges_traceSettings (ms : List (String × Value)) :
    Judges (TraceSettings.ofMembers ms) (∀ m ∈ ms, m.1 ∈ traceKeys) True := by
  refine (judges_foldlM judges_setTrace (TraceSettings.withTurdSize ms) {}).congr ?_ Iff.rfl
  rw [TraceSettings.withTurdSize]
  split
  · rename_i h
    have hne : ∀ m ∈ ms, m.1 ≠ "turdSize" := by
      intro m hm heq
      have hlookup := List.lookup_eq_none_iff.mp h m hm
      simp [heq] at hlookup
    refine forall₂_congr fun m hm ↦ ?_
    simp [traceKeys, hne m hm]
  · rw [forall_mem_setMember _ _ (by simp)]
    simp only [List.mem_filter, and_imp]
    refine forall₂_congr fun m _ ↦ ?_
    by_cases hm : m.1 = "turdSize" <;> simp [traceKeys, hm]

theorem judges_settings {read : List (String × Value) → Except Fault α} {keys : List String}
    (hread : ∀ ms, Judges (read ms) (∀ m ∈ ms, m.1 ∈ keys) True) (v : Value) :
    Judges (Settings.ofValue read v) (IsSettings keys v) True := by
  cases v with
  | object ms => exact ((hread ms).map Settings.given).congr (by simp [IsSettings]) Iff.rfl
  | null | bool | int | float | string | array => exact .ok (fun _ h ↦ (nomatch h)) trivial

/-! ## Drafts -/

/-- The fields that are lists. -/
def listFields : List Field := [.imgTagExtensions, .componentExtensions, .sizes, .breakpoints]

namespace Draft

/-- A draft in which every value has a type that its check can look at. -/
structure IsWellTyped (d : Draft) : Prop where
  isList : ∀ f ∈ listFields, IsList (d f)
  altFormatOptions : IsSettings altFormatKeys (d .altFormatOptions)
  traceOptions : IsSettings traceKeys (d .traceOptions)
  sizes : ∀ vs, items (d .sizes) = .ok vs → ∀ v ∈ vs, IsNumber v
  compressionLevel : IsNumber (d .compressionLevel)
  quality : IsNumber (d .quality)

/-- A draft in which no value that can be looked at is refused. -/
structure IsInRange (d : Draft) : Prop where
  placeholder : ∃ kind : PlaceholderKind, d .placeholder = .string kind.text
  sizes : ∀ vs, items (d .sizes) = .ok vs → ∀ v ∈ vs, ∀ n, v.number? = some n → n.le 0 = false
  breakpoints : ∀ vs bs, items (d .sizes) = .ok vs → items (d .breakpoints) = .ok bs →
    vs.length ≤ bs.length
  compressionLevel : ∀ n, (d .compressionLevel).number? = some n →
    Number.le 0 n = true ∧ n.le 9 = true
  quality : ∀ n, (d .quality).number? = some n → Number.le 1 n = true ∧ n.le 100 = true
  tagName : (d .tagName).truthy = true

end Draft

theorem length_of_positiveSizes {given vs : List Value} {ns : List Number}
    (h : positiveSizes given vs = .ok ns) : ns.length = vs.length := by
  induction vs generalizing ns with
  | nil =>
    cases h
    rfl
  | cons v vs ih =>
    obtain ⟨n, -, h⟩ := exists_of_bind_eq_ok h
    split at h
    · cases h
    · obtain ⟨ms, hms, h⟩ := exists_of_bind_eq_ok h
      cases h
      rw [List.length_cons, List.length_cons, ih hms]

/-- **Options are made of a draft by judging its types and ranges.** -/
theorem judges_ofDraft (d : Draft) : Judges (ofDraft d) d.IsWellTyped d.IsInRange := by
  have hlist {f : Field} (hf : f ∈ listFields) (h : d.IsWellTyped) : IsList (d f) := h.isList f hf
  rw [ofDraft]
  refine (judges_items _).step (hlist (by decide)) (fun _ ↦ trivial) fun _ _ himg _ ↦ ?_
  refine (judges_items _).step (hlist (by decide)) (fun _ ↦ trivial) fun _ _ hcomponent _ ↦ ?_
  refine (judges_items _).step (hlist (by decide)) (fun _ ↦ trivial) fun vs hvs hsizes _ ↦ ?_
  refine (judges_items _).step (hlist (by decide)) (fun _ ↦ trivial) fun bs hbs hbreakpoints _ ↦ ?_
  refine (judges_settings judges_altFormat _).step (·.altFormatOptions) (fun _ ↦ trivial)
    fun _ _ halt _ ↦ ?_
  refine (judges_settings judges_traceSettings _).step (·.traceOptions) (fun _ ↦ trivial)
    fun _ _ htrace _ ↦ ?_
  refine (judges_placeholderKind _).step (fun _ ↦ trivial) (·.placeholder)
    fun _ _ _ hplaceholder ↦ ?_
  refine (judges_positiveSizes vs vs).step (·.sizes vs hvs) (·.sizes vs hvs)
    fun ns hns hnumbers hpositive ↦ ?_
  dsimp only
  split
  · rename_i hlt
    rw [length_of_positiveSizes hns] at hlt
    exact .refused fun h ↦ absurd (h.breakpoints vs bs hvs hbs) (Nat.not_le.mpr hlt)
  rename_i hle
  rw [length_of_positiveSizes hns, Nat.not_lt] at hle
  refine (judges_inRange _ _ _ _).step (·.compressionLevel) (·.compressionLevel)
    fun _ _ hcompression hcompression' ↦ ?_
  refine (judges_inRange _ _ _ _).step (·.quality) (·.quality) fun _ _ hquality hquality' ↦ ?_
  split
  · rename_i hname
    exact .refused fun h ↦ by simp [h.tagName] at hname
  rename_i hname
  have hlists : ∀ f ∈ listFields, IsList (d f) := by
    simp only [listFields, List.forall_mem_cons]
    exact ⟨himg, hcomponent, hsizes, hbreakpoints, by simp⟩
  have hitems {ws : List Value} (hws : items (d .sizes) = .ok ws) : ws = vs :=
    Except.ok.inj (hws.symm.trans hvs)
  refine .ok ⟨hlists, halt, htrace, fun ws hws ↦ hitems hws ▸ hnumbers, hcompression, hquality⟩
    ⟨hplaceholder, fun ws hws ↦ hitems hws ▸ hpositive, fun ws cs hws hcs ↦ ?_, hcompression',
      hquality', by simpa using hname⟩
  rw [hitems hws, Except.ok.inj (hcs.symm.trans hbs)]
  exact hle

theorem exists_ofDraft_eq_ok_iff {d : Draft} :
    (∃ o, ofDraft d = .ok o) ↔ d.IsWellTyped ∧ d.IsInRange :=
  ⟨fun ⟨o, h⟩ ↦ (judges_ofDraft d).of_ok o h, fun h ↦ (judges_ofDraft d).exists_eq_ok h.1 h.2⟩

/-! ## What the checks give -/

/-- The fields that keep whatever value they were given. -/
def keptFields : List Field :=
  [.optimizeAll, .inlineBelow, .tagName, .outputDir, .publicDir, .sourceDir, .altFormat,
    .optimizeRemote, .remoteTimeout, .downloadDir, .placeholderWidth]

/-- Each field of the options is what its own check makes of the value in the draft. -/
structure Reads (d : Draft) (o : Options) : Prop where
  imgTagExtensions : items (d .imgTagExtensions) = .ok o.imgTagExtensions
  componentExtensions : items (d .componentExtensions) = .ok o.componentExtensions
  sizes : ∃ vs, items (d .sizes) = .ok vs ∧ positiveSizes vs vs = .ok o.sizes
  breakpoints : items (d .breakpoints) = .ok o.breakpoints
  altFormatOptions : Settings.ofValue AltFormat.ofMembers (d .altFormatOptions) = .ok o.altFormatOptions
  traceOptions : Settings.ofValue TraceSettings.ofMembers (d .traceOptions) = .ok o.traceOptions
  placeholder : placeholderKind (d .placeholder) = .ok o.placeholder
  paired : o.sizes.length ≤ o.breakpoints.length
  compressionLevel : inRange 0 9 .compressionLevel (d .compressionLevel) = .ok o.compressionLevel
  quality : inRange 1 100 .quality (d .quality) = .ok o.quality
  tagName : o.tagName.truthy = true
  kept : ∀ f ∈ keptFields, d f = o.draft f

/-- The checks succeed together, and none looks at what another one makes. -/
theorem ofDraft_eq_ok_iff {d : Draft} {o : Options} : ofDraft d = .ok o ↔ Reads d o := by
  constructor
  · intro h
    obtain ⟨imgs, himgs, h⟩ := exists_of_bind_eq_ok h
    obtain ⟨components, hcomponents, h⟩ := exists_of_bind_eq_ok h
    obtain ⟨vs, hvs, h⟩ := exists_of_bind_eq_ok h
    obtain ⟨bs, hbs, h⟩ := exists_of_bind_eq_ok h
    obtain ⟨alt, halt, h⟩ := exists_of_bind_eq_ok h
    obtain ⟨trace, htrace, h⟩ := exists_of_bind_eq_ok h
    obtain ⟨kind, hkind, h⟩ := exists_of_bind_eq_ok h
    obtain ⟨ns, hns, h⟩ := exists_of_bind_eq_ok h
    dsimp only at h
    split at h
    · cases h
    rename_i hle
    obtain ⟨level, hlevel, h⟩ := exists_of_bind_eq_ok h
    obtain ⟨quality, hquality, h⟩ := exists_of_bind_eq_ok h
    split at h
    · cases h
    rename_i hname
    cases h
    exact ⟨himgs, hcomponents, ⟨vs, hvs, hns⟩, hbs, halt, htrace, hkind, Nat.not_lt.mp hle, hlevel,
      hquality, by simpa using hname, by simp [keptFields, draft]⟩
  · intro h
    obtain ⟨vs, hvs, hns⟩ := h.sizes
    have hpaired : ¬ o.breakpoints.length < o.sizes.length := Nat.not_lt.mpr h.paired
    have hkept := h.kept
    simp only [keptFields, List.forall_mem_cons, draft] at hkept
    obtain ⟨h₁, h₂, h₃, h₄, h₅, h₆, h₇, h₈, h₉, h₁₀, h₁₁, -⟩ := hkept
    simp only [ofDraft, h.imgTagExtensions, h.componentExtensions, hvs, h.breakpoints,
      h.altFormatOptions, h.traceOptions, h.placeholder, hns, h.compressionLevel, h.quality,
      bind, Except.bind, if_neg hpaired, h₁, h₂, h₃, h₄, h₅, h₆, h₇, h₈, h₉, h₁₀, h₁₁, h.tagName]
    rfl

/-! ## Accepted options -/

/-- What is known of options that have been accepted. -/
structure IsAccepted (o : Options) : Prop where
  altFormatOptions :
    IsSettings altFormatKeys (o.altFormatOptions.toValue AltFormat.toValue)
  traceOptions : IsSettings traceKeys (o.traceOptions.toValue TraceSettings.toValue)
  sizes : ∀ n ∈ o.sizes, n.le 0 = false
  breakpoints : o.sizes.length ≤ o.breakpoints.length
  compressionLevel : Number.le 0 o.compressionLevel = true ∧ o.compressionLevel.le 9 = true
  quality : Number.le 1 o.quality = true ∧ o.quality.le 100 = true
  tagName : o.tagName.truthy = true

theorem isSettings_of_ofValue {read : List (String × Value) → Except Fault α}
    {write : α → Value} {keys : List String} (hwrite : ∀ a, IsSettings keys (write a)) {v : Value}
    {s : Settings α} (h : Settings.ofValue read v = .ok s) : IsSettings keys (s.toValue write) := by
  cases v with
  | object ms =>
    rw [Settings.ofValue] at h
    cases hread : read ms with
    | error e =>
      rw [hread] at h
      cases h
    | ok a =>
      rw [hread] at h
      cases h
      exact hwrite a
  | null | bool | int | float | string | array =>
    cases h
    exact fun _ h ↦ (nomatch h)

theorem isSettings_altFormat (a : AltFormat) : IsSettings altFormatKeys a.toValue := by
  intro ms hms
  cases hms
  simp [altFormatKeys]

theorem isSettings_traceSettings (t : TraceSettings) : IsSettings traceKeys t.toValue := by
  intro ms hms
  cases hms
  simp [traceKeys]

theorem le_of_inRange_eq_ok {low high n : Number} {reason : Number → OptionsFault} {v : Value}
    (h : inRange low high reason v = .ok n) : low.le n = true ∧ n.le high = true := by
  obtain ⟨m, -, h⟩ := exists_of_bind_eq_ok h
  split at h
  · rename_i hm
    cases h
    simpa using hm
  · cases h

theorem le_of_mem_positiveSizes {given vs : List Value} {ns : List Number}
    (h : positiveSizes given vs = .ok ns) : ∀ n ∈ ns, n.le 0 = false := by
  induction vs generalizing ns with
  | nil =>
    cases h
    simp
  | cons v vs ih =>
    obtain ⟨n, -, h⟩ := exists_of_bind_eq_ok h
    split at h
    · cases h
    · rename_i hn
      obtain ⟨ms, hms, h⟩ := exists_of_bind_eq_ok h
      cases h
      exact List.forall_mem_cons.mpr ⟨by simpa using hn, ih hms⟩

theorem isAccepted_of_ofDraft {d : Draft} {o : Options} (h : ofDraft d = .ok o) : o.IsAccepted := by
  have hreads := ofDraft_eq_ok_iff.mp h
  obtain ⟨vs, -, hsizes⟩ := hreads.sizes
  exact {
    altFormatOptions := isSettings_of_ofValue isSettings_altFormat hreads.altFormatOptions
    traceOptions := isSettings_of_ofValue isSettings_traceSettings hreads.traceOptions
    sizes := le_of_mem_positiveSizes hsizes
    breakpoints := hreads.paired
    compressionLevel := le_of_inRange_eq_ok hreads.compressionLevel
    quality := le_of_inRange_eq_ok hreads.quality
    tagName := hreads.tagName }

/-- Accepted options are accepted again from the draft that they give. -/
theorem IsAccepted.draft {o : Options} (h : o.IsAccepted) :
    o.draft.IsWellTyped ∧ o.draft.IsInRange := by
  have hsizes {vs : List Value} (hvs : items (o.draft .sizes) = .ok vs) :
      vs = o.sizes.map .ofNumber := (Except.ok.inj hvs).symm
  have hnumber {P : Number → Prop} {n : Number} (hn : P n) :
      ∀ m, (Value.ofNumber n).number? = some m → P m := by
    intro m hm
    rw [Json.Value.number?_ofNumber] at hm
    exact Option.some_inj.mp hm ▸ hn
  have hisNumber (n : Number) : IsNumber (.ofNumber n) := by
    rw [IsNumber, Json.Value.number?_ofNumber]
    rfl
  constructor
  · refine ⟨?_, h.altFormatOptions, h.traceOptions, fun vs hvs v hv ↦ ?_, hisNumber _, hisNumber _⟩
    · simp only [listFields, List.forall_mem_cons]
      exact ⟨trivial, trivial, trivial, trivial, by simp⟩
    · rw [hsizes hvs] at hv
      obtain ⟨n, -, rfl⟩ := List.mem_map.mp hv
      exact hisNumber n
  · refine ⟨⟨o.placeholder, rfl⟩, fun vs hvs v hv ↦ ?_, fun vs bs hvs hbs ↦ ?_,
      hnumber h.compressionLevel, hnumber h.quality, h.tagName⟩
    · rw [hsizes hvs] at hv
      obtain ⟨n, hn, rfl⟩ := List.mem_map.mp hv
      exact hnumber (h.sizes n hn)
    · rw [hsizes hvs, ← Except.ok.inj hbs, List.length_map]
      exact h.breakpoints

/-- The fields that the command line gives. -/
def overriddenFields : List Field := [.sourceDir, .publicDir, .placeholder]

/-- Whether a field may be given a value without anything being refused for it. -/
structure IsFree (f : Field) (v : Value) : Prop where
  mem : f ∈ overriddenFields
  placeholder : f = .placeholder → ∃ kind : PlaceholderKind, v = .string kind.text

theorem accepted_set {d : Draft} {f : Field} {v : Value} (hfree : IsFree f v)
    (h : d.IsWellTyped ∧ d.IsInRange) : (d.set f v).IsWellTyped ∧ (d.set f v).IsInRange := by
  have hsame {g : Field} (hg : g ∉ overriddenFields) : d.set f v g = d g :=
    d.set_of_ne v fun heq ↦ hg (heq ▸ hfree.mem)
  have hlists : ∀ g ∈ listFields, g ∉ overriddenFields := by decide
  have hplaceholder : ∃ kind : PlaceholderKind, d.set f v .placeholder = .string kind.text := by
    by_cases hf : f = .placeholder
    · subst hf
      rw [Draft.set_self]
      exact hfree.placeholder rfl
    · rw [d.set_of_ne v (Ne.symm hf)]
      exact h.2.placeholder
  have halt := hsame (g := .altFormatOptions) (by decide)
  have htrace := hsame (g := .traceOptions) (by decide)
  have hsizes := hsame (g := .sizes) (by decide)
  have hbreakpoints := hsame (g := .breakpoints) (by decide)
  have hlevel := hsame (g := .compressionLevel) (by decide)
  have hquality := hsame (g := .quality) (by decide)
  have hname := hsame (g := .tagName) (by decide)
  constructor
  · refine ⟨fun g hg ↦ ?_, halt ▸ h.1.altFormatOptions, htrace ▸ h.1.traceOptions,
      hsizes ▸ h.1.sizes, hlevel ▸ h.1.compressionLevel, hquality ▸ h.1.quality⟩
    rw [hsame (hlists g hg)]
    exact h.1.isList g hg
  · exact ⟨hplaceholder, hsizes ▸ h.2.sizes, hsizes ▸ hbreakpoints ▸ h.2.breakpoints,
      hlevel ▸ h.2.compressionLevel, hquality ▸ h.2.quality, hname ▸ h.2.tagName⟩

/-- Free fields given by name leave accepted options accepted. -/
theorem exists_withOverrides_eq_ok {o : Options} (ho : o.IsAccepted) {ms : List (String × Value)}
    (hms : ∀ m ∈ ms, ∃ f, Field.ofName? m.1 = some f ∧ IsFree f m.2) :
    ∃ o', o.withOverrides ms = .ok o' := by
  have hset : ∀ (ms : List (String × Value)) (d : Draft),
      (∀ m ∈ ms, ∃ f, Field.ofName? m.1 = some f ∧ IsFree f m.2) →
      d.IsWellTyped ∧ d.IsInRange → ∃ d', setNamed d ms = .ok d' ∧ d'.IsWellTyped ∧ d'.IsInRange := by
    intro ms
    induction ms with
    | nil => exact fun d _ h ↦ ⟨d, rfl, h⟩
    | cons m ms ih =>
      intro d hms h
      obtain ⟨⟨f, hf, hfree⟩, hms⟩ := List.forall_mem_cons.mp hms
      rw [setNamed, hf]
      exact ih _ hms (accepted_set hfree h)
  obtain ⟨d, hd, hok⟩ := hset ms o.draft hms ho.draft
  obtain ⟨o', ho'⟩ := exists_ofDraft_eq_ok_iff.mpr hok
  refine ⟨o', ?_⟩
  rw [withOverrides, hd]
  exact ho'

end ResponsiveImage.Options
