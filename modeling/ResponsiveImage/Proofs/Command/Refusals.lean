import ResponsiveImage.Picture.HeaderCodec
import ResponsiveImage.Proofs.Command.InPlace
import ResponsiveImage.Proofs.Options.Checks

/-!
# Refused options

A command whose options cannot be made ends before it has done anything.  If the file of options
cannot be read, or something in it is out of range, the options are refused and the command ends with
the code 2.  A value of the wrong type is a fault that no command expects, so the command does not end
at all: the fault escapes it (`run_rewrite_unstarted`).  Nothing is changed in any of these cases, nor
if a file is missing.
-/

namespace ResponsiveImage

open Job
open Json (Value)

namespace Json

/-- An object of one member is read by reading its name and its value. -/
theorem readMembers_of_one {rest ds after left : List Char} {v : Value} {r : Rest rest}
    {r' : Rest (skipSpace after)} (hname : readString (rest.length + 1) rest = .ok (ds, r))
    (hcolon : r.trim.1 = ':' :: after) (hvalue : readValue (skipSpace after) = .ok (v, r'))
    (hend : r'.trim.1 = '\x7d' :: left) :
    ∃ r, readMembers ('"' :: rest) = .ok ([(String.ofList ds, v)], r) ∧ r.1 = left := by
  rw [readMembers, hname]
  dsimp only [bind, Except.bind]
  split
  · rename_i after' h
    obtain rfl : after = after' := by
      rw [hcolon] at h
      simpa using h
    rw [hvalue]
    dsimp only
    split
    · rename_i h'
      rw [hend] at h'
      cases h'
      exact ⟨_, rfl, rfl⟩
    · rename_i h'
      rw [hend] at h'
      cases h'
    · rename_i hnot _
      exact absurd hend (hnot _)
  · rename_i hnot
    exact absurd hcolon (hnot _)

theorem readValue_of_members (rest : List Char) {left : List Char} {c : Char}
    {ms : List (String × Value)} (hc : c ≠ '\x7d') (hrest : skipSpace rest = c :: left)
    {r : Rest (skipSpace rest)} (h : readMembers (skipSpace rest) = .ok (ms, r)) :
    ∃ r', readValue ('\x7b' :: rest) =
      .ok (.object (ms.foldl (fun seen m ↦ setMember m.1 m.2 seen) []), r') ∧ r'.1 = r.1 := by
  rw [readValue, h]
  split
  · rename_i heq
    rw [hrest] at heq
    exact absurd (List.cons_eq_cons.mp heq).1 hc
  · exact ⟨_, rfl, rfl⟩

end Json

namespace Options

variable {p? : Option Path} {overrides : List (String × Value)} {w w' : Workspace} {f : Fault}

/-- The members that a file of options holds; without a file there are none. -/
def AreMembers (p? : Option Path) (w : Workspace) (members : List (String × Value)) : Prop :=
  match p? with
  | none => members = []
  | some p => ∃ text, ((readText p).run w).1 = .ok text ∧ Json.read text = .ok (.object members)

theorem AreMembers.unique {ms ms' : List (String × Value)} (h : AreMembers p? w ms)
    (h' : AreMembers p? w ms') : ms = ms' := by
  cases p? with
  | none => exact h.trans h'.symm
  | some p =>
    obtain ⟨text, htext, hms⟩ := h
    obtain ⟨text', htext', hms'⟩ := h'
    rw [htext] at htext'
    cases htext'
    rw [hms] at hms'
    cases hms'
    rfl

/-- The draft that a file of options gives, each of whose members is known. -/
def IsDraftOf (p? : Option Path) (w : Workspace) (d : Draft) : Prop :=
  ∃ members, AreMembers p? w members ∧ setMembers defaultDraft members = .ok d

theorem IsDraftOf.unique {d d' : Draft} (h : IsDraftOf p? w d) (h' : IsDraftOf p? w d') : d = d' := by
  obtain ⟨ms, hms, hd⟩ := h
  obtain ⟨ms', hms', hd'⟩ := h'
  obtain rfl := hms.unique hms'
  exact Except.ok.inj (hd.symm.trans hd')

/-! ## Reading a file of options -/

theorem isRefusal_of_stat {p : Path} (h : ((stat p).run w).1 = .error f) :
    Command.isRefusal f = true := by
  rw [run_stat] at h
  split at h
  · cases h
    rfl
  · split at h
    · cases h
    · cases h
      rfl

theorem isRefusal_of_readFile {p : Path} (h : ((readFile p).run w).1 = .error f) :
    Command.isRefusal f = true := by
  rw [readFile, run_bind] at h
  split at h
  · split at h
    · cases h
    · cases h
      rfl
  · rename_i hstat
    cases h
    exact isRefusal_of_stat (congrArg Prod.fst hstat)

/-- Whatever keeps a file of options from being read is a refusal. -/
theorem isRefusal_of_readText {p : Path} (h : ((readText p).run w).1 = .error f) :
    Command.isRefusal f = true := by
  rw [readText, run_bind] at h
  split at h
  · dsimp only at h
    split at h
    · cases h
    · cases h
      rfl
  · rename_i hread
    cases h
    exact isRefusal_of_readFile (congrArg Prod.fst hread)

theorem isRefusal_of_readMapping {p : Path} (h : ((readMapping p).run w).1 = .error f) :
    Command.isRefusal f = true := by
  rw [readMapping, run_bind] at h
  split at h
  · split at h
    · cases h
      rfl
    · cases h
    · cases h
      rfl
  · rename_i hread
    cases h
    exact isRefusal_of_readText (congrArg Prod.fst hread)

theorem isRefusal_of_setMembers {d : Draft} {ms : List (String × Value)}
    (h : setMembers d ms = .error f) : Command.isRefusal f = true := by
  induction ms generalizing d with
  | nil => cases h
  | cons m ms ih =>
    rw [setMembers] at h
    split at h
    · exact ih h
    · cases h
      rfl

/-! ## Making options -/

/-- The options that members give, with what is given beside them. -/
def settle (overrides members : List (String × Value)) : Except Fault Options := do
  let options ← ofMapping members
  if (givenOf overrides).isEmpty then return options else options.withOverrides (givenOf overrides)

theorem run_settle (overrides members : List (String × Value)) (w : Workspace) :
    (do
      let options ← Job.ofExcept id (ofMapping members)
      if (givenOf overrides).isEmpty then return options
      else Job.ofExcept id (options.withOverrides (givenOf overrides)) : Job Options).run w =
      (settle overrides members, w) := by
  rw [settle]
  cases ofMapping members with
  | error f => rfl
  | ok o =>
    rw [run_bind, run_ofExcept_ok]
    dsimp only [bind, Except.bind]
    split
    · rfl
    · cases o.withOverrides (givenOf overrides) <;> rfl

theorem run_load_of_areMembers {members : List (String × Value)} (h : AreMembers p? w members) :
    ((load p? overrides).run w).1 = settle overrides members := by
  cases p? with
  | none =>
    obtain rfl : members = [] := h
    rw [load, run_bind, run_pure]
    exact congrArg Prod.fst (run_settle overrides [] w)
  | some p =>
    obtain ⟨text, htext, hmembers⟩ := h
    have hread : (readMapping p).run w = (.ok members, w) := by
      rw [readMapping, run_bind_of_ok (Prod.ext htext (looks_readText p w)), hmembers]
      rfl
    rw [load, run_bind_of_ok hread]
    exact congrArg Prod.fst (run_settle overrides members w)

/-- A file that holds no members is refused. -/
theorem run_load_of_not_areMembers (overrides : List (String × Value))
    (h : ¬ ∃ members, AreMembers p? w members) :
    ∃ f, ((load p? overrides).run w).1 = .error f ∧ Command.isRefusal f = true := by
  cases p? with
  | none => exact absurd ⟨[], rfl⟩ h
  | some p =>
    cases hread : (readMapping p).run w with
    | mk r w₁ =>
      cases r with
      | error f =>
        refine ⟨f, ?_, isRefusal_of_readMapping (congrArg Prod.fst hread)⟩
        rw [load, run_bind_of_error hread]
      | ok members =>
        refine absurd ⟨members, ?_⟩ h
        rw [readMapping, run_bind_eq_ok] at hread
        obtain ⟨text, w₂, htext, hread⟩ := hread
        refine ⟨text, congrArg Prod.fst htext, ?_⟩
        split at hread
        · cases hread
        · rename_i hmembers
          cases hread
          exact hmembers
        · cases hread

/-- What is given beside a file of options, if nothing can be refused for it. -/
def AreFree (overrides : List (String × Value)) : Prop :=
  ∀ m ∈ givenOf overrides, ∃ f, Field.ofName? m.1 = some f ∧ IsFree f m.2

/-- Options fail to be made of members if some member is unknown or the draft is not accepted. -/
theorem settle_eq_error {members : List (String × Value)} (hfree : AreFree overrides)
    (h : settle overrides members = .error f) :
    setMembers defaultDraft members = .error f ∨
      ∃ d, setMembers defaultDraft members = .ok d ∧ ofDraft d = .error f := by
  rw [settle, ofMapping] at h
  cases hd : setMembers defaultDraft members with
  | error e =>
    rw [hd] at h
    cases h
    exact .inl rfl
  | ok d =>
    rw [hd] at h
    dsimp only [bind, Except.bind] at h
    cases ho : ofDraft d with
    | error e =>
      rw [ho] at h
      cases h
      exact .inr ⟨d, rfl, ho⟩
    | ok o =>
      obtain ⟨o', ho'⟩ := exists_withOverrides_eq_ok (isAccepted_of_ofDraft ho) hfree
      rw [ho] at h
      dsimp only at h
      split at h
      · cases h
      · rw [ho'] at h
        cases h

/-- Options fail to be made in one of two ways: they are refused, which they are not if the draft of a
file is in range, or the draft of the file is ill typed. -/
theorem load_eq_error (hfree : AreFree overrides)
    (h : ((load p? overrides).run w).1 = .error f) :
    Command.isRefusal f = true ∧ (∀ d, IsDraftOf p? w d → ¬ d.IsInRange) ∨
      f = .mistyped ∧ ∃ d, IsDraftOf p? w d ∧ ¬ d.IsWellTyped := by
  by_cases hexists : ∃ members, AreMembers p? w members
  · obtain ⟨members, hmembers⟩ := hexists
    rw [run_load_of_areMembers hmembers] at h
    rcases settle_eq_error hfree h with hset | ⟨d, hd, hdraft⟩
    · refine .inl ⟨isRefusal_of_setMembers hset, fun d ⟨ms, hms, hd⟩ ↦ ?_⟩
      rw [hms.unique hmembers, hset] at hd
      cases hd
    · have hdraftOf : IsDraftOf p? w d := ⟨members, hmembers, hd⟩
      rcases (judges_ofDraft d).of_error f hdraft with ⟨rfl, htyped⟩ | ⟨⟨reason, rfl⟩, hrange⟩
      · exact .inr ⟨rfl, d, hdraftOf, htyped⟩
      · exact .inl ⟨rfl, fun d' hd' ↦ hd'.unique hdraftOf ▸ hrange⟩
  · obtain ⟨e, he, hrefusal⟩ := run_load_of_not_areMembers overrides hexists
    rw [he] at h
    cases h
    exact .inl ⟨hrefusal, fun d ⟨ms, hms, _⟩ ↦ absurd ⟨ms, hms⟩ hexists⟩

/-- Options are made exactly if the draft of the file is well typed and in range. -/
theorem exists_load_eq_ok_iff (hfree : AreFree overrides) :
    (∃ o, ((load p? overrides).run w).1 = .ok o) ↔
      ∃ d, IsDraftOf p? w d ∧ d.IsWellTyped ∧ d.IsInRange := by
  constructor
  · rintro ⟨o, h⟩
    by_cases hexists : ∃ members, AreMembers p? w members
    · obtain ⟨members, hmembers⟩ := hexists
      rw [run_load_of_areMembers hmembers] at h
      obtain ⟨o₁, h₁, -⟩ := exists_of_bind_eq_ok h
      obtain ⟨d, hd, h₂⟩ := exists_of_bind_eq_ok h₁
      exact ⟨d, ⟨members, hmembers, hd⟩, (judges_ofDraft d).of_ok o₁ h₂⟩
    · obtain ⟨e, he, -⟩ := run_load_of_not_areMembers overrides hexists
      rw [he] at h
      cases h
  · rintro ⟨d, hd, htyped, hrange⟩
    cases h : ((load p? overrides).run w).1 with
    | ok o => exact ⟨o, rfl⟩
    | error f =>
      rcases load_eq_error hfree h with ⟨-, hrefused⟩ | ⟨-, d', hd', hill⟩
      · exact absurd hrange (hrefused d hd)
      · exact absurd (hd.unique hd' ▸ htyped) hill

end Options

namespace Command

variable {placeholderOf : PlaceholderOf} {a : RewriteArguments} {w w' : Workspace}

/-- The command line gives texts for directories and a placeholder that there is. -/
theorem areFree_overridesOf (a : RewriteArguments) : Options.AreFree (overridesOf a) := by
  intro m hm
  obtain ⟨hm, hgiven⟩ := List.mem_filter.mp hm
  simp only [overridesOf, List.mem_cons, List.not_mem_nil, or_false] at hm
  rcases hm with rfl | rfl | rfl
  · exact ⟨.sourceDir, rfl, by decide, fun h ↦ (nomatch h)⟩
  · exact ⟨.publicDir, rfl, by decide, fun h ↦ (nomatch h)⟩
  · refine ⟨.placeholder, rfl, by decide, fun _ ↦ ?_⟩
    cases hkind : a.placeholder with
    | none =>
      rw [hkind] at hgiven
      cases hgiven
    | some kind => exact ⟨kind, rfl⟩

/-- The entry that says that options are refused. -/
def refusalEntry (f : Fault) : LogEntry :=
  ⟨.error, .command, .plain ("Invalid options: " ++ f.message)⟩

/-- Each path that is found missing is one of the paths looked at, and leads to no file. -/
theorem of_mem_missing {files absent : List Path} (h : ((missing files).run w).1 = .ok absent) :
    ∀ p ∈ absent, p ∈ files ∧ ((isFile p).run w).1 = .ok false := by
  have hloop : ∀ (ps seen absent : List Path),
      ((List.filterMapM.loop (fun p ↦ do if ← isFile p then return none else return some p)
        ps seen : Job (List Path)).run w).1 = .ok absent →
      ∀ p ∈ absent, p ∈ seen ∨ p ∈ ps ∧ ((isFile p).run w).1 = .ok false := by
    intro ps
    induction ps with
    | nil =>
      intro seen absent h p hp
      cases h
      exact .inl (List.mem_reverse.mp hp)
    | cons q ps ih =>
      intro seen absent h p hp
      have hlooks := looks_isFile q w
      cases hq : (isFile q).run w with
      | mk r w₁ =>
        rw [hq] at hlooks
        obtain rfl : w₁ = w := hlooks
        cases r with
        | error f =>
          rw [List.filterMapM.loop, run_bind_of_error (run_bind_of_error hq)] at h
          cases h
        | ok found =>
          cases found with
          | true =>
            rw [List.filterMapM.loop, run_bind_of_ok ((run_bind_of_ok hq).trans rfl)] at h
            exact (ih _ _ h p hp).imp_right fun hmem ↦ ⟨List.mem_cons_of_mem q hmem.1, hmem.2⟩
          | false =>
            rw [List.filterMapM.loop, run_bind_of_ok ((run_bind_of_ok hq).trans rfl)] at h
            rcases ih _ _ h p hp with hseen | hmem
            · rcases List.mem_cons.mp hseen with rfl | hseen
              · exact .inr ⟨List.mem_cons_self, congrArg Prod.fst hq⟩
              · exact .inl hseen
            · exact .inr ⟨List.mem_cons_of_mem q hmem.1, hmem.2⟩
  exact fun p hp ↦ (hloop files [] absent h p hp).resolve_left (by simp)

theorem run_forM_log (level : Level) (channel : Channel) (text : Path → String) (ps : List Path)
    (w : Workspace) :
    (ps.forM fun p ↦ log level channel (text p)).run w =
      (.ok (), { w with log := w.log ++ ps.map fun p ↦ ⟨level, channel, .plain (text p)⟩ }) := by
  induction ps generalizing w with
  | nil => simp
  | cons p ps ih =>
    rw [List.forM, run_bind_of_ok (show (log level channel (text p)).run w = _ from rfl), ih]
    simp

theorem code_of_rewriteFiles [Codec] {o : Options} {placeholder : Placeholder} {inPlace : Bool}
    {files : List Path} {result : Result}
    (h : (rewriteFiles o placeholder inPlace files).run w = (.ok result, w')) : result.code = 0 := by
  rw [rewriteFiles, run_bind_eq_ok] at h
  obtain ⟨_, _, -, h⟩ := h
  obtain ⟨_, _, -, h⟩ := run_bind_eq_ok.mp h
  obtain ⟨_, _, -, h⟩ := run_bind_eq_ok.mp h
  obtain ⟨_, _, -, h⟩ := run_bind_eq_ok.mp h
  obtain ⟨_, _, -, h⟩ := run_bind_eq_ok.mp h
  cases h
  rfl

/-- **A command that does not come to rewriting changes nothing.**  Options are made exactly if their
draft is well typed and in range.  Otherwise the command ends with the code 2, unless it fails for a
draft that is ill typed, which it always does if the draft is in range.  It ends with the code 1 if a
file is missing. -/
theorem run_rewrite_unstarted [Codec] {r : Except Fault Result}
    (h : (run placeholderOf (.rewrite a)).run w = (r, w')) :
    ((∃ o, ((Options.load a.config (overridesOf a)).run w).1 = .ok o) ↔
      ∃ d, Options.IsDraftOf a.config w d ∧ d.IsWellTyped ∧ d.IsInRange) ∧
    (∀ f, ((Options.load a.config (overridesOf a)).run w).1 = .error f →
      (r = .ok { code := 2 } ∧ w' = { w with log := w.log ++ [refusalEntry f] } ∧
        ∀ d, Options.IsDraftOf a.config w d → ¬ d.IsInRange) ∨
      (r = .error .mistyped ∧ w' = w ∧ ∃ d, Options.IsDraftOf a.config w d ∧ ¬ d.IsWellTyped)) ∧
    ∀ result, r = .ok result → result.code = 1 →
      w'.files = w.files ∧ w'.requests = w.requests ∧
        ∃ p ∈ a.files, ((isFile p).run w).1 = .ok false := by
  have hfree := areFree_overridesOf a
  have hload := Options.looks_load a.config (overridesOf a) w
  rw [run, rewrite, run_bind_of_ok (run_attempt _ _), hload] at h
  refine ⟨Options.exists_load_eq_ok_iff hfree, fun f hf ↦ ?_, fun result hresult hcode ↦ ?_⟩
  · rw [hf] at h
    dsimp only at h
    rcases Options.load_eq_error hfree hf with ⟨hrefusal, hd⟩ | ⟨rfl, hd⟩
    · rw [if_pos hrefusal] at h
      cases h
      exact .inl ⟨rfl, rfl, hd⟩
    · cases h
      exact .inr ⟨rfl, rfl, hd⟩
  · subst hresult
    cases hoptions : ((Options.load a.config (overridesOf a)).run w).1 with
    | error f =>
      rw [hoptions] at h
      dsimp only at h
      split at h
      · cases h
        cases hcode
      · cases h
    | ok o =>
      rw [hoptions, run_bind_eq_ok] at h
      obtain ⟨absent, w₁, habsent, h⟩ := h
      obtain rfl := (looks_missing a.files).eq habsent
      split at h
      · rw [code_of_rewriteFiles h] at hcode
        cases hcode
      · rename_i hsome
        rw [run_bind_of_ok (run_forM_log _ _ _ _ _)] at h
        cases h
        obtain ⟨p, ps, rfl⟩ := List.exists_cons_of_ne_nil fun h ↦ hsome (List.isEmpty_iff.mpr h)
        exact ⟨rfl, rfl, p, of_mem_missing (congrArg Prod.fst habsent) p List.mem_cons_self⟩

/-- The text of a file of options that gives a number in place of a list. -/
def numberForListText : List Char :=
  ['\x7b', '"', 's', 'i', 'z', 'e', 's', '"', ':', '5', '\x7d']

def numberForList : Workspace where
  cwd := []
  files := ⟨[(["options.json"], .file (.bytes (Text.Utf8.encode numberForListText)))]⟩

def numberForListArguments : RewriteArguments :=
  { files := [.ofString "a.svelte"], config := some (.ofString "options.json") }

theorem read_numberForListText : Json.read numberForListText = .ok (.object [("sizes", .int 5)]) := by
  have hnumber : Json.readValue ['5', '\x7d'] = .ok (.int 5, ⟨['\x7d'], by decide⟩) := by
    rw [Json.readValue.eq_def]
    rfl
  have hname : Json.readString (['s', 'i', 'z', 'e', 's', '"', ':', '5', '\x7d'].length + 1)
      ['s', 'i', 'z', 'e', 's', '"', ':', '5', '\x7d'] =
      .ok (['s', 'i', 'z', 'e', 's'], ⟨[':', '5', '\x7d'], by decide⟩) := by
    simp [Json.readString, bind, Except.bind, pure, Except.pure]
  obtain ⟨r, hmembers, hr⟩ := Json.readMembers_of_one hname rfl hnumber rfl
  obtain ⟨r', hvalue, hr'⟩ := Json.readValue_of_members
    ['"', 's', 'i', 'z', 'e', 's', '"', ':', '5', '\x7d'] (c := '"') (by decide) rfl hmembers
  rw [Json.read, numberForListText, if_neg (by decide)]
  change (Json.readValue ['\x7b', '"', 's', 'i', 'z', 'e', 's', '"', ':', '5', '\x7d'] >>= _) = _
  rw [hvalue]
  dsimp only [bind, Except.bind]
  rw [hr', hr]
  rfl

theorem areMembers_numberForList :
    Options.AreMembers numberForListArguments.config numberForList [("sizes", .int 5)] :=
  ⟨numberForListText, eq_ok_of_toOption (by decide +kernel), read_numberForListText⟩

/-- The draft is wrong in its types and in nothing else. -/
theorem isInRange_numberForList : (Options.defaultDraft.set .sizes (.int 5)).IsInRange where
  placeholder := ⟨.trace, rfl⟩
  sizes _ h := nomatch h
  breakpoints _ _ h := nomatch h
  compressionLevel n h := by
    obtain rfl : Number.int 8 = n := Option.some_inj.mp h
    decide
  quality n h := by
    obtain rfl : Number.int 70 = n := Option.some_inj.mp h
    decide
  tagName := rfl

open scoped HeaderCodec

/-- A number in place of a list is a fault that escapes the command. -/
theorem run_rewrite_unstarted_mistyped :
    (run Placeholder.label (.rewrite numberForListArguments)).run numberForList =
      (.error .mistyped, numberForList) := by
  have hload : ((Options.load numberForListArguments.config
      (overridesOf numberForListArguments)).run numberForList).1 = .error .mistyped := by
    rw [Options.run_load_of_areMembers areMembers_numberForList]
    rfl
  have hdraft : Options.IsDraftOf numberForListArguments.config numberForList
      (Options.defaultDraft.set .sizes (.int 5)) := ⟨_, areMembers_numberForList, rfl⟩
  have hrun : (run Placeholder.label (.rewrite numberForListArguments)).run numberForList =
      (((run Placeholder.label (.rewrite numberForListArguments)).run numberForList).1,
        ((run Placeholder.label (.rewrite numberForListArguments)).run numberForList).2) := rfl
  rcases (run_rewrite_unstarted hrun).2.1 .mistyped hload with ⟨-, -, hrefused⟩ | ⟨hr, hw, -⟩
  · exact absurd isInRange_numberForList (hrefused _ hdraft)
  · rw [hrun, hr, hw]

end Command

end ResponsiveImage
