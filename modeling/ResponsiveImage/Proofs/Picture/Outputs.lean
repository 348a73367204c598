import ResponsiveImage.Picture.Variant
import ResponsiveImage.Proofs.Job.Changing
import ResponsiveImage.Proofs.Number.Text
import ResponsiveImage.Proofs.Path.Urls
import ResponsiveImage.Proofs.Text.Case

/-!
# What is made from an image

All files that are made from an image lie in one directory, under names made from that of the image.
The copy of the image is written over whatever file had its name.  A sized rendition is only made
where nothing stands, so that no file that is there is ever changed by it, and it has the dimensions
of its size.
-/

namespace ResponsiveImage

open Workspace (Evolves)

/-! ## Names of outputs -/

theorem Number.slash_not_mem_text (n : Number) : '/' ∉ n.text.toList := fun h ↦
  absurd (n.isNumeral_of_mem_text _ h) (by decide)

namespace OutputPlan

variable {p : OutputPlan} {o : Options} {k : Number}

theorem toList_urlOf {file : String} (h : '/' ∉ file.toList) :
    (p.urlOf file).toList = Url.headOf p.urlBase.toList ++ file.toList := by
  rw [urlOf, String.toList_ofList, Url.join_eq (Path.head?_ne_slash h)]

/-- A plan that some options give for a file of an image. -/
structure IsFor (p : OutputPlan) (o : Options) : Prop where
  source : p.source.IsResolved
  ne_nil : p.source.parts ≠ []
  directory : p.directory.IsResolved
  altExtension : o.altExtension = .ok p.altExtension

theorem path_eq (h : IsName p.name) : p.path = p.directory.child p.name :=
  Path.join_ofString_of_isName _ h

theorem isName_sizedName (h : IsName p.name) (k : Number) : IsName (p.sizedName k) :=
  FileName.isName_sized h k.slash_not_mem_text

theorem sizedPath_eq (h : IsName p.name) (k : Number) :
    p.sizedPath k = p.directory.child (p.sizedName k) :=
  Path.join_ofString_of_isName _ (isName_sizedName h k)

theorem isName_sizedAlternateName (h : IsName p.name) (hext : '/' ∉ p.altExtension.toList)
    (k : Number) : IsName (p.sizedAlternateName k) :=
  FileName.isName_sizedAlternate h k.slash_not_mem_text hext

theorem sizedAlternatePath_eq (h : IsName p.name) (hext : '/' ∉ p.altExtension.toList)
    (k : Number) : p.sizedAlternatePath k = p.directory.child (p.sizedAlternateName k) :=
  Path.join_ofString_of_isName _ (isName_sizedAlternateName h hext k)

theorem IsFor.isName (h : p.IsFor o) : IsName p.name := h.source.isName_name h.ne_nil

theorem IsFor.isResolved_path (h : p.IsFor o) : p.path.IsResolved := by
  rw [path_eq h.isName]
  exact h.directory.child h.isName

theorem IsFor.isResolved_sizedPath (h : p.IsFor o) (k : Number) : (p.sizedPath k).IsResolved := by
  rw [sizedPath_eq h.isName]
  exact h.directory.child (isName_sizedName h.isName k)

theorem IsFor.isResolved_sizedAlternatePath (h : p.IsFor o) (hext : '/' ∉ p.altExtension.toList)
    (k : Number) : (p.sizedAlternatePath k).IsResolved := by
  rw [sizedAlternatePath_eq h.isName hext]
  exact h.directory.child (isName_sizedAlternateName h.isName hext k)

/-- The place of the copy of an image. -/
theorem IsFor.parts_path (h : p.IsFor o) : p.path.parts = p.directory.parts ++ [p.name] := by
  rw [path_eq h.isName]
  rfl

theorem IsFor.parts_source (h : p.IsFor o) :
    p.source.parts = p.source.parent.parts ++ [p.name] :=
  (congrArg Path.parts (Path.child_name h.ne_nil)).symm

end OutputPlan

/-! ## Reading pictures -/

namespace Picture

open Job

variable {p source target : Path} {w w' : Workspace} {c d : Content} {h : Header} {o : Options}
  {k : Number} {a : AltFormat}

theorem looks_inlineData (p : Path) : Looks (inlineData p) := by
  refine (looks_readFile p).bind fun c ↦ ?_
  split
  · exact looks_pure _
  · exact looks_throw _

theorem content?_of_inlineData (hw : w.IsSound) (hp : p.IsResolved) {uri : String}
    (h : (inlineData p).run w = (.ok uri, w')) : ∃ c, w.files.content? p.parts = some c := by
  rw [inlineData, run_bind_eq_ok] at h
  obtain ⟨c, w₁, hread, -⟩ := h
  exact ⟨c, ((run_readFile_eq_ok_iff hw hp).mp hread).2⟩

theorem scaled_eq_ok {format : String} {settings : List (String × Json.Value)} {inColour : Bool}
    {e : Encoding} (hok : scaled h k format settings inColour = .ok e) :
    resizedSize h k = .ok (e.width, e.height) ∧ e.format = format := by
  rw [scaled] at hok
  cases hsize : resizedSize h k with
  | error f =>
    rw [hsize] at hok
    cases hok
  | ok dims =>
    rw [hsize] at hok
    cases hok
    exact ⟨rfl, rfl⟩

variable [Codec]

theorem looks_read (p : Path) : Looks (read p) := by
  refine (looks_readFile p).attempt.bind fun r ↦ ?_
  split
  · exact looks_throw _
  · exact looks_throw _
  · split
    · exact looks_pure _
    · exact looks_throw _

theorem looks_header (p : Path) : Looks (header p) := (looks_read p).map _

theorem run_read_eq_ok_iff (hw : w.IsSound) (hp : p.IsResolved) :
    (read p).run w = (.ok (c, h), w') ↔
      w' = w ∧ w.files.content? p.parts = some c ∧ c.header? = some h := by
  rw [read, run_bind_eq_ok]
  constructor
  · rintro ⟨r, w₁, hread, hrun⟩
    rw [run_attempt_eq_ok] at hread
    split at hrun
    · cases hrun
    · cases hrun
    · obtain ⟨rfl, hc⟩ := (run_readFile_eq_ok_iff hw hp).mp hread
      split at hrun
      · rename_i hheader
        cases hrun
        exact ⟨rfl, hc, hheader⟩
      · cases hrun
  · rintro ⟨rfl, hc, hheader⟩
    have hread : (readFile p).run w' = (.ok c, w') := (run_readFile_eq_ok_iff hw hp).mpr ⟨rfl, hc⟩
    refine ⟨_, _, run_attempt_eq_ok.mpr hread, ?_⟩
    simp only [hheader]
    rfl

theorem run_header_eq_ok_iff (hw : w.IsSound) (hp : p.IsResolved) :
    (header p).run w = (.ok h, w') ↔
      w' = w ∧ ∃ c, w.files.content? p.parts = some c ∧ c.header? = some h := by
  rw [header, run_bind_eq_ok]
  constructor
  · rintro ⟨⟨c, h'⟩, w₁, hread, hrun⟩
    obtain ⟨rfl, hc, hheader⟩ := (run_read_eq_ok_iff hw hp).mp hread
    cases hrun
    exact ⟨rfl, c, hc, hheader⟩
  · rintro ⟨rfl, c, hc, hheader⟩
    exact ⟨_, _, (run_read_eq_ok_iff hw hp).mpr ⟨rfl, hc, hheader⟩, rfl⟩

/-! ## Making renditions -/

/-- A picture scaled to a width, in its own format. -/
def sizedOf (o : Options) (c : Content) (h : Header) (k : Number) : Except Fault Content := do
  Encoder.encode c (← scaled h k h.format (Encoder.settings o h.format) false)

/-- A picture scaled to a width, in the alternate format. -/
def alternateOf (a : AltFormat) (c : Content) (h : Header) (k : Number) : Except Fault Content := do
  let format := Text.upper (← Options.text a.format)
  Encoder.encode c (← scaled h k format (Encoder.alternateSettings a format) true)

/-- A picture at its own size. -/
def optimizedOf (o : Options) (c : Content) (h : Header) : Except Fault Content :=
  Encoder.encode c ⟨h.format, h.width, h.height, Encoder.fullSettings o h.format, false⟩

theorem encode_eq_ok_iff {e : Encoding} :
    Encoder.encode c e = .ok d ↔ Codec.encode c e = .ok d := by
  rw [Encoder.encode]
  split
  · rename_i c' hencode
    rw [hencode]
    exact ⟨fun h ↦ congrArg _ (Except.ok.inj h), fun h ↦ congrArg _ (Except.ok.inj h)⟩
  · rename_i reason hencode
    rw [hencode]
    exact ⟨nofun, nofun⟩
  · rename_i f hencode
    rw [hencode]
    exact ⟨nofun, nofun⟩

/-- What has been written is a picture with the dimensions asked for. -/
theorem exists_header?_of_encode {e : Encoding} (h : Encoder.encode c e = .ok d) :
    ∃ format, d.header? = some ⟨format, e.width, e.height⟩ :=
  Codec.exists_header?_of_encode (encode_eq_ok_iff.mp h)

theorem sizedOf_eq_ok (hok : sizedOf o c h k = .ok d) :
    ∃ e, scaled h k h.format (Encoder.settings o h.format) false = .ok e ∧
      Encoder.encode c e = .ok d ∧ resizedSize h k = .ok (e.width, e.height) ∧
      ∃ format, d.header? = some ⟨format, e.width, e.height⟩ := by
  rw [sizedOf] at hok
  cases he : scaled h k h.format (Encoder.settings o h.format) false with
  | error f =>
    rw [he] at hok
    cases hok
  | ok e =>
    rw [he] at hok
    exact ⟨e, rfl, hok, (scaled_eq_ok he).1, exists_header?_of_encode hok⟩

theorem alternateOf_eq_ok (hok : alternateOf a c h k = .ok d) :
    ∃ format width height, Options.text a.format = .ok format ∧
      '/' ∉ (Text.upper format).toList ∧ resizedSize h k = .ok (width, height) ∧
      ∃ format', d.header? = some ⟨format', width, height⟩ := by
  rw [alternateOf] at hok
  cases hf : Options.text a.format with
  | error f =>
    rw [hf] at hok
    cases hok
  | ok format =>
    simp only [hf, bind, Except.bind] at hok
    split at hok
    · cases hok
    · rename_i e he
      obtain ⟨hsize, hformat⟩ := scaled_eq_ok he
      exact ⟨format, e.width, e.height, rfl,
        hformat ▸ Codec.slash_not_mem_of_encode (encode_eq_ok_iff.mp hok), hsize,
        exists_header?_of_encode hok⟩

/-- A picture that is derived fails before anything is written, or is written as it comes out. -/
theorem run_derive_cases (hw : w.IsSound) (hs : source.IsResolved) (k : Number) (target : Path)
    (o : Options) :
    (∃ f, (derive source k target o).run w = (.error f, w)) ∨
      ∃ c h d e, w.files.content? source.parts = some c ∧ c.header? = some h ∧
        sizedOf o c h k = .ok d ∧ resizedSize h k = .ok (e.width, e.height) ∧
        (derive source k target o).run w = (do writeFile target d; return e : Job Header).run w := by
  cases hread : (read source).run w with
  | mk r w₁ =>
    obtain rfl := (looks_read source).eq hread
    cases r with
    | error f => exact .inl ⟨f, run_bind_of_error hread⟩
    | ok found =>
      obtain ⟨c, h⟩ := found
      obtain ⟨-, hc, hheader⟩ := (run_read_eq_ok_iff hw hs).mp hread
      have hrun := run_bind_of_ok (f := fun x ↦ do
        let encoding ← ofExcept id (scaled x.2 k x.2.format (Encoder.settings o x.2.format) false)
        writeFile target (← ofExcept id (Encoder.encode x.1 encoding))
        return (⟨encoding.format, encoding.width, encoding.height⟩ : Header)) hread
      have hderive : (derive source k target o).run w₁ = _ := hrun
      cases he : scaled h k h.format (Encoder.settings o h.format) false with
      | error f =>
        rw [he] at hderive
        exact .inl ⟨f, hderive⟩
      | ok e =>
        rw [he] at hderive
        cases hd : Encoder.encode c e with
        | error f =>
          refine .inl ⟨f, hderive.trans ?_⟩
          rw [run_bind_of_ok (run_ofExcept_ok _ _ _), hd]
          exact run_bind_of_error (run_ofExcept_error _ _ _)
        | ok d =>
          have hsized : sizedOf o c h k = .ok d := by
            rw [sizedOf, he]
            exact hd
          refine .inr ⟨c, h, d, ⟨e.format, e.width, e.height⟩, hc, hheader, hsized, (scaled_eq_ok he).1,
            hderive.trans ?_⟩
          rw [run_bind_of_ok (run_ofExcept_ok _ _ _), hd,
            run_bind_of_ok (run_ofExcept_ok _ _ _)]

/-- The alternate rendition fails before anything is written, or is written as it comes out. -/
theorem run_encodeAlternate_cases (hw : w.IsSound) (hs : source.IsResolved) (k : Number)
    (target : Path) (a : AltFormat) :
    (∃ f, (encodeAlternate source k target a).run w = (.error f, w)) ∨
      ∃ c h d, w.files.content? source.parts = some c ∧ c.header? = some h ∧
        alternateOf a c h k = .ok d ∧
        (encodeAlternate source k target a).run w = (writeFile target d).run w := by
  cases hf : Options.text a.format with
  | error f =>
    refine .inl ⟨f, ?_⟩
    rw [encodeAlternate, hf]
    exact run_bind_of_error (run_ofExcept_error _ _ _)
  | ok format =>
    rw [encodeAlternate, hf, run_bind_of_ok (run_ofExcept_ok _ _ _)]
    cases hread : (read source).run w with
    | mk r w₁ =>
      obtain rfl := (looks_read source).eq hread
      cases r with
      | error f => exact .inl ⟨f, run_bind_of_error hread⟩
      | ok found =>
        obtain ⟨c, h⟩ := found
        obtain ⟨-, hc, hheader⟩ := (run_read_eq_ok_iff hw hs).mp hread
        rw [run_bind_of_ok hread]
        dsimp only
        cases he : scaled h k (Text.upper format)
            (Encoder.alternateSettings a (Text.upper format)) true with
        | error f => exact .inl ⟨f, run_bind_of_error (run_ofExcept_error _ _ _)⟩
        | ok e =>
          rw [run_bind_of_ok (run_ofExcept_ok _ _ _)]
          cases hd : Encoder.encode c e with
          | error f => exact .inl ⟨f, run_bind_of_error (run_ofExcept_error _ _ _)⟩
          | ok d =>
            rw [run_bind_of_ok (run_ofExcept_ok _ _ _)]
            refine .inr ⟨c, h, d, hc, hheader, ?_, rfl⟩
            simp only [alternateOf, hf, bind, Except.bind, he]
            exact hd

/-- A picture at its own size fails before anything is written, or is written as it comes out. -/
theorem run_writeOptimized_cases (hw : w.IsSound) (hs : source.IsResolved) (target : Path)
    (o : Options) :
    (∃ f, (writeOptimized source target o).run w = (.error f, w)) ∨
      ∃ c h d, w.files.content? source.parts = some c ∧ c.header? = some h ∧
        optimizedOf o c h = .ok d ∧
        (writeOptimized source target o).run w = (writeFile target d).run w := by
  rw [writeOptimized]
  cases hread : (read source).run w with
  | mk r w₁ =>
    obtain rfl := (looks_read source).eq hread
    cases r with
    | error f => exact .inl ⟨f, run_bind_of_error hread⟩
    | ok found =>
      obtain ⟨c, h⟩ := found
      obtain ⟨-, hc, hheader⟩ := (run_read_eq_ok_iff hw hs).mp hread
      rw [run_bind_of_ok hread]
      dsimp only
      cases hd : Encoder.encode c ⟨h.format, h.width, h.height, Encoder.fullSettings o h.format,
        false⟩ with
      | error f => exact .inl ⟨f, run_bind_of_error (run_ofExcept_error _ _ _)⟩
      | ok d =>
        rw [run_bind_of_ok (run_ofExcept_ok _ _ _)]
        exact .inr ⟨c, h, d, hc, hheader, hd, rfl⟩

end Picture

/-! ## The copy of an image -/

namespace OutputPlan

open Job

variable {p : OutputPlan} {o : Options} {w w' : Workspace} {k : Number}

/-- Putting a copy in its place, once the directory is there. -/
theorem run_stage (p : OutputPlan) (w : Workspace) :
    p.stage.run w =
      (do
        ensureDirectories p.directory
        let target? ← place? p.path
        match target? with
        | some target =>
          let own ← place p.source
          if own = target then return
          else writeFile p.path (← readFile p.source)
        | none => writeFile p.path (← readFile p.source)).run w := by
  rfl

theorem within_stage (hp : p.IsFor o) : Within p.path.Here Nowhere p.stage := by
  have hwrite : Within p.path.Here Nowhere (do writeFile p.path (← readFile p.source)) :=
    (looks_readFile _).within.bind fun c ↦ within_writeFile hp.isResolved_path c
  intro w hw
  rw [run_stage]
  refine Within.bind ?_ (fun _ ↦ (looks_place? _).within.bind fun target? ↦ ?_) w hw
  · exact (within_ensureDirectories hp.directory).mono (fun _ h ↦ h.elim) (fun _ h ↦ h.elim)
  · split
    · refine (looks_place _).within.bind fun own ↦ ?_
      split
      · exact within_pure _
      · exact hwrite
    · exact hwrite

/-- An image that has been staged is there, and its copy holds the same. -/
theorem content?_of_stage (hw : w.IsSound) (hp : p.IsFor o) (hne : p.path ≠ p.source) {u : Unit}
    (hrun : p.stage.run w = (.ok u, w')) :
    ∃ c, w.files.content? p.source.parts = some c ∧ w'.files.content? p.path.parts = some c ∧
      p.path.name.utf8ByteSize + temporaryExtra ≤ Tree.greatestName := by
  have hwrite : ∀ {w₁ : Workspace}, Evolves Nowhere Nowhere w w₁ →
      (do writeFile p.path (← readFile p.source) : Job Unit).run w₁ = (.ok u, w') →
      ∃ c, w.files.content? p.source.parts = some c ∧ w'.files.content? p.path.parts = some c ∧
        p.path.name.utf8ByteSize + temporaryExtra ≤ Tree.greatestName := by
    intro w₁ he hwrite
    rw [run_bind_eq_ok] at hwrite
    obtain ⟨c, w₂, hread, hwrite⟩ := hwrite
    obtain ⟨rfl, hc⟩ := (run_readFile_eq_ok_iff he.isSound hp.source).mp hread
    refine ⟨c, ?_, content?_of_writeFile he.isSound hp.isResolved_path hwrite, ?_⟩
    · rw [← he.content?_eq id id]
      exact hc
    · obtain ⟨w₃, -, ⟨f, hfail⟩ | ⟨-, -, hshort⟩⟩ :=
        run_writeFile_cases he.isSound hp.isResolved_path c
      · rw [hfail] at hwrite
        cases hwrite
      · exact hshort
  rw [run_stage, run_bind_eq_ok] at hrun
  obtain ⟨v, w₁, hensure, hrun⟩ := hrun
  have he := (within_ensureDirectories hp.directory).evolves hw hensure
  rw [run_bind_eq_ok] at hrun
  obtain ⟨target?, w₂, htarget, hrun⟩ := hrun
  obtain ⟨rfl, hplace⟩ := run_place?_eq_ok he.isSound hp.isResolved_path htarget
  split at hrun
  · rename_i target
    rw [run_bind_eq_ok] at hrun
    obtain ⟨own, w₃, hown, hrun⟩ := hrun
    obtain ⟨rfl, rfl, -⟩ := (run_place_eq_ok_iff he.isSound hp.source).mp hown
    have htarget' : target = p.path.parts := by
      cases hget : w₃.files.get? p.path.parts with
      | none => simp [hget] at hplace
      | some e => simpa [hget] using hplace
    rw [htarget', if_neg fun hsame ↦ hne (hp.isResolved_path.ext hp.source hsame.symm)] at hrun
    exact hwrite he hrun
  · exact hwrite he hrun

/-- An image that lies in the output directory is its own copy. -/
theorem run_stage_of_path_eq (hw : w.IsSound) (hp : p.IsFor o) (hsame : p.path = p.source)
    {c : Content} (hc : w.files.content? p.source.parts = some c) :
    p.stage.run w = (.ok (), w) := by
  have hget := Tree.content?_eq_some_iff.mp hc
  have hdirectory : w.files.isDirectory p.directory.parts = true := by
    have hdir := hw.files.isDirectory_dropLast hget
    rwa [← hsame, hp.parts_path, List.dropLast_concat] at hdir
  have hown : (place p.source).run w = (.ok p.source.parts, w) :=
    (run_place_eq_ok_iff hw hp.source).mpr ⟨rfl, rfl, by rw [hget]; rfl⟩
  rw [run_stage, run_bind_of_ok (run_ensureDirectories_of_isDirectory hw hp.directory hdirectory),
    hsame, run_bind_of_ok (run_place?_of_get? hw hp.source hget)]
  dsimp only
  rw [run_bind_of_ok hown, if_pos rfl]
  rfl

/-! ## The optimised copy -/

section Optimized

variable [Codec]

/-- A file that an image tag is to name fails to be made, with nothing changed but directories, or is
left out because the image goes into the document, or is the image written at its own size. -/
theorem run_optimizeSingle_cases (hw : w.IsSound) (hp : p.IsFor o) :
    (∃ f w₁, (p.optimizeSingle o).run w = (.error f, w₁) ∧ Evolves Nowhere Nowhere w w₁) ∨
      (∃ c uri, w.files.content? p.source.parts = some c ∧ isInlined o c.size = .ok true ∧
        (p.optimizeSingle o).run w = (.ok uri, w)) ∨
      ∃ c h d w₁, w.files.content? p.source.parts = some c ∧ c.header? = some h ∧
        isInlined o c.size = .ok false ∧ Picture.optimizedOf o c h = .ok d ∧
        (p.optimizeSingle o).run w = (.ok p.url, w₁) ∧ w₁.files.content? p.path.parts = some d ∧
        p.path.name.utf8ByteSize + temporaryExtra ≤ Tree.greatestName ∧
        Evolves p.path.Here Nowhere w w₁ := by
  rw [optimizeSingle]
  cases hsize : (fileSize p.source).run w with
  | mk r w₁ =>
    obtain rfl := (looks_fileSize _).eq hsize
    cases r with
    | error f => exact .inl ⟨f, w₁, run_bind_of_error hsize, .refl hw⟩
    | ok n =>
      rw [run_bind_of_ok hsize]
      cases hinline : isInlined o n with
      | error f => exact .inl ⟨f, w₁, run_bind_of_error (run_ofExcept_error _ _ _), .refl hw⟩
      | ok inlined =>
        rw [run_bind_of_ok (run_ofExcept_ok _ _ _)]
        cases inlined with
        | true =>
          cases huri : (Picture.inlineData p.source).run w₁ with
          | mk r w₂ =>
            obtain rfl := (Picture.looks_inlineData _).eq huri
            cases r with
            | error f => exact .inl ⟨f, w₂, huri, .refl hw⟩
            | ok uri =>
              obtain ⟨c, hc⟩ := Picture.content?_of_inlineData hw hp.source huri
              have hn : n = c.size := by
                rw [run_fileSize_of_content? hw hp.source hc] at hsize
                cases hsize
                rfl
              exact .inr (.inl ⟨c, uri, hc, hn ▸ hinline, huri⟩)
        | false =>
          rw [if_neg Bool.false_ne_true, run_bind]
          split
          · rename_i u w₂ hensure
            have he := (within_ensureDirectories hp.directory).evolves hw hensure
            rcases Picture.run_writeOptimized_cases he.isSound hp.source p.path o with
              ⟨f, hfail⟩ | ⟨c, h, d, hc, hheader, hd, hwrite⟩
            · exact .inl ⟨f, w₂, run_bind_of_error hfail, he⟩
            · have hsource : w₁.files.content? p.source.parts = some c := by
                rw [← he.content?_eq id id]
                exact hc
              have hn : n = c.size := by
                rw [run_fileSize_of_content? hw hp.source hsource] at hsize
                cases hsize
                rfl
              have hwithin := within_writeFile hp.isResolved_path d w₂ he.isSound
              obtain ⟨w₃, he₃, ⟨f, hfail⟩ | ⟨hok, hcan, hshort⟩⟩ :=
                run_writeFile_cases he.isSound hp.isResolved_path d
              · exact .inl ⟨f, w₃, run_bind_of_error (hwrite.trans hfail), he.trans he₃⟩
              · rw [hok] at hwrite hwithin
                refine .inr (.inr ⟨c, h, d, _, hsource, hheader, hn ▸ hinline, hd,
                  run_bind_of_ok hwrite, Tree.content?_put_self hcan.ne_nil d, hshort, ?_⟩)
                exact (he.mono (fun _ h ↦ h.elim) (fun _ h ↦ h.elim)).trans hwithin
          · rename_i f w₂ hensure
            exact .inl ⟨f, w₂, rfl, (within_ensureDirectories hp.directory).evolves hw hensure⟩

theorem within_optimizeSingle (hp : p.IsFor o) :
    Within p.path.Here Nowhere (p.optimizeSingle o) := by
  intro w hw
  rcases run_optimizeSingle_cases hw hp with
    ⟨f, w₁, hrun, he⟩ | ⟨c, uri, -, -, hrun⟩ | ⟨c, h, d, w₁, -, -, -, -, hrun, -, -, he⟩
  · rw [hrun]
    exact he.mono (fun _ h ↦ h.elim) (fun _ h ↦ h.elim)
  · rw [hrun]
    exact .refl hw
  · rw [hrun]
    exact he

/-- A large picture is optimised and written, once the directory is there. -/
theorem run_optimizeSingle_of_directory (hw : w.IsSound) (hp : p.IsFor o) {c d : Content}
    {h : Header} (hdirectory : w.files.isDirectory p.directory.parts = true)
    (hc : w.files.content? p.source.parts = some c) (hheader : c.header? = some h)
    (hinline : isInlined o c.size = .ok false) (hd : Picture.optimizedOf o c h = .ok d) :
    (p.optimizeSingle o).run w = (do writeFile p.path d; return p.url : Job String).run w := by
  have hread : (Picture.read p.source).run w = (.ok (c, h), w) :=
    (Picture.run_read_eq_ok_iff hw hp.source).mpr ⟨rfl, hc, hheader⟩
  have hwrite : (Picture.writeOptimized p.source p.path o).run w = (writeFile p.path d).run w := by
    rw [Picture.writeOptimized, run_bind_of_ok hread]
    dsimp only
    rw [show Encoder.encode c _ = .ok d from hd, run_bind_of_ok (run_ofExcept_ok _ _ _)]
  rw [optimizeSingle, run_bind_of_ok (run_fileSize_of_content? hw hp.source hc), hinline,
    run_bind_of_ok (run_ofExcept_ok _ _ _), if_neg Bool.false_ne_true,
    run_bind_of_ok (run_ensureDirectories_of_isDirectory hw hp.directory hdirectory), run_bind,
    run_bind, hwrite]

/-- A copy that has been put in its place can be optimised, if the picture can be written. -/
theorem run_optimizeSingle_of_staged (hw : w.IsSound) (hp : p.IsFor o) {c d e : Content}
    {h : Header} (hc : w.files.content? p.source.parts = some c) (hheader : c.header? = some h)
    (hinline : isInlined o c.size = .ok false) (hd : Picture.optimizedOf o c h = .ok d)
    (hstaged : w.files.content? p.path.parts = some e)
    (hshort : p.path.name.utf8ByteSize + temporaryExtra ≤ Tree.greatestName) :
    (p.optimizeSingle o).run w =
      (.ok p.url, { w with files := w.files.put p.path.parts (.file d) }) := by
  have hdirectory : w.files.isDirectory p.directory.parts = true := by
    have hdir := hw.files.isDirectory_dropLast (Tree.content?_eq_some_iff.mp hstaged)
    rwa [hp.parts_path, List.dropLast_concat] at hdir
  rw [run_optimizeSingle_of_directory hw hp hdirectory hc hheader hinline hd,
    run_bind_of_ok (run_writeFile_of_content? hw hp.isResolved_path hstaged hshort d)]
  rfl

end Optimized

/-! ## Sized renditions -/

/-- The places of the renditions of an image in some sizes.  An alternate rendition is only made in a
format that is known, whose extension holds no slash. -/
def Rendered (p : OutputPlan) (sizes : List Number) : List String → Prop := fun q ↦
  ∃ k ∈ sizes, q = (p.sizedPath k).parts ∨
    '/' ∉ p.altExtension.toList ∧ q = (p.sizedAlternatePath k).parts

/-- All renditions lie in the directory of the plan. -/
theorem Rendered.exists_name {sizes : List Number} {q : List String} (hp : p.IsFor o)
    (h : p.Rendered sizes q) : ∃ n, q = p.directory.parts ++ [n] := by
  obtain ⟨k, -, hq | ⟨hext, hq⟩⟩ := h
  · exact ⟨p.sizedName k, by rw [hq, sizedPath_eq hp.isName, Path.parts_child]⟩
  · exact ⟨p.sizedAlternateName k, by rw [hq, sizedAlternatePath_eq hp.isName hext, Path.parts_child]⟩

theorem slash_not_mem_altExtension (hp : p.IsFor o) {a : AltFormat} (ha : o.altSettings = .ok a)
    {format : String} (hformat : Options.text a.format = .ok format)
    (hupper : '/' ∉ (Text.upper format).toList) : '/' ∉ p.altExtension.toList := by
  have hext := hp.altExtension
  rw [Options.altExtension, ha] at hext
  simp only [bind, Except.bind, hformat] at hext
  have hlower : Text.lower format = p.altExtension := Except.ok.inj hext
  intro hslash
  rw [← hlower, Text.lower, String.toList_ofList] at hslash
  refine hupper ?_
  rw [Text.upper, String.toList_ofList]
  exact Text.mem_upperChars (by decide) (Text.slash_mem_of_mem_lowerAfter hslash)

end OutputPlan

namespace Variant

open Job OutputPlan

variable {p : OutputPlan} {o : Options} {w w' : Workspace} {k : Number}

/-- A place at which nothing stands and a file can be written. -/
structure IsVacant (w : Workspace) (target : Path) : Prop where
  get? : w.files.get? target.parts = none
  isWritable : IsWritable target

/-- A rendition that is made where nothing stands: making it fails, or there is a new file. -/
theorem evolves_of_writeFile {target : Path} (hw : w.IsSound) (ht : target.IsResolved)
    (hnone : w.files.get? target.parts = none) (d : Content) :
    (∃ f w₁, (writeFile target d).run w = (.error f, w₁) ∧ Evolves Nowhere Nowhere w w₁) ∨
      ∃ w₁, (writeFile target d).run w = (.ok (), w₁) ∧ IsVacant w target ∧
        w₁.files.content? target.parts = some d ∧ Evolves Nowhere target.Here w w₁ := by
  have hcontent : w.files.content? target.parts = none := by simp [Tree.content?, hnone]
  have he := evolves_writeFile_of_none hw ht d hcontent
  obtain ⟨w₁, he₁, ⟨f, hrun⟩ | ⟨hrun, hcan, -⟩⟩ := run_writeFile_cases hw ht d
  · exact .inl ⟨f, w₁, hrun, he₁⟩
  · rw [hrun] at he
    exact .inr ⟨_, hrun, ⟨hnone, isWritable_of_writeFile hw ht hrun⟩,
      Tree.content?_put_self hcan.ne_nil d, he⟩

variable [Codec]

/-- The rendition of a size cannot be made, or is the one that is there, or is a new one. -/
theorem run_ensureSized_cases (hw : w.IsSound) (hp : p.IsFor o) (k : Number) :
    (∃ f w₁, (ensureSized p k o).run w = (.error f, w₁) ∧ Evolves Nowhere Nowhere w w₁) ∨
      (∃ d e, w.files.content? (p.sizedPath k).parts = some d ∧ d.header? = some e ∧
        (ensureSized p k o).run w = (.ok e, w)) ∨
      ∃ c h d e w₁, w.files.content? p.source.parts = some c ∧ c.header? = some h ∧
        Picture.sizedOf o c h k = .ok d ∧ resizedSize h k = .ok (e.width, e.height) ∧
        IsVacant w (p.sizedPath k) ∧
        (ensureSized p k o).run w = (.ok e, w₁) ∧
        w₁.files.content? (p.sizedPath k).parts = some d ∧
        Evolves Nowhere (p.sizedPath k).Here w w₁ := by
  have ht := hp.isResolved_sizedPath k
  rw [ensureSized]
  cases hexists : (exists? (p.sizedPath k)).run w with
  | mk r w₁ =>
    cases r with
    | error f =>
      obtain rfl := (looks_exists? _).eq hexists
      exact .inl ⟨f, w₁, run_bind_of_error hexists, .refl hw⟩
    | ok there =>
      obtain ⟨rfl, hthere⟩ := run_exists?_eq_ok hw ht hexists
      rw [run_bind_of_ok hexists]
      cases there with
      | true =>
        rw [if_pos rfl]
        cases hheader : (Picture.header (p.sizedPath k)).run w₁ with
        | mk r w₂ =>
          obtain rfl := (Picture.looks_header _).eq hheader
          cases r with
          | error f => exact .inl ⟨f, w₂, rfl, .refl hw⟩
          | ok e =>
            obtain ⟨-, d, hd, he⟩ := (Picture.run_header_eq_ok_iff hw ht).mp hheader
            exact .inr (.inl ⟨d, e, hd, he, rfl⟩)
      | false =>
        rw [if_neg Bool.false_ne_true]
        have hnone : w₁.files.get? (p.sizedPath k).parts = none := by
          cases hget : w₁.files.get? (p.sizedPath k).parts with
          | none => rfl
          | some e => simp [hget] at hthere
        rcases Picture.run_derive_cases hw hp.source k (p.sizedPath k) o with
          ⟨f, hfail⟩ | ⟨c, h, d, e, hc, hheader, hd, he, hrun⟩
        · exact .inl ⟨f, w₁, hfail, .refl hw⟩
        · rcases evolves_of_writeFile hw ht hnone d with ⟨f, w₂, hfail, hev⟩ |
          ⟨w₂, hok, hvacant, hd', hev⟩
          · exact .inl ⟨f, w₂, hrun.trans (run_bind_of_error hfail), hev⟩
          · exact .inr (.inr ⟨c, h, d, e, w₂, hc, hheader, hd, he, hvacant,
              hrun.trans (run_bind_of_ok hok), hd', hev⟩)

/-- The alternate rendition of a size is not wanted, cannot be made, is there, or is a new one. -/
theorem run_ensureAlternate_cases (hw : w.IsSound) (hp : p.IsFor o) (k : Number) :
    (∃ f w₁, (ensureAlternate p k o).run w = (.error f, w₁) ∧ Evolves Nowhere Nowhere w w₁) ∨
      (∃ b, (ensureAlternate p k o).run w = (.ok b, w)) ∨
      ∃ a c h d w₁, w.files.content? p.source.parts = some c ∧ c.header? = some h ∧
        Picture.alternateOf a c h k = .ok d ∧ o.altSettings = .ok a ∧ o.altFormat.truthy = true ∧
        IsVacant w (p.sizedAlternatePath k) ∧ (ensureAlternate p k o).run w = (.ok true, w₁) ∧
        w₁.files.content? (p.sizedAlternatePath k).parts = some d ∧
        Evolves Nowhere (p.sizedAlternatePath k).Here w w₁ := by
  rw [ensureAlternate]
  split
  · rename_i htruthy
    cases hexists : (exists? (p.sizedAlternatePath k)).run w with
    | mk r w₁ =>
      obtain rfl := (looks_exists? _).eq hexists
      cases r with
      | error f => exact .inl ⟨f, w₁, run_bind_of_error hexists, .refl hw⟩
      | ok there =>
        rw [run_bind_of_ok hexists]
        cases there with
        | true => exact .inr (.inl ⟨true, rfl⟩)
        | false =>
          dsimp only
          rw [if_pos (by decide)]
          cases ha : o.altSettings with
          | error f =>
            exact .inl ⟨f, w₁, run_bind_of_error (run_ofExcept_error _ _ _), .refl hw⟩
          | ok a =>
            rw [run_bind_of_ok (run_ofExcept_ok _ _ _)]
            rcases Picture.run_encodeAlternate_cases hw hp.source k (p.sizedAlternatePath k) a with
              ⟨f, hfail⟩ | ⟨c, h, d, hc, hheader, hd, hrun⟩
            · exact .inl ⟨f, w₁, run_bind_of_error hfail, .refl hw⟩
            · obtain ⟨format, _, _, hformat, hupper, -⟩ := Picture.alternateOf_eq_ok hd
              have hext := slash_not_mem_altExtension hp ha hformat hupper
              have ht := hp.isResolved_sizedAlternatePath hext k
              have hnone : w₁.files.get? (p.sizedAlternatePath k).parts = none := by
                obtain ⟨-, hthere⟩ := run_exists?_eq_ok hw ht hexists
                cases hget : w₁.files.get? (p.sizedAlternatePath k).parts with
                | none => rfl
                | some e => simp [hget] at hthere
              rcases evolves_of_writeFile hw ht hnone d with
                ⟨f, w₂, hfail, hev⟩ | ⟨w₂, hok, hvacant, hd', hev⟩
              · exact .inl ⟨f, w₂, run_bind_of_error (hrun.trans hfail), hev⟩
              · exact .inr (.inr ⟨a, c, h, d, w₂, hc, hheader, hd, rfl, htruthy, hvacant,
                  run_bind_of_ok (hrun.trans hok), hd', hev⟩)
  · exact .inr (.inl ⟨false, rfl⟩)

theorem within_ensureSized (hp : p.IsFor o) (k : Number) :
    Within Nowhere (p.sizedPath k).Here (ensureSized p k o) := by
  intro w hw
  rcases run_ensureSized_cases hw hp k with
    ⟨f, w₁, hrun, he⟩ | ⟨d, e, -, -, hrun⟩ |
      ⟨c, h, d, e, w₁, -, -, -, -, -, hrun, -, he⟩
  · rw [hrun]
    exact he.mono (fun _ h ↦ h) (fun _ h ↦ h.elim)
  · rw [hrun]
    exact .refl hw
  · rw [hrun]
    exact he

theorem within_ensureAlternate (hp : p.IsFor o) (k : Number) :
    Within Nowhere (fun q ↦ '/' ∉ p.altExtension.toList ∧ q = (p.sizedAlternatePath k).parts)
      (ensureAlternate p k o) := by
  intro w hw
  rcases run_ensureAlternate_cases hw hp k with
    ⟨f, w₁, hrun, he⟩ | ⟨b, hrun⟩ | ⟨a, c, h, d, w₁, -, -, hd, ha, -, -, hrun, -, he⟩
  · rw [hrun]
    exact he.mono (fun _ h ↦ h) (fun _ h ↦ h.elim)
  · rw [hrun]
    exact .refl hw
  · obtain ⟨format, _, _, hformat, hupper, -⟩ := Picture.alternateOf_eq_ok hd
    rw [hrun]
    exact he.mono (fun _ h ↦ h) fun q hq ↦
      .inr ⟨slash_not_mem_altExtension hp ha hformat hupper, hq⟩

/-- Renditions in some sizes are only made where no file is. -/
theorem within_ofSize (hp : p.IsFor o) {sizes : List Number} (hk : k ∈ sizes) (h : Header) :
    Within Nowhere (p.Rendered sizes) (ofSize p k h o) := by
  rw [ofSize]
  split
  · exact within_pure _
  · refine Within.bind ?_ fun available ↦ Within.bind ?_ fun produced ↦ within_pure _
    · exact (within_ensureAlternate hp k).mono (fun _ h ↦ h) fun q hq ↦ .inr ⟨k, hk, .inr hq⟩
    · exact (within_ensureSized hp k).mono (fun _ h ↦ h) fun q hq ↦ .inr ⟨k, hk, .inl hq⟩

theorem within_ofSizes (hp : p.IsFor o) (sizes : List Number) (h : Header) :
    Within Nowhere (p.Rendered sizes) (ofSizes p sizes h o) := by
  refine Within.bind (within_mapM fun k hk ↦ (within_ofSize hp hk h).attempt) fun outcomes ↦ ?_
  exact (within_ofExcept _ _).bind fun variants ↦ within_pure _

end Variant

end ResponsiveImage
