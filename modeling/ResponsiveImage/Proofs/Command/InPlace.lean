import ResponsiveImage.Command.Run
import ResponsiveImage.Picture.HeaderCodec
import ResponsiveImage.Proofs.Rewrite.Isolation
import ResponsiveImage.Proofs.Text.Newlines
import ResponsiveImage.Proofs.Text.Utf8

/-!
# Rewriting files in place

A command that rewrites files reads them, rewrites what it has read, and reads each file once more to
see whether it is to be changed.  A file that is changed is written anew from what was read, so that
its line ends are newlines from then on, also far from the edits; everything else about it is what the
edits make of it (`run_rewrite_in_place`).
-/

namespace ResponsiveImage

open Job
open Text.Utf8 (decode encode universalNewlines)

/-! ## Looking -/

namespace Job

variable {α β : Type} {w w' : Workspace}

theorem looks_readText (p : Path) : Looks (readText p) := by
  rw [readText]
  refine (looks_readFile p).bind fun c ↦ ?_
  dsimp only
  split
  · exact looks_pure _
  · exact looks_throw _

theorem looks_filterMapM {f : α → Job (Option β)} (hf : ∀ a, Looks (f a)) (as : List α) :
    Looks (as.filterMapM f) := by
  have hloop : ∀ bs, Looks (List.filterMapM.loop f as bs) := by
    induction as with
    | nil => exact fun bs ↦ looks_pure _
    | cons a as ih =>
      intro bs
      rw [List.filterMapM.loop]
      refine (hf a).bind fun b ↦ ?_
      cases b with
      | none => exact ih bs
      | some b => exact ih (b :: bs)
  exact hloop []

/-- Jobs that look only all run in the same workspace. -/
theorem Runs.of_looks {f : α → Job β} (hf : ∀ a, Looks (f a)) {as : List α} {bs : List β}
    (h : Runs f w as bs w') :
    w' = w ∧ List.Forall₂ (fun a b ↦ (f a).run w = (.ok b, w)) as bs := by
  induction h with
  | nil => exact ⟨rfl, .nil⟩
  | cons ha _ ih =>
    obtain rfl := (hf _).eq ha
    exact ⟨ih.1, .cons ha ih.2⟩

theorem run_readText_eq_ok {p : Path} (hw : w.IsSound) (hp : p.IsResolved) {text : List Char}
    (h : (readText p).run w = (.ok text, w')) : w' = w ∧
      ∃ c cs, w.files.content? p.parts = some c ∧ decode c.data = .ok cs ∧
        text = universalNewlines cs := by
  rw [readText, run_bind_eq_ok] at h
  obtain ⟨c, w₁, hread, h⟩ := h
  obtain ⟨rfl, hc⟩ := (run_readFile_eq_ok_iff hw hp).mp hread
  dsimp only at h
  split at h
  · rename_i cs hcs
    cases h
    exact ⟨rfl, c, cs, hc, hcs, rfl⟩
  · cases h

end Job

namespace Options

theorem looks_load (p? : Option Path) (overrides : List (String × Json.Value)) :
    Looks (load p? overrides) := by
  have hread : ∀ p, Looks (readMapping p) := by
    intro p
    refine (looks_readText p).bind fun text ↦ ?_
    split
    · exact looks_throw _
    · exact looks_pure _
    · exact looks_throw _
  have hrest : ∀ members, Looks (do
      let options ← Job.ofExcept id (ofMapping members)
      if (givenOf overrides).isEmpty then return options
      else Job.ofExcept id (options.withOverrides (givenOf overrides))) := by
    intro members
    refine (looks_ofExcept _ _).bind fun options ↦ ?_
    split
    · exact looks_pure _
    · exact looks_ofExcept _ _
  cases p? with
  | none => exact (looks_pure _).bind hrest
  | some p => exact (hread p).bind hrest

end Options

/-! ## Delivering texts -/

namespace Content

/-- Whether a file is read as a text. -/
def IsReadAs (c : Content) (text : List Char) : Prop :=
  (decode c.data).toOption.map universalNewlines = some text

instance (c : Content) (text : List Char) : Decidable (c.IsReadAs text) :=
  inferInstanceAs (Decidable (_ = _))

/-- What a file holds after a text has been delivered to it: it is left alone if it is read as the
text. -/
def deliver (c : Content) (text : List Char) : Content :=
  if c.IsReadAs text then c else .bytes (encode text)

/-- What a file holds after some texts, one after another, have been delivered to it. -/
def deliverAll (c : Content) (texts : List (List Char)) : Content := texts.foldl deliver c

theorem deliverAll_cases (c : Content) (texts : List (List Char)) :
    ((∀ text ∈ texts, c.IsReadAs text) → c.deliverAll texts = c) ∧
      ((∃ text ∈ texts, ¬ c.IsReadAs text) →
        ∃ text ∈ texts, c.deliverAll texts = .bytes (encode text)) := by
  have hwritten : ∀ (texts : List (List Char)) (c : Content),
      c.deliverAll texts = c ∨ ∃ text ∈ texts, c.deliverAll texts = .bytes (encode text) := by
    intro texts
    induction texts with
    | nil => exact fun c ↦ .inl rfl
    | cons text texts ih =>
      intro c
      rcases ih (c.deliver text) with h | ⟨text', hmem, h⟩
      · rw [deliverAll, List.foldl_cons, ← deliverAll, h, deliver]
        split
        · exact .inl rfl
        · exact .inr ⟨text, List.mem_cons_self, rfl⟩
      · exact .inr ⟨text', List.mem_cons_of_mem _ hmem, h⟩
  induction texts generalizing c with
  | nil => exact ⟨fun _ ↦ rfl, fun ⟨_, h, _⟩ ↦ nomatch h⟩
  | cons text texts ih =>
    rw [deliverAll, List.foldl_cons, ← deliverAll, deliver]
    by_cases htext : c.IsReadAs text
    · rw [if_pos htext]
      obtain ⟨hsame, hchanged⟩ := ih c
      refine ⟨fun h ↦ hsame fun t ht ↦ h t (List.mem_cons_of_mem _ ht), ?_⟩
      rintro ⟨t, ht, hnot⟩
      rcases List.mem_cons.mp ht with rfl | ht
      · exact absurd htext hnot
      · obtain ⟨t', ht', heq⟩ := hchanged ⟨t, ht, hnot⟩
        exact ⟨t', List.mem_cons_of_mem _ ht', heq⟩
    · rw [if_neg htext]
      refine ⟨fun h ↦ absurd (h text List.mem_cons_self) htext, fun _ ↦ ?_⟩
      rcases hwritten texts (.bytes (encode text)) with h | ⟨t, ht, h⟩
      · exact ⟨text, List.mem_cons_self, h⟩
      · exact ⟨t, List.mem_cons_of_mem _ ht, h⟩

end Content

namespace Command

open Rewrite

variable {w w' : Workspace} {inPlace : Bool} {p : Path} {text : List Char}

/-- The content of a file after a text has been delivered. -/
theorem run_deliver (hw : w.IsSound) (hp : p.IsResolved) {r : Bool × List Char}
    (h : (deliver inPlace p text).run w = (.ok r, w')) :
    w'.IsSound ∧ ∀ q, w'.files.content? q =
      if inPlace = true ∧ p.parts = q then (w.files.content? q).map (·.deliver text)
      else w.files.content? q := by
  rw [deliver, run_bind_eq_ok] at h
  obtain ⟨old, w₁, hread, h⟩ := h
  obtain ⟨rfl, c, cs, hc, hcs, rfl⟩ := run_readText_eq_ok hw hp hread
  have hreads : c.IsReadAs text ↔ universalNewlines cs = text := by
    rw [Content.IsReadAs, hcs]
    exact Option.some_inj
  cases inPlace with
  | false =>
    cases h
    exact ⟨hw, fun q ↦ by simp⟩
  | true =>
    dsimp only at h
    by_cases hsame : universalNewlines cs = text
    · have hchanged : (universalNewlines cs != text) = false := by simp [hsame]
      rw [hchanged] at h
      cases h
      refine ⟨hw, fun q ↦ ?_⟩
      split
      · rename_i hq
        obtain rfl := hq.2
        rw [hc, Option.map_some, Content.deliver, if_pos (hreads.mpr hsame)]
      · rfl
    · have hchanged : (universalNewlines cs != text) = true := by simp [hsame]
      rw [hchanged] at h
      have hsaved : (save p text).run w₁ = (.ok (), _) :=
        run_bind_of_ok (run_overwrite_of_content? hw hp hc _)
      simp only [if_true] at h
      rw [run_bind_of_ok hsaved] at h
      cases h
      have hcan := canPlace_of_content? hw hc
      refine ⟨⟨(hcan.evolves_put hw _).isSound.files, hw.isName⟩, fun q ↦ ?_⟩
      split
      · rename_i hq
        obtain rfl := hq.2
        rw [hc, Option.map_some, Content.deliver, if_neg (mt hreads.mp hsame)]
        exact Tree.content?_put_self hcan.ne_nil _
      · rename_i hq
        exact Tree.content?_put_of_ne hcan.ne_nil fun h ↦ hq ⟨rfl, h.symm⟩

/-- The files of some deliveries hold what those to them make of what they held. -/
theorem content?_of_deliveries {ps : List (Path × List Char)} {rs : List (Bool × List Char)}
    (hw : w.IsSound) (hps : ∀ m ∈ ps, m.1.IsResolved)
    (h : Runs (fun m : Path × List Char ↦ deliver inPlace m.1 m.2) w ps rs w') {q : List String}
    {c : Content} (hc : w.files.content? q = some c) :
    w'.files.content? q = some (if inPlace = true then
      c.deliverAll ((ps.filter fun m ↦ m.1.parts = q).map (·.2)) else c) := by
  induction h generalizing c with
  | nil => simpa [Content.deliverAll] using hc
  | @cons w w₁ w' m ps r rs hm _ ih =>
    obtain ⟨hp, hps⟩ := List.forall_mem_cons.mp hps
    obtain ⟨hw₁, hcontent⟩ := run_deliver hw hp hm
    have hq := hcontent q
    rw [hc] at hq
    cases inPlace with
    | false =>
      rw [if_neg (by simp)] at hq
      exact ih hw₁ hps hq
    | true =>
      by_cases hplace : m.1.parts = q
      · rw [if_pos ⟨rfl, hplace⟩] at hq
        rw [ih hw₁ hps hq, List.filter_cons_of_pos (by simpa using hplace), List.map_cons]
        rfl
      · rw [if_neg (fun h ↦ hplace h.2)] at hq
        rw [ih hw₁ hps hq, List.filter_cons_of_neg (by simpa using hplace)]

/-! ## Running the command -/

/-- A file that is read as a document. -/
structure Reads (w : Workspace) (file : Path) (d : Document) : Prop where
  directory : d.directory = (file.resolve w.cwd).parent
  text : ∃ c cs, w.files.content? (file.resolve w.cwd).parts = some c ∧ decode c.data = .ok cs ∧
    d.text = universalNewlines cs

variable {placeholderOf : PlaceholderOf} {a : RewriteArguments} {result : Result}

theorem looks_missing (files : List Path) : Looks (missing files) := by
  refine looks_filterMapM (fun p ↦ (looks_isFile p).bind fun b ↦ ?_) files
  split
  · exact looks_pure _
  · exact looks_pure _

/-- A command that ends with zero has rewritten its files with options that it has been given. -/
theorem run_rewrite_eq_zero [Codec] (h : (run placeholderOf (.rewrite a)).run w = (.ok result, w'))
    (hcode : result.code = 0) :
    ∃ o, ((Options.load a.config (overridesOf a)).run w).1 = .ok o ∧
      (rewriteFiles o (placeholderOf o.placeholder) a.inPlace a.files).run w = (.ok result, w') := by
  have hload := Options.looks_load a.config (overridesOf a) w
  rw [run, rewrite, run_bind_of_ok (run_attempt _ _), hload] at h
  cases hoptions : ((Options.load a.config (overridesOf a)).run w).1 with
  | error f =>
    rw [hoptions] at h
    dsimp only at h
    split at h
    · cases h
      cases hcode
    · cases h
  | ok o =>
    rw [hoptions, run_bind_eq_ok] at h
    obtain ⟨absent, w₁, habsent, h⟩ := h
    obtain rfl := (looks_missing a.files).eq habsent
    split at h
    · exact ⟨o, rfl, h⟩
    · rw [run_bind_eq_ok] at h
      obtain ⟨u, w₂, -, h⟩ := h
      cases h
      cases hcode

/-- What is done by rewriting files: they are read, their documents are rewritten, and the texts are
delivered. -/
theorem run_rewriteFiles_eq_ok [Codec] {o : Options} {placeholder : Placeholder} {files : List Path}
    (hw : w.IsSound) (hfiles : ∀ p ∈ files, (p.resolve w.cwd).IsResolved)
    (h : (rewriteFiles o placeholder inPlace files).run w = (.ok result, w')) :
    ∃ ds texts w₁ w₂ rs, List.Forall₂ (Reads w) files ds ∧
      (documents o placeholder ds).run w = (.ok texts, w₁) ∧
      Runs (fun m : Path × List Char ↦ deliver inPlace m.1 m.2) w₁
        ((files.map (Path.resolve w.cwd)).zip texts) rs w₂ ∧ w'.files = w₂.files := by
  rw [rewriteFiles, run_bind_eq_ok] at h
  obtain ⟨resolved, w₁, hresolved, h⟩ := h
  obtain ⟨rfl, hpaths⟩ := (run_mapM_eq_ok.mp hresolved).of_looks looks_resolve
  have hequal : List.Forall₂ (fun p q ↦ p.resolve w₁.cwd = q) files resolved := by
    refine hpaths.imp fun p q hrun ↦ ?_
    rcases run_resolve_cases p w₁ with ⟨-, hfails⟩ | ⟨-, hresolves⟩
    · rw [hfails] at hrun
      cases hrun
    · rw [hresolves] at hrun
      cases hrun
      rfl
  rw [← List.forall₂_map_left_iff, List.forall₂_eq_eq_eq] at hequal
  subst hequal
  rw [run_bind_eq_ok] at h
  obtain ⟨ds, w₂, hread, h⟩ := h
  have hlooks : ∀ p : Path, Looks (do return (⟨← readText p, p.parent⟩ : Document)) :=
    fun p ↦ (looks_readText p).bind fun text ↦ looks_pure _
  obtain ⟨rfl, hds⟩ := (run_mapM_eq_ok.mp hread).of_looks hlooks
  rw [List.forall₂_map_left_iff] at hds
  have hreads : List.Forall₂ (Reads w₂) files ds := by
    rw [List.forall₂_iff_zip] at hds ⊢
    refine ⟨hds.1, fun {p d} hpd ↦ ?_⟩
    obtain ⟨text, w₃, htext, hd⟩ := run_bind_eq_ok.mp (hds.2 hpd)
    obtain ⟨rfl, hcontent⟩ :=
      run_readText_eq_ok hw (hfiles p (List.of_mem_zip hpd).1) htext
    cases hd
    exact ⟨rfl, hcontent⟩
  rw [run_bind_eq_ok] at h
  obtain ⟨texts, w₃, hdocuments, h⟩ := h
  rw [run_bind_eq_ok] at h
  obtain ⟨rs, w₄, hdelivered, h⟩ := h
  refine ⟨ds, texts, w₃, w₄, rs, hreads, hdocuments, run_mapM_eq_ok.mp hdelivered, ?_⟩
  obtain ⟨u, w₅, hlog, h⟩ := run_bind_eq_ok.mp h
  cases h
  cases hlog
  rfl

/-- The pages that come from the file at a place, which may be given more than once. -/
def pagesOf (cwd : List String) (files : List Path) (pages : List Page) (q : List String) :
    List Page :=
  ((files.zip pages).filter fun m ↦ (m.1.resolve cwd).parts = q).map (·.2)

/-- A place at which the rewriting of some documents puts neither the copy of an image nor an
unfinished download. -/
structure IsSpared [Codec] (o : Options) (ds : List Document) (w : Workspace)
    (q : List String) : Prop where
  unfinished : ¬ o.Unfinished w.cwd q
  copies : ∀ p ∈ plans o (visits o ds w), p.path.parts ≠ q

theorem deliveries_of {cwd : List String} {files : List Path} {pages : List Page} {q : List String} :
    ((((files.map (Path.resolve cwd)).zip (pages.map Page.text)).filter
      fun m ↦ m.1.parts = q).map (·.2)) = (pagesOf cwd files pages q).map Page.text := by
  rw [pagesOf, List.zip_map, List.filter_map, List.map_map, List.map_map]
  rfl

/-- The page of a file that is stored in UTF-8 has the text of the file as it is read. -/
theorem text_of_mem_pagesOf {o : Options} {files : List Path} {ds : List Document}
    {pages : List Page} (hreads : List.Forall₂ (Reads w) files ds)
    (htreats : List.Forall₂ (fun d page ↦ ∃ ns, Page.Treats o d ns page) ds pages)
    {q : List String} {c : Content} {cs : List Char} (hc : w.files.content? q = some c)
    (hcs : c.data = encode cs) {page : Page} (hpage : page ∈ pagesOf w.cwd files pages q) :
    page.document.text = universalNewlines cs := by
  obtain ⟨⟨file, _⟩, hmem, rfl⟩ := List.mem_map.mp hpage
  obtain ⟨hzip, hplace⟩ := List.mem_filter.mp hmem
  have hall : List.Forall₂ (fun file page ↦ ∃ d ns, Reads w file d ∧ Page.Treats o d ns page)
      files pages :=
    forall₂_of_forall₂ (fun _ _ _ hread ⟨ns, htreat⟩ ↦ ⟨_, ns, hread, htreat⟩) hreads htreats
  obtain ⟨d, ns, ⟨-, c', cs', hc', hcs', htext⟩, htreat⟩ := (List.forall₂_iff_zip.mp hall).2 hzip
  rw [of_decide_eq_true hplace, hc] at hc'
  obtain rfl := Option.some_inj.mp hc'
  rw [hcs, Text.Utf8.decode_encode] at hcs'
  obtain rfl := Except.ok.inj hcs'
  exact (congrArg Document.text htreat.isOf.document).trans htext

/-- **Rewriting files.**  A file at a place that the images spare keeps its bytes unless it is rewritten
in place and its text comes out differently.  Then it is written anew from what was read, and has its
old bytes outside of the edits exactly if there is no carriage return among them. -/
theorem run_rewrite_in_place [Codec] (hw : w.IsSound) (hplaceholder : ∀ k p, Looks (placeholderOf k p))
    (hfiles : ∀ p ∈ a.files, ∃ s, p = Path.ofString s)
    (h : (run placeholderOf (.rewrite a)).run w = (.ok result, w')) (hcode : result.code = 0) :
    ∃ o ds pages w₁, ((Options.load a.config (overridesOf a)).run w).1 = .ok o ∧
      List.Forall₂ (Reads w) a.files ds ∧
      (completed o (placeholderOf o.placeholder) ds).run w = (.ok pages, w₁) ∧
      List.Forall₂ (fun d page ↦ ∃ ns, Page.Treats o d ns page) ds pages ∧
      ∀ q c cs, w.files.content? q = some c → c.data = encode cs → IsSpared o ds w q →
        ∃ c', w'.files.content? q = some c' ∧
          ((a.inPlace = false ∨ ∀ page ∈ pagesOf w.cwd a.files pages q,
            page.edits = [] ∨ page.text = universalNewlines cs) → c' = c) ∧
          (a.inPlace = true →
            (∃ page ∈ pagesOf w.cwd a.files pages q, page.text ≠ universalNewlines cs) →
            ∃ page ∈ pagesOf w.cwd a.files pages q, c' = .bytes (encode page.text) ∧
              (Edit.conflict? page.document.text page.edits = none →
                (c'.data = encode (Edit.writeOut cs (page.edits.map (Edit.placedIn cs))) ↔
                  '\r' ∉ Edit.leftover cs (page.edits.map (Edit.placedIn cs))))) := by
  have hresolved : ∀ p ∈ a.files, (p.resolve w.cwd).IsResolved := by
    intro p hp
    obtain ⟨s, rfl⟩ := hfiles p hp
    exact Path.resolve_isResolved hw.isName fun n hn ↦ Path.mem_parts_ofString hn
  obtain ⟨o, hoptions, hrun⟩ := run_rewrite_eq_zero h hcode
  obtain ⟨ds, texts, w₁, w₂, rs, hreads, hdocuments, hdelivered, hw'⟩ :=
    run_rewriteFiles_eq_ok hw hresolved hrun
  obtain ⟨pages, w₃, hcompleted, htreats, rfl⟩ := run_documents_eq_ok hdocuments
  refine ⟨o, ds, pages, w₃, hoptions, hreads, hcompleted, htreats, fun q c cs hc hcs hspared ↦ ?_⟩
  -- the images leave the file alone
  have hdirectories : ∀ d ∈ ds, d.directory.IsResolved := by
    intro d hd
    obtain ⟨i, hi, rfl⟩ := List.mem_iff_getElem.mp hd
    have hlength : i < a.files.length := hreads.length_eq ▸ hi
    have hdirectory : ds[i].directory = _ := (hreads.get hlength hi).directory
    rw [hdirectory]
    exact (hresolved _ (List.getElem_mem hlength)).parent
  have hhistory := history_documents (hplaceholder o.placeholder) hw hdirectories
    (.start : History o w [] w)
  rw [hdocuments, List.nil_append] at hhistory
  have hc₁ := hhistory.content?_of_some hw hspared.unfinished hspared.copies hc
  -- and the deliveries make of it what they have to
  have hpaths : ∀ m ∈ (a.files.map (Path.resolve w.cwd)).zip (pages.map Page.text),
      m.1.IsResolved := by
    rintro ⟨p, text⟩ hm
    obtain ⟨file, hfile, rfl⟩ := List.mem_map.mp (List.of_mem_zip hm).1
    exact hresolved file hfile
  have hfinal := content?_of_deliveries (hhistory.sound hw).isSound hpaths hdelivered hc₁
  rw [← hw', deliveries_of] at hfinal
  have hread : ∀ text, c.IsReadAs text ↔ text = universalNewlines cs := by
    intro text
    rw [Content.IsReadAs, hcs, Text.Utf8.decode_encode]
    exact Option.some_inj.trans eq_comm
  obtain ⟨hsame, hchanged⟩ :=
    Content.deliverAll_cases c ((pagesOf w.cwd a.files pages q).map Page.text)
  have hdocument : ∀ page ∈ pagesOf w.cwd a.files pages q,
      page.document.text = universalNewlines cs :=
    fun page hpage ↦ text_of_mem_pagesOf hreads htreats hc hcs hpage
  refine ⟨_, hfinal, fun hkeeps ↦ ?_, fun hin hdiffers ↦ ?_⟩
  · rcases hkeeps with hout | hkeeps
    · rw [if_neg (by simp [hout])]
    · split
      · refine hsame fun text htext ↦ ?_
        obtain ⟨page, hpage, rfl⟩ := List.mem_map.mp htext
        rw [hread]
        rcases hkeeps page hpage with hnil | htext
        · rw [Page.text, hnil, Edit.spliced_nil, hdocument page hpage]
        · exact htext
      · rfl
  · obtain ⟨page, hpage, hne⟩ := hdiffers
    obtain ⟨text, htext, heq⟩ := hchanged
      ⟨page.text, List.mem_map_of_mem hpage, fun h ↦ hne ((hread _).mp h)⟩
    obtain ⟨page', hpage', rfl⟩ := List.mem_map.mp htext
    rw [if_pos hin, heq]
    refine ⟨page', hpage', rfl, fun hnone ↦ ?_⟩
    have horder := Edit.conflictFrom_eq_none_iff.mp hnone
    have hwritten : page'.text = Edit.writeOut (universalNewlines cs) page'.edits := by
      rw [Page.text, Edit.spliced, hnone, hdocument page' hpage']
    rw [hdocument page' hpage'] at horder
    rw [← Edit.writeOut_placedIn_eq_iff horder, hwritten]
    exact ⟨fun h ↦ (Text.Utf8.encode_injective h).symm, fun h ↦ congrArg encode h.symm⟩

/-! ### Carriage returns -/

open scoped HeaderCodec

/-- A component with line ends of two characters. -/
def crlfText : List Char := "<p>\r\n</p>\r\n<img src=\"x.png\">\r\n".toList

/-- The picture that it shows. -/
def crlfPicture : Content := HeaderCodec.file ⟨"PNG", 8, 8⟩

/-- A source directory with the component and the picture. -/
def crlfFiles : Workspace where
  cwd := []
  files := ⟨[(["src"], .directory),
    (["src", "x.png"], .file crlfPicture),
    (["src", "a.svelte"], .file (.bytes (encode crlfText)))]⟩

def crlfArguments : RewriteArguments := { files := [.ofString "src/a.svelte"], inPlace := true }

/-- The component as it is read. -/
def crlfDocument : Document := ⟨universalNewlines crlfText, .ofParts ["src"]⟩

theorem reads_crlf {ds : List Document} (h : List.Forall₂ (Reads crlfFiles) crlfArguments.files ds) :
    ds = [crlfDocument] := by
  obtain ⟨⟨text, directory⟩, rest, ⟨hdirectory, c, cs, hc, hcs, htext⟩, hrest, rfl⟩ :=
    List.forall₂_cons_left_iff.mp h
  obtain rfl : .bytes (encode crlfText) = c := Option.some_inj.mp hc
  obtain rfl : crlfText = cs := Except.ok.inj ((Text.Utf8.decode_encode _).symm.trans hcs)
  obtain rfl := List.forall₂_nil_left_iff.mp hrest
  rw [crlfDocument, ← htext, show directory = .ofParts ["src"] from hdirectory]

/-- The picture is copied to a place of its own. -/
theorem isSpared_crlf : IsSpared .defaults [crlfDocument] crlfFiles ["src", "a.svelte"] :=
  ⟨not_options_unfinished (q := ["src"]) fun _ ↦ by decide, by decide +kernel⟩

def crlfEdit : Edit := ⟨19, 24, (Picture.dataUri "image/png" crlfPicture.data).toList⟩

/-- The only edit is that of the source. -/
theorem edits_crlf : ((completed .defaults (Placeholder.label .trace) [crlfDocument]).run
    crlfFiles).1.toOption.map (·.map (·.edits)) = some [[crlfEdit]] := by
  decide +kernel

/-- The component is rewritten, and does not have its old line ends. -/
theorem run_rewrite_in_place_crlf :
    ∃ result w', (run Placeholder.label (.rewrite crlfArguments)).run crlfFiles = (.ok result, w') ∧
      result.code = 0 ∧ ∃ c', w'.files.content? ["src", "a.svelte"] = some c' ∧
        c'.data ≠ encode (Edit.writeOut crlfText [crlfEdit.placedIn crlfText]) := by
  have hsound : crlfFiles.IsSound := ⟨by decide +kernel, by decide⟩
  have hplaceholder : ∀ k p, Looks (Placeholder.label k p) := fun k p ↦ looks_pure _
  have hfiles : ∀ p ∈ crlfArguments.files, ∃ s, p = Path.ofString s :=
    fun p hp ↦ ⟨_, List.mem_singleton.mp hp⟩
  have hresult : ((run Placeholder.label (.rewrite crlfArguments)).run crlfFiles).1 =
      .ok ⟨0, []⟩ := eq_ok_of_toOption (by decide +kernel)
  have hrun : (run Placeholder.label (.rewrite crlfArguments)).run crlfFiles =
      (.ok ⟨0, []⟩,
        ((run Placeholder.label (.rewrite crlfArguments)).run crlfFiles).2) := Prod.ext hresult rfl
  refine ⟨_, _, hrun, rfl, ?_⟩
  obtain ⟨o, ds, pages, w₁, hoptions, hreads, hcompleted, htreats, hplaces⟩ :=
    run_rewrite_in_place hsound hplaceholder hfiles hrun rfl
  obtain rfl : Options.defaults = o := Except.ok.inj hoptions
  obtain rfl := reads_crlf hreads
  have hedits := edits_crlf
  rw [show ((completed .defaults (Placeholder.label .trace) [crlfDocument]).run crlfFiles).1 =
    .ok pages from congrArg Prod.fst hcompleted] at hedits
  obtain ⟨page, rfl, hpage⟩ := List.map_eq_singleton_iff.mp (Option.some_inj.mp hedits)
  obtain ⟨⟨ns, htreat⟩, -⟩ := List.forall₂_cons.mp htreats
  have hdocument : page.document = crlfDocument := htreat.isOf.document
  have htext : page.text ≠ universalNewlines crlfText := by
    rw [Page.text, hdocument, hpage]
    decide +kernel
  have hnone : Edit.conflict? page.document.text page.edits = none := by
    rw [hdocument, hpage]
    decide +kernel
  have hleft : '\r' ∈ Edit.leftover crlfText [crlfEdit.placedIn crlfText] := by decide +kernel
  obtain ⟨c', hc', -, hchanged⟩ :=
    hplaces ["src", "a.svelte"] _ crlfText rfl rfl isSpared_crlf
  obtain ⟨page', hpage', -, hiff⟩ := hchanged rfl ⟨page, List.mem_singleton_self _, htext⟩
  obtain rfl : page' = page := List.mem_singleton.mp hpage'
  refine ⟨c', hc', fun heq ↦ ?_⟩
  have hlost := (hiff hnone).mp (by rw [hpage]; exact heq)
  rw [hpage] at hlost
  exact hlost hleft

end Command

end ResponsiveImage
