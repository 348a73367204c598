import ResponsiveImage.Proofs.Remote.Room

/-!
# Fetching the same again

What a host brings for a URL does not depend on what is in the file tree (`Brings`).  A fetch that comes
out with an image tells that its host brings one, and that there was room for it in its folder
(`CanKeep`); and wherever there is room for it, the fetch comes out with the same image
(`run_fetch_of_brings`).  So it is known beforehand what a download comes out with (`yields_iff`), and
one that is made again comes out with the same, whatever became of the first one, unless its file looks
unfinished (`yields_iff_of_download`).
-/

namespace ResponsiveImage

open Workspace (Evolves Alike)
open Job

namespace Download

variable {folder image : Path} {w w' : Workspace} {url extension : String} {c : Content}

/-! ## Fetching -/

/-- What a host brings for a URL: a whole picture, to be kept with an extension. -/
inductive Brings (remote : List (String × Response)) (url extension : String) (c : Content) : Prop
  | intro {r : Response} {head : Content} {rest : List Content}
      (hanswer : remote.lookup (fetchUrl url) = some r) (hstatus : ¬ (400 ≤ r.status ∧ r.status < 600))
      (hhead : (Body.ofResponse r).head? (.bytes []) (Body.ofResponse r).chunks = some (head, rest))
      (hextension : extension? (r.contentType.getD "") head = some extension)
      (hbreaks : (Body.ofResponse r).breaks = false) (hc : rest.foldl .append head = c)

theorem Brings.unique {remote : List (String × Response)} {extension' : String} {c' : Content}
    (h : Brings remote url extension c) (h' : Brings remote url extension' c') :
    extension = extension' ∧ c = c' := by
  obtain ⟨hanswer, -, hhead, hextension, -, rfl⟩ := h
  obtain ⟨hanswer', -, hhead', hextension', -, rfl⟩ := h'
  cases hanswer.symm.trans hanswer'
  cases hhead.symm.trans hhead'
  cases hextension.symm.trans hextension'
  exact ⟨rfl, rfl⟩

theorem run_respond_eq_ok_iff {timeout : Json.Value} {r : Response} :
    (∃ w', (respond url timeout).run w = (.ok r, w')) ↔
      w.remote.lookup (fetchUrl url) = some r ∧ ¬ (400 ≤ r.status ∧ r.status < 600) := by
  have hasked : (request (.get (fetchUrl url) timeout)).run w =
      (.ok (), { w with requests := w.requests ++ [.get (fetchUrl url) timeout] }) := rfl
  rw [respond, run_bind_of_ok hasked, run_bind_of_ok (run_get _)]
  dsimp only
  constructor
  · rintro ⟨w', h⟩
    split at h
    · cases h
    · rename_i r' hlookup
      split at h
      · cases h
      · rename_i hstatus
        cases h
        exact ⟨hlookup, hstatus⟩
  · rintro ⟨hlookup, hstatus⟩
    rw [hlookup]
    dsimp only
    rw [if_neg hstatus]
    exact ⟨_, rfl⟩

/-- A fetch that comes out with an image tells what its host brings, and that there was room for it. -/
theorem brings_of_fetch (hw : w.IsSound) (hfolder : folder.IsResolved) {timeout : Json.Value}
    (h : (fetch url folder (key url) timeout).run w = (.ok (some image), w')) :
    ∃ extension c, Brings w.remote url extension c ∧ CanKeep w folder url extension ∧
      image = folder.child (keptName url extension) ∧ w'.files.content? image.parts = some c := by
  obtain ⟨r, w₁, w₂, hrespond, hreceive, hlast⟩ := run_fetch_eq_some h
  obtain ⟨hanswer, hstatus⟩ := run_respond_eq_ok_iff.mp ⟨_, hrespond⟩
  have halike := reports_respond url timeout w
  rw [hrespond] at halike
  rw [receive] at hreceive
  dsimp only at hreceive
  split at hreceive
  · cases hreceive
  · rename_i head rest hhead
    split at hreceive
    · obtain ⟨_, _, -, hreceive⟩ := run_bind_eq_ok.mp hreceive
      cases hreceive
    · rename_i extension hextension
      obtain ⟨_, w₃, hensure, hreceive⟩ := run_bind_eq_ok.mp hreceive
      obtain ⟨_, w₄, hclear, hreceive⟩ := run_bind_eq_ok.mp hreceive
      obtain ⟨_, w₅, hkeep, hreceive⟩ := run_bind_eq_ok.mp hreceive
      cases hreceive
      have hslash := slash_not_mem_extension hextension
      have hname := isName_download url hslash
      have hname' := isName_unfinished url hslash
      rw [Path.join_ofString_of_isName _ hname, Path.join_ofString_of_isName _ hname'] at hkeep
      rw [Path.join_ofString_of_isName _ hname]
      have hw₁ := halike.isSound hw
      have he₃ := (within_ensureDirectories hfolder).evolves hw₁ hensure
      have he₄ := (sheds_clearPartials hfolder he₃.isSound hclear).1
      have hdirs : ∀ q, w.files.isDirectory q = true → w₄.files.isDirectory q = true := fun q hq ↦
        he₄.isDirectory q (he₃.isDirectory q (halike.files_eq.symm ▸ hq))
      obtain ⟨hbreaks, hcan, hentry, hfree⟩ := canPlace_of_complete he₄.isSound
        (hfolder.child hname') (hfolder.child hname) (run_complete_of_keep hkeep)
      refine ⟨extension, rest.foldl .append head, ⟨hanswer, hstatus, hhead, hextension, hbreaks, rfl⟩,
        ⟨?_, hentry _ (by simp [keptName]), hcan.isEntryName _ (by simp [keptName]), ?_,
          fun n hn ↦ ?_⟩, rfl, ?_⟩
      · have hclear := isClear_of_ensureDirectories hw₁ hfolder hensure
        exact ⟨hclear.isEntryName, fun q hq ↦ halike.files_eq ▸ hclear.content? q hq⟩
      · rw [← Bool.not_eq_true] at hfree ⊢
        exact mt (hdirs _) hfree
      · have hfree := not_isDirectory_of_clearPartials he₃.isSound hfolder hclear hn
        rw [← Bool.not_eq_true] at hfree ⊢
        exact mt (fun hq ↦ he₃.isDirectory _ (halike.files_eq.symm ▸ hq)) hfree
      · rw [hlast.files_eq]
        rcases run_keep_cases he₄.isSound (hfolder.child hname') (hfolder.child hname)
          (by simpa using unfinished_ne (key url ++ "." ++ extension))
          (fun h ↦ hasNul_child_append h _) url head rest _ with
          ⟨f, w₆, hfail, -⟩ | ⟨w₆, hok, -, -, -, hkept⟩
        · rw [hfail] at hkeep
          cases hkeep
        · cases hok.symm.trans hkeep
          exact hkept

/-- What a host brings is fetched wherever there is room for it. -/
theorem run_fetch_of_brings (hw : w.IsSound) (hfolder : folder.IsResolved)
    (hbrings : Brings w.remote url extension c) (hcan : CanKeep w folder url extension)
    (timeout : Json.Value) :
    ∃ w', (fetch url folder (key url) timeout).run w =
        (.ok (some (folder.child (keptName url extension))), w') ∧
      w'.files.content? (folder.parts ++ [keptName url extension]) = some c := by
  obtain ⟨hanswer, hstatus, hhead, hextension, hbreaks, rfl⟩ := hbrings
  rename_i r head rest
  obtain ⟨w₁, hrespond⟩ := run_respond_eq_ok_iff.mpr ⟨hanswer, hstatus⟩
  have halike := reports_respond url timeout w
  rw [hrespond] at halike
  have hw₁ := halike.isSound hw
  have hclear₁ : IsClear w₁ folder :=
    ⟨hcan.clear.isEntryName, fun q hq ↦ halike.files_eq.symm ▸ hcan.clear.content? q hq⟩
  obtain ⟨w₂, hensure⟩ := run_ensureDirectories_of_clear hw₁ hfolder hclear₁
  have he₂ := (within_ensureDirectories hfolder).evolves hw₁ hensure
  have hfounds₂ := (founding_ensureDirectories (D := (· <+: folder.parts)) hfolder
    fun _ ↦ id).founds hw₁ hensure
  have hdir₂ := isDirectory_of_ensureDirectories hw₁ hfolder hensure
  have hfree : ∀ n, w.files.isDirectory (folder.parts ++ [n]) = false →
      w₂.files.isDirectory (folder.parts ++ [n]) = false := by
    intro n hn
    rw [← Bool.not_eq_true] at hn ⊢
    intro htrue
    rcases hfounds₂.isDirectory _ htrue with hbefore | hprefix
    · exact hn (halike.files_eq ▸ hbefore)
    · have hle := hprefix.length_le
      rw [List.length_append, List.length_singleton] at hle
      omega
  obtain ⟨w₃, hpartials⟩ := exists_run_clearPartials he₂.isSound hfolder
    (hclear₁.of_evolves he₂) hdir₂ fun n hn ↦ hfree n (hcan.free_unfinished n hn)
  have he₃ := (sheds_clearPartials hfolder he₂.isSound hpartials).1
  have hfounds₃ := (founding_clearPartials (D := fun _ ↦ False) hfolder
    (key url)).founds he₂.isSound hpartials
  have hcanPlace : ∀ n, IsEntryName n → w.files.isDirectory (folder.parts ++ [n]) = false →
      CanPlace w₃ (folder.child n) := by
    intro n hn hnot
    refine ⟨by simp, by simpa using he₃.isDirectory _ hdir₂, by simpa using hn, ?_⟩
    have hnot₂ := hfree n hnot
    rw [Path.parts_child, ← Bool.not_eq_true]
    rw [← Bool.not_eq_true] at hnot₂
    exact fun htrue ↦ (hfounds₃.isDirectory _ htrue).elim hnot₂ id
  have hname := hcan.isEntryName.toIsName
  have hname' := hcan.isEntryName_unfinished.toIsName
  obtain ⟨w₄, hkeep, hkept⟩ := run_keep_of_canPlace he₃.isSound (hfolder.child hname')
    (hfolder.child hname)
    (hcanPlace _ hcan.isEntryName_unfinished
      (hcan.free_unfinished _ (isPartialOf_unfinished url extension)))
    (hcanPlace _ hcan.isEntryName hcan.free) url head rest
  have hreceive : (receive url r folder (key url)).run w₁ =
      (.ok (some (folder.child (keptName url extension))), w₄) := by
    rw [receive]
    dsimp only
    rw [hhead]
    dsimp only
    rw [hextension]
    dsimp only
    rw [run_bind_of_ok hensure, run_bind_of_ok hpartials, hbreaks,
      show key url ++ "." ++ extension = keptName url extension from rfl,
      Path.join_ofString_of_isName _ hname, Path.join_ofString_of_isName _ hname',
      run_bind_of_ok hkeep]
    rfl
  rw [fetch, run_bind_of_ok hrespond, run_bind_of_ok (run_attempt_eq_ok.mpr hreceive)]
  exact ⟨_, rfl, hkept⟩

/-! ## Downloading -/

variable {image' : Path} {c' : Content} {timeout : Json.Value}

/-- What a download of a URL comes out with: the complete download whose name comes first or, if there is
none, what the host brings, as far as there is room for it. -/
inductive Yields (w : Workspace) (folder : Path) (url : String) : Path → Content → Prop
  | found {image : Path} {c : Content} (h : Finds folder (key url) w (some image))
      (hc : w.files.content? image.parts = some c) : Yields w folder url image c
  | fetched {extension : String} {c : Content} (hnone : ∀ n, ¬ IsComplete folder (key url) w n)
      (hbrings : Brings w.remote url extension c) (hroom : CanKeep w folder url extension) :
      Yields w folder url (folder.child (keptName url extension)) c

theorem Yields.unique (h : Yields w folder url image c) (h' : Yields w folder url image' c') :
    image = image' ∧ c = c' := by
  cases h with
  | found h hc =>
    cases h' with
    | found h' hc' =>
      cases h.eq h' fun _ ↦ Iff.rfl
      exact ⟨rfl, Option.some_inj.mp (hc.symm.trans hc')⟩
    | fetched hnone _ _ => cases h.eq (.nothing hnone) fun _ ↦ Iff.rfl
  | fetched hnone hbrings _ =>
    cases h' with
    | found h' _ => cases h'.eq (.nothing hnone) fun _ ↦ Iff.rfl
    | fetched _ hbrings' _ =>
      obtain ⟨rfl, rfl⟩ := hbrings.unique hbrings'
      exact ⟨rfl, rfl⟩

theorem yields_iff (hw : w.IsSound) (hfolder : folder.IsResolved) (timeout : Json.Value) :
    Yields w folder url image c ↔
      ∃ w', (download url folder timeout).run w = (.ok (some image), w') ∧
        w'.files.content? image.parts = some c := by
  constructor
  · intro h
    cases h with
    | found h hc => exact ⟨w, run_download_of_finds hw hfolder h timeout, hc⟩
    | fetched hnone hbrings hroom =>
      obtain ⟨r, hcached⟩ := exists_run_cached? hw hfolder hroom.clear (key url)
      obtain rfl := (finds_of_cached? hw hfolder hcached).eq (.nothing hnone) fun _ ↦ Iff.rfl
      obtain ⟨w', hfetch, hc⟩ := run_fetch_of_brings hw hfolder hbrings hroom timeout
      refine ⟨w', ?_, by rwa [Path.parts_child]⟩
      rw [download, run_bind_of_ok hcached]
      exact hfetch
  · rintro ⟨w', hrun, hc⟩
    obtain ⟨found, w₁, hcached, hrun⟩ := run_bind_eq_ok.mp hrun
    obtain rfl := (looks_cached? folder (key url)).eq hcached
    have hfinds := finds_of_cached? hw hfolder hcached
    cases found with
    | some p =>
      cases hrun
      exact .found hfinds hc
    | none =>
      obtain ⟨hnone⟩ := hfinds
      obtain ⟨extension, c', hbrings, hroom, rfl, hc'⟩ := brings_of_fetch hw hfolder hrun
      cases hc.symm.trans hc'
      exact .fetched hnone hbrings hroom

/-- Two workspaces with the same hosts, the same complete downloads of a URL and the same room for
another one. -/
structure SameFor (folder : Path) (url : String) (w w' : Workspace) : Prop where
  remote_eq : w'.remote = w.remote
  complete : ∀ n, hasKey (key url) n = true → isPartial n = false →
    w'.files.content? (folder.parts ++ [n]) = w.files.content? (folder.parts ++ [n])
  way : ∀ q, q <+: folder.parts → w'.files.content? q = w.files.content? q
  isDirectory : ∀ n, hasKey (key url) n = true →
    w'.files.isDirectory (folder.parts ++ [n]) = w.files.isDirectory (folder.parts ++ [n])

namespace SameFor

theorem symm (h : SameFor folder url w w') : SameFor folder url w' w :=
  ⟨h.remote_eq.symm, fun n hn hwhole ↦ (h.complete n hn hwhole).symm, fun q hq ↦ (h.way q hq).symm,
    fun n hn ↦ (h.isDirectory n hn).symm⟩

theorem isComplete_iff (h : SameFor folder url w w') (n : String) :
    IsComplete folder (key url) w n ↔ IsComplete folder (key url) w' n := by
  constructor
  · rintro ⟨hkey, hwhole, hthere⟩
    exact ⟨hkey, hwhole, h.complete n hkey hwhole ▸ hthere⟩
  · rintro ⟨hkey, hwhole, hthere⟩
    exact ⟨hkey, hwhole, h.complete n hkey hwhole ▸ hthere⟩

theorem canKeep (h : SameFor folder url w w') (hroom : CanKeep w folder url extension) :
    CanKeep w' folder url extension := by
  refine ⟨⟨hroom.clear.isEntryName, fun q hq ↦ (h.way q hq).trans (hroom.clear.content? q hq)⟩,
    hroom.isEntryName, hroom.isEntryName_unfinished, ?_, fun n hn ↦ ?_⟩
  · rw [h.isDirectory _ (hasKey_keptName url extension)]
    exact hroom.free
  · rw [h.isDirectory _ (hasKey_and_isPartial_of_isPartialOf hn).1]
    exact hroom.free_unfinished n hn

theorem yields (h : SameFor folder url w w') (hy : Yields w folder url image c) :
    Yields w' folder url image c := by
  cases hy with
  | found hfinds hc =>
    refine .found (hfinds.of_iff h.isComplete_iff) ?_
    cases hfinds with
    | first hn _ =>
      rw [Path.parts_child, h.complete _ hn.hasKey hn.whole]
      exact hc
  | fetched hnone hbrings hroom =>
    exact .fetched (fun n hn ↦ hnone n ((h.isComplete_iff n).mpr hn)) (h.remote_eq ▸ hbrings)
      (h.canKeep hroom)

theorem yields_iff (h : SameFor folder url w w') :
    Yields w' folder url image c ↔ Yields w folder url image c :=
  ⟨h.symm.yields, h.yields⟩

/-- Steps that leave alone what is kept under the key of a URL and what is on the way there. -/
theorem of_evolves {changed created D : List String → Prop} (he : Evolves changed created w w')
    (hfounds : Founds D w w')
    (hkeyed : ∀ q, Keyed folder (key url) q ∨ q <+: folder.parts → ¬ changed q ∧ ¬ created q)
    (hD : ∀ q, Keyed folder (key url) q → ¬ D q) : SameFor folder url w w' := by
  refine ⟨he.remote_eq, fun n hn _ ↦ ?_, fun q hq ↦ ?_, fun n hn ↦ ?_⟩
  · obtain ⟨hchanged, hcreated⟩ := hkeyed _ (.inl ⟨n, hn, rfl⟩)
    exact he.content?_eq hchanged hcreated
  · obtain ⟨hchanged, hcreated⟩ := hkeyed q (.inr hq)
    exact he.content?_eq hchanged hcreated
  · exact Bool.eq_iff_iff.mpr ⟨fun h ↦ (hfounds.isDirectory _ h).resolve_right (hD _ ⟨n, hn, rfl⟩),
      he.isDirectory _⟩

end SameFor

theorem sameFor_of_alike (hw : w.IsSound) (h : Alike w w') : SameFor folder url w w' := by
  have he : Evolves Nowhere Nowhere w w' := h.evolves hw
  exact .of_evolves he (.of_alike (D := Nowhere) hw h) (fun _ _ ↦ ⟨id, id⟩) fun _ _ ↦ id

theorem not_isPrefix_of_keyed {q : List String} (hq : Keyed folder (key url) q) :
    ¬ q <+: folder.parts := by
  obtain ⟨n, -, rfl⟩ := hq
  intro hprefix
  have hle := hprefix.length_le
  rw [List.length_append, List.length_singleton] at hle
  omega

theorem founds_download (hw : w.IsSound) (hfolder : folder.IsResolved)
    {outcome : Except Fault (Option Path)}
    (h : (download url folder timeout).run w = (outcome, w')) : Founds (· <+: folder.parts) w w' :=
  (founding_download hfolder (fun _ ↦ id) url timeout).founds hw h

/-- A download under another key. -/
theorem sameFor_of_download (hw : w.IsSound) (hfolder : folder.IsResolved) {url' : String}
    (hkey : key url' ≠ key url) {outcome : Except Fault (Option Path)}
    (h : (download url' folder timeout).run w = (outcome, w')) : SameFor folder url w w' := by
  refine .of_evolves (leaves_download hw hfolder h).evolves (founds_download hw hfolder h)
    (fun q hq ↦ ⟨fun hkeyed ↦ ?_, id⟩) fun q ↦ not_isPrefix_of_keyed
  rcases hq with ⟨n, hn, rfl⟩ | hprefix
  · exact not_keyed hn hkey hkeyed
  · exact not_isPrefix_of_keyed hkeyed hprefix

/-- A download that comes out with nothing leaves nothing that another one of its URL would find. -/
theorem sameFor_of_download_ne_some (hw : w.IsSound) (hfolder : folder.IsResolved)
    {outcome : Except Fault (Option Path)}
    (h : (download url folder timeout).run w = (outcome, w'))
    (hnot : ∀ image, outcome ≠ .ok (some image)) : SameFor folder url w w' := by
  have hleaves := leaves_download hw hfolder h
  have hfounds := founds_download hw hfolder h
  have hkept : ∀ n, hasKey (key url) n = true → isPartial n = false →
      w'.files.content? (folder.parts ++ [n]) = w.files.content? (folder.parts ++ [n]) := by
    rw [download] at h
    cases hcached : (cached? folder (key url)).run w with
    | mk found w₁ =>
      obtain rfl := (looks_cached? folder (key url)).eq hcached
      rcases found with f | _ | p
      · rw [run_bind_of_error hcached] at h
        cases h
        exact fun _ _ _ ↦ rfl
      · intro n hn hwhole
        have hnone := (run_cached?_eq_ok hw hfolder hcached).2 rfl n hn hwhole
        rcases hleaves.kept_or_gone (folder.parts ++ [n]) with heq | hgone | ⟨image, himage, -⟩
        · exact heq
        · exact hgone.trans hnone.symm
        · exact absurd himage (hnot image)
      · rw [run_bind_of_ok hcached] at h
        cases h
        exact absurd rfl (hnot p)
  refine ⟨hleaves.evolves.remote_eq, hkept, fun q hq ↦ ?_, fun n hn ↦ ?_⟩
  · exact hleaves.evolves.content?_eq (fun hkeyed ↦ not_isPrefix_of_keyed hkeyed hq) id
  · exact Bool.eq_iff_iff.mpr ⟨fun h ↦ (hfounds.isDirectory _ h).resolve_right
      (not_isPrefix_of_keyed ⟨n, hn, rfl⟩), hleaves.evolves.isDirectory _⟩

/-- A download comes out with the same when it is made again, however it ended, unless its file looks
unfinished. -/
theorem yields_iff_of_download (hw : w.IsSound) (hfolder : folder.IsResolved)
    {outcome : Except Fault (Option Path)}
    (h : (download url folder timeout).run w = (outcome, w'))
    (hwhole : ∀ image, outcome = .ok (some image) → isPartial image.name = false) :
    Yields w' folder url image c ↔ Yields w folder url image c := by
  by_cases hsome : ∃ image, outcome = .ok (some image)
  · obtain ⟨p, rfl⟩ := hsome
    obtain ⟨d, hd⟩ := (leaves_download hw hfolder h).content? p rfl
    have hbefore : Yields w folder url p d := (yields_iff hw hfolder timeout).mpr ⟨w', h, hd⟩
    have hfinds := finds_of_download hw hfolder h
    rw [if_neg (by simp [hwhole p rfl])] at hfinds
    have hafter : Yields w' folder url p d := .found hfinds hd
    constructor
    · intro hy
      obtain ⟨rfl, rfl⟩ := hy.unique hafter
      exact hbefore
    · intro hy
      obtain ⟨rfl, rfl⟩ := hy.unique hbefore
      exact hafter
  · exact (sameFor_of_download_ne_some hw hfolder h fun image himage ↦
      hsome ⟨image, himage⟩).yields_iff

end Download

end ResponsiveImage
