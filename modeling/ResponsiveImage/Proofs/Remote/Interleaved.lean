import ResponsiveImage.Proofs.Remote.Repeated

/-!
# Downloads in between

A download that has come out with a file is not made again: whatever is downloaded under other keys
in the meantime, and whatever the hosts answer by then, the file is found where it was, and no host is
asked.  The one exception is a file whose name ends like those of unfinished downloads
(`download_again_iff`).
-/

namespace ResponsiveImage.Download

open Job
open Workspace (Evolves)

variable {folder p : Path} {w w₁ x : Workspace} {url digest : String} {n : String}

/-! ## What happens in between -/

/-- Downloads of URLs with other keys, into any folders and however they end, one after another, while
the hosts change what they answer. -/
inductive Interleaves (digest : String) (w : Workspace) : Workspace → Prop
  | refl : Interleaves digest w w
  | answers {x : Workspace} (h : Interleaves digest w x) (remote : List (String × Response)) :
      Interleaves digest w { x with remote }
  | download {x : Workspace} (h : Interleaves digest w x) {url : String} {folder : Path}
      (hkey : key url ≠ digest) (hfolder : folder.IsResolved) (timeout : Json.Value) :
      Interleaves digest w ((download url folder timeout).run x).2

/-- Whether a name belongs to a key is the same for all folders. -/
theorem not_keyed {folder' : Path} (hn : hasKey (key url) n = true) {url' : String}
    (hkey : key url' ≠ key url) : ¬ Keyed folder' (key url') (folder.parts ++ [n]) := by
  rintro ⟨m, hm, heq⟩
  have hnames : n = m := by simpa using congrArg List.getLast? heq
  exact hkey (key_eq_of_hasKey hm (hnames ▸ hn))

theorem evolves_download (hw : w.IsSound) (hfolder : folder.IsResolved) (url : String)
    (timeout : Json.Value) :
    Evolves (Keyed folder (key url)) Nowhere w ((download url folder timeout).run w).2 := by
  cases hrun : (download url folder timeout).run w with
  | mk outcome w' => exact (leaves_download hw hfolder hrun).evolves

theorem Interleaves.isSound (h : Interleaves digest w x) (hw : w.IsSound) : x.IsSound := by
  induction h with
  | refl => exact hw
  | answers _ remote ih => exact ⟨ih.files, ih.isName⟩
  | download _ hkey hfolder timeout ih => exact (evolves_download ih hfolder _ timeout).isSound

/-- The files of a key stay as they are in all folders. -/
theorem Interleaves.content?_eq (h : Interleaves (key url) w x) (hw : w.IsSound)
    (hn : hasKey (key url) n = true) :
    x.files.content? (folder.parts ++ [n]) = w.files.content? (folder.parts ++ [n]) := by
  induction h with
  | refl => rfl
  | answers _ remote ih => exact ih
  | @download y h url' folder' hkey hfolder timeout ih =>
    have he := evolves_download (h.isSound hw) hfolder url' timeout
    exact (he.content?_eq (not_keyed hn hkey) id).trans ih

theorem Finds.of_iff {r : Option Path} (h : Finds folder digest w r)
    (hiff : ∀ n, IsComplete folder digest w n ↔ IsComplete folder digest x n) :
    Finds folder digest x r := by
  cases h with
  | nothing h => exact .nothing fun n hn ↦ h n ((hiff n).mpr hn)
  | first hn hfirst => exact .first ((hiff _).mp hn) fun m hm ↦ hfirst m ((hiff m).mpr hm)

theorem Interleaves.isComplete_iff (h : Interleaves (key url) w x) (hw : w.IsSound) (n : String) :
    IsComplete folder (key url) w n ↔ IsComplete folder (key url) x n := by
  constructor
  · intro hn
    exact ⟨hn.hasKey, hn.whole, by rw [h.content?_eq hw hn.hasKey]; exact hn.there⟩
  · intro hn
    exact ⟨hn.hasKey, hn.whole, by rw [← h.content?_eq hw hn.hasKey]; exact hn.there⟩

theorem Interleaves.finds (h : Interleaves (key url) w x) (hw : w.IsSound) {r : Option Path}
    (hr : Finds folder (key url) w r) : Finds folder (key url) x r :=
  hr.of_iff (h.isComplete_iff hw)

/-! ## What a download has found or made -/

/-- No file is on the way to a file. -/
theorem isClear_of_content? (hw : w.IsSound) (h : w.files.content? (folder.parts ++ [n]) ≠ none) :
    IsClear w folder := by
  obtain ⟨c, hc⟩ := Option.ne_none_iff_exists'.mp h
  have hget := Tree.content?_eq_some_iff.mp hc
  exact isClear_of_isDirectory hw (hw.files.isDirectory_of_prefix hget (List.cons_ne_nil _ _))

theorem run_cached?_of_finds (hw : w.IsSound) (hfolder : folder.IsResolved)
    (h : Finds folder digest w (some p)) : (cached? folder digest).run w = (.ok (some p), w) := by
  cases h with
  | first hn hfirst =>
    obtain ⟨r, hr⟩ := exists_run_cached? hw hfolder (isClear_of_content? hw hn.there) digest
    rw [(finds_of_cached? hw hfolder hr).eq (.first hn hfirst) fun _ ↦ Iff.rfl] at hr
    exact hr

/-- What is found is not fetched. -/
theorem run_download_of_finds (hw : w.IsSound) (hfolder : folder.IsResolved)
    (h : Finds folder (key url) w (some p)) (timeout : Json.Value) :
    (download url folder timeout).run w = (.ok (some p), w) := by
  rw [download, run_bind_of_ok (run_cached?_of_finds hw hfolder h)]
  rfl

/-- A file that a download comes out with lies in its folder under its key. -/
theorem exists_child_of_download (hw : w.IsSound) (hfolder : folder.IsResolved)
    {timeout : Json.Value} (h : (download url folder timeout).run w = (.ok (some p), w₁)) :
    ∃ n, IsName n ∧ p = folder.child n ∧ hasKey (key url) n = true ∧
      w₁.files.content? (folder.parts ++ [n]) ≠ none := by
  obtain ⟨n, hname, rfl⟩ := exists_name_of_download hw hfolder h
  have hleaves := leaves_download hw hfolder h
  obtain ⟨m, hm, heq⟩ := hleaves.hasKey _ rfl
  obtain ⟨c, hc⟩ := hleaves.content? _ rfl
  have hnames : n = m := by simpa using heq
  rw [Path.parts_child] at hc
  exact ⟨n, hname, rfl, hnames ▸ hm, by rw [hc]; exact Option.some_ne_none _⟩

/-- What is found after a download is the file it came out with, unless that looks unfinished: then
nothing is found. -/
theorem finds_of_download (hw : w.IsSound) (hfolder : folder.IsResolved) {timeout : Json.Value}
    (h : (download url folder timeout).run w = (.ok (some p), w₁)) :
    Finds folder (key url) w₁ (if isPartial p.name then none else some p) := by
  obtain ⟨n, -, rfl, hkey, hthere⟩ := exists_child_of_download hw hfolder h
  rw [Path.name_child]
  rw [download, run_bind_eq_ok] at h
  obtain ⟨found, w₂, hcached, h⟩ := h
  obtain rfl := (looks_cached? folder (key url)).eq hcached
  have hfinds := finds_of_cached? hw hfolder hcached
  cases found with
  | some q =>
    cases h
    obtain ⟨m, -, hchild, -, hwhole, -⟩ := (run_cached?_eq_ok hw hfolder hcached).1 _ rfl
    have hnames : n = m := by simpa using congrArg Path.name hchild
    rw [hnames, hwhole, ← hnames]
    exact hfinds
  | none =>
    obtain ⟨hnothing⟩ := hfinds
    -- Nothing was there under the key, so that what is there now is the file that was fetched.
    have honly : ∀ m, IsComplete folder (key url) w₁ m → m = n := by
      intro m hm
      by_contra hne
      have hother : folder.parts ++ [m] ≠ (folder.child n).parts := by simp [hne]
      rcases kept_or_gone_of_fetch hw hfolder h hother with hkept | hgone
      · exact hnothing m ⟨hm.hasKey, hm.whole, hkept ▸ hm.there⟩
      · exact hm.there hgone
    cases hpartial : isPartial n with
    | true =>
      refine .nothing fun m hm ↦ ?_
      have hwhole := hm.whole
      rw [honly m hm, hpartial] at hwhole
      cases hwhole
    | false => exact .first ⟨hkey, hpartial, hthere⟩ fun m hm ↦ honly m hm ▸ String.le_refl _

/-- Where nothing is found and no host answers, nothing is downloaded. -/
theorem run_download_ne_ok_of_finds_none (hw : w.IsSound) (hfolder : folder.IsResolved)
    (h : Finds folder (key url) w none) (hremote : w.remote = []) (timeout : Json.Value)
    {r : Option Path} : ((download url folder timeout).run w).1 ≠ .ok r := by
  intro hok
  have hrun : (download url folder timeout).run w = (.ok r, ((download url folder timeout).run w).2) :=
    Prod.ext hok rfl
  generalize ((download url folder timeout).run w).2 = w' at hrun
  rw [download, run_bind_eq_ok] at hrun
  obtain ⟨found, w₁, hcached, hrun⟩ := hrun
  obtain rfl := (looks_cached? folder (key url)).eq hcached
  obtain rfl := (finds_of_cached? hw hfolder hcached).eq h fun _ ↦ Iff.rfl
  obtain ⟨response, w₂, hrespond, -⟩ := run_bind_eq_ok.mp hrun
  have hlookup := run_respond_eq_ok hrespond
  rw [hremote] at hlookup
  cases hlookup

/-- **A download that has come out with a file is never made again, exactly if the name of the file
does not end like those of unfinished downloads: after any downloads under other keys, with whatever
answers of the hosts, it comes out with the same file, whose content is the same, and neither a file
nor the list of requests changes.** -/
theorem download_again_iff (hw : w.IsSound) (hfolder : folder.IsResolved) {timeout : Json.Value}
    (h : (download url folder timeout).run w = (.ok (some p), w₁)) :
    (∀ x, Interleaves (key url) w₁ x → ∀ timeout',
      (download url folder timeout').run x = (.ok (some p), x) ∧
        ∃ c, w₁.files.content? p.parts = some c ∧ x.files.content? p.parts = some c) ↔
      isPartial p.name = false := by
  have hw₁ := (leaves_download hw hfolder h).evolves.isSound
  have hfinds := finds_of_download hw hfolder h
  obtain ⟨n, -, rfl, hkey, hthere⟩ := exists_child_of_download hw hfolder h
  rw [Path.name_child] at hfinds ⊢
  constructor
  · intro hagain
    rw [← Bool.not_eq_true]
    intro hpartial
    rw [if_pos hpartial] at hfinds
    -- Once no host answers, the download fails.
    have hsilent : Interleaves (key url) w₁ { w₁ with remote := [] } := .answers .refl []
    obtain ⟨hrun, -⟩ := hagain _ hsilent timeout
    exact run_download_ne_ok_of_finds_none (hsilent.isSound hw₁) hfolder (hsilent.finds hw₁ hfinds)
      rfl timeout (congrArg Prod.fst hrun)
  · intro hwhole x hx timeout'
    rw [if_neg (by simp [hwhole])] at hfinds
    obtain ⟨c, hc⟩ := Option.ne_none_iff_exists'.mp hthere
    refine ⟨run_download_of_finds (hx.isSound hw₁) hfolder (hx.finds hw₁ hfinds) timeout', c, hc, ?_⟩
    rw [Path.parts_child, hx.content?_eq hw₁ hkey]
    exact hc

/-- An image whose type looks unfinished is fetched again. -/
theorem download_again_misnamed :
    ∃ p w', (download "https://h/a" (.ofParts ["dl"]) (.int 15)).run misnamingHost =
        (.ok (some p), w') ∧
      ¬ ∀ x, Interleaves (key "https://h/a") w' x → ∀ timeout,
        (download "https://h/a" (.ofParts ["dl"]) timeout).run x = (.ok (some p), x) ∧
          ∃ c, w'.files.content? p.parts = some c ∧ x.files.content? p.parts = some c := by
  have hsound : misnamingHost.IsSound := ⟨by decide +kernel, by decide⟩
  have hfolder : (Path.ofParts ["dl"]).IsResolved := by decide
  have houtcome : ((download "https://h/a" (.ofParts ["dl"]) (.int 15)).run misnamingHost).1 =
      .ok (some ((Path.ofParts ["dl"]).child (key "https://h/a" ++ "." ++ "x.part"))) :=
    eq_ok_of_toOption (by decide +kernel)
  have hpartial : isPartial (key "https://h/a" ++ "." ++ "x.part") = true := by decide +kernel
  cases hrun : (download "https://h/a" (.ofParts ["dl"]) (.int 15)).run misnamingHost with
  | mk outcome w' =>
    rw [hrun] at houtcome
    obtain rfl : outcome = _ := houtcome
    refine ⟨_, w', rfl, fun hagain ↦ ?_⟩
    have hwhole := (download_again_iff hsound hfolder hrun).mp hagain
    rw [Path.name_child, hpartial] at hwhole
    cases hwhole

end ResponsiveImage.Download
