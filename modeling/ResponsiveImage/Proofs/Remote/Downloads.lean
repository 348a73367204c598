import ResponsiveImage.Proofs.Job.Changing
import ResponsiveImage.Remote.Download

/-!
# What downloads change

A download lies in its folder under the key of its URL.  Only unfinished downloads are ever changed
or taken away; a complete one is only put where no file of its name was, because one that is there is
used again.
-/

namespace ResponsiveImage

open Workspace (Evolves Alike)

/-! ## Keys -/

namespace Sha1

theorem exists_digit_of_mem_toDigits {n : Nat} {c : Char} (h : c ∈ Nat.toDigits 16 n) :
    ∃ d < 16, c = Nat.digitChar d := by
  induction n using Nat.strongRecOn with
  | ind n ih =>
    by_cases hn : n < 16
    · rw [Nat.toDigits_of_lt_base hn] at h
      exact ⟨n, hn, List.mem_singleton.mp h⟩
    · rw [Nat.toDigits_of_base_le (by decide) (Nat.le_of_not_lt hn)] at h
      rcases List.mem_append.mp h with h | h
      · exact ih (n / 16) (by omega) h
      · exact ⟨n % 16, Nat.mod_lt _ (by decide), List.mem_singleton.mp h⟩

theorem exists_digit_of_mem_hex {bs : List UInt8} {c : Char} (h : c ∈ (hex bs).toList) :
    ∃ d < 16, c = Nat.digitChar d := by
  rw [hex, String.toList_ofList] at h
  obtain ⟨word, -, hc⟩ := List.mem_flatMap.mp h
  exact exists_digit_of_mem_toDigits (List.mem_of_mem_tail hc)

theorem hex_ne_empty (bs : List UInt8) : (hex bs).toList ≠ [] := by
  rw [hex, String.toList_ofList]
  intro hnil
  rw [List.flatMap_eq_nil_iff] at hnil
  -- a number of nine digits or more loses only the first of them
  have hlong : ∀ n, (Nat.toDigits 16 (n + Nat.pow 16 8)).tail ≠ [] := by
    intro n htail
    have hlength := congrArg List.length htail
    rw [List.length_tail, List.length_nil] at hlength
    have hlt : n + 16 ^ 8 < 16 ^ 8 := (Nat.length_toDigits_le_iff (by decide) (by decide)).mp
      (show (Nat.toDigits 16 (n + Nat.pow 16 8)).length ≤ 8 by omega)
    omega
  exact hlong _ (hnil _ List.mem_cons_self)

end Sha1

namespace ContentType

theorem slash_not_mem_extension {contentType extension : String}
    (h : extension? contentType = some extension) : '/' ∉ extension.toList := by
  rw [extension?] at h
  split at h
  · rename_i kind subtype hsegments
    split at h
    · have hmem : subtype ∈ segments contentType.toList := by simp [hsegments]
      have hslash := not_mem_of_mem_splitOn hmem
      rw [← Option.some.inj h]
      unfold subtypeExtension
      split
      · decide
      · decide
      · rw [String.toList_ofList]
        exact hslash
    · cases h
  · cases h

end ContentType

namespace Download

open Job

variable {folder target : Path} {w w' w₀ w₁ : Workspace} {url extension : String}

theorem slash_not_mem_extension {contentType : String} {head : Content}
    (h : extension? contentType head = some extension) : '/' ∉ extension.toList := by
  rw [extension?] at h
  split at h
  · rename_i hextension
    cases h
    exact ContentType.slash_not_mem_extension hextension
  · split at h
    · cases h
    · exact ContentType.slash_not_mem_extension h

/-- The name of a download is one that files can have. -/
theorem isName_download (url : String) (hslash : '/' ∉ extension.toList) :
    IsName (key url ++ "." ++ extension) := by
  obtain ⟨c, cs, hkey⟩ := List.exists_cons_of_ne_nil (Sha1.hex_ne_empty (Text.Utf8.encode url.toList))
  have hdigits : ∀ d < 16, Nat.digitChar d ≠ '/' ∧ Nat.digitChar d ≠ '.' := by decide
  have hchars : ∀ x ∈ (key url).toList, x ≠ '/' ∧ x ≠ '.' := by
    intro x hx
    obtain ⟨d, hd, rfl⟩ := Sha1.exists_digit_of_mem_hex hx
    exact hdigits d hd
  have hhead : (key url ++ "." ++ extension).toList = c :: (cs ++ ['.'] ++ extension.toList) := by
    rw [String.toList_append, String.toList_append, show (key url).toList = c :: cs from hkey]
    rfl
  have hc : c ≠ '.' := (hchars c (by rw [show (key url).toList = c :: cs from hkey]; simp)).2
  refine ⟨?_, ?_, ?_, ?_⟩
  · intro he
    rw [he] at hhead
    cases hhead
  · intro he
    rw [he] at hhead
    exact hc (List.cons.inj hhead).1.symm
  · intro he
    rw [he] at hhead
    exact hc (List.cons.inj hhead).1.symm
  · rw [String.toList_append, String.toList_append, List.mem_append, List.mem_append]
    rintro ((h | h) | h)
    · exact (hchars _ h).1 rfl
    · exact absurd h (by decide)
    · exact hslash h

theorem isName_unfinished (url : String) (hslash : '/' ∉ extension.toList) :
    IsName (key url ++ "." ++ extension ++ partialSuffix) := by
  rw [show key url ++ "." ++ extension ++ partialSuffix =
    key url ++ "." ++ (extension ++ partialSuffix) from String.append_assoc]
  refine isName_download url ?_
  rw [String.toList_append, List.mem_append, not_or]
  exact ⟨hslash, by decide⟩

/-! ## Looking for downloads -/

theorem mem_names_iff {t : Tree} (ht : t.IsSound) {place : List String} {n : String} :
    n ∈ t.names place ↔ ∃ e, (place ++ [n], e) ∈ t.entries := by
  rw [Tree.names, List.mem_filterMap]
  constructor
  · rintro ⟨⟨q, e⟩, hm, hn⟩
    split at hn
    · rename_i hplace
      have hne := ht.ne_nil _ hm
      have hlast : q.getLast hne = n := by
        rw [List.getLast?_eq_some_getLast hne] at hn
        exact Option.some.inj hn
      refine ⟨e, ?_⟩
      rw [← beq_iff_eq.mp hplace, ← hlast, List.dropLast_concat_getLast hne]
      exact hm
    · cases hn
  · rintro ⟨e, hm⟩
    exact ⟨_, hm, by simp⟩

theorem looks_namesIn (folder : Path) : Looks (namesIn folder) := by
  refine (looks_find? folder).bind fun found ↦ ?_
  split
  · exact looks_get.bind fun w ↦ looks_pure _
  · exact looks_pure _

/-- The names in a folder are those under which something stands there. -/
theorem mem_namesIn_iff (hw : w.IsSound) (hfolder : folder.IsResolved) {ns : List String}
    (h : (namesIn folder).run w = (.ok ns, w')) {n : String} :
    n ∈ ns ↔ w.files.get? (folder.parts ++ [n]) ≠ none := by
  rw [namesIn, run_bind_eq_ok] at h
  obtain ⟨found, w₁, hfound, h⟩ := h
  obtain ⟨rfl, rfl⟩ := run_find?_eq_ok hw hfolder hfound
  split at h
  · rename_i place hplace
    obtain rfl : place = folder.parts := by
      cases hget : w₁.files.get? folder.parts with
      | none => simp [hget] at hplace
      | some e =>
        rw [hget] at hplace
        cases hplace
        rfl
    rw [run_bind_eq_ok] at h
    obtain ⟨w₂, w₃, hget, h⟩ := h
    cases hget
    cases h
    rw [List.mem_mergeSort, mem_names_iff hw.files]
    constructor
    · rintro ⟨e, he⟩
      exact Tree.get?_ne_none_of_mem he
    · intro hn
      obtain ⟨e, he⟩ := Option.ne_none_iff_exists'.mp hn
      exact ⟨e, Tree.IsSound.mem_entries he (by simp)⟩
  · rename_i hnot
    cases h
    refine ⟨fun hn ↦ absurd hn List.not_mem_nil, fun hn ↦ ?_⟩
    -- where there is no directory nothing stands
    obtain ⟨e, he⟩ := Option.ne_none_iff_exists'.mp hn
    have hdir := hw.files.isDirectory_dropLast he
    rw [List.dropLast_concat, Tree.isDirectory_iff] at hdir
    exact absurd (by rw [hdir]; rfl) (hnot folder.parts)

/-- All files in a folder are listed, and only names that files can have. -/
theorem run_namesIn_eq_ok (hw : w.IsSound) (hfolder : folder.IsResolved) {ns : List String}
    (h : (namesIn folder).run w = (.ok ns, w')) :
    (∀ n ∈ ns, IsName n) ∧
      ∀ n, w.files.content? (folder.parts ++ [n]) ≠ none → n ∈ ns := by
  refine ⟨fun n hn ↦ ?_, fun n hn ↦ ?_⟩
  · obtain ⟨e, he⟩ := Option.ne_none_iff_exists'.mp ((mem_namesIn_iff hw hfolder h).mp hn)
    exact (hw.files.isEntryName_of_get? he n (by simp)).toIsName
  · obtain ⟨c, hc⟩ := Option.ne_none_iff_exists'.mp hn
    exact (mem_namesIn_iff hw hfolder h).mpr (Tree.get?_ne_none_of_content? hc)

theorem looks_firstFile (ps : List Path) : Looks (firstFile ps) := by
  induction ps with
  | nil => exact looks_pure _
  | cons p ps ih =>
    refine (looks_isFile p).bind fun b ↦ ?_
    split
    · exact looks_pure _
    · exact ih

theorem run_firstFile_eq_ok (hw : w.IsSound) {ps : List Path} (hps : ∀ p ∈ ps, p.IsResolved)
    {r : Option Path} (h : (firstFile ps).run w = (.ok r, w')) :
    (∀ p ∈ r, p ∈ ps ∧ w.files.content? p.parts ≠ none) ∧
      (r = none → ∀ p ∈ ps, w.files.content? p.parts = none) := by
  induction ps with
  | nil =>
    cases h
    exact ⟨fun p hp ↦ absurd hp (by simp), fun _ p hp ↦ absurd hp List.not_mem_nil⟩
  | cons p ps ih =>
    obtain ⟨hp, hps⟩ := List.forall_mem_cons.mp hps
    rw [firstFile, run_bind_eq_ok] at h
    obtain ⟨b, w₁, hfile, h⟩ := h
    obtain ⟨rfl, hb⟩ := run_isFile_eq_ok hw hp hfile
    cases b with
    | true =>
      cases h
      refine ⟨fun q hq ↦ ?_, fun hnone ↦ nomatch hnone⟩
      rw [← Option.mem_some.mp hq]
      exact ⟨List.mem_cons_self, Option.isSome_iff_ne_none.mp hb.symm⟩
    | false =>
      obtain ⟨hsome, hnone⟩ := ih hps h
      refine ⟨fun q hq ↦ ⟨List.mem_cons_of_mem _ (hsome q hq).1, (hsome q hq).2⟩, fun hr q hq ↦ ?_⟩
      rcases List.mem_cons.mp hq with rfl | hq
      · cases hc : w₁.files.content? q.parts with
        | none => rfl
        | some c => simp [hc] at hb
      · exact hnone hr q hq

/-- The complete downloads of a key, as paths. -/
theorem looks_cached? (folder : Path) (key : String) : Looks (cached? folder key) :=
  (looks_namesIn folder).bind fun _ ↦ looks_firstFile _

/-- What is found is a file in the folder; if nothing is found, there is no complete download. -/
theorem run_cached?_eq_ok (hw : w.IsSound) (hfolder : folder.IsResolved) {key : String}
    {r : Option Path} (h : (cached? folder key).run w = (.ok r, w')) :
    (∀ p ∈ r, ∃ n, IsName n ∧ p = folder.child n ∧ hasKey key n = true ∧ isPartial n = false ∧
        w.files.content? (folder.parts ++ [n]) ≠ none) ∧
      (r = none → ∀ n, hasKey key n = true → isPartial n = false →
        w.files.content? (folder.parts ++ [n]) = none) := by
  rw [cached?, run_bind_eq_ok] at h
  obtain ⟨ns, w₁, hns, h⟩ := h
  obtain rfl := (looks_namesIn folder).eq hns
  obtain ⟨hnames, hall⟩ := run_namesIn_eq_ok hw hfolder hns
  have hpaths : ∀ p ∈ (ns.filter fun n ↦ hasKey key n && !isPartial n).map
      (fun n ↦ folder / .ofString n),
      ∃ n, IsName n ∧ p = folder.child n ∧ hasKey key n = true ∧ isPartial n = false := by
    intro p hp
    obtain ⟨n, hn, rfl⟩ := List.mem_map.mp hp
    obtain ⟨hn, hcomplete⟩ := List.mem_filter.mp hn
    have hname := hnames n hn
    exact ⟨n, hname, Path.join_ofString_of_isName _ hname, by simpa using hcomplete⟩
  have hresolved : ∀ p ∈ (ns.filter fun n ↦ hasKey key n && !isPartial n).map
      (fun n ↦ folder / .ofString n), p.IsResolved := by
    intro p hp
    obtain ⟨n, hn, rfl, -⟩ := hpaths p hp
    exact hfolder.child hn
  obtain ⟨hsome, hnone⟩ := run_firstFile_eq_ok hw hresolved h
  refine ⟨fun p hp ↦ ?_, fun hr n hkey hpartial ↦ ?_⟩
  · obtain ⟨hmem, hfile⟩ := hsome p hp
    obtain ⟨n, hn, rfl, hkey, hcomplete⟩ := hpaths p hmem
    exact ⟨n, hn, rfl, hkey, hcomplete, hfile⟩
  by_contra hc
  have hn := hall n hc
  refine hc ?_
  have hp := hnone hr (folder / .ofString n)
    (List.mem_map_of_mem (List.mem_filter.mpr ⟨hn, by simp [hkey, hpartial]⟩))
  rwa [Path.join_ofString_of_isName _ (hnames n hn)] at hp

/-! ## Where downloads lie -/

/-- The names of downloads. -/
def IsDownload (n : String) : Prop := ∃ url, hasKey (key url) n = true

/-- The places of unfinished downloads in a folder. -/
def Unfinished (folder : Path) : List String → Prop := fun q ↦
  ∃ n, IsDownload n ∧ isPartial n = true ∧ q = folder.parts ++ [n]

/-- The places of downloads in a folder. -/
def Fetched (folder : Path) : List String → Prop := fun q ↦
  ∃ n, IsDownload n ∧ q = folder.parts ++ [n]

theorem hasKey_and_isPartial_of_isPartialOf {key n : String} (h : isPartialOf key n = true) :
    hasKey key n = true ∧ isPartial n = true := by
  rw [isPartialOf, Bool.and_eq_true] at h
  have hsuffix := List.isSuffixOf_iff_suffix.mp h.2
  exact ⟨h.1, List.isSuffixOf_iff_suffix.mpr (hsuffix.trans (List.drop_suffix _ _))⟩

theorem isPartial_append (name : String) : isPartial (name ++ partialSuffix) = true := by
  rw [isPartial, List.isSuffixOf_iff_suffix, String.toList_append]
  exact List.suffix_append _ _

theorem hasKey_append (key extension : String) : hasKey key (key ++ "." ++ extension) = true := by
  rw [hasKey, List.isPrefixOf_iff_prefix]
  exact ⟨extension.toList, String.toList_append.symm⟩

theorem within_clearPartials (hfolder : folder.IsResolved) (url : String) :
    Within (Unfinished folder) (Fetched folder) (clearPartials folder (key url)) := by
  intro w hw
  rw [clearPartials, run_bind]
  split
  · rename_i ns w₁ hns
    obtain rfl := (looks_namesIn folder).eq hns
    obtain ⟨hnames, -⟩ := run_namesIn_eq_ok hw hfolder hns
    refine within_forM (fun n hn ↦ ?_) w₁ hw
    obtain ⟨hn, hpartial⟩ := List.mem_filter.mp hn
    rw [Path.join_ofString_of_isName _ (hnames n hn)]
    refine (within_unlinkIfPresent (hfolder.child (hnames n hn))).mono ?_ (fun _ h ↦ h.elim)
    rintro q rfl
    obtain ⟨hkey, hpartial⟩ := hasKey_and_isPartial_of_isPartialOf hpartial
    exact ⟨n, ⟨url, hkey⟩, hpartial, rfl⟩
  · rename_i f w₁ hns
    rw [(looks_namesIn folder).eq hns]
    exact .refl hw

/-! ## Keeping a download -/

/-- A job that stays within some bounds, as seen from a workspace before it. -/
def From (w : Workspace) (changed created : List String → Prop) {α : Type} (t : Job α) : Prop :=
  ∀ w₁, Evolves changed created w w₁ → Evolves changed created w (t.run w₁).2

section From

variable {α β : Type} {t : Job α} {changed created : List String → Prop}

theorem Within.from (h : Within changed created t) : From w changed created t :=
  fun w₁ he ↦ he.trans (h w₁ he.isSound)

theorem From.attempt (h : From w changed created t) : From w changed created (attempt t) :=
  fun w₁ he ↦ h w₁ he

theorem From.bind {f : α → Job β} (ht : From w changed created t)
    (hf : ∀ a, From w changed created (f a)) : From w changed created (t >>= f) := by
  intro w₁ he
  rw [run_bind]
  split
  · rename_i a w₂ hrun
    have he₂ := ht w₁ he
    rw [hrun] at he₂
    exact hf a w₂ he₂
  · rename_i f w₂ hrun
    have he₂ := ht w₁ he
    rw [hrun] at he₂
    exact he₂

end From

/-- A place of a download, at which no file was before it is complete. -/
structure IsFree (w : Workspace) (folder target : Path) : Prop where
  isResolved : target.IsResolved
  fetched : Fetched folder target.parts
  unfinished_or_none : Unfinished folder target.parts ∨ w.files.content? target.parts = none

theorem from_complete {unfinished : Path} (hunfinished : unfinished.IsResolved)
    (hpartial : Unfinished folder unfinished.parts) (htarget : IsFree w folder target)
    (head : Content) (rest : List Content) (breaks : Bool) :
    From w (Unfinished folder) (Fetched folder)
      (complete url unfinished target head rest breaks) := by
  have hwrite : ∀ c, From w (Unfinished folder) (Fetched folder) (overwrite unfinished c) := by
    intro c
    refine Within.from ((within_overwrite hunfinished c).mono ?_ (fun _ h ↦ h.elim))
    rintro q rfl
    exact hpartial
  have hmove : From w (Unfinished folder) (Fetched folder) (do
      overwrite unfinished (rest.foldl .append head)
      move unfinished target) := by
    intro w₁ he
    rw [run_bind]
    split
    · rename_i u w₂ hrun
      have he₂ := hwrite (rest.foldl .append head) w₁ he
      rw [hrun] at he₂
      have hc : w₂.files.content? unfinished.parts = some (rest.foldl .append head) :=
        content?_of_overwrite he.isSound hunfinished hrun
      have hmoved := evolves_move he₂.isSound hunfinished htarget.isResolved hc
      refine ⟨hmoved.isSound, hmoved.cwd_eq.trans he₂.cwd_eq, hmoved.remote_eq.trans he₂.remote_eq,
        fun q h ↦ hmoved.isDirectory q (he₂.isDirectory q h), fun q ↦ ?_⟩
      rcases hmoved.content? q with heq | (rfl | rfl) | ⟨hno, -⟩
      · rw [heq]
        exact he₂.content? q
      · exact .inr (.inl hpartial)
      · rcases htarget.unfinished_or_none with h | h
        · exact .inr (.inl h)
        · exact .inr (.inr ⟨htarget.fetched, h⟩)
      · exact hno.elim
    · rename_i f w₂ hrun
      have he₂ := hwrite (rest.foldl .append head) w₁ he
      rw [hrun] at he₂
      exact he₂
  rw [complete]
  refine (hwrite head).bind fun _ ↦ ?_
  dsimp only
  split
  · exact (Within.from (within_throw _)).bind fun _ ↦ hmove
  · exact hmove

theorem from_keep {unfinished : Path} (hunfinished : unfinished.IsResolved)
    (hpartial : Unfinished folder unfinished.parts) (htarget : IsFree w folder target)
    (head : Content) (rest : List Content) (breaks : Bool) :
    From w (Unfinished folder) (Fetched folder)
      (keep url unfinished target head rest breaks) := by
  have hunlink : Within (Unfinished folder) (Fetched folder) (unlinkIfPresent unfinished) := by
    refine (within_unlinkIfPresent hunfinished).mono ?_ (fun _ h ↦ h.elim)
    rintro q rfl
    exact hpartial
  refine (from_complete hunfinished hpartial htarget head rest breaks).attempt.bind fun r ↦ ?_
  split
  · exact Within.from (within_pure _)
  · exact Within.from (hunlink.bind fun _ ↦ within_throw _)
  · exact Within.from (hunlink.bind fun _ ↦ within_throw _)
  · exact Within.from (within_throw _)

theorem within_respond (url : String) (timeout : Json.Value) {changed created : List String → Prop} :
    Within changed created (respond url timeout) := by
  refine (within_request _).bind fun _ ↦ looks_get.within.bind fun w ↦ ?_
  split
  · exact within_throw _
  · dsimp only
    split
    · exact within_throw _
    · exact within_pure _

/-- Receiving an image of which there is no complete download. -/
theorem from_receive (hfolder : folder.IsResolved)
    (hnone : ∀ n, hasKey (key url) n = true → isPartial n = false →
      w.files.content? (folder.parts ++ [n]) = none) (r : Response) :
    From w (Unfinished folder) (Fetched folder) (receive url r folder (key url)) := by
  rw [receive]
  dsimp only
  split
  · exact Within.from (within_throw _)
  · rename_i head rest hhead
    split
    · exact Within.from ((within_log _ _ _).bind fun _ ↦ within_pure _)
    · rename_i extension hextension
      have hslash := slash_not_mem_extension hextension
      have hname := isName_download url hslash
      have hname' := isName_unfinished url hslash
      rw [Path.join_ofString_of_isName _ hname, Path.join_ofString_of_isName _ hname']
      have hdownload : IsDownload (key url ++ "." ++ extension) := ⟨url, hasKey_append _ _⟩
      have hdownload' : IsDownload (key url ++ "." ++ extension ++ partialSuffix) := by
        refine ⟨url, ?_⟩
        rw [show key url ++ "." ++ extension ++ partialSuffix =
          key url ++ "." ++ (extension ++ partialSuffix) from String.append_assoc]
        exact hasKey_append _ _
      refine From.bind (Within.from ?_) fun _ ↦ From.bind (Within.from ?_) fun _ ↦
        From.bind ?_ fun _ ↦ Within.from (within_pure _)
      · exact (within_ensureDirectories hfolder).mono (fun _ h ↦ h.elim) (fun _ h ↦ h.elim)
      · exact within_clearPartials hfolder url
      · refine from_keep (hfolder.child hname') ⟨_, hdownload', isPartial_append _, rfl⟩
          ⟨hfolder.child hname, ⟨_, hdownload, rfl⟩, ?_⟩ head rest _
        cases hpartial : isPartial (key url ++ "." ++ extension) with
        | true => exact .inl ⟨_, hdownload, hpartial, rfl⟩
        | false => exact .inr (hnone _ (hasKey_append _ _) hpartial)

/-- A download changes unfinished downloads only, and puts a complete one where there was none. -/
theorem within_download (hfolder : folder.IsResolved) (url : String) (timeout : Json.Value) :
    Within (Unfinished folder) (Fetched folder) (download url folder timeout) := by
  intro w hw
  rw [download, run_bind]
  split
  · rename_i r w₁ hcached
    obtain rfl := (looks_cached? _ _).eq hcached
    split
    · exact .refl hw
    · have hnone := (run_cached?_eq_ok hw hfolder hcached).2 rfl
      rw [fetch]
      refine From.bind (Within.from (within_respond url timeout)) (fun r ↦
        From.bind (from_receive hfolder hnone r).attempt fun outcome ↦ Within.from ?_) w₁ (.refl hw)
      refine (within_request _).bind fun _ ↦ (within_ofExcept _ _).bind fun target? ↦ ?_
      split
      · exact within_pure _
      · exact (within_log _ _ _).bind fun _ ↦ within_pure _
  · rename_i f w₁ hcached
    rw [(looks_cached? _ _).eq hcached]
    exact .refl hw

/-- An answer that is kept: the folder is there, nothing unfinished is left in it, and the body is
kept under a name that its type tells. -/
theorem run_receive_eq_some {r : Response} {image : Path}
    (h : (receive url r folder (key url)).run w = (.ok (some image), w')) :
    ∃ extension head rest w₁ w₂, '/' ∉ extension.toList ∧
      image = folder / .ofString (key url ++ "." ++ extension) ∧
      (ensureDirectories folder).run w = (.ok (), w₁) ∧
      (clearPartials folder (key url)).run w₁ = (.ok (), w₂) ∧
      (keep url (folder / .ofString (key url ++ "." ++ extension ++ partialSuffix)) image head rest
        (Body.ofResponse r).breaks).run w₂ = (.ok (), w') := by
  rw [receive] at h
  dsimp only at h
  split at h
  · cases h
  · split at h
    · rw [run_bind_eq_ok] at h
      obtain ⟨_, _, -, h⟩ := h
      cases h
    · rename_i extension hextension
      simp only [run_bind_eq_ok] at h
      obtain ⟨_, w₁, hensure, _, w₂, hclear, _, _, hkeep, h⟩ := h
      cases h
      exact ⟨extension, _, _, w₁, w₂, slash_not_mem_extension hextension, rfl, hensure, hclear, hkeep⟩

/-- A fetch that comes out with an image received it; before and after that it only reports. -/
theorem run_fetch_eq_some {timeout : Json.Value} {image : Path}
    (h : (fetch url folder (key url) timeout).run w = (.ok (some image), w')) :
    ∃ r w₁ w₂, (respond url timeout).run w = (.ok r, w₁) ∧
      (receive url r folder (key url)).run w₁ = (.ok (some image), w₂) ∧ Alike w₂ w' := by
  rw [fetch, run_bind_eq_ok] at h
  obtain ⟨r, w₁, hrespond, h⟩ := h
  cases hreceive : (receive url r folder (key url)).run w₁ with
  | mk outcome w₂ =>
    rw [run_bind_of_ok (run_attempt_eq_ok.mpr hreceive)] at h
    rcases outcome with f | _ | target
    · cases h
    · cases h
    · cases h
      exact ⟨r, w₁, w₂, hrespond, hreceive, rfl, rfl, rfl⟩

/-- What a download finds or makes is a file in its folder. -/
theorem exists_name_of_download (hw : w.IsSound) (hfolder : folder.IsResolved) {timeout : Json.Value}
    (h : (download url folder timeout).run w = (.ok (some target), w')) :
    ∃ n, IsName n ∧ target = folder.child n := by
  rw [download, run_bind_eq_ok] at h
  obtain ⟨r, w₁, hcached, h⟩ := h
  split at h
  · rename_i p
    cases h
    obtain ⟨n, hn, hchild, -⟩ := (run_cached?_eq_ok hw hfolder hcached).1 _ rfl
    exact ⟨n, hn, hchild⟩
  · obtain ⟨_, _, _, -, hreceive, -⟩ := run_fetch_eq_some h
    obtain ⟨extension, _, _, _, _, hslash, rfl, -⟩ := run_receive_eq_some hreceive
    have hname := isName_download url hslash
    exact ⟨_, hname, Path.join_ofString_of_isName _ hname⟩

end Download

end ResponsiveImage
