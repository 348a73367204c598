import ResponsiveImage.Proofs.Job.Making
import ResponsiveImage.Proofs.Remote.Outcomes

/-!
# Downloading again

A complete download is found again: of several of one key it is always the one whose name comes first
(`Finds`), and it is found wherever no file stands on the way to its folder (`exists_run_cached?`).
-/

namespace ResponsiveImage

open Workspace (Evolves Alike)

namespace Download

open Job

variable {folder : Path} {w w' x x' : Workspace} {url digest extension : String} {r : Option Path}

/-! ## The keys of downloads -/

/-- The key under which a file is kept is told by its name. -/
theorem key_eq_of_hasKey {url' n : String} (h : hasKey (key url) n = true)
    (h' : hasKey (key url') n = true) : key url = key url' := by
  have hdot : ∀ u, '.' ∉ (key u).toList := by
    intro u hmem
    obtain ⟨d, hd, heq⟩ := Sha1.exists_digit_of_mem_hex hmem
    have hdigits : ∀ d < 16, Nat.digitChar d ≠ '.' := by decide
    exact hdigits d hd heq.symm
  rw [hasKey, List.isPrefixOf_iff_prefix, String.toList_append] at h h'
  obtain ⟨s, hs⟩ := h
  obtain ⟨s', hs'⟩ := h'
  have htake : ∀ (u : String) (s : List Char), (key u).toList ++ ".".toList ++ s = n.toList →
      n.toList.takeWhile (· ≠ '.') = (key u).toList := by
    intro u s hs
    rw [← hs, List.append_assoc, List.takeWhile_append_of_pos]
    · simp
    · intro c hc
      exact decide_eq_true fun heq : c = '.' ↦ hdot u (heq ▸ hc)
  exact String.toList_inj.mp ((htake url s hs).symm.trans (htake url' s' hs'))

/-! ## Complete downloads -/

/-- A file in a folder with the name of a complete download of a key. -/
structure IsComplete (folder : Path) (digest : String) (w : Workspace) (n : String) : Prop where
  hasKey : hasKey digest n = true
  whole : isPartial n = false
  there : w.files.content? (folder.parts ++ [n]) ≠ none

/-- What is found of a key: nothing, or the complete download whose name comes first. -/
inductive Finds (folder : Path) (digest : String) (w : Workspace) : Option Path → Prop
  | nothing (h : ∀ n, ¬ IsComplete folder digest w n) : Finds folder digest w none
  | first {n : String} (h : IsComplete folder digest w n)
      (hfirst : ∀ m, IsComplete folder digest w m → n ≤ m) :
      Finds folder digest w (some (folder.child n))

theorem Finds.eq {r' : Option Path} (h : Finds folder digest w r) (h' : Finds folder digest x r')
    (hiff : ∀ n, IsComplete folder digest w n ↔ IsComplete folder digest x n) : r = r' := by
  cases h with
  | nothing h =>
    cases h' with
    | nothing _ => rfl
    | first hn _ => exact absurd ((hiff _).mpr hn) (h _)
  | first hn hfirst =>
    cases h' with
    | nothing h => exact absurd ((hiff _).mp hn) (h _)
    | first hm hfirst' =>
      rw [String.le_antisymm (hfirst _ ((hiff _).mpr hm)) (hfirst' _ ((hiff _).mp hn))]

theorem run_firstFile_eq_find? (hw : w.IsSound) {ps : List Path} (hps : ∀ p ∈ ps, p.IsResolved)
    (h : (firstFile ps).run w = (.ok r, w')) :
    r = ps.find? fun p ↦ (w.files.content? p.parts).isSome := by
  induction ps with
  | nil =>
    cases h
    rfl
  | cons p ps ih =>
    obtain ⟨hp, hps⟩ := List.forall_mem_cons.mp hps
    rw [firstFile, run_bind_eq_ok] at h
    obtain ⟨b, w₁, hfile, h⟩ := h
    obtain ⟨rfl, rfl⟩ := run_isFile_eq_ok hw hp hfile
    rw [List.find?_cons]
    cases hb : (w₁.files.content? p.parts).isSome with
    | true =>
      rw [hb] at h
      cases h
      rfl
    | false =>
      rw [hb] at h
      exact ih hps h

/-- The names in a folder are listed in order. -/
theorem pairwise_of_namesIn {ns : List String} (h : (namesIn folder).run w = (.ok ns, w')) :
    ns.Pairwise (· ≤ ·) := by
  rw [namesIn, run_bind_eq_ok] at h
  obtain ⟨found, w₁, -, h⟩ := h
  split at h
  · rename_i place
    obtain ⟨w₂, w₃, hget, h⟩ := run_bind_eq_ok.mp h
    cases h
    have hsorted := @List.pairwise_mergeSort _ (fun a b : String ↦ decide (a ≤ b))
      (fun a b c hab hbc ↦ by simpa using String.le_trans (by simpa using hab) (by simpa using hbc))
      (fun a b ↦ by simpa using String.le_total a b) (w₂.files.names place)
    exact hsorted.imp fun hle ↦ by simpa using hle
  · cases h
    exact .nil

theorem finds_of_cached? (hw : w.IsSound) (hfolder : folder.IsResolved)
    (h : (cached? folder digest).run w = (.ok r, w')) : Finds folder digest w r := by
  rw [cached?, run_bind_eq_ok] at h
  obtain ⟨ns, w₁, hns, h⟩ := h
  obtain rfl := (looks_namesIn folder).eq hns
  obtain ⟨hnames, hall⟩ := run_namesIn_eq_ok hw hfolder hns
  have hsorted : (ns.filter fun n ↦ hasKey digest n && !isPartial n).Pairwise (· ≤ ·) :=
    (pairwise_of_namesIn hns).filter _
  have hlisted : ∀ n, IsComplete folder digest w₁ n →
      n ∈ ns.filter fun n ↦ hasKey digest n && !isPartial n := fun n hn ↦
    List.mem_filter.mpr ⟨hall n hn.there, by simp [hn.hasKey, hn.whole]⟩
  have hmem : ∀ n ∈ ns.filter (fun n ↦ hasKey digest n && !isPartial n),
      IsName n ∧ hasKey digest n = true ∧ isPartial n = false := by
    intro n hn
    obtain ⟨hn, hcomplete⟩ := List.mem_filter.mp hn
    exact ⟨hnames n hn, by simpa using hcomplete⟩
  have hpaths : (ns.filter fun n ↦ hasKey digest n && !isPartial n).map
      (fun n ↦ folder / .ofString n) =
      (ns.filter fun n ↦ hasKey digest n && !isPartial n).map folder.child :=
    List.map_congr_left fun n hn ↦ Path.join_ofString_of_isName _ (hmem n hn).1
  rw [hpaths] at h
  generalize ns.filter (fun n ↦ hasKey digest n && !isPartial n) = ms at h hsorted hlisted hmem
  obtain rfl := run_firstFile_eq_find? hw (fun p hp ↦ by
    obtain ⟨n, hn, rfl⟩ := List.mem_map.mp hp
    exact hfolder.child (hmem n hn).1) h
  rw [List.find?_map]
  cases hfind : ms.find? ((fun p : Path ↦ (w₁.files.content? p.parts).isSome) ∘ folder.child) with
  | none =>
    refine .nothing fun n hn ↦ ?_
    have hnone := List.find?_eq_none.mp hfind n (hlisted n hn)
    exact hn.there (by simpa using hnone)
  | some n =>
    obtain ⟨hn, before, after, rfl, hbefore⟩ := List.find?_eq_some_iff_append.mp hfind
    obtain ⟨hname, hkey, hwhole⟩ := hmem n (by simp)
    refine .first ⟨hkey, hwhole, Option.isSome_iff_ne_none.mp hn⟩ fun m hm ↦ ?_
    rcases List.mem_append.mp (hlisted m hm) with hm' | hm'
    · exact absurd (by simpa using hbefore m hm') hm.there
    · rcases List.mem_cons.mp hm' with rfl | hm'
      · exact String.le_refl _
      · exact (List.pairwise_cons.mp (List.pairwise_append.mp hsorted).2.1).1 m hm'

/-- In a folder on the way to which there is no file, the names can be listed. -/
theorem exists_run_namesIn (hw : w.IsSound) (hfolder : folder.IsResolved) (hclear : IsClear w folder) :
    ∃ ns, (namesIn folder).run w = (.ok ns, w) := by
  obtain ⟨found, hfound⟩ := hclear.exists_run_find? hfolder
  obtain ⟨-, rfl⟩ := run_find?_eq_ok hw hfolder hfound
  rw [namesIn, run_bind_of_ok hfound]
  cases w.files.get? folder.parts with
  | none => exact ⟨[], rfl⟩
  | some e =>
    cases e with
    | file c => exact ⟨[], rfl⟩
    | directory => exact ⟨_, rfl⟩

/-- In such a folder downloads can be looked for. -/
theorem exists_run_cached? (hw : w.IsSound) (hfolder : folder.IsResolved)
    (hclear : IsClear w folder) (digest : String) :
    ∃ r, (cached? folder digest).run w = (.ok r, w) := by
  obtain ⟨ns, hns⟩ := exists_run_namesIn hw hfolder hclear
  rw [cached?, run_bind_of_ok hns]
  have hmem : ∀ p ∈ (ns.filter fun n ↦ hasKey digest n && !isPartial n).map
      (fun n ↦ folder / .ofString n), p.IsResolved ∧ w.files.get? p.parts ≠ none := by
    intro p hp
    obtain ⟨n, hn, rfl⟩ := List.mem_map.mp hp
    have hlisted := (List.mem_filter.mp hn).1
    have hname := (run_namesIn_eq_ok hw hfolder hns).1 n hlisted
    rw [Path.join_ofString_of_isName _ hname]
    exact ⟨hfolder.child hname, (mem_namesIn_iff hw hfolder hns).mp hlisted⟩
  generalize (ns.filter fun n ↦ hasKey digest n && !isPartial n).map
    (fun n ↦ folder / .ofString n) = ps at hmem
  induction ps with
  | nil => exact ⟨none, rfl⟩
  | cons p ps ih =>
    obtain ⟨⟨hp, hget⟩, hps⟩ := List.forall_mem_cons.mp hmem
    obtain ⟨e, he⟩ := Option.ne_none_iff_exists'.mp hget
    have hstanding := run_standing?_of_get? hw hp he
    cases e with
    | file c =>
      have hfile : (isFile p).run w = (.ok true, w) := run_bind_of_ok hstanding
      exact ⟨some p, run_bind_of_ok hfile⟩
    | directory =>
      have hfile : (isFile p).run w = (.ok false, w) := run_bind_of_ok hstanding
      obtain ⟨r, hr⟩ := ih hps
      exact ⟨r, (run_bind_of_ok hfile).trans hr⟩

end Download

end ResponsiveImage
