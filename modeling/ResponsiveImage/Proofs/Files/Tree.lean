import Mathlib.Data.List.Induction
import ResponsiveImage.Files.Tree
import ResponsiveImage.Proofs.Path.Names

/-!
# Sound trees

A tree is sound if its entries have names that files can have and stand in directories.  In a sound
tree everything on the way to an entry is a directory, so that a resolved path leads to the place
that its names spell, and to nothing else.

Putting an entry into a directory, or taking a file away, leaves a sound tree sound, and every
directory a directory.
-/

namespace ResponsiveImage

/-- A name that an entry of a tree can have. -/
structure IsEntryName (n : String) : Prop extends IsName n where
  no_nul : '\x00' ∉ n.toList
  short : n.utf8ByteSize ≤ Tree.greatestName

instance (n : String) : Decidable (IsEntryName n) :=
  decidable_of_iff (IsName n ∧ '\x00' ∉ n.toList ∧ n.utf8ByteSize ≤ Tree.greatestName)
    ⟨fun ⟨h₁, h₂, h₃⟩ ↦ ⟨h₁, h₂, h₃⟩, fun ⟨h₁, h₂, h₃⟩ ↦ ⟨h₁, h₂, h₃⟩⟩

/-! ## Members of a list of pairs -/

namespace Json

variable {κ α : Type} [DecidableEq κ]

theorem lookup_setMember [BEq κ] [LawfulBEq κ] (key k : κ) (v : α) (ms : List (κ × α)) :
    (setMember key v ms).lookup k = if k = key then some v else ms.lookup k := by
  induction ms with
  | nil =>
    by_cases h : k = key
    · simp [setMember, h]
    · have hk : (k == key) = false := by simpa using h
      simp [setMember, List.lookup_cons, h, hk]
  | cons m ms ih =>
    obtain ⟨j, u⟩ := m
    by_cases hj : j = key
    · subst hj
      rw [setMember, if_pos rfl]
      by_cases h : k = j
      · simp [h]
      · have hk : (k == j) = false := by simpa using h
        simp [List.lookup_cons, h, hk]
    · rw [setMember, if_neg hj]
      by_cases h : k = j
      · subst h
        simp [hj]
      · have hk : (k == j) = false := by simpa using h
        simp [List.lookup_cons, hk, ih]

theorem mem_setMember {key : κ} {v : α} {ms : List (κ × α)} {m : κ × α}
    (h : m ∈ setMember key v ms) : m = (key, v) ∨ m ∈ ms := by
  induction ms with
  | nil => exact .inl (List.mem_singleton.mp h)
  | cons n ms ih =>
    obtain ⟨j, u⟩ := n
    rw [setMember] at h
    split at h
    · rcases List.mem_cons.mp h with h | h
      · exact .inl h
      · exact .inr (List.mem_cons_of_mem _ h)
    · rcases List.mem_cons.mp h with h | h
      · exact .inr (h ▸ List.mem_cons_self)
      · exact (ih h).imp_right (List.mem_cons_of_mem _)

end Json

theorem lookup_filter_key {κ α : Type} [BEq κ] [LawfulBEq κ] (p : κ → Bool) (k : κ)
    (ms : List (κ × α)) :
    (ms.filter fun m ↦ p m.1).lookup k = if p k then ms.lookup k else none := by
  induction ms with
  | nil => simp
  | cons m ms ih =>
    obtain ⟨j, u⟩ := m
    by_cases hk : k = j
    · subst hk
      by_cases hp : p k = true
      · simp [List.filter, hp]
      · simp only [Bool.not_eq_true] at hp
        simp [List.filter, hp, ih]
    · have hne : (k == j) = false := by simpa using hk
      by_cases hp : p j = true
      · simp [List.filter, hp, List.lookup_cons, hne, ih]
      · simp only [Bool.not_eq_true] at hp
        simp [List.filter, hp, List.lookup_cons, hne, ih]

theorem mem_of_lookup_eq_some {κ α : Type} [BEq κ] [LawfulBEq κ] {ms : List (κ × α)} {k : κ} {v : α}
    (h : ms.lookup k = some v) : (k, v) ∈ ms := by
  induction ms with
  | nil => cases h
  | cons m ms ih =>
    obtain ⟨j, u⟩ := m
    by_cases hk : k = j
    · subst hk
      simp only [List.lookup_cons_self, Option.some.injEq] at h
      exact h ▸ List.mem_cons_self
    · have hne : (k == j) = false := by simpa using hk
      rw [List.lookup_cons, hne] at h
      exact List.mem_cons_of_mem _ (ih h)

namespace Tree

variable {t : Tree} {q r : List String} {e : Entry} {c : Content}

/-! ## What stands at a place -/

theorem isDirectory_iff : t.isDirectory q = true ↔ t.get? q = some .directory := by
  rw [isDirectory]
  split
  · rename_i h
    simp [h]
  · rename_i h
    simpa using h

theorem content?_eq_some_iff : t.content? q = some c ↔ t.get? q = some (.file c) := by
  rw [content?]
  split
  · rename_i d h
    simp [h]
  · rename_i h
    simpa using h c

theorem get?_ne_none_of_content? (h : t.content? q = some c) : t.get? q ≠ none := by
  rw [content?_eq_some_iff.mp h]
  exact Option.some_ne_none _

theorem get?_ne_none_of_mem (h : (q, e) ∈ t.entries) : t.get? q ≠ none := by
  rw [get?]
  split
  · exact Option.some_ne_none _
  · rw [Ne, List.lookup_eq_none_iff]
    intro hnone
    simpa using hnone _ h

theorem ne_nil_of_content? (h : t.content? q = some c) : q ≠ [] := by
  rintro rfl
  cases h

theorem content?_of_isDirectory (h : t.isDirectory q = true) : t.content? q = none := by
  rw [content?, isDirectory_iff.mp h]

theorem not_isDirectory_of_content? (h : t.content? q = some c) : t.isDirectory q = false := by
  rw [isDirectory, content?_eq_some_iff.mp h]

theorem get?_put (hq : q ≠ []) (r : List String) :
    (t.put q e).get? r = if r = q then some e else t.get? r := by
  simp only [get?, put, Json.lookup_setMember]
  by_cases hr : r = []
  · subst hr
    simp [Ne.symm hq]
  · simp [hr]

theorem content?_put_self (hq : q ≠ []) (c : Content) : (t.put q (.file c)).content? q = some c := by
  rw [content?_eq_some_iff, get?_put hq, if_pos rfl]

theorem content?_put_of_ne (hq : q ≠ []) (hr : r ≠ q) : (t.put q e).content? r = t.content? r := by
  rw [content?, content?, get?_put hq, if_neg hr]

theorem get?_remove (hq : q ≠ []) (r : List String) :
    (t.remove q).get? r = if q <+: r then none else t.get? r := by
  rw [get?, get?, remove, lookup_filter_key (fun m ↦ !q.isPrefixOf m)]
  by_cases hpre : q <+: r
  · have hr : r ≠ [] := by
      rintro rfl
      exact hq (List.prefix_nil.mp hpre)
    simp [hr, List.isPrefixOf_iff_prefix.mpr hpre, hpre]
  · have hnot : q.isPrefixOf r = false := by
      rw [← Bool.not_eq_true, List.isPrefixOf_iff_prefix]
      exact hpre
    simp [hnot, hpre]

/-- Where directories and the contents of files stay, an entry stays, or a directory is new. -/
theorem get?_eq_or {t' : Tree} (hcontent : t'.content? q = t.content? q)
    (hdir : t.isDirectory q = true → t'.isDirectory q = true) :
    t'.get? q = t.get? q ∨ t.get? q = none ∧ t'.get? q = some .directory := by
  have hfile : ∀ c, t'.get? q = some (.file c) ↔ t.get? q = some (.file c) := by
    intro c
    rw [← content?_eq_some_iff, ← content?_eq_some_iff, hcontent]
  have hstays : t.get? q = some .directory → t'.get? q = some .directory := fun hd ↦
    isDirectory_iff.mp (hdir (isDirectory_iff.mpr hd))
  rcases hbefore : t.get? q with _ | _ | c
  · rcases hafter : t'.get? q with _ | _ | c
    · exact .inl rfl
    · exact .inr ⟨rfl, rfl⟩
    · exact nomatch hbefore.symm.trans ((hfile c).mp hafter)
  · exact .inl (hstays hbefore)
  · exact .inl ((hfile c).mpr hbefore)

/-! ## Soundness -/

/-- A tree whose entries have names that files can have and stand in directories. -/
structure IsSound (t : Tree) : Prop where
  ne_nil : ∀ m ∈ t.entries, m.1 ≠ []
  isEntryName : ∀ m ∈ t.entries, ∀ n ∈ m.1, IsEntryName n
  parent : ∀ m ∈ t.entries, t.isDirectory m.1.dropLast = true

instance (t : Tree) : Decidable t.IsSound :=
  decidable_of_iff ((∀ m ∈ t.entries, m.1 ≠ []) ∧ (∀ m ∈ t.entries, ∀ n ∈ m.1, IsEntryName n) ∧
      ∀ m ∈ t.entries, t.isDirectory m.1.dropLast = true)
    ⟨fun ⟨h₁, h₂, h₃⟩ ↦ ⟨h₁, h₂, h₃⟩, fun ⟨h₁, h₂, h₃⟩ ↦ ⟨h₁, h₂, h₃⟩⟩

namespace IsSound

theorem mem_entries (h : t.get? q = some e) (hq : q ≠ []) : (q, e) ∈ t.entries := by
  have hlookup : t.entries.lookup q = some e := by simpa [get?, hq] using h
  exact mem_of_lookup_eq_some hlookup

theorem isEntryName_of_get? (ht : t.IsSound) (h : t.get? q = some e) : ∀ n ∈ q, IsEntryName n := by
  by_cases hq : q = []
  · simp [hq]
  · exact ht.isEntryName _ (mem_entries h hq)

theorem isDirectory_dropLast (ht : t.IsSound) (h : t.get? q = some e) :
    t.isDirectory q.dropLast = true := by
  by_cases hq : q = []
  · subst hq
    rfl
  · exact ht.parent _ (mem_entries h hq)

/-- Everything on the way to an entry is a directory. -/
theorem isDirectory_of_prefix (ht : t.IsSound) {rest : List String}
    (h : t.get? (q ++ rest) = some e) (hrest : rest ≠ []) : t.isDirectory q = true := by
  induction rest using List.reverseRecOn generalizing e with
  | nil => exact absurd rfl hrest
  | append_singleton rest n ih =>
    have hparent := ht.isDirectory_dropLast h
    rw [← List.append_assoc, List.dropLast_concat] at hparent
    by_cases hnil : rest = []
    · simpa [hnil] using hparent
    · exact ih (isDirectory_iff.mp hparent) hnil

theorem isDirectory_of_isPrefix (ht : t.IsSound) {r : List String} (h : t.isDirectory r = true)
    (hq : q <+: r) : t.isDirectory q = true := by
  obtain ⟨rest, rfl⟩ := hq
  by_cases hrest : rest = []
  · simpa [hrest] using h
  · exact ht.isDirectory_of_prefix (isDirectory_iff.mp h) hrest

/-- Nothing stands below a file. -/
theorem get?_below (ht : t.IsSound) (h : t.content? q = some c) {rest : List String}
    (hrest : rest ≠ []) : t.get? (q ++ rest) = none := by
  cases hget : t.get? (q ++ rest) with
  | none => rfl
  | some e =>
    have hdir := ht.isDirectory_of_prefix hget hrest
    rw [not_isDirectory_of_content? h] at hdir
    cases hdir

end IsSound

/-! ## Following a path -/

theorem follow_eq_ok {ps : List String} {place : List String} (hps : ∀ n ∈ ps, n ≠ "..")
    (h : t.follow place ps = .ok q) :
    q = place ++ ps ∧ (ps ≠ [] → t.isDirectory (place ++ ps.dropLast) = true) ∧
      ∀ n ∈ ps.getLast?, n.utf8ByteSize ≤ greatestName := by
  induction ps generalizing place with
  | nil =>
    cases h
    simp
  | cons p ps ih =>
    obtain ⟨hp, hps⟩ := List.forall_mem_cons.mp hps
    rw [follow] at h
    split at h
    · cases h
    · cases h
    · rename_i hdir
      rw [if_neg hp] at h
      split at h
      · cases h
      · rename_i hlen
        obtain ⟨rfl, hparent, hlast⟩ := ih hps h
        cases ps with
        | nil =>
          refine ⟨by simp, fun _ ↦ ?_, ?_⟩
          · simpa using isDirectory_iff.mpr hdir
          · intro n hn
            cases hn
            exact Nat.le_of_not_lt hlen
        | cons p' ps =>
          refine ⟨by simp, fun _ ↦ ?_, ?_⟩
          · simpa using hparent (List.cons_ne_nil _ _)
          · rw [List.getLast?_cons_cons]
            exact hlast

theorem follow_eq {ps : List String} {place : List String}
    (hdirs : ∀ i < ps.length, t.isDirectory (place ++ ps.take i) = true)
    (hps : ∀ n ∈ ps, n ≠ ".." ∧ n.utf8ByteSize ≤ greatestName) :
    t.follow place ps = .ok (place ++ ps) := by
  induction ps generalizing place with
  | nil => simp [follow]
  | cons p ps ih =>
    obtain ⟨⟨hp, hlen⟩, hps⟩ := List.forall_mem_cons.mp hps
    have hdir := hdirs 0 (Nat.zero_lt_succ _)
    rw [List.take_zero, List.append_nil] at hdir
    have hrest : ∀ i < ps.length, t.isDirectory (place ++ [p] ++ ps.take i) = true := by
      intro i hi
      have h := hdirs (i + 1) (Nat.succ_lt_succ hi)
      rw [List.take_succ_cons] at h
      rw [List.append_assoc]
      exact h
    rw [follow, isDirectory_iff.mp hdir]
    simp only [if_neg hp, if_neg (Nat.not_lt.mpr hlen)]
    rw [ih hrest hps, List.append_assoc, List.singleton_append]

/-- What stands on the way to an entry: behind the first names there is something. -/
theorem get?_of_follow {place ps rest : List String} {n : String}
    (hps : ∀ m ∈ ps, m ≠ "..") (hn : n ≠ "..") (h : t.follow place (ps ++ n :: rest) = .ok q)
    (hq : t.get? q = some e) : t.get? (place ++ ps ++ [n]) ≠ none := by
  induction ps generalizing place with
  | nil =>
    rw [List.nil_append, follow] at h
    rw [List.append_nil]
    split at h
    · cases h
    · cases h
    · rw [if_neg hn] at h
      split at h
      · cases h
      · intro hnone
        cases rest with
        | nil =>
          cases h
          rw [hnone] at hq
          cases hq
        | cons m rest =>
          rw [follow, hnone] at h
          cases h
  | cons m ps ih =>
    obtain ⟨hm, hps⟩ := List.forall_mem_cons.mp hps
    rw [List.cons_append, follow] at h
    split at h
    · cases h
    · cases h
    · rw [if_neg hm] at h
      split at h
      · cases h
      · have hget := ih hps h
        rwa [List.append_assoc place [m] ps, List.singleton_append] at hget

theorem get?_of_stat {cwd dir rest : List String} {n : String}
    (hdir : ∀ m ∈ dir, m ≠ "..") (hn : n ≠ "..")
    (h : t.stat cwd ⟨.root, dir ++ n :: rest⟩ = .ok (q, e)) : t.get? (dir ++ [n]) ≠ none := by
  rw [stat, locate] at h
  cases hfollow : t.follow [] (dir ++ n :: rest) with
  | error kind =>
    rw [hfollow] at h
    cases h
  | ok place =>
    simp only [hfollow, bind, Except.bind] at h
    split at h
    · rename_i hget
      cases h
      exact get?_of_follow hdir hn hfollow hget
    · cases h

/-- A resolved path leads to the place that its names spell, if that lies in a directory. -/
theorem IsSound.locate_eq_ok_iff (ht : t.IsSound) {p : Path} (hp : p.IsResolved)
    (cwd : List String) :
    t.locate cwd p = .ok q ↔
      q = p.parts ∧ t.isDirectory p.parts.dropLast = true ∧
        ∀ n ∈ p.parts.getLast?, n.utf8ByteSize ≤ greatestName := by
  have hlocate : t.locate cwd p = t.follow [] p.parts := by rw [locate, hp.anchor_eq]
  have hdots : ∀ n ∈ p.parts, n ≠ ".." := fun n hn ↦ (hp.isName n hn).ne_dots
  rw [hlocate]
  constructor
  · intro h
    obtain ⟨rfl, hparent, hlast⟩ := follow_eq_ok hdots h
    refine ⟨rfl, ?_, hlast⟩
    by_cases hnil : p.parts = []
    · rw [hnil]
      rfl
    · exact hparent hnil
  · rintro ⟨rfl, hparent, hlast⟩
    have hdir := isDirectory_iff.mp hparent
    refine follow_eq (fun i hi ↦ ?_) (fun n hn ↦ ⟨hdots n hn, ?_⟩)
    · -- all places on the way lie on the way to the last directory
      rw [List.nil_append]
      have hle : i ≤ p.parts.dropLast.length := by
        rw [List.length_dropLast]
        omega
      have htake : p.parts.take i = p.parts.dropLast.take i := by
        rw [List.dropLast_eq_take, List.take_take, Nat.min_eq_left]
        rwa [List.length_dropLast] at hle
      rw [htake]
      by_cases hall : i = p.parts.dropLast.length
      · rw [hall, List.take_length]
        exact hparent
      · have hrest : p.parts.dropLast.drop i ≠ [] := by
          intro hnil
          rw [List.drop_eq_nil_iff] at hnil
          omega
        refine ht.isDirectory_of_prefix (e := .directory) ?_ hrest
        rw [List.take_append_drop]
        exact hdir
    · by_cases hnil : p.parts = []
      · simp [hnil] at hn
      · rw [← List.dropLast_concat_getLast hnil] at hn
        rcases List.mem_append.mp hn with hn | hn
        · exact (ht.isEntryName_of_get? hdir n hn).short
        · refine hlast n ?_
          rw [List.mem_singleton.mp hn]
          exact List.getLast?_eq_some_getLast hnil

theorem IsSound.stat_eq_ok_iff (ht : t.IsSound) {p : Path} (hp : p.IsResolved)
    (cwd : List String) :
    t.stat cwd p = .ok (q, e) ↔ q = p.parts ∧ t.get? p.parts = some e := by
  rw [stat]
  constructor
  · intro h
    cases hlocate : t.locate cwd p with
    | error kind =>
      rw [hlocate] at h
      cases h
    | ok place =>
      obtain ⟨rfl, -, -⟩ := (ht.locate_eq_ok_iff hp cwd).mp hlocate
      simp only [hlocate, bind, Except.bind] at h
      split at h
      · rename_i e' he
        cases h
        exact ⟨rfl, he⟩
      · cases h
  · rintro ⟨rfl, h⟩
    have hlast : ∀ n ∈ p.parts.getLast?, n.utf8ByteSize ≤ greatestName := fun n hn ↦
      (ht.isEntryName_of_get? h n (List.mem_of_getLast? hn)).short
    have hlocate := (ht.locate_eq_ok_iff hp cwd).mpr ⟨rfl, ht.isDirectory_dropLast h, hlast⟩
    simp only [hlocate, bind, Except.bind, h]
    rfl

/-! ## Changing a tree -/

theorem isDirectory_put (hq : q ≠ []) (he : e = .directory ∨ t.isDirectory q = false)
    (h : t.isDirectory r = true) : (t.put q e).isDirectory r = true := by
  rw [isDirectory_iff, get?_put hq]
  split
  · rename_i hr
    rcases he with rfl | hnot
    · rfl
    · rw [hr, hnot] at h
      cases h
  · exact isDirectory_iff.mp h

/-- An entry may be put into a directory, if no file takes the place of a directory. -/
theorem IsSound.put (ht : t.IsSound) (hq : q ≠ []) (hparent : t.isDirectory q.dropLast = true)
    (hname : ∀ n ∈ q.getLast?, IsEntryName n) (he : e = .directory ∨ t.isDirectory q = false) :
    (t.put q e).IsSound := by
  have hnames : ∀ n ∈ q, IsEntryName n := by
    intro n hn
    rw [← List.dropLast_concat_getLast hq] at hn
    rcases List.mem_append.mp hn with hn | hn
    · exact ht.isEntryName_of_get? (isDirectory_iff.mp hparent) n hn
    · refine hname n ?_
      rw [List.mem_singleton.mp hn]
      exact List.getLast?_eq_some_getLast hq
  refine ⟨fun m hm ↦ ?_, fun m hm ↦ ?_, fun m hm ↦ isDirectory_put hq he ?_⟩
  · rcases Json.mem_setMember hm with rfl | hm
    · exact hq
    · exact ht.ne_nil m hm
  · rcases Json.mem_setMember hm with rfl | hm
    · exact hnames
    · exact ht.isEntryName m hm
  · rcases Json.mem_setMember hm with rfl | hm
    · exact hparent
    · exact ht.parent m hm

/-- Taking a file away takes nothing else away. -/
theorem IsSound.get?_remove (ht : t.IsSound) (h : t.content? q = some c) (r : List String) :
    (t.remove q).get? r = if r = q then none else t.get? r := by
  rw [Tree.get?_remove (ne_nil_of_content? h)]
  by_cases hpre : q <+: r
  · obtain ⟨rest, rfl⟩ := hpre
    by_cases hrest : rest = []
    · simp [hrest]
    · have hne : q ++ rest ≠ q := by simpa using hrest
      simp [hrest, ht.get?_below h hrest]
  · have hne : r ≠ q := by
      rintro rfl
      exact hpre (List.prefix_refl _)
    simp [hpre, hne]

theorem IsSound.isDirectory_remove (ht : t.IsSound) (h : t.content? q = some c)
    (hr : t.isDirectory r = true) : (t.remove q).isDirectory r = true := by
  have hne : r ≠ q := by
    rintro rfl
    rw [not_isDirectory_of_content? h] at hr
    cases hr
  rw [isDirectory_iff, ht.get?_remove h, if_neg hne]
  exact isDirectory_iff.mp hr

theorem IsSound.remove (ht : t.IsSound) (h : t.content? q = some c) : (t.remove q).IsSound := by
  have hmem : ∀ m ∈ (t.remove q).entries, m ∈ t.entries := fun m hm ↦ (List.mem_filter.mp hm).1
  exact ⟨fun m hm ↦ ht.ne_nil m (hmem m hm), fun m hm ↦ ht.isEntryName m (hmem m hm),
    fun m hm ↦ ht.isDirectory_remove h (ht.parent m (hmem m hm))⟩

end Tree

end ResponsiveImage
