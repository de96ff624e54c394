import Mathlib.Data.List.Nodup
import Relocate.Disk
import Relocate.Proofs.Path.Names

/-!
# Disks as trees

The entries of a disk are a tree when each location is listed once, names are
names, and nothing lies below a file (`IsTree`). Then an entry is what is
listed, and everything above it is a folder.

A new content for a file is put in the place of the old one (`overwrite`), so
it changes nothing but that file, and two new contents for different files can
come in either order. A list of new contents is taken in one by one
(`overwriteAll`).

* `overwrite_at`, `overwriteAll_at`: what is where afterwards.
* `overwriteAll_perm`: contents for different files can come in any order.
* `Alike`: disks with the same files and folders, whatever the contents.
-/
namespace Relocate.Disk

variable {d e : Disk} {l k : Location} {c : ByteArray}

structure IsTree (d : Disk) : Prop where
  /-- Each location is listed once. -/
  distinct : (d.entries.map Prod.fst).Nodup
  named : ∀ x ∈ d.entries, ∀ n ∈ x.1, IsName n ∧ n.utf8ByteSize ≤ maxNameLength
  /-- Nothing lies below a file. -/
  below : ∀ x ∈ d.entries, x.2.isFolder = false → ∀ y ∈ d.entries, x.1 <+: y.1 → y.1 = x.1

instance (d : Disk) : Decidable d.IsTree :=
  decidable_of_iff
    ((d.entries.map Prod.fst).Nodup ∧
      (∀ x ∈ d.entries, ∀ n ∈ x.1, IsName n ∧ n.utf8ByteSize ≤ maxNameLength) ∧
      ∀ x ∈ d.entries, x.2.isFolder = false → ∀ y ∈ d.entries, x.1 <+: y.1 → y.1 = x.1)
    ⟨fun h => ⟨h.1, h.2.1, h.2.2⟩, fun h => ⟨h.distinct, h.named, h.below⟩⟩

/-! ## Entries -/

theorem lookup_eq_some_iff {α : Type} {rows : List (Location × α)} {a : α}
    (h : (rows.map Prod.fst).Nodup) : rows.lookup l = some a ↔ (l, a) ∈ rows := by
  induction rows with
  | nil => simp
  | cons row rows ih =>
    obtain ⟨m, b⟩ := row
    rw [List.map_cons, List.nodup_cons] at h
    by_cases hlm : l = m
    · subst hlm
      have hfresh : (l, a) ∉ rows := fun hmem => h.1 (List.mem_map.2 ⟨_, hmem, rfl⟩)
      simp [hfresh, eq_comm]
    · rw [List.lookup_cons, beq_false_of_ne hlm, ih h.2]
      simp [hlm]

theorem present_iff : (d.entry? l).isSome ↔ l = [] ∨ ∃ x ∈ d.entries, l <+: x.1 := by
  unfold entry?
  cases hl : d.entries.lookup l with
  | some a =>
    obtain ⟨before, after, hsplit, -⟩ := List.lookup_eq_some_iff.1 hl
    refine ⟨fun _ => .inr ⟨(l, a), ?_, List.prefix_refl l⟩, fun _ => rfl⟩
    simp [hsplit]
  | none => simp

theorem isSome_above (h : (d.entry? l).isSome) (hk : k <+: l) : (d.entry? k).isSome := by
  rw [present_iff] at h ⊢
  rcases h with rfl | ⟨x, hx, hpre⟩
  · exact .inl (List.prefix_nil.1 hk)
  · exact .inr ⟨x, hx, hk.trans hpre⟩

theorem file_listed_iff (hd : d.IsTree) :
    d.entry? l = some (.file c) ↔ (l, .file c) ∈ d.entries := by
  rw [← lookup_eq_some_iff hd.distinct, entry?]
  cases d.entries.lookup l with
  | some a => rfl
  | none =>
    simp only
    split <;> simp

/-- What lies above something is a folder. -/
theorem IsTree.folder_above (hd : d.IsTree) {way : List String} (hway : way ≠ [])
    (h : (d.entry? (l ++ way)).isSome) : d.entry? l = some .folder := by
  obtain ⟨y, hy, hpre⟩ := (present_iff.1 h).resolve_left (by simp [hway])
  have hl := isSome_above h (List.prefix_append l way)
  cases hentry : d.entry? l with
  | none => simp [hentry] at hl
  | some a =>
    cases a with
    | folder => rfl
    | file c =>
      have hsame : y.1 = l := hd.below _ ((file_listed_iff hd).1 hentry) rfl y hy
        ((List.prefix_append l way).trans hpre)
      rw [hsame] at hpre
      have hlength := hpre.length_le
      rw [List.length_append] at hlength
      exact absurd (List.length_eq_zero_iff.1 (by omega)) hway

/-- The names on the way to something. -/
theorem IsTree.named_of_present (hd : d.IsTree) (h : (d.entry? l).isSome) :
    ∀ n ∈ l, IsName n ∧ n.utf8ByteSize ≤ maxNameLength := by
  intro n hn
  obtain ⟨x, hx, hpre⟩ := (present_iff.1 h).resolve_left (List.ne_nil_of_mem hn)
  exact hd.named x hx n (hpre.subset hn)

/-! ## New contents -/

/-- Gives the file at a location a new content. -/
def overwrite (d : Disk) (l : Location) (c : ByteArray) : Disk :=
  { d with entries := d.entries.map fun old => if old.1 = l then (l, .file c) else old }

theorem put_of_file {c₀ : ByteArray} (hd : d.IsTree) (h : d.entry? l = some (.file c₀)) :
    d.put l (.file c) = d.overwrite l c := by
  have hlisted := (lookup_eq_some_iff hd.distinct).2 ((file_listed_iff hd).1 h)
  rw [put, hlisted]
  rfl

theorem map_fst_overwrite (d : Disk) (l : Location) (c : ByteArray) :
    (d.overwrite l c).entries.map Prod.fst = d.entries.map Prod.fst := by
  rw [overwrite, List.map_map]
  refine List.map_congr_left fun old _ => ?_
  rw [Function.comp_apply]
  split
  · rename_i h
    exact h.symm
  · rfl

theorem IsTree.overwrite {c₀ : ByteArray} (hd : d.IsTree) (h : d.entry? l = some (.file c₀))
    (c : ByteArray) : (d.overwrite l c).IsTree := by
  have hl := (file_listed_iff hd).1 h
  -- Whatever is listed afterwards was listed before, as a file if it is one.
  have hold : ∀ x ∈ (d.overwrite l c).entries,
      ∃ y ∈ d.entries, y.1 = x.1 ∧ (x.2.isFolder = false → y.2.isFolder = false) := by
    intro x hx
    obtain ⟨old, hmem, rfl⟩ := List.mem_map.1 hx
    by_cases hold : old.1 = l
    · rw [if_pos hold]
      exact ⟨_, hl, rfl, fun _ => rfl⟩
    · rw [if_neg hold]
      exact ⟨old, hmem, rfl, id⟩
  refine ⟨?_, ?_, ?_⟩
  · rw [map_fst_overwrite]
    exact hd.distinct
  · intro x hx
    obtain ⟨y, hy, hxy, -⟩ := hold x hx
    rw [← hxy]
    exact hd.named y hy
  · intro x hx hfile z hz hpre
    obtain ⟨y, hy, hxy, hkind⟩ := hold x hx
    obtain ⟨w, hw, hzw, -⟩ := hold z hz
    rw [← hxy, ← hzw] at hpre ⊢
    exact hd.below y hy (hkind hfile) w hw hpre

theorem overwrite_at {c₀ : ByteArray} (hd : d.IsTree) (h : d.entry? l = some (.file c₀))
    (c : ByteArray) (k : Location) :
    entry? (d.overwrite l c) k = if k = l then some (.file c) else d.entry? k := by
  have htree := hd.overwrite h c
  by_cases hkl : k = l
  · rw [if_pos hkl, file_listed_iff htree, hkl]
    exact List.mem_map.2 ⟨_, (file_listed_iff hd).1 h, if_pos rfl⟩
  · have hlook : (d.overwrite l c).entries.lookup k = d.entries.lookup k := by
      refine Option.ext fun a => ?_
      rw [lookup_eq_some_iff htree.distinct, lookup_eq_some_iff hd.distinct]
      constructor
      · intro hmem
        obtain ⟨old, hold, heq⟩ := List.mem_map.1 hmem
        split at heq
        · exact absurd (congrArg Prod.fst heq).symm hkl
        · rwa [heq] at hold
      · intro hmem
        exact List.mem_map.2 ⟨_, hmem, if_neg hkl⟩
    have hany : ((d.overwrite l c).entries.any fun x => k.isPrefixOf x.1) =
        d.entries.any fun x => k.isPrefixOf x.1 := by
      have hfst : ∀ xs : List (Location × Entry), (xs.any fun x => k.isPrefixOf x.1) =
          (xs.map Prod.fst).any k.isPrefixOf := fun xs => List.any_map.symm
      rw [hfst, hfst, map_fst_overwrite]
    rw [if_neg hkl, entry?, entry?, hlook, hany]

theorem overwrite_comm (d : Disk) {l k : Location} (h : l ≠ k) (a b : ByteArray) :
    (d.overwrite l a).overwrite k b = (d.overwrite k b).overwrite l a := by
  simp only [overwrite, List.map_map]
  congr 1
  refine List.map_congr_left fun old _ => ?_
  simp only [Function.comp_apply]
  by_cases hl : old.1 = l
  · simp [hl, h]
  · by_cases hk : old.1 = k <;> simp [hl, hk, h.symm]

/-- Takes in new contents, one after another. -/
def overwriteAll (d : Disk) (changes : List (Location × ByteArray)) : Disk :=
  changes.foldl (fun d x => d.overwrite x.1 x.2) d

theorem overwriteAll_cons (d : Disk) (x : Location × ByteArray)
    (changes : List (Location × ByteArray)) :
    d.overwriteAll (x :: changes) = (d.overwrite x.1 x.2).overwriteAll changes := rfl

theorem overwriteAll_append (d : Disk) (first more : List (Location × ByteArray)) :
    d.overwriteAll (first ++ more) = (d.overwriteAll first).overwriteAll more := List.foldl_append

/-- New contents for different files can come in any order. -/
theorem overwriteAll_perm (d : Disk) {first second : List (Location × ByteArray)}
    (h : first.Perm second) (hdistinct : (first.map Prod.fst).Nodup) :
    d.overwriteAll first = d.overwriteAll second := by
  refine h.foldl_eq' (fun x hx y hy d => ?_) d
  by_cases hxy : x.1 = y.1
  · rw [List.inj_on_of_nodup_map hdistinct hx hy hxy]
  · exact d.overwrite_comm hxy x.2 y.2

/-- New contents for files of a tree. -/
def Fits (d : Disk) (changes : List (Location × ByteArray)) : Prop :=
  (changes.map Prod.fst).Nodup ∧ ∀ x ∈ changes, ∃ c, d.entry? x.1 = some (.file c)

theorem Fits.of_cons {x : Location × ByteArray} {changes : List (Location × ByteArray)}
    (hd : d.IsTree) (h : d.Fits (x :: changes)) : (d.overwrite x.1 x.2).Fits changes := by
  obtain ⟨hdistinct, hfiles⟩ := h
  obtain ⟨c, hc⟩ := hfiles x List.mem_cons_self
  rw [List.map_cons, List.nodup_cons] at hdistinct
  refine ⟨hdistinct.2, fun y hy => ?_⟩
  rw [overwrite_at hd hc, if_neg]
  · exact hfiles y (List.mem_cons_of_mem x hy)
  · intro hyx
    exact hdistinct.1 (hyx ▸ List.mem_map_of_mem hy)

theorem IsTree.overwriteAll {changes : List (Location × ByteArray)} (hd : d.IsTree)
    (h : d.Fits changes) : (d.overwriteAll changes).IsTree := by
  induction changes generalizing d with
  | nil => exact hd
  | cons x changes ih =>
    obtain ⟨c, hc⟩ := h.2 x List.mem_cons_self
    rw [overwriteAll_cons]
    exact ih (hd.overwrite hc x.2) (h.of_cons hd)

theorem overwriteAll_at {changes : List (Location × ByteArray)} (hd : d.IsTree)
    (h : d.Fits changes) (k : Location) :
    entry? (d.overwriteAll changes) k =
      match changes.lookup k with
      | some c => some (.file c)
      | none => d.entry? k := by
  induction changes generalizing d with
  | nil => rfl
  | cons x changes ih =>
    obtain ⟨l, a⟩ := x
    obtain ⟨c, hc⟩ := h.2 _ List.mem_cons_self
    rw [overwriteAll_cons, ih (hd.overwrite hc a) (h.of_cons hd), List.lookup_cons]
    by_cases hkl : k = l
    · have hfresh : changes.lookup k = none := by
        rw [List.lookup_eq_none_iff]
        intro y hy
        refine bne_iff_ne.2 fun hyk => (List.nodup_cons.1 h.1).1 ?_
        exact List.mem_map.2 ⟨y, hy, hyk.symm.trans hkl⟩
      rw [hfresh, hkl, beq_self_eq_true]
      simp only
      rw [overwrite_at hd hc, if_pos rfl]
    · rw [beq_false_of_ne hkl]
      cases changes.lookup k with
      | some b => rfl
      | none =>
        simp only
        rw [overwrite_at hd hc, if_neg hkl]

/-! ## Disks that differ in contents only -/

/-- The same files and folders, seen from the same place. -/
structure Alike (d e : Disk) : Prop where
  workDir : d.workDir = e.workDir
  entry : ∀ l, (d.entry? l).map Entry.isFolder = (e.entry? l).map Entry.isFolder

theorem Alike.step_eq (h : d.Alike e) : d.step = e.step := by
  have hsome : ∀ k, (d.entry? k).isSome = (e.entry? k).isSome := by
    intro k
    rw [← Option.isSome_map (f := Entry.isFolder), h.entry k, Option.isSome_map]
  funext l segment
  have hl := h.entry l
  unfold step
  match hdl : d.entry? l, hel : e.entry? l with
  | none, none => rfl
  | some (.file _), some (.file _) => rfl
  | some .folder, some .folder => simp only [hsome]
  | none, some _ => simp [hdl, hel] at hl
  | some _, none => simp [hdl, hel] at hl
  | some .folder, some (.file _) => simp [hdl, hel, Entry.isFolder] at hl
  | some (.file _), some .folder => simp [hdl, hel, Entry.isFolder] at hl

theorem alike_overwriteAll {changes : List (Location × ByteArray)} (hd : d.IsTree)
    (h : d.Fits changes) : (d.overwriteAll changes).Alike d := by
  refine ⟨?_, fun k => ?_⟩
  · clear h hd
    induction changes generalizing d with
    | nil => rfl
    | cons x changes ih => exact ih
  · rw [overwriteAll_at hd h]
    cases hk : changes.lookup k with
    | none => rfl
    | some a =>
      obtain ⟨before, after, rfl, -⟩ := List.lookup_eq_some_iff.1 hk
      obtain ⟨c, hc⟩ := h.2 (k, a) (by simp)
      rw [hc]
      rfl

end Relocate.Disk
