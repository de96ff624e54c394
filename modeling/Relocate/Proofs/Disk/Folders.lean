import Mathlib.Data.List.Infix
import Relocate.Proofs.Disk.Write
import Relocate.Proofs.Path.Normal

/-!
# Folders that are made

The folders of a path are made from the path up: only when one lies in nothing
are those around it made first. That goes through when the path leads on by
names from a folder that is there, and nothing on the way is a file
(`FreeWay`); how the path is spelled does not matter. Afterwards the folders
down to the path are there, and nothing else has changed (`Adds`).

* `FreeWay.ensureFolder_plain`: what making the last folder does.
* `FreeWay.exists_makeFolders`: the folders of a path are made.
-/
namespace Relocate.Disk

variable {d e : Disk} {p q base : Path} {l k : Location} {names : List String} {n : String}

/-! ## Ways without files -/

/-- From the folder at `l`, where `base` leads, `p` leads on by names, and
nothing on the way is a file. -/
structure FreeWay (d : Disk) (p base : Path) (l : Location) (names : List String) : Prop where
  spelled : p.components = base.components ++ names.map .name
  way : d.walk base = .ok l
  folder : d.entry? l = some .folder
  short : ∀ n ∈ names, n.utf8ByteSize ≤ maxNameLength
  clear : ∀ front ∈ names.inits, (d.entry? (l ++ front)).all Entry.isFolder

theorem FreeWay.isName (h : d.FreeWay p base l names) : ∀ n ∈ names, IsName n := by
  intro n hn
  have hmem : Component.name n ∈ p.components := by simp [h.spelled, hn]
  exact (name_of_mem_components hmem).1

theorem folder_of_clear (hclear : (d.entry? k).all Entry.isFolder)
    (hthere : (d.entry? k).isSome) : d.entry? k = some .folder := by
  obtain ⟨a, ha⟩ := Option.isSome_iff_exists.1 hthere
  cases a <;> simp_all [Entry.isFolder]

theorem FreeWay.entry_eq (h : d.FreeWay p base l names)
    (hthere : (d.entry? (l ++ names)).isSome) : d.entry? (l ++ names) = some .folder :=
  folder_of_clear (h.clear names (by simp)) hthere

/-- The same for the path around the last name. -/
theorem FreeWay.exists_around (h : d.FreeWay p base l (names ++ [n])) :
    ∃ q : Path, p.components = q.components ++ [.name n] ∧ d.FreeWay q base l names := by
  obtain ⟨q, hq⟩ := base.exists_components_append fun m hm => h.isName m (List.mem_append_left _ hm)
  refine ⟨q, by simp [h.spelled, hq], hq, h.way, h.folder, ?_, fun front hfront => ?_⟩
  · exact fun m hm => h.short m (List.mem_append_left _ hm)
  · refine h.clear front ((List.mem_inits _ _).2 ?_)
    exact ((List.mem_inits _ _).1 hfront).trans (List.prefix_append _ _)

/-- Names without files on the way lead down as far as there is something. -/
theorem foldlM_step_clear (hfolder : d.entry? l = some .folder)
    (hnames : ∀ n ∈ names, IsName n ∧ n.utf8ByteSize ≤ maxNameLength)
    (hclear : ∀ front ∈ names.inits, (d.entry? (l ++ front)).all Entry.isFolder) :
    (names.map String.toList).foldlM d.step l =
      if (d.entry? (l ++ names)).isSome then .ok (l ++ names) else .error .notFound := by
  induction names generalizing l with
  | nil => simp [hfolder, pure, Except.pure]
  | cons n names ih =>
    obtain ⟨hn, hshort⟩ := hnames n List.mem_cons_self
    have hstep := step_named hfolder hn.ne_nil (by simp [hn.ne_dot, hn.ne_dots])
    rw [String.ofList_toList, if_neg (Nat.not_lt.2 hshort)] at hstep
    have hassoc : l ++ n :: names = l ++ [n] ++ names := by simp
    rw [List.map_cons, List.foldlM_cons, hstep, hassoc]
    cases hentry : d.entry? (l ++ [n]) with
    | none =>
      have hbelow : ¬(d.entry? (l ++ [n] ++ names)).isSome := fun hthere => by
        simpa [hentry] using isSome_above hthere (List.prefix_append _ _)
      rw [if_neg hbelow]
      rfl
    | some a =>
      have hnext := folder_of_clear (hclear [n] (by simp)) (by rw [hentry]; rfl)
      refine ih hnext (fun m hm => hnames m (List.mem_cons_of_mem n hm)) fun front hfront => ?_
      rw [List.append_assoc]
      exact hclear (n :: front) (by simpa using hfront)

/-- Names behind a path are segments behind its plainest spelling. -/
theorem named_plain_eq (names : List String)
    (h : p.components = q.components ++ names.map .name) :
    named p.plain = named q.plain ++ names.map String.toList := by
  have hnames : (names.map Component.name).filter (· ≠ .root) = names.map .name :=
    List.filter_eq_self.2 (by simp)
  rw [named, Path.filter_segments_plain, h, List.filter_append, hnames, List.map_append,
    ← Path.filter_segments_plain, List.map_map, named]
  rfl

theorem origin_eq (d : Disk) (names : List String)
    (h : p.components = q.components ++ names.map .name) :
    d.origin p = d.origin q := by
  have habs : p.isAbsolute ↔ q.isAbsolute := by
    rw [← Path.root_mem_components_iff, ← Path.root_mem_components_iff, h]
    simp
  simp only [origin, habs]

theorem origin_plain (d : Disk) (p : Path) : d.origin p.plain = d.origin p :=
  d.origin_eq [] (by simp [Path.components_plain])

theorem said_named_plain (p : Path) : said (named p.plain) = said p.segments := by
  rw [named, said_filter, Path.said_segments_plain]

theorem FreeWay.foldlM_named (h : d.FreeWay p base l names) :
    (named p.plain).foldlM d.step (d.origin p.plain) =
      if (d.entry? (l ++ names)).isSome then .ok (l ++ names) else .error .notFound := by
  have hbase : (named base.plain).foldlM d.step (d.origin base) = .ok l :=
    foldlM_congr_said (said_named_plain base).symm h.way h.folder
  rw [origin_plain, d.origin_eq names h.spelled, named_plain_eq names h.spelled,
    List.foldlM_append, hbase]
  exact foldlM_step_clear h.folder (fun n hn => ⟨h.isName n hn, h.short n hn⟩) h.clear

/-- However the path is spelled, it leads to what is there. -/
theorem FreeWay.walk_eq (h : d.FreeWay p base l names)
    (hthere : (d.entry? (l ++ names)).isSome) : d.walk p = .ok (l ++ names) := by
  have hway := h.foldlM_named
  rw [if_pos hthere, origin_plain] at hway
  exact foldlM_congr_said (said_named_plain p) hway (h.entry_eq hthere)

theorem FreeWay.plain (h : d.FreeWay p base l names) : d.FreeWay p.plain base l names :=
  { h with spelled := p.components_plain.trans h.spelled }

theorem FreeWay.isFolder_plain (h : d.FreeWay p base l names) (hflaw : flaw? p.plain = none) :
    d.isFolder p.plain = (d.entry? (l ++ names)).isSome := by
  by_cases hthere : (d.entry? (l ++ names)).isSome
  · simp [isFolder, resolve_eq, hflaw, h.plain.walk_eq hthere, h.entry_eq hthere, Entry.isFolder]
  · rw [Bool.eq_false_iff.2 hthere, Bool.eq_false_iff]
    intro hfolder
    obtain ⟨k, hresolve, -⟩ := exists_resolve_of_isFolder hfolder
    have hway := foldlM_step_filter (walk_of_resolve hresolve).2
    rw [show p.plain.segments.filter (!·.isEmpty) = named p.plain from rfl, h.foldlM_named,
      if_neg hthere] at hway
    cases hway

/-- No names are needed to a folder that is there. -/
theorem exists_freeWay_of_isFolder (h : d.isFolder p) : ∃ l, d.FreeWay p p l [] := by
  obtain ⟨l, hresolve, hfolder⟩ := exists_resolve_of_isFolder h
  refine ⟨l, by simp, (walk_of_resolve hresolve).2, hfolder, by simp, ?_⟩
  simp [hfolder, Entry.isFolder]

/-! ## Making the last folder -/

/-- A missing folder is made when there is one to make it in. -/
theorem FreeWay.ensureFolder_plain (h : d.FreeWay p base l (names ++ [n]))
    (hflaw : flaw? p.plain = none) (hmissing : d.entry? (l ++ names ++ [n]) = none) :
    d.ensureFolder p.plain =
      if (d.entry? (l ++ names)).isSome then .ok (d.put (l ++ names ++ [n]) .folder)
      else .error .notFound := by
  obtain ⟨q, hq, haround⟩ := h.exists_around
  have hnamed : named p.plain = named q.plain ++ [n.toList] := named_plain_eq [n] hq
  have horigin : d.origin p.plain = d.origin q.plain := by
    rw [origin_plain, origin_plain, d.origin_eq [n] hq]
  have hway := haround.foldlM_named
  have hn : IsName n := h.isName n (by simp)
  by_cases hthere : (d.entry? (l ++ names)).isSome
  · have hfolder := haround.entry_eq hthere
    rw [if_pos hthere] at hway ⊢
    have htarget : d.target p.plain = .ok (l ++ names, some n.toList) := by
      refine target_eq_ok_iff.2 ⟨hflaw, ?_, hfolder, ?_⟩
      · rw [hnamed, List.dropLast_concat, horigin, hway]
      · rw [hnamed, List.getLast?_concat]
    have hproper : n.toList ∉ [['.'], ['.', '.']] := by simp [hn.ne_dot, hn.ne_dots]
    have hstep := step_named hfolder hn.ne_nil hproper
    rw [String.ofList_toList, if_neg (Nat.not_lt.2 (h.short n (by simp))), hmissing] at hstep
    have hmake : d.makeFolder p.plain = .ok (d.put (l ++ names ++ [n]) .folder) := by
      rw [makeFolder, htarget]
      simp [bind, Except.bind, hproper, hstep]
    rw [ensureFolder, hmake]
  · rw [if_neg hthere] at hway ⊢
    have hmake : d.makeFolder p.plain = .error .notFound := by
      rw [makeFolder, target_eq hflaw, hnamed, List.dropLast_concat, horigin, hway]
      rfl
    have hfolder := h.isFolder_plain hflaw
    rw [← List.append_assoc, hmissing] at hfolder
    rw [ensureFolder, hmake]
    simp [hfolder]

/-! ## What has been added -/

/-- `e` is `d` with folders down to `l`. -/
structure Adds (e d : Disk) (l : Location) : Prop where
  workDir : e.workDir = d.workDir
  entry : ∀ k, e.entry? k = (d.entry? k).or (if k <+: l then some .folder else none)

/-- No folder is missing on the way to what is there. -/
theorem adds_self (h : (d.entry? l).isSome) : d.Adds d l where
  workDir := rfl
  entry k := by
    split
    · rename_i hk
      obtain ⟨a, ha⟩ := Option.isSome_iff_exists.1 (isSome_above h hk)
      rw [ha, Option.some_or]
    · rw [Option.or_none]

theorem entry?_put_folder (h : d.entry? l = none) (k : Location) :
    Disk.entry? (d.put l .folder) k =
      (d.entry? k).or (if k <+: l then some .folder else none) := by
  have hfresh : d.entries.lookup l = none := by
    cases hlook : d.entries.lookup l with
    | none => rfl
    | some a => simp [ entry?, hlook] at h
  by_cases hk : k = l
  · rw [hk, entry?_put_self, h, if_pos (List.prefix_refl l), Option.none_or]
  · have hput : d.put l .folder = { d with entries := d.entries ++ [(l, .folder)] } := by
      simp [Disk.put, hfresh]
    have hlook : (d.put l .folder).entries.lookup k = d.entries.lookup k := by
      rw [lookup_put, if_neg hk]
    rw [ entry?, hlook, entry?, hput]
    cases d.entries.lookup k with
    | some a => rfl
    | none =>
      simp only [List.any_append, List.any_cons, List.any_nil, Bool.or_false, Bool.or_eq_true,
        List.isPrefixOf_iff_prefix, ← or_assoc]
      by_cases habove : k = [] ∨ d.entries.any fun e => k.isPrefixOf e.1
      · rw [if_pos (.inl habove), if_pos habove]
        rfl
      · simp only [habove, false_or, if_false, Option.none_or]

/-- In the last of the folders nothing is new. -/
theorem Adds.entry_below (h : e.Adds d l) (n : String) :
    e.entry? (l ++ [n]) = d.entry? (l ++ [n]) := by
  have hlonger : ¬(l ++ [n] <+: l) := fun hpre => by
    have hlength := hpre.length_le
    rw [List.length_append, List.length_singleton] at hlength
    omega
  rw [h.entry, if_neg hlonger, Option.or_none]

/-- One folder more. -/
theorem Adds.put (h : e.Adds d l) (hmissing : d.entry? (l ++ [n]) = none) :
    (e.put (l ++ [n]) .folder).Adds d (l ++ [n]) where
  workDir := by rw [workDir_put, h.workDir]
  entry k := by
    rw [ entry?_put_folder ((h.entry_below n).trans hmissing), h.entry, Option.or_assoc]
    by_cases hk : k <+: l
    · simp [hk, hk.trans (List.prefix_append l [n])]
    · simp [hk]

theorem Adds.keeps (h : e.Adds d l) : e.Keeps d where
  present k hthere := by
    obtain ⟨a, ha⟩ := Option.isSome_iff_exists.1 hthere
    rw [h.entry, ha]
    rfl
  folder k hfolder := by
    rw [h.entry, hfolder]
    rfl

/-- A way without files stays one. -/
theorem Adds.freeWay (h : e.Adds d k) (hway : d.FreeWay p base l names) :
    e.FreeWay p base l names where
  spelled := hway.spelled
  way := by
    rw [walk, show e.origin base = d.origin base by rw [origin, h.workDir, origin]]
    exact h.keeps.foldlM_step_eq hway.way
  folder := h.keeps.folder l hway.folder
  short := hway.short
  clear front hfront := by
    have hclear := hway.clear front hfront
    rw [h.entry]
    cases hentry : d.entry? (l ++ front) with
    | some a => simpa [hentry] using hclear
    | none => split <;> rfl

/-! ## Making all of them -/

theorem FreeWay.ensureFolders_of_isSome (h : d.FreeWay p base l names)
    (hflaw : p.text ≠ "" → flaw? p.plain = none) (hthere : (d.entry? (l ++ names)).isSome) :
    d.ensureFolders p.ancestors = .ok d := by
  by_cases hp : p.text = ""
  · obtain rfl : p = ⟨""⟩ := congrArg Path.mk hp
    rfl
  · have hfolder : d.isFolder p.plain := by rw [h.isFolder_plain (hflaw hp), hthere]
    obtain ⟨around, haround⟩ := Path.exists_ancestors hp
    rw [haround, ensureFolders, ensureFolder_of_isFolder hfolder]

/-- The folders of a path are made, however many are missing. -/
theorem FreeWay.exists_ensureFolders (h : d.FreeWay p base l names)
    (hflaw : p.text ≠ "" → flaw? p.plain = none) :
    ∃ e, d.ensureFolders p.ancestors = .ok e ∧ e.Adds d (l ++ names) := by
  induction names using List.reverseRecOn generalizing p with
  | nil =>
    have hthere : (d.entry? (l ++ [])).isSome := by rw [List.append_nil, h.folder]; rfl
    exact ⟨d, h.ensureFolders_of_isSome hflaw hthere, adds_self hthere⟩
  | append_singleton names n ih =>
    by_cases hthere : (d.entry? (l ++ (names ++ [n]))).isSome
    · exact ⟨d, h.ensureFolders_of_isSome hflaw hthere, adds_self hthere⟩
    · rw [Option.not_isSome_iff_eq_none, ← List.append_assoc] at hthere
      rw [← List.append_assoc]
      obtain ⟨q, hq, haround⟩ := h.exists_around
      have hp : p.text ≠ "" := Path.text_ne_of_mem_components (c := .name n) (by simp [hq])
      have hancestors : p.ancestors = p.plain :: q.ancestors := Path.ancestors_eq hq
      have hlast := h.ensureFolder_plain (hflaw hp) hthere
      by_cases hparent : (d.entry? (l ++ names)).isSome
      · rw [if_pos hparent] at hlast
        refine ⟨_, ?_, (adds_self hparent).put hthere⟩
        rw [hancestors, ensureFolders, hlast]
      · -- Those around it are made first; then there is one to make it in.
        rw [if_neg hparent] at hlast
        have hflaw' : q.text ≠ "" → flaw? q.plain = none := fun hne =>
          flaw?_of_sublist (Path.plain_prefix hq (Path.components_ne_nil hne)).sublist
            (Path.text_plain_ne hne) (hflaw hp)
        obtain ⟨e, hmade, hadds⟩ := ih haround hflaw'
        have hagain := (hadds.freeWay h).ensureFolder_plain (hflaw hp)
          ((hadds.entry_below n).trans hthere)
        rw [if_pos (by simp [hadds.entry])] at hagain
        refine ⟨_, ?_, hadds.put hthere⟩
        rw [hancestors, ensureFolders, hlast]
        simp [hmade, Except.bind, hagain]

/-- So a path that has no file on its way leads to a folder afterwards. -/
theorem FreeWay.exists_makeFolders (h : d.FreeWay p base l names)
    (hflaw : p.text ≠ "" → flaw? p = none) :
    ∃ e, d.makeFolders p.plain = .ok e ∧ e.walk p = .ok (l ++ names) ∧ e.Adds d (l ++ names) := by
  obtain ⟨e, hmade, hadds⟩ := h.exists_ensureFolders fun hp => flaw?_plain (hflaw hp)
  refine ⟨e, by rw [makeFolders, Path.ancestors_plain, hmade], ?_, hadds⟩
  exact (hadds.freeWay h).walk_eq (by simp [hadds.entry])

end Relocate.Disk
