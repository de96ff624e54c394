import Relocate.Project.Run
import Relocate.Proofs.Project.Discover

/-!
# Work on one file and on many

What a run does with a file is settled by what the file holds at the start:
its report (`report`) and its new content (`change?`). Other files do not
count, because they lie elsewhere (`Sources`), so work on a file comes to the
same before and after work on others (`readText_overwriteAll`,
`finish_overwriteAll`).

* `processAll_eq`: files in a row, by what each of them holds at the start.
* `work_eq`: a run, likewise.
-/
namespace Relocate.Project

variable {p : Project} {o : Options} {d e : Disk} {f : Path} {l : Location}

theorem finish_none {text : String} {r : FileReport}
    (h : p.review o.mode (p.relative f) text = (r, none)) (d : Disk) :
    p.finish o d f (.ok text) = (d, r) := by
  simp only [finish, h]

theorem finish_some {text new : String} {r : FileReport}
    (h : p.review o.mode (p.relative f) text = (r, some new)) (d : Disk) :
    p.finish o d f (.ok text) =
      if o.dryRun then (d, { r with status := .changed false })
      else match d.write f new.toUTF8 with
        | .ok d => (d, { r with status := .changed true })
        | .error cause =>
          (d, { r with status := .skipped (Fault.unwritable (p.relative f) cause).message }) := by
  cases hwrite : d.write f new.toUTF8 <;> simp only [finish, h, hwrite]

theorem readText_congr (h : d.resolve f = e.resolve f)
    (hl : ∀ l, d.resolve f = .ok l → d.entry? l = e.entry? l) : readText d f = readText e f := by
  rw [readText, readText, ← h]
  cases hres : d.resolve f with
  | error cause => rfl
  | ok l =>
    simp only [bind, Except.bind]
    rw [hl l hres]

/-- A file that can be read has a text at the place that its path leads to. -/
theorem of_readText {text : String} (h : readText d f = .ok text) :
    Disk.flaw? f = none ∧ ∃ l, d.walk f = .ok l ∧ d.entry? l = some (.file text.toUTF8) := by
  rw [readText] at h
  obtain ⟨l, hres, h⟩ := Disk.bind_eq_ok_iff.1 h
  obtain ⟨hflaw, hwalk⟩ := Disk.walk_of_resolve hres
  refine ⟨hflaw, l, hwalk, ?_⟩
  cases hentry : d.entry? l with
  | none => simp [hentry] at h
  | some a =>
    cases a with
    | folder => simp [hentry] at h
    | file c =>
      simp only [hentry] at h
      cases htext : String.fromUTF8? c with
      | none => simp [htext] at h
      | some t =>
        simp only [htext] at h
        obtain rfl := Except.ok.inj h
        unfold String.fromUTF8? at htext
        split at htext
        · cases htext
          rfl
        · cases htext

/-- The report on a file, from what it holds on the disk, when it can be
written to. -/
def report (p : Project) (o : Options) (d : Disk) (f : Path) : FileReport :=
  let name := p.relative f
  match readText d f with
  | .error cause => ⟨name, .skipped (Fault.unreadable name cause).message, [], [], [], []⟩
  | .ok text =>
    match p.review o.mode name text with
    | (report, none) => report
    | (report, some _) => { report with status := .changed (!o.dryRun) }

/-- The new content of a file and where it goes, from what the file holds on
the disk. -/
def change? (p : Project) (o : Options) (d : Disk) (f : Path) : Option (Location × ByteArray) :=
  match d.walk f, readText d f with
  | .ok l, .ok text =>
    if o.dryRun then none
    else (p.review o.mode (p.relative f) text).2.map fun new => (l, new.toUTF8)
  | _, _ => none

/-- The new contents of files. -/
def changes (p : Project) (o : Options) (d : Disk) (files : List Path) :
    List (Location × ByteArray) := files.filterMap (p.change? o d)

theorem changes_append (p : Project) (o : Options) (d : Disk) (files more : List Path) :
    p.changes o d (files ++ more) = p.changes o d files ++ p.changes o d more :=
  List.filterMap_append

theorem report_of_error {cause : DiskCause} (h : readText d f = .error cause) :
    p.report o d f = ⟨p.relative f,
      .skipped (Fault.unreadable (p.relative f) cause).message, [], [], [], []⟩ := by
  simp only [report, h]

theorem report_of_ok {text : String} {r : FileReport} {new? : Option String}
    (h : readText d f = .ok text) (hreview : p.review o.mode (p.relative f) text = (r, new?)) :
    p.report o d f = if new?.isSome then { r with status := .changed (!o.dryRun) } else r := by
  simp only [report, h, hreview]
  cases new? <;> rfl

theorem change?_of_error {cause : DiskCause} (h : readText d f = .error cause) :
    p.change? o d f = none := by
  unfold change?
  rw [h]
  cases d.walk f <;> rfl

theorem change?_of_ok {text : String} (hwalk : d.walk f = .ok l) (h : readText d f = .ok text) :
    p.change? o d f =
      if o.dryRun then none
      else (p.review o.mode (p.relative f) text).2.map fun new => (l, new.toUTF8) := by
  unfold change?
  rw [hwalk, h]

theorem walk_of_change? {x : Location × ByteArray} (h : p.change? o d f = some x) :
    d.walk f = .ok x.1 := by
  unfold change? at h
  split at h
  · rename_i hwalk _
    split at h
    · cases h
    · obtain ⟨new, -, rfl⟩ := Option.map_eq_some_iff.1 h
      exact hwalk
  · cases h

theorem review_path (p : Project) (mode : Mode) (name : Path) (text : String) :
    (p.review mode name text).1.path = name := by
  cases mode <;> rfl

/-- A report names its file as seen from the root. -/
theorem report_path (p : Project) (o : Options) (d : Disk) (f : Path) :
    (p.report o d f).path = p.relative f := by
  cases hread : readText d f with
  | error cause => rw [report_of_error hread]
  | ok text =>
    obtain ⟨r, new?, hreview⟩ : ∃ r new?, p.review o.mode (p.relative f) text = (r, new?) :=
      ⟨_, _, rfl⟩
    have hpath : r.path = p.relative f := by
      rw [← p.review_path o.mode (p.relative f) text, hreview]
    rw [report_of_ok hread hreview]
    cases new? <;> exact hpath

/-- What a disk holds elsewhere does not count. -/
theorem report_congr (p : Project) (o : Options) (h : readText d f = readText e f) :
    p.report o d f = p.report o e f := by
  simp only [report, h]

theorem change?_congr (p : Project) (o : Options) (h : readText d f = readText e f)
    (hwalk : d.walk f = e.walk f) : p.change? o d f = p.change? o e f := by
  simp only [change?, h, hwalk]

/-! ## Files that do not touch each other -/

/-- Source files of a disk, of which no two have the same components. -/
structure Sources (p : Project) (d : Disk) (files : List Path) : Prop where
  source : ∀ f ∈ files, ∃ l names, p.Source d f l names
  distinct : files.Pairwise fun f g => f.components ≠ g.components

theorem sources_discover (hp : p.ScansDown) (hd : d.IsTree) : p.Sources d (p.discover d) := by
  refine ⟨fun f hf => exists_source hp hd hf, (p.climbs_discover d).imp fun {f g} hlt heq => ?_⟩
  rw [Path.order_eq_iff.2 heq] at hlt
  cases hlt

namespace Sources

variable {files more : List Path}

theorem perm (h : p.Sources d files) (hperm : files.Perm more) : p.Sources d more :=
  ⟨fun f hf => h.source f (hperm.mem_iff.2 hf), h.distinct.perm hperm fun hne => hne.symm⟩

theorem sublist (h : p.Sources d files) (hsub : List.Sublist more files) : p.Sources d more :=
  ⟨fun f hf => h.source f (hsub.mem hf), h.distinct.sublist hsub⟩

/-- The new contents go to different files. -/
theorem fits (h : p.Sources d files) (o : Options) : d.Fits (p.changes o d files) := by
  constructor
  · rw [List.Nodup, List.pairwise_map, changes, List.pairwise_filterMap]
    refine h.distinct.imp_of_mem fun {f g} hf hg hne x hx y hy hxy => hne ?_
    obtain ⟨l, ns, hfs⟩ := h.source f hf
    obtain ⟨k, ms, hgs⟩ := h.source g hg
    rw [← hfs.location_eq_iff hgs]
    have hl := Except.ok.inj (hfs.walk.symm.trans (walk_of_change? hx))
    have hk := Except.ok.inj (hgs.walk.symm.trans (walk_of_change? hy))
    rw [hl, hk, hxy]
  · intro x hx
    obtain ⟨f, hf, hchange⟩ := List.mem_filterMap.1 hx
    obtain ⟨l, ns, hsource⟩ := h.source f hf
    obtain rfl := Except.ok.inj (hsource.walk.symm.trans (walk_of_change? hchange))
    exact hsource.file

/-- Work on other files leaves a file as it is. -/
theorem overwriteAll_at_other {ns : List String} (hd : d.IsTree) (h : p.Sources d (f :: files))
    (hf : p.Source d f l ns) (o : Options) :
    Disk.entry? (d.overwriteAll (p.changes o d files)) l = d.entry? l := by
  obtain ⟨hothers, -⟩ := List.pairwise_cons.1 h.distinct
  have hrest := h.sublist (List.sublist_cons_self f files)
  have hnone : (p.changes o d files).lookup l = none := by
    rw [List.lookup_eq_none_iff]
    intro x hx
    obtain ⟨g, hg, hchange⟩ := List.mem_filterMap.1 hx
    obtain ⟨k, ms, hgs⟩ := hrest.source g hg
    obtain rfl := Except.ok.inj (hgs.walk.symm.trans (walk_of_change? hchange))
    exact bne_iff_ne.2 fun heq => hothers g hg ((hf.location_eq_iff hgs).1 heq)
  rw [Disk.overwriteAll_at hd (hrest.fits o), hnone]

end Sources

/-! ## One file -/

section Finish

variable {files : List Path} (hd : d.IsTree) (h : p.Sources d (f :: files))

include hd h

/-- A file is read alike before and after work on others. -/
theorem readText_overwriteAll :
    readText (d.overwriteAll (p.changes o d files)) f = readText d f := by
  have hrest := h.sublist (List.sublist_cons_self f files)
  refine readText_congr ((Disk.alike_overwriteAll hd (hrest.fits o)).resolve_eq f) fun k hk => ?_
  obtain ⟨l, ns, hsource⟩ := h.source f List.mem_cons_self
  rw [(Disk.alike_overwriteAll hd (hrest.fits o)).resolve_eq] at hk
  obtain rfl := Except.ok.inj (hsource.walk.symm.trans (Disk.walk_of_resolve hk).2)
  exact h.overwriteAll_at_other hd hsource o

/-- What remains to do with a file after work on others. -/
theorem finish_overwriteAll :
    p.finish o (d.overwriteAll (p.changes o d files)) f (readText d f) =
      (d.overwriteAll (p.changes o d (files ++ [f])), p.report o d f) := by
  have hrest := h.sublist (List.sublist_cons_self f files)
  have hfits := hrest.fits o
  have htree := hd.overwriteAll hfits
  have halike := Disk.alike_overwriteAll hd hfits
  rw [changes_append, Disk.overwriteAll_append]
  cases hread : readText d f with
  | error cause =>
    have hnone : p.changes o d [f] = [] := List.filterMap_cons_none (change?_of_error hread)
    rw [hnone, report_of_error hread]
    rfl
  | ok text =>
    obtain ⟨hflaw, l, hwalk, hfile⟩ := of_readText hread
    obtain ⟨r, new?, hreview⟩ : ∃ r new?, p.review o.mode (p.relative f) text = (r, new?) :=
      ⟨_, _, rfl⟩
    have hchange : p.change? o d f = _ := change?_of_ok hwalk hread
    rw [hreview] at hchange
    rw [report_of_ok hread hreview]
    cases new? with
    | none =>
      have hnone : p.changes o d [f] = [] :=
        List.filterMap_cons_none (by rw [hchange]; split <;> rfl)
      rw [hnone, finish_none hreview]
      rfl
    | some new =>
      rw [finish_some hreview]
      by_cases hdry : o.dryRun
      · have hnone : p.changes o d [f] = [] :=
          List.filterMap_cons_none (by rw [hchange, if_pos hdry])
        rw [hnone, if_pos hdry, hdry]
        rfl
      · have hone : p.changes o d [f] = [(l, new.toUTF8)] :=
          List.filterMap_cons_some (by rw [hchange, if_neg hdry]; rfl)
        -- The file has still the content that was read, so it can be written to.
        have hthere : Disk.entry? (d.overwriteAll (p.changes o d files)) l =
            some (.file text.toUTF8) := by
          obtain ⟨k, ns, hk⟩ := h.source f List.mem_cons_self
          obtain rfl := Except.ok.inj (hk.walk.symm.trans hwalk)
          rw [h.overwriteAll_at_other hd hk o, hfile]
        have hwrite := htree.write_of_walk hflaw ((halike.walk_eq f).trans hwalk) hthere new.toUTF8
        rw [hone, if_neg hdry, hwrite, Bool.eq_false_iff.2 hdry]
        rfl

end Finish

/-! ## Many files -/

/-- Files in a row: each is worked on as if it were alone. -/
theorem processAll_eq (hd : d.IsTree) {files done : List Path} (h : p.Sources d (done ++ files)) :
    p.processAll o (d.overwriteAll (p.changes o d done)) files =
      (d.overwriteAll (p.changes o d (done ++ files)), files.map (p.report o d)) := by
  induction files generalizing done with
  | nil => simp [processAll]
  | cons f files ih =>
    have hfirst : p.Sources d (f :: done) :=
      h.perm List.perm_middle |>.sublist ((List.sublist_append_left done files).cons_cons f)
    have hrest : p.Sources d (done ++ [f] ++ files) := by simpa using h
    rw [processAll, process, readText_overwriteAll hd hfirst, finish_overwriteAll hd hfirst]
    simp only
    rw [ih hrest]
    simp

/-- Reports are in the order of their files. -/
theorem Sources.order_report {files : List Path} (hroot : p.root.text ≠ "")
    (h : p.Sources d files) (o : Options) {f g : Path} (hf : f ∈ files) (hg : g ∈ files) :
    (p.report o d f).path.order (p.report o d g).path = f.order g := by
  obtain ⟨l, ns, hfs⟩ := h.source f hf
  obtain ⟨k, ms, hgs⟩ := h.source g hg
  rw [report_path, report_path, hfs.order_relative hroot hgs]

theorem processAll_discover (hp : p.ScansDown) (hd : d.IsTree) (o : Options) :
    p.processAll o d (p.discover d) =
      (d.overwriteAll (p.changes o d (p.discover d)), (p.discover d).map (p.report o d)) :=
  processAll_eq hd (show p.Sources d ([] ++ p.discover d) from sources_discover hp hd)

/-- A run comes to the new contents and reports of the source files, as they
are at the start. -/
theorem work_eq (hp : p.ScansDown) (hd : d.IsTree) (o : Options) (failures : List FileReport) :
    p.work o d failures =
      (d.overwriteAll (p.changes o d (p.discover d)),
        .ofReports (p.discover d).length (failures ++ (p.discover d).map (p.report o d))) := by
  simp only [work, processAll_discover hp hd]

theorem run_eq_ok_iff {failures : List FileReport} {r : Disk × Summary} :
    p.run o d failures = .ok r ↔
      p.scan.concurrency ≤ maxConcurrency ∧ p.work o d failures = r := by
  unfold run
  split
  · rename_i h
    simp [Nat.not_le.2 h]
  · rename_i h
    simp [Nat.not_lt.1 h]

end Relocate.Project
