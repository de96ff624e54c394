import Mathlib.Algebra.GroupWithZero.Nat
import Relocate.Project.Schedule
import Relocate.Proofs.Project.Process

/-!
# Runs do not depend on the order of turns

A task reads and writes its own file only, so what it reads, reports and
writes is settled by the disk at the start (`Kept`, kept by every turn:
`Kept.turn`). Reports come in as tasks are through and are sorted in the end;
they name different files, so their order does not count.

* `Ends`: however the turns are taken, they come to an end with this outcome.
* `ends_work`: a run that starts ends as if it had worked on the files one
  after another.
* `run_ignores_schedule`: a run starts exactly when the number of files that
  may be in work at once can be counted, and a file that is not text counts
  for nothing but its own report.
-/
namespace Relocate.Project

/-- However the turns are taken from here, they come to an end, and then the
outcome is `r`. -/
inductive Ends (p : Project) (o : Options) : Pool → Disk × Summary → Prop where
  | over {s} (h : s.tasks = []) : Ends p o s s.outcome
  | turn {s r} (next : ∃ t, p.Turn o s t) (every : ∀ t, p.Turn o s t → Ends p o t r) : Ends p o s r

variable {p : Project} {o : Options} {d e : Disk} {failures : List FileReport} {s t : Pool}

/-! ## Turns come to an end -/

/-- The number of turns that are left. -/
def Stage.rank : Stage → Nat
  | waiting => 4
  | admitted => 3
  | loaded _ => 2
  | through _ => 1

def Pool.rank (s : Pool) : Nat := (s.tasks.map fun t => t.stage.rank).sum

theorem Turn.rank_lt (h : p.Turn o s t) : t.rank < s.rank := by
  cases h <;> simp [Pool.rank, Stage.rank]

/-- While there are tasks, one of them can take a turn. -/
theorem exists_turn (hc : 1 ≤ p.scan.concurrency) (o : Options) (h : s.tasks ≠ []) :
    ∃ t, p.Turn o s t := by
  obtain ⟨d, tasks, n, rs⟩ := s
  by_cases hwaiting : ∀ t ∈ tasks, t.stage = .waiting
  · -- Nothing is in work, so the first task is let in.
    have hbusy : Pool.busy tasks = 0 := by
      refine List.countP_eq_zero.2 fun t ht => ?_
      rw [hwaiting t ht]
      decide
    obtain ⟨⟨f, stage⟩, rest, rfl⟩ := List.exists_cons_of_ne_nil h
    obtain rfl : stage = .waiting := hwaiting _ List.mem_cons_self
    exact ⟨_, @Turn.enter p o d n rs f [] rest (by rw [List.nil_append, hbusy]; exact hc)⟩
  · obtain ⟨⟨f, stage⟩, ht, hstage⟩ : ∃ t ∈ tasks, t.stage ≠ .waiting := by simpa using hwaiting
    obtain ⟨before, after, rfl⟩ := List.append_of_mem ht
    cases stage with
    | waiting => exact absurd rfl hstage
    | admitted => exact ⟨_, .load⟩
    | loaded read => exact ⟨_, .finish⟩
    | through report => exact ⟨_, .collect⟩

/-! ## What every turn keeps -/

/-- A task that has read, or is through, has what the disk at the start
gives. -/
def Task.IsSettled (p : Project) (o : Options) (d : Disk) (t : Task) : Prop :=
  match t.stage with
  | .loaded read => read = readText d t.file
  | .through report => report = p.report o d t.file
  | .waiting | .admitted => True

def Stage.isThrough : Stage → Bool
  | through _ => true
  | waiting | admitted | loaded _ => false

/-- The files whose tasks are through. -/
def throughFiles (tasks : List Task) : List Path :=
  (tasks.filter fun t => t.stage.isThrough).map Task.file

/-- The state of a run that started on `d`, with the reports on `collected`
taken in. -/
structure Kept (p : Project) (o : Options) (failures : List FileReport) (d : Disk)
    (collected : List Path) (s : Pool) : Prop where
  files : (collected ++ s.tasks.map Task.file).Perm (p.discover d)
  settled : ∀ t ∈ s.tasks, t.IsSettled p o d
  disk : s.disk = d.overwriteAll (p.changes o d (collected ++ throughFiles s.tasks))
  filesScanned : s.filesScanned = (p.discover d).length
  reports : s.reports = failures ++ collected.map (p.report o d)

theorem throughFiles_append (before after : List Task) :
    throughFiles (before ++ after) = throughFiles before ++ throughFiles after := by
  simp [throughFiles]

theorem throughFiles_open (before after : List Task) (f : Path) {stage : Stage}
    (h : stage.isThrough = false) : throughFiles (before ++ ⟨f, stage⟩ :: after) =
      throughFiles before ++ throughFiles after := by
  simp [throughFiles, h]

theorem throughFiles_through (before after : List Task) (f : Path) (report : FileReport) :
    throughFiles (before ++ ⟨f, .through report⟩ :: after) =
      throughFiles before ++ f :: throughFiles after := by
  simp [throughFiles, Stage.isThrough]

theorem perm_front {α : Type} (first before after : List α) (a : α) :
    (first ++ (before ++ a :: after)).Perm (a :: (first ++ (before ++ after))) := by
  rw [← List.append_assoc, ← List.append_assoc]
  exact List.perm_middle

/-- The file of a task is none of those that other tasks are through with. -/
theorem Sources.focus {before after : List Task} {collected : List Path} {f : Path} {stage : Stage}
    (h : p.Sources d (collected ++ (before ++ ⟨f, stage⟩ :: after).map Task.file)) :
    p.Sources d (f :: (collected ++ (throughFiles before ++ throughFiles after))) := by
  rw [List.map_append, List.map_cons] at h
  refine (h.perm (perm_front ..)).sublist (List.Sublist.cons_cons f ?_)
  refine List.Sublist.append_left (List.Sublist.append ?_ ?_) collected
  · exact List.filter_sublist.map _
  · exact List.filter_sublist.map _

/-- New contents do not depend on the order of the files. -/
theorem Sources.overwriteAll_perm {files more : List Path} (h : p.Sources d files)
    (hperm : files.Perm more) (o : Options) :
    d.overwriteAll (p.changes o d files) = d.overwriteAll (p.changes o d more) :=
  Disk.overwriteAll_perm d (hperm.filterMap _) (h.fits o).1

/-- A task goes on to another stage. -/
theorem Kept.restage {collected : List Path} {disk disk' : Disk} {n : Nat} {rs : List FileReport}
    {before after : List Task} {f : Path} {old new : Stage}
    (h : p.Kept o failures d collected ⟨disk, before ++ ⟨f, old⟩ :: after, n, rs⟩)
    (hnew : Task.IsSettled p o d ⟨f, new⟩)
    (hdisk : disk' = d.overwriteAll
      (p.changes o d (collected ++ throughFiles (before ++ ⟨f, new⟩ :: after)))) :
    p.Kept o failures d collected ⟨disk', before ++ ⟨f, new⟩ :: after, n, rs⟩ := by
  obtain ⟨hbefore, hrest⟩ := List.forall_mem_append.1 h.settled
  obtain ⟨-, hafter⟩ := List.forall_mem_cons.1 hrest
  refine ⟨by simpa using h.files, ?_, hdisk, h.filesScanned, h.reports⟩
  exact List.forall_mem_append.2 ⟨hbefore, List.forall_mem_cons.2 ⟨hnew, hafter⟩⟩

/-- What a turn keeps. -/
theorem Kept.turn {collected : List Path} (hd : d.IsTree) (hsources : p.Sources d (p.discover d))
    (h : p.Kept o failures d collected s) (hturn : p.Turn o s t) :
    ∃ collected, p.Kept o failures d collected t := by
  have hall := hsources.perm h.files.symm
  have hdisk := h.disk
  cases hturn with
  | @enter _ _ _ f before after _ =>
    rw [throughFiles_open before after f rfl] at hdisk
    exact ⟨collected, h.restage trivial (by rw [throughFiles_open before after f rfl]; exact hdisk)⟩
  | @load disk _ _ f before after =>
    rw [throughFiles_open before after f rfl] at hdisk
    refine ⟨collected, h.restage ?_ (by rw [throughFiles_open before after f rfl]; exact hdisk)⟩
    show readText disk f = readText d f
    rw [show disk = _ from hdisk, readText_overwriteAll hd hall.focus]
  | @finish disk _ _ f read before after =>
    have hread : read = readText d f := h.settled ⟨f, .loaded read⟩ (by simp)
    rw [throughFiles_open before after f rfl] at hdisk
    have hfinish := finish_overwriteAll (o := o) hd hall.focus
    rw [← show disk = _ from hdisk, ← hread] at hfinish
    refine ⟨collected, h.restage (congrArg Prod.snd hfinish) ?_⟩
    -- The new content comes last, but its file stands in the middle.
    have hlast := List.perm_append_singleton f
      (collected ++ (throughFiles before ++ throughFiles after))
    rw [throughFiles_through, ← (hall.focus.perm hlast.symm).overwriteAll_perm
      (hlast.trans (perm_front ..).symm)]
    exact congrArg Prod.fst hfinish
  | @collect disk _ _ f report before after =>
    obtain ⟨hfiles, hsettled, -, hscanned, hreports⟩ := h
    obtain ⟨hbefore, hrest⟩ := List.forall_mem_append.1 hsettled
    obtain ⟨hreport, hafter⟩ := List.forall_mem_cons.1 hrest
    rw [throughFiles_through] at hdisk
    -- The report is taken in, and its file goes to those whose reports are in.
    have hmove : ∀ before after : List Path, (collected ++ (before ++ f :: after)).Perm
        (collected ++ [f] ++ (before ++ after)) := by
      intro before after
      rw [List.append_assoc]
      exact (perm_front ..).trans (perm_front collected [] _ f).symm
    refine ⟨collected ++ [f], ?_, List.forall_mem_append.2 ⟨hbefore, hafter⟩, ?_, hscanned, ?_⟩
    · rw [List.map_append, List.map_cons] at hfiles
      rw [List.map_append]
      exact (hmove ..).symm.trans hfiles
    · have hthrough := throughFiles_append before after
      rw [hthrough, ← (hall.focus.perm (perm_front ..).symm).overwriteAll_perm (hmove ..)]
      exact hdisk
    · rw [List.map_append, ← List.append_assoc, ← hreports]
      exact congrArg (_ ++ [·]) hreport

/-! ## Outcomes -/

instance : Std.TransCmp fun r s : FileReport => r.path.order s.path := transCmp_on FileReport.path

/-- Different files have different names in their reports. -/
theorem Sources.distinct_reports {files : List Path} (h : p.Sources d files)
    (hroot : p.root.text ≠ "") (o : Options) : (files.map (p.report o d)).Pairwise
      fun r s => r.path.order s.path ≠ .eq := by
  rw [List.pairwise_map]
  refine h.distinct.imp_of_mem fun {f g} hf hg hne => ?_
  rwa [h.order_report hroot o hf hg, Ne, Path.order_eq_iff]

/-- The report on one file finds its place among the others. -/
theorem Sources.exists_files_without {before after : List Path} {f : Path}
    (h : p.Sources d (before ++ f :: after)) (hroot : p.root.text ≠ "") (o : Options)
    (failures : List FileReport) (n m : Nat) :
    ∃ front back,
      (Summary.ofReports n (failures ++ (before ++ after).map (p.report o d))).files =
        front ++ back ∧
      (Summary.ofReports m (failures ++ (before ++ f :: after).map (p.report o d))).files =
        front ++ p.report o d f :: back := by
  have hlast : ((before ++ f :: after).map (p.report o d)).Perm
      ((before ++ after).map (p.report o d) ++ [p.report o d f]) := by
    rw [← List.map_singleton, ← List.map_append]
    exact (List.perm_middle.trans (List.perm_append_singleton f _).symm).map _
  obtain ⟨front, back, hmore, hless⟩ :=
    @exists_mergeSort_concat FileReport (fun r s => r.path.order s.path) _
      (failures ++ (before ++ after).map (p.report o d)) (p.report o d f)
  refine ⟨front, back, hless, ?_⟩
  rw [← hmore, List.append_assoc]
  exact mergeSort_append_perm failures hlast (h.distinct_reports hroot o)

theorem Kept.outcome_eq {collected : List Path} (hp : p.ScansDown) (hd : d.IsTree)
    (h : p.Kept o failures d collected s) (hover : s.tasks = []) :
    s.outcome = p.work o d failures := by
  have hsources := sources_discover hp hd
  obtain ⟨hfiles, -, hdisk, hscanned, hreports⟩ := h
  rw [hover, List.map_nil, List.append_nil] at hfiles
  rw [hover, show throughFiles [] = [] from rfl, List.append_nil] at hdisk
  have hcollected := hsources.perm hfiles.symm
  rw [work_eq hp hd, Pool.outcome, hdisk, hcollected.overwriteAll_perm hfiles, hscanned,
    hreports, Summary.ofReports, Summary.ofReports]
  refine congrArg (fun files => (_, Summary.mk _ files)) ?_
  exact mergeSort_append_perm failures (hfiles.map _) (hcollected.distinct_reports hp.root o)

theorem kept_launch (hlaunch : p.launch d failures = .ok s) : p.Kept o failures d [] s := by
  unfold launch at hlaunch
  split at hlaunch
  · cases hlaunch
  · obtain rfl := Except.ok.inj hlaunch
    have hopen : throughFiles ((p.discover d).map fun f => ⟨f, .waiting⟩) = [] := by
      simp [throughFiles, Stage.isThrough]
    refine ⟨?_, ?_, ?_, rfl, by simp⟩
    · simp [Function.comp_def]
    · intro t ht
      obtain ⟨f, -, rfl⟩ := List.mem_map.1 ht
      trivial
    · rw [hopen]
      rfl

/-- However its tasks take their turns, a run comes to what work on the files
one after another comes to. -/
theorem ends_work (hp : p.ScansDown) (hd : d.IsTree) (hc : 1 ≤ p.scan.concurrency)
    (hlaunch : p.launch d failures = .ok s) : p.Ends o s (p.work o d failures) := by
  have hrun : ∀ n s collected, s.rank = n → p.Kept o failures d collected s →
      p.Ends o s (p.work o d failures) := by
    intro n
    induction n using Nat.strongRecOn with
    | ind n ih =>
      intro s collected hn hkept
      by_cases hover : s.tasks = []
      · rw [← hkept.outcome_eq hp hd hover]
        exact .over hover
      · refine .turn (exists_turn hc o hover) fun t hturn => ?_
        obtain ⟨collected', hkept'⟩ := hkept.turn hd (sources_discover hp hd) hturn
        exact ih t.rank (hn ▸ hturn.rank_lt) t collected' rfl hkept'
  exact hrun s.rank s [] rfl (kept_launch hlaunch)

/-! ## A file that is not text -/

section Lacks

variable {f g : Path} {l k : Location} {c : ByteArray} (hd : d.IsTree)
  (hfile : d.entry? l = some (.file c)) (h : e.Lacks d l)

include hd hfile h in
/-- Other files are found and read alike without a file. -/
theorem readText_lacks (hg : d.walk g = .ok k) (hk : k ≠ l) :
    e.walk g = d.walk g ∧ readText e g = readText d g := by
  have hwalk : e.walk g = d.walk g := by rw [hg, hd.walk_lacks_iff hfile h]; exact ⟨hg, hk⟩
  have hres : e.resolve g = d.resolve g := by rw [Disk.resolve_eq, Disk.resolve_eq, hwalk]
  refine ⟨hwalk, readText_congr hres fun m hm => h.entry_eq ?_⟩
  rw [hres] at hm
  rwa [← Except.ok.inj (hg.symm.trans (Disk.walk_of_resolve hm).2)]

include hfile in
theorem readText_not_text (hf : d.walk f = .ok l) (hc : String.fromUTF8? c = none) :
    readText d f = .error ((Disk.flaw? f).getD .notUtf8) := by
  rw [readText, Disk.resolve_eq, hf]
  cases Disk.flaw? f with
  | some cause => rfl
  | none =>
    simp only [bind, Except.bind, hfile, hc]
    rfl

/-- `r` is `r'` and the file `f` with the content `c`, which was skipped. -/
structure OnlySkips (p : Project) (f : Path) (l : Location) (c : ByteArray)
    (r r' : Disk × Summary) : Prop where
  filesScanned : r.2.filesScanned = r'.2.filesScanned + 1
  files : ∃ before after, r'.2.files = before ++ after ∧ r.2.files = before ++ ⟨p.relative f,
    .skipped (Fault.unreadable (p.relative f) ((Disk.flaw? f).getD .notUtf8)).message,
    [], [], [], []⟩ :: after
  disk : ∀ k, Disk.entry? r.1 k = if k = l then some (.file c) else Disk.entry? r'.1 k

include hd hfile h in
/-- A source file that is not text adds its own report, and all else is as it
is without the file. -/
theorem work_lacks (hp : p.ScansDown) (he : e.IsTree) (o : Options) (failures : List FileReport)
    (hf : f ∈ p.discover d) (hwalk : d.walk f = .ok l) (hc : String.fromUTF8? c = none) :
    p.OnlySkips f l c (p.work o d failures) (p.work o e failures) := by
  have hsources := sources_discover hp hd
  obtain ⟨before, after, hsplit⟩ := List.append_of_mem hf
  have hdiscover : p.discover e = before ++ after :=
    discover_lacks hp hd he hfile h hsplit hwalk
  rw [hsplit] at hsources
  have hfirst := hsources.perm List.perm_middle
  obtain ⟨hothers, -⟩ := List.pairwise_cons.1 hfirst.distinct
  obtain ⟨l', ns, hsource⟩ := hfirst.source f List.mem_cons_self
  obtain rfl := Except.ok.inj (hsource.walk.symm.trans hwalk)
  have hsame : ∀ g ∈ before ++ after, e.walk g = d.walk g ∧ readText e g = readText d g := by
    intro g hg
    obtain ⟨k, ms, hgs⟩ := hfirst.source g (List.mem_cons_of_mem f hg)
    refine readText_lacks hd hfile h hgs.walk fun hkl => hothers g hg ?_
    rw [← hsource.location_eq_iff hgs, hkl]
  have hread := readText_not_text hfile hwalk hc
  have hchanges : p.changes o e (before ++ after) = p.changes o d (before ++ after) :=
    List.filterMap_congr fun g hg => change?_congr p o (hsame g hg).2 (hsame g hg).1
  have hreports : (before ++ after).map (p.report o e) = (before ++ after).map (p.report o d) :=
    List.map_congr_left fun g hg => report_congr p o (hsame g hg).2
  have hskipped : p.changes o d (before ++ f :: after) = p.changes o d (before ++ after) := by
    rw [changes_append, changes_append, changes, changes,
      List.filterMap_cons_none (change?_of_error hread)]
    rfl
  rw [work_eq hp hd, work_eq hp he, hdiscover, hsplit, hskipped, hchanges, hreports]
  refine ⟨?_, ?_, fun k => ?_⟩
  · simp [Summary.ofReports]
    omega
  · rw [← report_of_error hread]
    exact hsources.exists_files_without hp.root o failures _ _
  · have hrest := hfirst.sublist (List.sublist_cons_self f _)
    have hfits := (sources_discover hp he).fits o
    rw [hdiscover, hchanges] at hfits
    by_cases hkl : k = l'
    · rw [if_pos hkl, hkl, hfirst.overwriteAll_at_other hd hsource, hfile]
    · rw [if_neg hkl, Disk.overwriteAll_at hd (hrest.fits o), Disk.overwriteAll_at he hfits,
        h.entry_eq hkl]

end Lacks

/-! ## Any schedule -/

theorem launch_eq_ok_iff : (∃ s, p.launch d failures = .ok s) ↔
    p.scan.concurrency ≤ maxConcurrency := by
  unfold launch
  split
  · rename_i h
    simp [Nat.not_le.2 h]
  · rename_i h
    simp [Nat.not_lt.1 h]

/-- A configuration in order lets at least one file be in work. -/
theorem one_le_concurrency {c : Config} (h : c.flaw? = none) : 1 ≤ c.scan.concurrency := by
  refine Nat.one_le_iff_ne_zero.2 fun hzero => ?_
  simp only [Config.flaw?, hzero, if_true] at h
  split at h
  · cases h
  · split at h
    · cases h
    · split at h
      · cases h
      · split at h <;> cases h

/-- A run starts exactly when the number of files that may be in work at once
can be counted; then every schedule ends with the files and the summary that
work in the order of the files gives, and so does the run. A file that is not
text counts for nothing but its own report, and all else is as if it were not
there. -/
theorem run_ignores_schedule {c : Config} {root : Path} {p : Project} (hc : c.flaw? = none)
    (hp : ofConfig root c = .ok p) (hroot : root.text ≠ "")
    (hscan : ∀ r ∈ c.scan.roots, r.Descends) {d : Disk} (hd : d.IsTree) (o : Options)
    (failures : List FileReport) :
    ((∃ s, p.launch d failures = .ok s ∧ p.Ends o s (p.work o d failures)) ↔
      c.scan.concurrency ≤ maxConcurrency) ∧
    (p.run o d failures = .ok (p.work o d failures) ↔ c.scan.concurrency ≤ maxConcurrency) ∧
    ∀ f l content e, f ∈ p.discover d → d.walk f = .ok l → d.entry? l = some (.file content) →
      String.fromUTF8? content = none → e.IsTree → e.Lacks d l →
      p.OnlySkips f l content (p.work o d failures) (p.work o e failures) := by
  have hdown := scansDown_of_ofConfig hp hroot hscan
  have hone := one_le_concurrency hc
  rw [← scan_of_ofConfig hp] at hone ⊢
  refine ⟨⟨?_, ?_⟩, ?_, ?_⟩
  · rintro ⟨s, hs, -⟩
    exact launch_eq_ok_iff.1 ⟨s, hs⟩
  · intro h
    obtain ⟨s, hs⟩ := launch_eq_ok_iff.2 h
    exact ⟨s, hs, ends_work hdown hd hone hs⟩
  · rw [run_eq_ok_iff]
    exact and_iff_left rfl
  · intro f l content e hf hwalk hfile hcontent he hlacks
    exact work_lacks hd hfile hlacks hdown he o failures hf hwalk hcontent

/-- A configuration with one module, and with so many files in work at once. -/
def buttonConfig (concurrency : Nat) : Config :=
  { scan := { concurrency := concurrency }
    registry := { folders := .ofRows [("common", ["Button"])] } }

def buttonFile : Location × Entry :=
  (["src", "form.ts"], .file "import B from './components/Button';\n".toUTF8)

/-- One file at a time, and the second of two files is not text. -/
theorem run_ignores_schedule_not_text :
    ∃ p d e, ofConfig ⟨"."⟩ (buttonConfig 1) = .ok p ∧ d.IsTree ∧
      d.entries = [buttonFile, (["src", "image.ts"], .file ⟨#[0xff]⟩)] ∧ e.entries = [buttonFile] ∧
      (∃ s, p.launch d [] = .ok s ∧ p.Ends ⟨.fix, false⟩ s (p.work ⟨.fix, false⟩ d [])) ∧
      p.OnlySkips ⟨"./src/image.ts"⟩ ["src", "image.ts"] ⟨#[0xff]⟩ (p.work ⟨.fix, false⟩ d [])
        (p.work ⟨.fix, false⟩ e []) := by
  have hp : ofConfig ⟨"."⟩ (buttonConfig 1) =
      .ok ⟨⟨"."⟩, (buttonConfig 1).scan, ⟨⟨[("Button", "common")]⟩, {}, .preserve⟩⟩ := rfl
  have hd : (⟨[buttonFile, (["src", "image.ts"], .file ⟨#[0xff]⟩)], []⟩ : Disk).IsTree := by decide
  have hlacks : (⟨[buttonFile], []⟩ : Disk).Lacks
      ⟨[buttonFile, (["src", "image.ts"], .file ⟨#[0xff]⟩)], []⟩ ["src", "image.ts"] := by
    refine ⟨rfl, fun k => ?_⟩
    match k with
    | [] => rfl
    | [a] =>
      by_cases ha : a = "src"
      · rw [ha]
        rfl
      · simp [Disk.entry?, buttonFile, List.lookup_cons, ha]
    | [a, b] =>
      simp [Disk.entry?, buttonFile, List.lookup_cons]
      grind
    | a :: b :: c :: k => simp [Disk.entry?, buttonFile, List.lookup_cons]
  have hflaw : (buttonConfig 1).flaw? = none := by decide
  obtain ⟨hstarts, -, hskips⟩ :=
    run_ignores_schedule hflaw hp (by decide) (by decide) hd ⟨.fix, false⟩ []
  refine ⟨_, _, ⟨[buttonFile], []⟩, hp, hd, rfl, rfl, hstarts.2 (by decide), ?_⟩
  refine hskips _ _ _ _ ?_ (by decide +kernel) rfl (by decide) (by decide) hlacks
  refine List.mem_of_find?_eq_some (p := fun g => (⟨"./src/image.ts"⟩ : Path).order g = .eq) ?_
  rw [find?_discover]
  decide +kernel

/-- A configuration in order may ask for more files in work than can be
counted, and then there is no run, whatever the files are. -/
theorem countless_files_break_off :
    ∃ p d, (buttonConfig (2 ^ 61)).flaw? = none ∧ ofConfig ⟨"."⟩ (buttonConfig (2 ^ 61)) = .ok p ∧
      (∀ r ∈ p.scan.roots, r.Descends) ∧ 1 ≤ p.scan.concurrency ∧ d.IsTree ∧
      d.entries = [buttonFile] ∧ p.run ⟨.fix, false⟩ d = .error (.concurrency (2 ^ 61)) ∧
      ¬∃ s, p.launch d [] = .ok s ∧ p.Ends ⟨.fix, false⟩ s (p.work ⟨.fix, false⟩ d []) := by
  refine ⟨⟨⟨"."⟩, (buttonConfig (2 ^ 61)).scan, ⟨⟨[("Button", "common")]⟩, {}, .preserve⟩⟩,
    ⟨[buttonFile], []⟩, by decide, rfl, by decide, by decide, by decide, rfl, rfl, ?_⟩
  rintro ⟨s, hs, -⟩
  exact absurd (launch_eq_ok_iff.1 ⟨s, hs⟩) (by decide)

end Relocate.Project
