import Relocate.Command.Run
import Relocate.Proofs.Project.Process
import Relocate.Proofs.Rewrite.Changed

/-!
# Dry runs

A dry run works on the same texts as the run that writes, so it reports the
same, and a file is reported as changed exactly when the engine makes another
text of it (`review_eq`). Every path to a file that could be read can be
written to, so the new text is what the file has afterwards.

* `predicts_work`: a dry run tells what the run that writes does, and that run
  does nothing else.
* `dry_run_predicts_iff`: so it is for every run that starts, and a check ends
  with 1 when the run that writes would change a file and with 0 when it would
  not.
-/
namespace Relocate

/-! ## Texts -/

/-- Without modules, a rewrite is a repair. -/
theorem Engine.rewrite_text_of_no_rows (l : Layout) (policy : Policy) (t : String) (folder : Path) :
    ((⟨⟨[]⟩, l, policy⟩ : Engine).rewrite t folder).text = (l.repair t).text := by
  have hnone : ∀ c, (⟨⟨[]⟩, l, policy⟩ : Engine).target? folder c = none := by
    intro c
    unfold target?
    cases Import.ofClause? l folder c with
    | none => rfl
    | some i =>
      show (if i.style = .malformed then none else _) = none
      split <;> rfl
  have hpiece : ∀ x, (⟨⟨[]⟩, l, policy⟩ : Engine).rewritePiece folder x = x := by
    intro x
    cases x with
    | plain u => rfl
    | clause c => simp [rewritePiece, hnone]
  have hpieces : (scan (l.repair t).text.toList).map
      ((⟨⟨[]⟩, l, policy⟩ : Engine).rewritePiece folder) = scan (l.repair t).text.toList :=
    (List.map_congr_left fun x _ => hpiece x).trans (List.map_id _)
  show String.ofList (Piece.render ((scan (l.repair t).text.toList).map _)) = _
  rw [hpieces, render_scan, String.ofList_toList]

/-- A repair that changes something changes the text. -/
theorem Layout.repair_changed_iff {l : Layout} (hl : l.aliasBase.all isPathChar) (t : String) :
    (l.repair t).changed = true ↔ (l.repair t).text ≠ t := by
  have hs : (⟨⟨[]⟩, l, .preserve⟩ : Engine).Legible := ⟨by simp, hl⟩
  have hchanged : (l.repair t).changed = true ↔ (l.repair t).repairs ≠ [] := by simp [repair]
  rw [hchanged, ne_eq, not_iff_not]
  constructor
  · intro h
    exact (settled_iff.2 (repairs_eq_nil_iff.1 h)).2.2
  · intro h
    have htext := (Engine.rewrite_text_of_no_rows l .preserve t ⟨""⟩).trans h
    exact @Engine.Legible.repairs_eq_nil ⟨⟨[]⟩, l, .preserve⟩ ⟨""⟩ t hs htext

/-- The report on a file when nothing is written. -/
def FileReport.unwritten (r : FileReport) : FileReport :=
  if r.isChanged then { r with status := .changed false } else r

theorem FileReport.isChanged_unwritten (r : FileReport) : r.unwritten.isChanged = r.isChanged := by
  unfold unwritten
  split
  · rename_i h
    rw [h]
    rfl
  · rfl

theorem FileReport.path_unwritten (r : FileReport) : r.unwritten.path = r.path := by
  unfold unwritten
  split <;> rfl

theorem FileReport.isChanged_of_isSkipped {r : FileReport} (h : r.isSkipped) :
    r.isChanged = false := by
  unfold isSkipped at h
  unfold isChanged
  split at h
  · rename_i hstatus
    rw [hstatus]
  · cases h

theorem FileReport.unwritten_of_isSkipped {r : FileReport} (h : r.isSkipped) : r.unwritten = r := by
  rw [unwritten, isChanged_of_isSkipped h]
  rfl

/-- Reports are sorted by what does not depend on the writing. -/
theorem Summary.ofReports_unwritten (n : Nat) (rs : List FileReport) :
    ofReports n (rs.map FileReport.unwritten) =
      { ofReports n rs with files := (ofReports n rs).files.map FileReport.unwritten } := by
  refine congrArg (Summary.mk n) (List.map_mergeSort fun r _ s _ => ?_).symm
  rw [FileReport.path_unwritten, FileReport.path_unwritten]

namespace Project

variable {p : Project} {o : Options} {d : Disk} {f : Path} {failures : List FileReport}

/-- The text that the engine makes of the text of a file. -/
def output (p : Project) (mode : Mode) (name : Path) (text : String) : String :=
  match mode with
  | .audit => text
  | .repair => (p.engine.layout.repair text).text
  | .fix => (p.engine.rewrite text (name.parent?.getD ⟨""⟩)).text

theorem ite_changed_eq {changed : Bool} {new text : String}
    (h : changed = true ↔ new ≠ text) :
    (if changed then some new else none) = if new = text then none else some new := by
  by_cases htext : new = text
  · rw [if_pos htext, if_neg fun hchanged => h.1 hchanged htext]
  · rw [if_neg htext, if_pos (h.2 htext)]

/-- There is a new text exactly when it is another one. -/
theorem review_eq (hs : p.engine.Legible) (mode : Mode) (name : Path) (text : String) :
    (p.review mode name text).2 =
      if p.output mode name text = text then none else some (p.output mode name text) := by
  cases mode with
  | audit => exact (if_pos rfl).symm
  | repair => exact ite_changed_eq (Layout.repair_changed_iff hs.aliasBase text)
  | fix => exact ite_changed_eq (hs.rewrite_changed_iff text (name.parent?.getD ⟨""⟩))

theorem review_status (p : Project) (mode : Mode) (name : Path) (text : String) :
    (p.review mode name text).1.status = .unchanged := by
  cases mode <;> rfl

/-! ## Reports -/

/-- What a report says, by what the engine makes of the text. -/
theorem report_cases (hs : p.engine.Legible) (o : Options) (d : Disk) (f : Path) :
    (∃ reason, (p.report o d f).status = .skipped reason ∧ p.change? o d f = none) ∨
    ((p.report o d f).status = .unchanged ∧ p.change? o d f = none) ∨
    ∃ l text, d.walk f = .ok l ∧ d.entry? l = some (.file text.toUTF8) ∧
      p.output o.mode (p.relative f) text ≠ text ∧
      (p.report o d f).status = .changed (!o.dryRun) ∧
      p.change? o d f =
        if o.dryRun then none else some (l, (p.output o.mode (p.relative f) text).toUTF8) := by
  cases hread : readText d f with
  | error cause =>
    rw [report_of_error hread]
    exact .inl ⟨_, rfl, change?_of_error hread⟩
  | ok text =>
    obtain ⟨-, l, hwalk, hfile⟩ := of_readText hread
    obtain ⟨r, new?, hreview⟩ : ∃ r new?, p.review o.mode (p.relative f) text = (r, new?) :=
      ⟨_, _, rfl⟩
    have hstatus : r.status = .unchanged := by
      rw [← p.review_status o.mode (p.relative f) text, hreview]
    have hnew := review_eq hs o.mode (p.relative f) text
    rw [report_of_ok hread hreview, change?_of_ok hwalk hread, hnew]
    rw [hreview] at hnew
    by_cases htext : p.output o.mode (p.relative f) text = text
    · rw [if_pos htext] at hnew ⊢
      obtain rfl : new? = none := hnew
      refine .inr (.inl ⟨hstatus, ?_⟩)
      split <;> rfl
    · rw [if_neg htext] at hnew ⊢
      obtain rfl : new? = some _ := hnew
      exact .inr (.inr ⟨l, text, hwalk, hfile, htext, rfl, rfl⟩)

/-- A dry run reports what the run that writes reports, but for the writing. -/
theorem report_dry (p : Project) (mode : Mode) (d : Disk) (f : Path) :
    p.report ⟨mode, true⟩ d f = (p.report ⟨mode, false⟩ d f).unwritten := by
  cases hread : readText d f with
  | error cause =>
    rw [report_of_error hread, report_of_error hread]
    rfl
  | ok text =>
    obtain ⟨r, new?, hreview⟩ : ∃ r new?, p.review mode (p.relative f) text = (r, new?) :=
      ⟨_, _, rfl⟩
    have hstatus : r.status = .unchanged := by
      rw [← p.review_status mode (p.relative f) text, hreview]
    rw [@report_of_ok p ⟨mode, true⟩ d f text r new? hread hreview,
      @report_of_ok p ⟨mode, false⟩ d f text r new? hread hreview]
    cases new? with
    | none =>
      have hsame : r.isChanged = false := by
        unfold FileReport.isChanged
        rw [hstatus]
      show r = r.unwritten
      rw [FileReport.unwritten, if_neg (by simp [hsame])]
    | some new => rfl

theorem change?_dry (p : Project) (mode : Mode) (d : Disk) (f : Path) :
    p.change? ⟨mode, true⟩ d f = none := by
  unfold change?
  split <;> rfl

theorem change?_audit (p : Project) (dryRun : Bool) (d : Disk) (f : Path) :
    p.change? ⟨.audit, dryRun⟩ d f = none := by
  unfold change?
  split
  · split <;> rfl
  · rfl

/-! ## Runs -/

/-- What a dry run tells about the run that writes. -/
structure Predicts (p : Project) (mode : Mode) (d : Disk) (dry real : Disk × Summary) : Prop where
  /-- The summaries are the same, but for the writing. -/
  summary : dry.2 = { real.2 with files := real.2.files.map FileReport.unwritten }
  written : ∀ r ∈ real.2.files, r.status ≠ .changed false
  /-- The dry run leaves all files as they are. -/
  disk : dry.1 = d
  /-- A file that is reported as changed gets the text that the engine makes of
  its text. -/
  changed : ∀ r ∈ real.2.changed, ∃ f ∈ p.discover d, r.path = p.relative f ∧
    ∃ l text, d.walk f = .ok l ∧ d.entry? l = some (.file text.toUTF8) ∧
      Disk.entry? real.1 l = some (.file (p.output mode (p.relative f) text).toUTF8) ∧
      p.output mode (p.relative f) text ≠ text
  /-- Nothing changes but these files. -/
  only : ∀ l, Disk.entry? real.1 l ≠ d.entry? l →
    ∃ r ∈ real.2.changed, ∃ f ∈ p.discover d, r.path = p.relative f ∧ d.walk f = .ok l

theorem mem_files_work_iff (hp : p.ScansDown) (hd : d.IsTree) {r : FileReport} :
    r ∈ (p.work o d failures).2.files ↔
      r ∈ failures ∨ ∃ f ∈ p.discover d, p.report o d f = r := by
  rw [work_eq hp hd]
  simp [Summary.ofReports]

theorem disk_work_dry (hp : p.ScansDown) (hd : d.IsTree) (mode : Mode) :
    (p.work ⟨mode, true⟩ d failures).1 = d := by
  have hnone : p.changes ⟨mode, true⟩ d (p.discover d) = [] :=
    List.filterMap_eq_nil_iff.2 fun f _ => p.change?_dry mode d f
  rw [work_eq hp hd, hnone]
  rfl

theorem disk_work_audit (hp : p.ScansDown) (hd : d.IsTree) (dryRun : Bool) :
    (p.work ⟨.audit, dryRun⟩ d failures).1 = d := by
  have hnone : p.changes ⟨.audit, dryRun⟩ d (p.discover d) = [] :=
    List.filterMap_eq_nil_iff.2 fun f _ => p.change?_audit dryRun d f
  rw [work_eq hp hd, hnone]
  rfl

theorem isChanged_of_status {r : FileReport} {written : Bool} (h : r.status = .changed written) :
    r.isChanged = true := by
  unfold FileReport.isChanged
  rw [h]

theorem summary_work_dry (hp : p.ScansDown) (hd : d.IsTree)
    (hfailures : ∀ r ∈ failures, r.isSkipped) (mode : Mode) :
    (p.work ⟨mode, true⟩ d failures).2 = { (p.work ⟨mode, false⟩ d failures).2 with
      files := (p.work ⟨mode, false⟩ d failures).2.files.map FileReport.unwritten } := by
  have hkept : failures.map FileReport.unwritten = failures := by
    refine (List.map_congr_left fun r hr => ?_).trans (List.map_id _)
    exact FileReport.unwritten_of_isSkipped (hfailures r hr)
  have hreports : (p.discover d).map (p.report ⟨mode, true⟩ d) =
      ((p.discover d).map (p.report ⟨mode, false⟩ d)).map FileReport.unwritten := by
    rw [List.map_map]
    exact List.map_congr_left fun f _ => p.report_dry mode d f
  rw [work_eq hp hd, work_eq hp hd, ← Summary.ofReports_unwritten, List.map_append, hkept, hreports]

theorem predicts_work (hp : p.ScansDown) (hs : p.engine.Legible) (hd : d.IsTree)
    (hfailures : ∀ r ∈ failures, r.isSkipped) (mode : Mode) :
    p.Predicts mode d (p.work ⟨mode, true⟩ d failures) (p.work ⟨mode, false⟩ d failures) := by
  have hfits := (sources_discover hp hd).fits ⟨mode, false⟩
  refine ⟨summary_work_dry hp hd hfailures mode, ?_, disk_work_dry hp hd mode, ?_, ?_⟩
  · intro r hr hfalse
    obtain hr | ⟨f, -, rfl⟩ := (mem_files_work_iff hp hd).1 hr
    · have hskipped := hfailures r hr
      simp [FileReport.isSkipped, hfalse] at hskipped
    · obtain ⟨_, hstatus, -⟩ | ⟨hstatus, -⟩ | ⟨_, _, -, -, -, hstatus, -⟩ :=
        report_cases hs ⟨mode, false⟩ d f
      all_goals
        rw [hstatus] at hfalse
        cases hfalse
  · intro r hr
    obtain ⟨hr, hchanged⟩ := List.mem_filter.1 hr
    obtain hr | ⟨f, hf, rfl⟩ := (mem_files_work_iff hp hd).1 hr
    · rw [FileReport.isChanged_of_isSkipped (hfailures r hr)] at hchanged
      cases hchanged
    · refine ⟨f, hf, report_path .., ?_⟩
      obtain ⟨_, hstatus, -⟩ | ⟨hstatus, -⟩ | ⟨l, text, hwalk, hfile, htext, -, hchange⟩ :=
        report_cases hs ⟨mode, false⟩ d f
      · simp [FileReport.isChanged, hstatus] at hchanged
      · simp [FileReport.isChanged, hstatus] at hchanged
      · refine ⟨l, text, hwalk, hfile, ?_, htext⟩
        have hmem : (l, (p.output mode (p.relative f) text).toUTF8) ∈
            p.changes ⟨mode, false⟩ d (p.discover d) := List.mem_filterMap.2 ⟨f, hf, hchange⟩
        rw [work_eq hp hd, Disk.overwriteAll_at hd hfits, (Disk.lookup_eq_some_iff hfits.1).2 hmem]
  · intro l hl
    rw [work_eq hp hd, Disk.overwriteAll_at hd hfits] at hl
    cases hlookup : (p.changes ⟨mode, false⟩ d (p.discover d)).lookup l with
    | none => simp [hlookup] at hl
    | some c =>
      obtain ⟨f, hf, hchange⟩ := List.mem_filterMap.1 ((Disk.lookup_eq_some_iff hfits.1).1 hlookup)
      have hreport : p.report ⟨mode, false⟩ d f ∈ (p.work ⟨mode, false⟩ d failures).2.files :=
        (mem_files_work_iff hp hd).2 (.inr ⟨f, hf, rfl⟩)
      obtain ⟨_, -, hnone⟩ | ⟨-, hnone⟩ | ⟨_, _, -, -, -, hstatus, -⟩ :=
        report_cases hs ⟨mode, false⟩ d f
      · simp [hnone] at hchange
      · simp [hnone] at hchange
      · exact ⟨_, List.mem_filter.2 ⟨hreport, isChanged_of_status hstatus⟩, f, hf, report_path ..,
          walk_of_change? hchange⟩

/-- The run that writes changes a file exactly when the dry run reports one as
changed. -/
theorem Predicts.changedCount_pos_iff {mode : Mode} {dry real : Disk × Summary}
    (h : p.Predicts mode d dry real) :
    0 < dry.2.changedCount ↔ ∃ l, Disk.entry? real.1 l ≠ d.entry? l := by
  have hcount : dry.2.changedCount = real.2.changedCount := by
    rw [h.summary]
    simp only [Summary.changedCount, Summary.changed, List.filter_map, List.length_map,
      Function.comp_def, FileReport.isChanged_unwritten]
  rw [hcount, Summary.changedCount, List.length_pos_iff_exists_mem]
  constructor
  · rintro ⟨r, hr⟩
    obtain ⟨f, -, -, l, text, -, hbefore, hafter, htext⟩ := h.changed r hr
    refine ⟨l, ?_⟩
    rw [hbefore, hafter]
    intro hsame
    exact htext (String.toByteArray_inj.1 (Entry.file.inj (Option.some.inj hsame)))
  · rintro ⟨l, hl⟩
    obtain ⟨r, hr, -⟩ := h.only l hl
    exact ⟨r, hr⟩

end Project

/-! ## Commands -/

namespace Command

open Project

variable {w : World} {root : Path} {config : Option Path} {c : Config} {p : Project}
  {failures : List FileReport}

/-- The end of a check tells whether a run that writes changes a file of the
disk. -/
def Result.Tells (check fix : Result) (d : Disk) : Prop :=
  (check.code = 1 ↔ ∃ l, Disk.entry? fix.disk l ≠ d.entry? l) ∧
    (check.code = 0 ↔ ∀ l, Disk.entry? fix.disk l = d.entry? l)

theorem runProject_eq {action : Action}
    (hload : loadConfig w ⟨root, config, .config⟩ = .ok c) (hp : ofConfig root c = .ok p)
    (o : Options) (format : Format) (check : Bool) :
    runProject w ⟨root, config, action⟩ o format check failures =
      if maxConcurrency < p.scan.concurrency then brokenOff w (.concurrency p.scan.concurrency)
      else
        { code := if check && 0 < (p.work o w.disk failures).2.changedCount then 1 else 0
          output := render (p.work o w.disk failures).2 o format
          disk := (p.work o w.disk failures).1 } := by
  have hload' : loadConfig w ⟨root, config, action⟩ = .ok c := hload
  simp only [runProject, hload', hp, Project.run]
  by_cases h : maxConcurrency < p.scan.concurrency
  · simp only [if_pos h]
  · simp only [if_neg h]

/-- A check changes nothing, and its end tells what the run that writes does,
when there is a run. -/
theorem tells_iff (hdown : p.ScansDown) (hs : p.engine.Legible) (hd : w.disk.IsTree)
    (hfailures : ∀ r ∈ failures, r.isSkipped)
    (hload : loadConfig w ⟨root, config, .config⟩ = .ok c) (hp : ofConfig root c = .ok p)
    (dryRun : Bool) (format format' : Format) :
    (run w ⟨root, config, .fix dryRun true format⟩ failures).disk = w.disk ∧
    ((run w ⟨root, config, .fix dryRun true format⟩ failures).Tells
        (run w ⟨root, config, .fix false false format'⟩ failures) w.disk ↔
      p.scan.concurrency ≤ maxConcurrency) := by
  have hcheck : run w ⟨root, config, .fix dryRun true format⟩ failures = _ :=
    runProject_eq hload hp ⟨.fix, dryRun || true⟩ format true
  have hfix : run w ⟨root, config, .fix false false format'⟩ failures = _ :=
    runProject_eq hload hp ⟨.fix, false || false⟩ format' false
  rw [hcheck, hfix, Bool.or_true, Bool.or_false]
  by_cases h : maxConcurrency < p.scan.concurrency
  · rw [if_pos h, if_pos h]
    refine ⟨rfl, fun htells => ?_, fun hle => absurd h (Nat.not_lt.2 hle)⟩
    -- A command that breaks down leaves the files alone, but does not end with 0.
    have hzero : 101 = 0 := htells.2.2 fun l => rfl
    cases hzero
  · rw [if_neg h, if_neg h]
    have hpredicts := predicts_work hdown hs hd hfailures .fix
    refine ⟨hpredicts.disk, fun _ => Nat.not_lt.1 h, fun _ => ?_⟩
    have hcount := hpredicts.changedCount_pos_iff
    by_cases hchanged : 0 < (p.work ⟨.fix, true⟩ w.disk failures).2.changedCount
    · obtain ⟨l, hl⟩ := hcount.1 hchanged
      refine ⟨⟨fun _ => ⟨l, hl⟩, fun _ => ?_⟩, fun hzero => ?_, fun hnone => absurd (hnone l) hl⟩
      · simp [hchanged]
      · simp [hchanged] at hzero
    · have hnone : ∀ l, Disk.entry? (p.work ⟨.fix, false⟩ w.disk failures).1 l = w.disk.entry? l :=
        fun l => Classical.byContradiction fun hl => hchanged (hcount.2 ⟨l, hl⟩)
      refine ⟨⟨fun hone => ?_, fun ⟨l, hl⟩ => absurd (hnone l) hl⟩, fun _ => hnone, fun _ => ?_⟩
      · simp [hchanged] at hone
      · simp [hchanged]

end Command

namespace Project

/-- A dry run tells what the run that writes does, an audit changes nothing,
and a check ends with 1 or 0 by what the run that writes does, exactly when
the number of files that may be in work at once can be counted; there is no
run otherwise. It does not matter what the search for files could not read and
reports as skipped. -/
theorem dry_run_predicts_iff {c : Config} {root : Path} {p : Project}
    (hp : ofConfig root c = .ok p) (hs : p.engine.Legible) (hroot : root.text ≠ "")
    (hscan : ∀ r ∈ c.scan.roots, r.Descends) {d : Disk} (hd : d.IsTree)
    {failures : List FileReport} (hfailures : ∀ r ∈ failures, r.isSkipped) (mode : Mode) :
    ((∃ dry real, p.run ⟨mode, true⟩ d failures = .ok dry ∧
        p.run ⟨mode, false⟩ d failures = .ok real ∧ p.Predicts mode d dry real) ↔
      c.scan.concurrency ≤ maxConcurrency) ∧
    (∀ dryRun, (∃ s, p.run ⟨.audit, dryRun⟩ d failures = .ok (d, s)) ↔
      c.scan.concurrency ≤ maxConcurrency) ∧
    ∀ (w : Command.World) (check fix : List String) config dryRun format format', w.disk = d →
      Command.loadConfig w ⟨root, config, .config⟩ = .ok c →
      Command.parse? check = some (.run ⟨root, config, .fix dryRun true format⟩) →
      Command.parse? fix = some (.run ⟨root, config, .fix false false format'⟩) →
      (Command.execute w check failures).disk = d ∧
      ((Command.execute w check failures).Tells (Command.execute w fix failures) d ↔
        c.scan.concurrency ≤ maxConcurrency) := by
  have hdown := scansDown_of_ofConfig hp hroot hscan
  rw [← scan_of_ofConfig hp]
  refine ⟨⟨?_, ?_⟩, fun dryRun => ⟨?_, ?_⟩, ?_⟩
  · rintro ⟨dry, real, hdry, -⟩
    exact (run_eq_ok_iff.1 hdry).1
  · intro h
    exact ⟨_, _, run_eq_ok_iff.2 ⟨h, rfl⟩, run_eq_ok_iff.2 ⟨h, rfl⟩,
      predicts_work hdown hs hd hfailures mode⟩
  · rintro ⟨s, hs⟩
    exact (run_eq_ok_iff.1 hs).1
  · intro h
    refine ⟨(p.work ⟨.audit, dryRun⟩ d failures).2, run_eq_ok_iff.2 ⟨h, ?_⟩⟩
    exact Prod.ext (disk_work_audit hdown hd dryRun) rfl
  · rintro w check fix config dryRun format format' rfl hload hcheck hfix
    simp only [Command.execute, hcheck, hfix]
    exact Command.tells_iff hdown hs hd hfailures hload hp dryRun format format'

/-- A project with one module and a file that imports it from where it is not;
`scan` is the part of its settings that says which files to visit. -/
def buttonWorld (scan : String) : Command.World :=
  { disk := {
      entries := [(["rehome.toml"], .file (scan ++ "[registry.folders]\ncommon = ['Button']\n").toUTF8),
        (["src", "form.ts"], .file "import B from './components/Button';\n".toUTF8)] } }

/-- The report on a folder that the search cannot read. -/
def lockedReport : FileReport := { path := ⟨"src/locked"⟩, status := .skipped "Permission denied" }

/-- The import would be put right, so the check fails and the run that writes
changes a file. -/
theorem dry_run_predicts_iff_button :
    ∃ c p, Command.loadConfig (buttonWorld "") ⟨⟨"."⟩, none, .config⟩ = .ok c ∧
      ofConfig ⟨"."⟩ c = .ok p ∧ p.engine.Legible ∧ (buttonWorld "").disk.IsTree ∧
      (∃ dry real, p.run ⟨.fix, true⟩ (buttonWorld "").disk [lockedReport] = .ok dry ∧
        p.run ⟨.fix, false⟩ (buttonWorld "").disk [lockedReport] = .ok real ∧
        p.Predicts .fix (buttonWorld "").disk dry real) ∧
      (Command.execute (buttonWorld "") ["fix", "--check"] [lockedReport]).code = 1 ∧
      ∃ l, Disk.entry? (Command.execute (buttonWorld "") ["fix"] [lockedReport]).disk l ≠
        Disk.entry? (buttonWorld "").disk l := by
  have hload : Command.loadConfig (buttonWorld "") ⟨⟨"."⟩, none, .config⟩ =
      .ok { registry := { folders := .ofRows [("common", ["Button"])] } } := by decide +kernel
  have hp : ofConfig ⟨"."⟩ { registry := { folders := .ofRows [("common", ["Button"])] } } =
      .ok ⟨⟨"."⟩, {}, ⟨⟨[("Button", "common")]⟩, {}, .preserve⟩⟩ := rfl
  have hs : (⟨⟨[("Button", "common")]⟩, {}, .preserve⟩ : Engine).Legible := ⟨by decide, by decide⟩
  have hd : (buttonWorld "").disk.IsTree := by decide
  have hbytes : ((Command.execute (buttonWorld "") ["fix"] [lockedReport]).disk.content?
      ["src", "form.ts"]).map ByteArray.data ≠
        ((buttonWorld "").disk.content? ["src", "form.ts"]).map ByteArray.data := by decide +kernel
  have hchanged : ∃ l, Disk.entry? (Command.execute (buttonWorld "") ["fix"] [lockedReport]).disk l ≠
      Disk.entry? (buttonWorld "").disk l := by
    refine ⟨["src", "form.ts"], fun hsame => hbytes ?_⟩
    rw [Disk.content?, hsame, Disk.content?]
  have hlocked : ∀ r ∈ [lockedReport], r.isSkipped := by decide
  obtain ⟨hruns, -, hcommands⟩ :=
    dry_run_predicts_iff hp hs (by decide) (by decide) hd hlocked .fix
  obtain ⟨-, htells⟩ :=
    hcommands _ ["fix", "--check"] ["fix"] none false .text .text rfl hload rfl rfl
  have hend := htells.2 (by decide)
  exact ⟨_, _, hload, hp, hs, hd, hruns.2 (by decide), hend.1.2 hchanged, hchanged⟩

/-- With more files in work than can be counted, a check ends with neither 1
nor 0. -/
theorem check_breaks_off :
    ∃ c p, Command.loadConfig (buttonWorld "[scan]\nconcurrency = 2305843009213693952\n")
        ⟨⟨"."⟩, none, .config⟩ = .ok c ∧ c.flaw? = none ∧ ofConfig ⟨"."⟩ c = .ok p ∧
      p.engine.Legible ∧ (∀ r ∈ p.scan.roots, r.Descends) ∧
      (buttonWorld "[scan]\nconcurrency = 2305843009213693952\n").disk.IsTree ∧
      p.run ⟨.fix, true⟩ (buttonWorld "[scan]\nconcurrency = 2305843009213693952\n").disk =
        .error (.concurrency 2305843009213693952) ∧
      (Command.execute (buttonWorld "[scan]\nconcurrency = 2305843009213693952\n")
        ["fix", "--check"]).code = 101 := by
  refine ⟨{ scan := { concurrency := 2305843009213693952 }
            registry := { folders := .ofRows [("common", ["Button"])] } },
    ⟨⟨"."⟩, { concurrency := 2305843009213693952 }, ⟨⟨[("Button", "common")]⟩, {}, .preserve⟩⟩, ?_⟩
  exact ⟨by decide +kernel, by decide, rfl, ⟨by decide, by decide⟩, by decide, by decide, rfl,
    by decide +kernel⟩

end Project

end Relocate
