import Mathlib.Data.List.Induction
import Relocate.Project.Search
import Relocate.Proofs.Project.Distinct

/-!
# The search finds the source files

What the search gives does not depend on the walker, as long as the walker
comes to what it should, in whatever order.

* `Covers`: what a walker is relied on for, where every folder can be read. It
  comes to everything that the test does not keep it from, and nothing else.
* `visits_iff`: below a scan root it comes to a file exactly when no folder on
  the way is excluded.
* `discover_exact`: with any such walker, the search has no faults to report
  and gives the source files, each once, in rising order.
* `covers_walkDisk`: a walker that goes down folder by folder.
-/
namespace Relocate.Project

variable {p : Project} {d : Disk} {base : Path} {l : Location} {way : List String} {e : Entry}

/-- A walk that starts at `base`, which is at `l`, comes by `way` to the entry there: the test
lets it in there and into every folder on the way. -/
inductive Visits (d : Disk) (keeps : Visit → Bool) (base : Path) (l : Location) :
    List String → Entry → Prop
  | start {e : Entry} :
    d.entry? l = some e → keeps (visitAt base [] e) → Visits d keeps base l [] e
  | down {way : List String} {n : String} {e : Entry} : Visits d keeps base l way .folder →
    d.entry? (l ++ (way ++ [n])) = some e → keeps (visitAt base (way ++ [n]) e) →
      Visits d keeps base l (way ++ [n]) e

/-- The walker comes to all that the test lets it come to, and reads every folder. -/
def Covers (d : Disk) (walk : Walker) : Prop :=
  ∀ keeps base l, d.resolve base = .ok l → ∀ x, x ∈ walk keeps base ↔
    ∃ way e, Visits d keeps base l way e ∧ x = .ok (visitAt base way e)

/-- `f` is a source file: `way` leads from a scan root, which is at `l`, down to a file, through
no excluded folder, and the extension counts. -/
structure Lists (p : Project) (d : Disk) (scanRoot : Path) (l : Location) (way : List String)
    (f : Path) : Prop where
  configured : scanRoot ∈ p.scan.roots
  there : d.resolve (p.root.join scanRoot) = .ok l
  file : ∃ c, d.entry? (l ++ way) = some (.file c)
  unexcluded : ∀ n ∈ way.dropLast, n ∉ p.scan.exclude
  spelled : f = extend (p.root.join scanRoot) way
  counts : ∃ extension ∈ p.scan.extensions, f.extension? = some extension

/-! ## Where a walk comes to -/

section

variable {keeps : Visit → Bool}

theorem Visits.entry (h : Visits d keeps base l way e) : d.entry? (l ++ way) = some e := by
  cases h with
  | start hentry => simpa using hentry
  | down _ hentry => exact hentry

theorem visits_nil_iff :
    Visits d keeps base l [] e ↔ d.entry? l = some e ∧ keeps (visitAt base [] e) := by
  constructor
  · intro h
    generalize hway : ([] : List String) = way at h
    cases h with
    | start hentry hkeeps => exact ⟨hentry, hkeeps⟩
    | down => simp at hway
  · intro ⟨hentry, hkeeps⟩
    exact .start hentry hkeeps

theorem visits_concat_iff {n : String} :
    Visits d keeps base l (way ++ [n]) e ↔ Visits d keeps base l way .folder ∧
      d.entry? (l ++ (way ++ [n])) = some e ∧ keeps (visitAt base (way ++ [n]) e) := by
  constructor
  · intro h
    generalize hway : way ++ [n] = there at h
    cases h with
    | start => simp at hway
    | down hup hentry hkeeps =>
      obtain ⟨rfl, hn⟩ := List.append_inj' hway rfl
      exact ⟨hup, hentry, hkeeps⟩
  · intro ⟨hup, hentry, hkeeps⟩
    exact .down hup hentry hkeeps

end

theorem name_visitAt {n : String} (hnames : ∀ m ∈ way ++ [n], IsName m) :
    (visitAt base (way ++ [n]) e).name = n := by
  unfold Visit.name visitAt Path.fileName?
  simp [components_extend hnames]

theorem keeps_visitAt {n : String} (hnames : ∀ m ∈ way ++ [n], IsName m) :
    p.keeps (visitAt base (way ++ [n]) e) ↔ (e.isFolder → n ∉ p.scan.exclude) := by
  unfold keeps
  rw [name_visitAt hnames]
  cases hfolder : e.isFolder with
  | false => simp [visitAt, hfolder]
  | true => simp [visitAt, hfolder, ScanConfig.excludes]

/-- A walk comes to what is there unless it would have to enter an excluded folder. -/
theorem visits_iff (hd : d.IsTree) : Visits d p.keeps base l way e ↔
    d.entry? (l ++ way) = some e ∧ (∀ n ∈ way.dropLast, n ∉ p.scan.exclude) ∧
      (e.isFolder → ∀ n ∈ way, n ∉ p.scan.exclude) := by
  induction way using List.reverseRecOn generalizing e with
  | nil => simp [visits_nil_iff, keeps, visitAt]
  | append_singleton way n ih =>
    rw [visits_concat_iff, ih, List.dropLast_concat]
    have hnames : d.entry? (l ++ (way ++ [n])) = some e → ∀ m ∈ way ++ [n], IsName m := by
      intro hentry m hm
      exact (hd.named_of_present (by rw [hentry]; rfl) m (List.mem_append_right l hm)).1
    constructor
    · intro ⟨⟨_, _, hway⟩, hentry, hkeeps⟩
      rw [keeps_visitAt (hnames hentry)] at hkeeps
      refine ⟨hentry, hway rfl, ?_⟩
      intro hfolder m hm
      obtain hm | hm := List.mem_append.mp hm
      · exact hway rfl m hm
      · rw [List.mem_singleton.mp hm]
        exact hkeeps hfolder
    · intro ⟨hentry, hway, hfolder⟩
      -- The names on the way to a folder are those on the way to what lies in it.
      have habove : d.entry? (l ++ way) = some .folder := by
        apply hd.folder_above (show [n] ≠ [] by simp)
        rw [List.append_assoc, hentry]
        rfl
      have hbefore : ∀ m ∈ way.dropLast, m ∉ p.scan.exclude := fun m hm =>
        hway m ((List.dropLast_sublist way).mem hm)
      refine ⟨⟨habove, hbefore, fun _ => hway⟩, hentry, ?_⟩
      rw [keeps_visitAt (hnames hentry)]
      intro h
      exact hfolder h n (by simp)

/-! ## Below a scan root -/

theorem acceptsFile_iff {f : Path} : p.scan.acceptsFile f ↔
    ∃ extension ∈ p.scan.extensions, f.extension? = some extension := by
  unfold ScanConfig.acceptsFile
  cases f.extension? with
  | none => simp
  | some extension => simp

theorem mem_waysBelow_iff_visits (hd : d.IsTree) :
    way ∈ p.waysBelow d l ↔ ∃ c, Visits d p.keeps base l way (.file c) := by
  rw [mem_waysBelow_iff hd]
  simp [visits_iff hd, Entry.isFolder, ScanConfig.excludes]

variable {walk : Walker} {r f : Path}

theorem fileOf?_visitAt : p.fileOf? (.ok (visitAt base way e)) = some f ↔
    (∃ c, e = .file c) ∧ p.scan.acceptsFile f ∧ extend base way = f := by
  unfold fileOf? visitAt
  cases e with
  | folder => simp [Entry.isFolder]
  | file c =>
    simp only [Entry.isFolder, Bool.not_false, Bool.true_and, Option.ite_none_right_eq_some,
      Option.some.injEq, Entry.file.injEq, exists_eq', true_and]
    apply and_congr_left
    intro hf
    rw [hf]

theorem mem_visited_iff (hwalk : Covers d walk) {x : Except WalkFault Visit} :
    x ∈ p.visited walk d r ↔ ∃ l way e, d.resolve (p.root.join r) = .ok l ∧
      Visits d p.keeps (p.root.join r) l way e ∧ x = .ok (visitAt (p.root.join r) way e) := by
  unfold visited Disk.has
  cases hres : d.resolve (p.root.join r) with
  | error cause => simp [Except.isOk, Except.toBool]
  | ok l => simp [Except.isOk, Except.toBool, hwalk _ _ _ hres x]

/-- The files that a walk comes to below a scan root are the source files there. -/
theorem mem_fileOf?_visited_iff (hd : d.IsTree) (hwalk : Covers d walk) :
    f ∈ (p.visited walk d r).filterMap p.fileOf? ↔ f ∈ p.filesUnder d r := by
  rw [mem_filesUnder_iff, List.mem_filterMap]
  constructor
  · intro ⟨x, hx, hfile⟩
    obtain ⟨l, way, e, hres, hvisit, rfl⟩ := (mem_visited_iff hwalk).mp hx
    obtain ⟨⟨c, rfl⟩, haccepts, hf⟩ := fileOf?_visitAt.mp hfile
    exact ⟨haccepts, l, way, hres, (mem_waysBelow_iff_visits hd).mpr ⟨c, hvisit⟩, hf⟩
  · intro ⟨haccepts, l, way, hres, hway, hf⟩
    obtain ⟨c, hvisit⟩ := (mem_waysBelow_iff_visits hd).mp hway
    exact ⟨_, (mem_visited_iff hwalk).mpr ⟨l, way, .file c, hres, hvisit, rfl⟩,
      fileOf?_visitAt.mpr ⟨⟨c, rfl⟩, haccepts, hf⟩⟩

/-- A walk that reads every folder has no faults. -/
theorem failureOf?_visited (hwalk : Covers d walk) (r s : Path) :
    (p.visited walk d r).filterMap (p.failureOf? s) = [] := by
  rw [List.filterMap_eq_nil_iff]
  intro x hx
  obtain ⟨l, way, e, -, -, rfl⟩ := (mem_visited_iff hwalk).mp hx
  rfl

/-! ## All scan roots -/

/-- For the paths in their order it does not matter how the files below a scan root come, as
long as no two of them have the same components. -/
theorem inOrderOnce_flatMap_congr {roots : List Path} {F G : Path → List Path}
    (hmem : ∀ r ∈ roots, ∀ f, f ∈ F r ↔ f ∈ G r)
    (hunique : ∀ r ∈ roots, ∀ f ∈ F r, ∀ g ∈ F r, f.components = g.components → f = g) :
    inOrderOnce (roots.flatMap F) = inOrderOnce (roots.flatMap G) := by
  apply (climbs_inOrderOnce _).eq (climbs_inOrderOnce _)
  intro a
  rw [find?_inOrderOnce, find?_inOrderOnce, List.find?_flatMap, List.find?_flatMap]
  apply findSome?_congr
  intro r hr
  apply find?_congr_of_unique
  · intro f _
    exact hmem r hr f
  · intro f hf g hg haf hag
    apply hunique r hr f hf g hg
    rw [← Path.order_eq_iff]
    exact eq_of_cmp_eq (of_decide_eq_true haf) (of_decide_eq_true hag)

/-- Whatever the walker is, what the search reports as gone wrong is skipped. -/
theorem isSkipped_of_search {report : FileReport} (h : report ∈ (p.search walk d).2) :
    report.isSkipped := by
  obtain ⟨r, -, hr⟩ := List.mem_flatMap.mp h
  obtain ⟨x, -, hx⟩ := List.mem_filterMap.mp hr
  cases x with
  | ok v => cases hx
  | error fault =>
    cases hx
    rfl

theorem search_eq (hd : d.IsTree) (hwalk : Covers d walk) :
    p.search walk d = (p.discover d, []) := by
  have hfiles : (p.search walk d).1 = p.discover d := by
    apply inOrderOnce_flatMap_congr
    · intro r _ f
      exact mem_fileOf?_visited_iff hd hwalk
    · intro r _ f hf g hg
      rw [mem_fileOf?_visited_iff hd hwalk] at hf hg
      exact eq_of_filesUnder hd hf hg
  have hfailures : (p.search walk d).2 = [] := by
    unfold search
    rw [List.flatMap_eq_nil_iff]
    intro r _
    exact failureOf?_visited hwalk r r
  rw [← hfiles, ← hfailures]

theorem lists_iff (hd : d.IsTree) : p.Lists d r l way f ↔
    r ∈ p.scan.roots ∧ p.Finds d r l way ∧ f = extend (p.root.join r) way := by
  constructor
  · intro h
    refine ⟨h.configured, ⟨h.there, (mem_waysBelow_iff hd).mpr ⟨h.file, ?_⟩, ?_⟩, h.spelled⟩
    · simpa [ScanConfig.excludes] using h.unexcluded
    · rw [← h.spelled, acceptsFile_iff]
      exact h.counts
  · intro ⟨hr, hfinds, hf⟩
    obtain ⟨hfile, hway⟩ := (mem_waysBelow_iff hd).mp hfinds.below
    refine ⟨hr, hfinds.root, hfile, ?_, hf, ?_⟩
    · simpa [ScanConfig.excludes] using hway
    · rw [hf, ← acceptsFile_iff]
      exact hfinds.accepted

/-- Nothing lies below a file. -/
theorem way_eq_nil (hd : d.IsTree) {a c : ByteArray} (h : d.entry? (l ++ way) = some (.file a))
    (hl : d.entry? l = some (.file c)) : way = [] := by
  by_contra hway
  have hfolder := hd.folder_above hway (by rw [h]; rfl)
  rw [hl] at hfolder
  cases hfolder

/-- Where every folder can be read, the search has no failures, and it gives the source files in
strictly rising order: each is one by the rules, and each path that is one by the rules is given
in one of the spellings with its components. From a scan root that is a file no way leads on. -/
theorem discover_exact (p : Project) {d : Disk} {walk : Walker} (hd : d.IsTree)
    (hwalk : Covers d walk) :
    p.search walk d = (p.discover d, []) ∧ Climbs Path.order (p.discover d) ∧
      (∀ f ∈ p.discover d, ∃ r l way, p.Lists d r l way f ∧
        ∀ c, d.entry? l = some (.file c) → way = []) ∧
      ∀ r l way f, p.Lists d r l way f → ∃ g ∈ p.discover d, g.components = f.components := by
  refine ⟨search_eq hd hwalk, climbs_discover p d, ?_, ?_⟩
  · intro f hf
    obtain ⟨r, hr, hmem⟩ := mem_filesUnder_of_discover hf
    obtain ⟨l, way, hfinds, hspelled⟩ := exists_finds hmem
    refine ⟨r, l, way, (lists_iff hd).mpr ⟨hr, hfinds, hspelled⟩, ?_⟩
    intro c hc
    obtain ⟨a, hfile⟩ := hfinds.file hd
    exact way_eq_nil hd hfile hc
  · intro r l way f h
    obtain ⟨hr, hfinds, hf⟩ := (lists_iff hd).mp h
    rw [hf]
    exact exists_mem_discover hr hfinds.mem_filesUnder

/-! ## A walker -/

theorem head?_drop_iff {n : String} {m : Location} :
    (if l.isPrefixOf m then (m.drop l.length).head? else none) = some n ↔ l ++ [n] <+: m := by
  constructor
  · intro h
    rw [Option.ite_none_right_eq_some, List.isPrefixOf_iff_prefix] at h
    obtain ⟨⟨rest, rfl⟩, hhead⟩ := h
    rw [List.drop_left, List.head?_eq_some_iff] at hhead
    obtain ⟨more, rfl⟩ := hhead
    exact ⟨more, by simp⟩
  · intro ⟨more, hm⟩
    rw [← hm, List.append_assoc, if_pos (List.isPrefixOf_iff_prefix.mpr (List.prefix_append _ _)),
      List.drop_left]
    rfl

theorem mem_namesIn_iff {n : String} : n ∈ namesIn d l ↔ (d.entry? (l ++ [n])).isSome := by
  unfold namesIn
  simp only [List.mem_eraseDups, List.mem_filterMap, head?_drop_iff, Disk.present_iff,
    List.append_eq_nil_iff, List.cons_ne_self, and_false, false_or]

theorem length_le_height (h : (d.entry? l).isSome) : l.length ≤ height d := by
  obtain hl | ⟨x, hx, hpre⟩ := Disk.present_iff.mp h
  · simp [hl]
  · have hhigh : x.1.length ≤ height d := List.le_max?_getD_of_mem (List.mem_map.mpr ⟨x, hx, rfl⟩)
    exact Nat.le_trans hpre.length_le hhigh

section

variable {keeps : Visit → Bool}

/-- What there is on one more level. -/
theorem walkDown_of_visits {levels : Nat} (h : Visits d keeps base l way e) :
    walkDown d keeps base l (levels + 1) way = visitAt base way e ::
      if e.isFolder then
        (namesIn d (l ++ way)).flatMap fun n => walkDown d keeps base l levels (way ++ [n])
      else [] := by
  have hkeeps : keeps (visitAt base way e) := by
    cases h with
    | start _ hkeeps => exact hkeeps
    | down _ _ hkeeps => exact hkeeps
  rw [walkDown, h.entry]
  exact if_pos hkeeps

/-- The walker comes to nothing but what the test lets it come to. -/
theorem visits_of_walkDown {levels : Nat} {v : Visit}
    (hway : ∀ e, d.entry? (l ++ way) = some e → keeps (visitAt base way e) →
      Visits d keeps base l way e)
    (hv : v ∈ walkDown d keeps base l levels way) :
    ∃ way e, Visits d keeps base l way e ∧ v = visitAt base way e := by
  induction levels generalizing way with
  | zero => cases hv
  | succ levels ih =>
    unfold walkDown at hv
    split at hv
    · cases hv
    · rename_i e hentry
      split at hv
      · rename_i hkeeps
        have hvisit := hway e hentry hkeeps
        obtain hv | hv := List.mem_cons.mp hv
        · exact ⟨way, e, hvisit, hv⟩
        · split at hv
          · rename_i hfolder
            obtain ⟨n, -, hn⟩ := List.mem_flatMap.mp hv
            refine ih ?_ hn
            intro e' hentry' hkeeps'
            cases e with
            | folder => exact .down hvisit hentry' hkeeps'
            | file c => cases hfolder
          · cases hv
      · cases hv

/-- What there is below something that the walker comes to is there from the start. -/
theorem walkDown_below {levels : Nat} {v : Visit} (h : Visits d keeps base l way e)
    (hv : v ∈ walkDown d keeps base l (levels + 1) way) :
    v ∈ walkDown d keeps base l (levels + 1 + way.length) [] := by
  induction h generalizing levels with
  | start => exact hv
  | @down way n e hup hentry hkeeps ih =>
    have hone : v ∈ walkDown d keeps base l (levels + 1 + 1) way := by
      rw [walkDown_of_visits hup]
      apply List.mem_cons_of_mem
      apply List.mem_flatMap.mpr
      refine ⟨n, mem_namesIn_iff.mpr ?_, hv⟩
      rw [List.append_assoc, hentry]
      rfl
    have hall := ih hone
    rwa [List.length_append, List.length_singleton, Nat.add_comm way.length, ← Nat.add_assoc]

end

theorem covers_walkDisk (d : Disk) : Covers d (walkDisk d) := by
  intro keeps base l hres x
  unfold walkDisk
  rw [hres, List.mem_map]
  constructor
  · intro ⟨v, hv, hx⟩
    obtain ⟨way, e, hvisit, rfl⟩ := visits_of_walkDown
      (fun e hentry hkeeps => .start (by simpa using hentry) hkeeps) hv
    exact ⟨way, e, hvisit, hx.symm⟩
  · intro ⟨way, e, hvisit, hx⟩
    refine ⟨visitAt base way e, ?_, hx.symm⟩
    have hhigh : way.length ≤ height d := by
      have hle := length_le_height (l := l ++ way) (by rw [hvisit.entry]; rfl)
      rw [List.length_append] at hle
      omega
    have hself : visitAt base way e ∈ walkDown d keeps base l (height d - way.length + 1) way := by
      rw [walkDown_of_visits hvisit]
      exact List.mem_cons_self
    have hall := walkDown_below hvisit hself
    rwa [show height d - way.length + 1 + way.length = height d + 1 by omega] at hall

/-- A disk with source files beside and inside a folder to be excluded. -/
def skipDisk : Disk :=
  { entries := [(["src", "form.ts"], .file "".toUTF8), (["src", "skip", "b.ts"], .file "".toUTF8),
      (["src", "skip", "deep", "a.d.ts"], .file "".toUTF8), (["src", ".ts"], .file "".toUTF8)] }

/-- Scan roots that lead into the excluded folder, name a file once more, and are missing. -/
def skipProject : Project :=
  ⟨⟨"."⟩, { roots := [⟨"src"⟩, ⟨"src/skip/deep"⟩, ⟨"./src//form.ts"⟩, ⟨"gone"⟩],
            extensions := ["ts"], exclude := ["skip"] }, ⟨{}, {}, .preserve⟩⟩

/-- From a scan root below the excluded folder its files are found. -/
theorem discover_exact_skip :
    skipDisk.IsTree ∧ Covers skipDisk (walkDisk skipDisk) ∧
      skipProject.search (walkDisk skipDisk) skipDisk = (skipProject.discover skipDisk, []) ∧
      (∀ f ∈ skipProject.discover skipDisk, ∃ r l way, skipProject.Lists skipDisk r l way f) ∧
      ∃ g ∈ skipProject.discover skipDisk,
        g.components = [.here, .name "src", .name "skip", .name "deep", .name "a.d.ts"] := by
  have hd : skipDisk.IsTree := by decide
  have hwalk := covers_walkDisk skipDisk
  obtain ⟨hsearch, -, hlists, hfound⟩ := discover_exact skipProject hd hwalk
  have hdeep : skipProject.Lists skipDisk ⟨"src/skip/deep"⟩ ["src", "skip", "deep"] ["a.d.ts"]
      ⟨"./src/skip/deep/a.d.ts"⟩ :=
    ⟨by decide, by decide +kernel, ⟨_, rfl⟩, by decide, by decide +kernel, "ts", by decide,
      by decide +kernel⟩
  obtain ⟨g, hg, hcomponents⟩ := hfound _ _ _ _ hdeep
  refine ⟨hd, hwalk, hsearch, ?_, g, hg, ?_⟩
  · intro f hf
    obtain ⟨r, l, way, h, -⟩ := hlists f hf
    exact ⟨r, l, way, h⟩
  · rw [hcomponents]
    decide +kernel

end Relocate.Project
