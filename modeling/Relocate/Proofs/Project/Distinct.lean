import Relocate.Proofs.Project.Discover

/-!
# Each source file once

Where a path leads can be told from its components alone: names go down, `..`
goes back (`place_of_walk`). The source files are told apart by components, so
one file of the disk is found twice exactly when two scan roots spell the way
to it differently. Scan roots that lead down never do; one with a `..` in it
does as soon as it comes back to a folder that is visited anyway.

* `exists_mem_discover`: every file under a scan root is found, under a path
  with the same components.
* `discover_distinct_iff`: no file is found twice exactly when the scan roots
  agree (`RootsAgree`).
* `discover_twice`: a configuration in order whose scan roots do not.
-/
namespace Relocate.Project

variable {p : Project} {d : Disk} {f g : Path} {l k : Location}

/-! ## Where a path leads -/

/-- A way on the disk goes where its segments say. -/
theorem foldl_follow_of_step {ss : List (List Char)} (h : ss.foldlM d.step l = .ok k) :
    (ss.filterMap Component.ofSegment?).foldl Component.follow l = k := by
  induction ss generalizing l with
  | nil => exact Except.ok.inj h
  | cons segment ss ih =>
    obtain ⟨m, hstep, hrest⟩ := Disk.foldlM_step_cons_iff.1 h
    obtain ⟨-, ⟨hseg, rfl⟩ | ⟨hseg, rfl⟩ | ⟨hseg, -, rfl, -⟩⟩ := Disk.step_eq_ok_iff.1 hstep
    · simpa [hseg] using ih hrest
    · simpa [hseg, Component.follow] using ih hrest
    · simpa [hseg, Component.follow] using ih hrest

theorem place_of_walk (h : d.walk f = .ok l) : Path.place d.workDir f = l := by
  obtain ⟨first, more, hseg⟩ : ∃ first more, f.segments = first :: more :=
    List.exists_cons_of_ne_nil (List.splitOn_ne_nil _ _)
  rw [Disk.walk, Disk.origin] at h
  have hfollow := foldl_follow_of_step h
  rw [hseg] at hfollow
  rw [Path.place, Path.components_eq hseg, Path.front?]
  by_cases habs : f.isAbsolute
  · -- The first segment of an absolute path is empty.
    have hfirst : first = [] := by
      rw [Path.isAbsolute, beq_iff_eq, List.head?_eq_some_iff] at habs
      obtain ⟨rest, hrest⟩ := habs
      rw [Path.segments, hrest, List.splitOn_cons_eq_if_modifyHead] at hseg
      simp at hseg
      exact hseg.1
    simpa [habs, hfirst, Component.ofSegment?, Component.follow] using hfollow
  · by_cases hdot : first = ['.']
    · simpa [habs, hdot, Component.ofSegment?, Component.follow] using hfollow
    · rw [if_neg habs] at hfollow
      rw [if_neg habs, if_neg hdot]
      cases hsay : Component.ofSegment? first <;> simpa [hsay] using hfollow

/-! ## What is found -/

/-- The scan root `r` is at `l`, and from there finds the file that lies `way`
further down. -/
structure Finds (p : Project) (d : Disk) (r : Path) (l : Location) (way : List String) :
    Prop where
  root : d.resolve (p.root.join r) = .ok l
  below : way ∈ p.waysBelow d l
  accepted : p.scan.acceptsFile (extend (p.root.join r) way)

namespace Finds

variable {r : Path} {way : List String}

theorem mem_filesUnder (h : p.Finds d r l way) :
    extend (p.root.join r) way ∈ p.filesUnder d r :=
  mem_filesUnder_iff.2 ⟨h.accepted, l, way, h.root, h.below, rfl⟩

theorem file (hd : d.IsTree) (h : p.Finds d r l way) :
    ∃ c, d.entry? (l ++ way) = some (.file c) := ((mem_waysBelow_iff hd).1 h.below).1

theorem place (hd : d.IsTree) (h : p.Finds d r l way) :
    Path.place d.workDir (extend (p.root.join r) way) = l ++ way := by
  obtain ⟨c, hfile⟩ := h.file hd
  obtain ⟨hflaw, hwalk⟩ := Disk.walk_of_resolve h.root
  have htext : (p.root.join r).text ≠ "" := by
    intro hempty
    simp [Disk.flaw?, hempty] at hflaw
  exact place_of_walk (walk_extend hd htext hwalk (by rw [hfile]; rfl))

theorem components (hd : d.IsTree) (h : p.Finds d r l way) :
    (extend (p.root.join r) way).components = (p.root.join r).components ++ way.map .name := by
  obtain ⟨c, hfile⟩ := h.file hd
  refine components_extend (fun n hn => ?_) _
  exact (hd.named_of_present (by rw [hfile]; rfl) n (List.mem_append_right l hn)).1

end Finds

theorem exists_finds {r : Path} (h : f ∈ p.filesUnder d r) :
    ∃ l way, p.Finds d r l way ∧ f = extend (p.root.join r) way := by
  obtain ⟨haccepted, l, way, hroot, hbelow, rfl⟩ := mem_filesUnder_iff.1 h
  exact ⟨l, way, ⟨hroot, hbelow, haccepted⟩, rfl⟩

theorem exists_mem_discover {r : Path} (hr : r ∈ p.scan.roots) (h : f ∈ p.filesUnder d r) :
    ∃ g ∈ p.discover d, g.components = f.components := by
  have hsome : ((p.discover d).find? fun g => f.order g = .eq).isSome := by
    rw [find?_discover, List.findSome?_isSome_iff]
    refine ⟨r, hr, List.find?_isSome.2 ⟨f, h, ?_⟩⟩
    exact decide_eq_true (Path.order_eq_iff.2 rfl)
  obtain ⟨g, hg⟩ := Option.isSome_iff_exists.1 hsome
  have horder : f.order g = .eq := by simpa using List.find?_some hg
  exact ⟨g, List.mem_of_find?_eq_some hg, (Path.order_eq_iff.1 horder).symm⟩

/-- Source files are told apart by components, so a file is found twice exactly
when two spellings of it differ in components. -/
theorem nodup_iff_components : ((p.discover d).map (Path.place d.workDir)).Nodup ↔
    ∀ r ∈ p.scan.roots, ∀ s ∈ p.scan.roots, ∀ f ∈ p.filesUnder d r, ∀ g ∈ p.filesUnder d s,
      Path.place d.workDir f = Path.place d.workDir g → f.components = g.components := by
  constructor
  · intro hdistinct r hr s hs f hf g hg hplace
    obtain ⟨f', hf', hff⟩ := exists_mem_discover hr hf
    obtain ⟨g', hg', hgg⟩ := exists_mem_discover hs hg
    rw [Path.place, Path.place, ← hff, ← hgg] at hplace
    rw [← hff, ← hgg]
    rw [List.inj_on_of_nodup_map hdistinct hf' hg' hplace]
  · intro hsame
    refine List.pairwise_map.2 ((p.climbs_discover d).imp_of_mem fun {f g} hf hg hlt hplace => ?_)
    obtain ⟨r, hr, hf⟩ := mem_filesUnder_of_discover hf
    obtain ⟨s, hs, hg⟩ := mem_filesUnder_of_discover hg
    rw [Path.order_eq_iff.2 (hsame r hr s hs f hf g hg hplace)] at hlt
    cases hlt

/-! ## Scan roots that agree -/

/-- A scan root that leads to or into the place of another one, and finds a
file that the other one finds too, is spelled as the other one continued by
the names in between. -/
def RootsAgree (p : Project) (d : Disk) : Prop :=
  ∀ r ∈ p.scan.roots, ∀ s ∈ p.scan.roots, ∀ l between way,
    p.Finds d r l (between ++ way) → p.Finds d s (l ++ between) way →
    (p.root.join s).components = (p.root.join r).components ++ between.map .name

theorem RootsAgree.components_eq (hagree : p.RootsAgree d) {r s : Path} (hr : r ∈ p.scan.roots)
    (hs : s ∈ p.scan.roots) {between way : List String} (hf : p.Finds d r l (between ++ way))
    (hg : p.Finds d s (l ++ between) way) :
    (p.root.join r).components ++ (between ++ way).map .name =
      (p.root.join s).components ++ way.map .name := by
  rw [hagree r hr s hs l between way hf hg, List.map_append, List.append_assoc]

theorem nodup_iff_rootsAgree (hd : d.IsTree) :
    ((p.discover d).map (Path.place d.workDir)).Nodup ↔ p.RootsAgree d := by
  rw [nodup_iff_components]
  constructor
  · intro hsame r hr s hs l between way hf hg
    have hplace := (hf.place hd).trans (List.append_assoc l between way).symm
    have hcomps := hsame r hr s hs _ hf.mem_filesUnder _ hg.mem_filesUnder
      (hplace.trans (hg.place hd).symm)
    rw [hf.components hd, hg.components hd, List.map_append, ← List.append_assoc] at hcomps
    exact (List.append_cancel_right hcomps).symm
  · intro hagree r hr s hs f hf g hg hplace
    obtain ⟨l, way, hfinds, rfl⟩ := exists_finds hf
    obtain ⟨m, way', hgfinds, rfl⟩ := exists_finds hg
    rw [hfinds.place hd, hgfinds.place hd, List.append_eq_append_iff] at hplace
    rw [hfinds.components hd, hgfinds.components hd]
    -- One of the two scan roots lies further up than the other.
    obtain ⟨between, rfl, rfl⟩ | ⟨between, rfl, rfl⟩ := hplace
    · exact hagree.components_eq hr hs hfinds hgfinds
    · exact (hagree.components_eq hs hr hgfinds hfinds).symm

/-- Scan roots that lead down from the project's root agree. -/
theorem ScansDown.rootsAgree (hp : p.ScansDown) (hd : d.IsTree) : p.RootsAgree d := by
  refine (nodup_iff_rootsAgree hd).1 (nodup_iff_components.2 fun r hr s hs f hf g hg hplace => ?_)
  obtain ⟨l, _, hfs⟩ := source_of_filesUnder hd hp.root (hp.down r hr) hf
  obtain ⟨k, _, hgs⟩ := source_of_filesUnder hd hp.root (hp.down s hs) hg
  rw [place_of_walk hfs.walk, place_of_walk hgs.walk] at hplace
  exact (hfs.location_eq_iff hgs).1 hplace

/-- Every source file is a file of the disk. None is found twice exactly when
the scan roots agree, and they do if each of them leads down from the
project's root. -/
theorem discover_distinct_iff (p : Project) {d : Disk} (hd : d.IsTree) :
    (∀ f ∈ p.discover d, ∃ c, d.entry? (Path.place d.workDir f) = some (.file c)) ∧
    (((p.discover d).map (Path.place d.workDir)).Nodup ↔ p.RootsAgree d) ∧
    (p.ScansDown → p.RootsAgree d) := by
  refine ⟨fun f hf => ?_, nodup_iff_rootsAgree hd, fun hp => hp.rootsAgree hd⟩
  obtain ⟨r, -, hmem⟩ := mem_filesUnder_of_discover hf
  obtain ⟨l, way, hfinds, rfl⟩ := exists_finds hmem
  rw [hfinds.place hd]
  exact hfinds.file hd

/-- The default configuration with other scan roots. -/
def rootsConfig (roots : List Path) : Config := { scan := { roots := roots } }

/-- A disk with two source files, one below the other's folder. -/
def pagesDisk : Disk :=
  { entries := [(["src", "form.ts"], .file "".toUTF8), (["src", "pages", "card.ts"], .file "".toUTF8)] }

/-- Scan roots that repeat, nest and differ in slashes find each file once. -/
theorem discover_distinct_iff_nested :
    ∃ p, ofConfig ⟨"."⟩ (rootsConfig [⟨"src/pages"⟩, ⟨"src"⟩, ⟨"./src//"⟩]) = .ok p ∧
      pagesDisk.IsTree ∧ p.RootsAgree pagesDisk ∧
      ((p.discover pagesDisk).map (Path.place pagesDisk.workDir)).Nodup := by
  have hp : ofConfig ⟨"."⟩ (rootsConfig [⟨"src/pages"⟩, ⟨"src"⟩, ⟨"./src//"⟩]) =
      .ok ⟨⟨"."⟩, (rootsConfig [⟨"src/pages"⟩, ⟨"src"⟩, ⟨"./src//"⟩]).scan, ⟨{}, {}, .preserve⟩⟩ := rfl
  have hd : pagesDisk.IsTree := by decide
  obtain ⟨-, hiff, hdown⟩ := discover_distinct_iff
    ⟨⟨"."⟩, (rootsConfig [⟨"src/pages"⟩, ⟨"src"⟩, ⟨"./src//"⟩]).scan, ⟨{}, {}, .preserve⟩⟩ hd
  have hagree := hdown ⟨by decide, by decide⟩
  exact ⟨_, hp, hd, hagree, hiff.2 hagree⟩

/-- A scan root that goes back by `..` and comes down again finds the files of
a configuration in order a second time. -/
theorem discover_twice :
    ∃ p, (rootsConfig [⟨"src"⟩, ⟨"src/../src"⟩]).flaw? = none ∧
      ofConfig ⟨"."⟩ (rootsConfig [⟨"src"⟩, ⟨"src/../src"⟩]) = .ok p ∧ pagesDisk.IsTree ∧
      ¬((p.discover pagesDisk).map (Path.place pagesDisk.workDir)).Nodup := by
  have hd : pagesDisk.IsTree := by decide
  refine ⟨⟨⟨"."⟩, (rootsConfig [⟨"src"⟩, ⟨"src/../src"⟩]).scan, ⟨{}, {}, .preserve⟩⟩,
    by decide, rfl, hd, ?_⟩
  rw [nodup_iff_rootsAgree hd]
  intro hagree
  have hsame := hagree ⟨"src"⟩ (by decide) ⟨"src/../src"⟩ (by decide) ["src"] [] ["form.ts"]
    ⟨by decide +kernel, by decide +kernel, by decide +kernel⟩
    ⟨by decide +kernel, by decide +kernel, by decide +kernel⟩
  exact absurd hsame (by decide +kernel)

end Relocate.Project
