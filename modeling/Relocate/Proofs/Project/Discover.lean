import Relocate.Project.Basic
import Relocate.Proofs.Disk.Walk
import Relocate.Proofs.Path.Order

/-!
# The source files of a project

Every scan root is walked down from the project's root, so the location of a
source file and its components say the same (`Source.location_eq_iff`): two
source files that differ in components are two files on the disk, and they
differ in components as seen from the root too (`Source.order_relative`).

* `exists_source`: where a source file lies and how it is spelled.
* `climbs_discover`: source files come in strictly rising order.
* `discover_lacks`: without one of the files, the others are found as before.
-/
namespace Relocate.Project

variable {p : Project} {d e : Disk} {f g : Path} {l k : Location}

/-- The root has a text, and scan roots lead down from it. No folder has an
empty text for its path, and the command line does not take one for a root. -/
structure ScansDown (p : Project) : Prop where
  root : p.root.text ≠ ""
  down : ∀ r ∈ p.scan.roots, r.Descends

theorem ofConfig_eq_ok {root : Path} {c : Config} (h : ofConfig root c = .ok p) :
    ∃ registry, Registry.ofRecords c.registry.records = .ok registry ∧
      p = ⟨root, c.scan, ⟨registry, c.layout, c.policy⟩⟩ := by
  obtain ⟨registry, hregistry, hp⟩ := Disk.bind_eq_ok_iff.1 h
  exact ⟨registry, hregistry, (Except.ok.inj hp).symm⟩

theorem scan_of_ofConfig {root : Path} {c : Config} (h : ofConfig root c = .ok p) :
    p.scan = c.scan := by
  obtain ⟨registry, -, rfl⟩ := ofConfig_eq_ok h
  rfl

theorem scansDown_of_ofConfig {root : Path} {c : Config} (h : ofConfig root c = .ok p)
    (hroot : root.text ≠ "") (hscan : ∀ r ∈ c.scan.roots, r.Descends) : p.ScansDown := by
  obtain ⟨registry, -, rfl⟩ := ofConfig_eq_ok h
  exact ⟨hroot, hscan⟩

/-! ## Below a location -/

theorem mem_waysBelow_iff (hd : d.IsTree) {way : List String} :
    way ∈ p.waysBelow d l ↔
      (∃ c, d.entry? (l ++ way) = some (.file c)) ∧ way.dropLast.any p.scan.excludes = false := by
  simp only [waysBelow, List.mem_filterMap, Disk.file_listed_iff hd]
  constructor
  · rintro ⟨⟨m, x⟩, hmem, hway⟩
    cases x with
    | folder => cases hway
    | file c =>
      simp only at hway
      split at hway
      · rename_i hpre
        obtain ⟨rest, rfl⟩ := List.isPrefixOf_iff_prefix.1 hpre
        rw [List.drop_left] at hway
        split at hway
        · cases hway
        · rename_i hexcluded
          obtain rfl := Option.some.inj hway
          exact ⟨⟨c, hmem⟩, Bool.eq_false_iff.2 hexcluded⟩
      · cases hway
  · rintro ⟨⟨c, hmem⟩, hexcluded⟩
    refine ⟨_, hmem, ?_⟩
    simp only
    rw [if_pos (List.isPrefixOf_iff_prefix.2 (List.prefix_append l way)), List.drop_left,
      if_neg (by simp [hexcluded])]

theorem components_extend {way : List String} (hway : ∀ n ∈ way, IsName n) (base : Path) :
    (extend base way).components = base.components ++ way.map .name := by
  induction way generalizing base with
  | nil => simp [extend]
  | cons n way ih =>
    have hrest := ih (fun m hm => hway m (List.mem_cons_of_mem n hm)) (base.join ⟨n⟩)
    rw [Path.components_join_name base (hway n List.mem_cons_self)] at hrest
    exact hrest.trans (by simp)

/-- A path continued by names leads to what the names lead to from there. -/
theorem walk_extend (hd : d.IsTree) {base : Path} {way : List String} (hbase : base.text ≠ "")
    (h : d.walk base = .ok l) (hthere : (d.entry? (l ++ way)).isSome) :
    d.walk (extend base way) = .ok (l ++ way) := by
  induction way generalizing base l with
  | nil => simpa [extend] using h
  | cons n way ih =>
    have hnamed := hd.named_of_present hthere n (by simp)
    obtain ⟨m, hm, -⟩ := Disk.foldlM_step_cons_iff.1 (hd.foldlM_step_down hthere)
    have hbelow : (d.entry? (l ++ [n] ++ way)).isSome := by simpa using hthere
    have hone : [n.toList].foldlM d.step l = .ok m := by rw [Disk.foldlM_step_singleton, hm]
    have hname : [n.toList].filterMap Component.ofSegment? = [n].map .name :=
      List.filterMap_cons_some hnamed.1.reads
    rw [Disk.foldlM_step_names hone hname] at hm
    have habs := Path.isAbsolute_name hnamed.1
    have hrest := ih (Path.text_join_ne hbase habs) (Disk.walk_join_name hbase hnamed.1 h hm) hbelow
    rw [List.append_assoc] at hrest
    exact hrest

/-! ## Below a scan root -/

theorem mem_filesUnder_iff {r : Path} :
    f ∈ p.filesUnder d r ↔ p.scan.acceptsFile f ∧
      ∃ l way, d.resolve (p.root.join r) = .ok l ∧ way ∈ p.waysBelow d l ∧
        extend (p.root.join r) way = f := by
  rw [filesUnder]
  cases hres : d.resolve (p.root.join r) with
  | error cause => simp
  | ok l =>
    simp only [List.mem_filter, List.mem_map, Except.ok.injEq, exists_and_left,
      exists_eq_left']
    exact and_comm

/-- Where the project's root is on a disk. -/
def top (p : Project) (d : Disk) : Except DiskCause Location :=
  (p.root.stem.splitOn '/').foldlM d.step (d.origin p.root)

/-- A source file: its location, and the names that lead to it from the root. -/
structure Source (p : Project) (d : Disk) (f : Path) (l : Location) (names : List String) :
    Prop where
  walk : d.walk f = .ok l
  file : ∃ c, d.entry? l = some (.file c)
  components : f.components = p.root.components ++ names.map .name
  place : ∃ top, p.top d = .ok top ∧ l = top ++ names

theorem source_of_filesUnder (hd : d.IsTree) (hroot : p.root.text ≠ "") {r : Path}
    (hr : r.Descends) (h : f ∈ p.filesUnder d r) : ∃ l names, p.Source d f l names := by
  obtain ⟨-, m, way, hres, hway, rfl⟩ := mem_filesUnder_iff.1 h
  obtain ⟨⟨c, hfile⟩, -⟩ := (mem_waysBelow_iff hd).1 hway
  have hthere : (d.entry? (m ++ way)).isSome := by
    rw [hfile]
    rfl
  have hwalk := (Disk.walk_of_resolve hres).2
  obtain ⟨ns, hns⟩ := hr.exists_names
  have hbase := hwalk
  rw [Disk.walk_join d hroot hr.relative, Disk.foldlM_step_append_iff] at hbase
  obtain ⟨top, htop, hdown⟩ := hbase
  have hm := Disk.foldlM_step_names hdown hns
  refine ⟨m ++ way, ns ++ way, ?_, ⟨c, hfile⟩, ?_, top, htop, ?_⟩
  · exact walk_extend hd (Path.text_join_ne hroot hr.relative) hwalk hthere
  · have hnames : ∀ n ∈ way, IsName n := fun n hn =>
      (hd.named_of_present hthere n (List.mem_append_right m hn)).1
    rw [components_extend hnames, Path.components_join hr.relative (by simpa using hroot), hns]
    simp
  · rw [hm, List.append_assoc]

namespace Source

variable {ns ms : List String}

theorem location_eq_iff (hf : p.Source d f l ns) (hg : p.Source d g k ms) :
    l = k ↔ f.components = g.components := by
  obtain ⟨top, htop, rfl⟩ := hf.place
  obtain ⟨top', htop', rfl⟩ := hg.place
  obtain rfl : top = top' := Except.ok.inj (htop.symm.trans htop')
  have hinj : Function.Injective Component.name := fun _ _ h => Component.name.inj h
  rw [hf.components, hg.components, List.append_cancel_left_eq, List.append_cancel_left_eq]
  exact (List.map_injective_iff.2 hinj).eq_iff.symm

theorem components_relative (hroot : p.root.text ≠ "") (hf : p.Source d f l ns) :
    (p.relative f).components = ns.map .name := by
  obtain ⟨q, hq, hcomps⟩ :=
    Path.components_relativeTo? (Path.components_ne_nil hroot) hf.components
  rw [relative, hq]
  exact hcomps

/-- The root does not count for the order of source files. -/
theorem order_relative (hroot : p.root.text ≠ "") (hf : p.Source d f l ns)
    (hg : p.Source d g k ms) : (p.relative f).order (p.relative g) = f.order g := by
  rw [Path.order, Path.order, hf.components_relative hroot, hg.components_relative hroot,
    hf.components, hg.components, compareLex_append_left]

end Source

/-! ## All source files -/

theorem climbs_inOrderOnce (files : List Path) : Climbs Path.order (inOrderOnce files) :=
  climbs_eraseRepsBy Path.same_iff (ascends_mergeSort _)

/-- Of files with the same components, the first is kept. -/
theorem find?_inOrderOnce (files : List Path) (f : Path) :
    ((inOrderOnce files).find? fun g => f.order g = .eq) = files.find? fun g => f.order g = .eq := by
  rw [inOrderOnce, find?_eraseRepsBy Path.same_iff, ← head?_equals, equals_mergeSort, head?_equals]

theorem climbs_discover (p : Project) (d : Disk) : Climbs Path.order (p.discover d) :=
  climbs_inOrderOnce _

theorem mem_filesUnder_of_discover (h : f ∈ p.discover d) :
    ∃ r ∈ p.scan.roots, f ∈ p.filesUnder d r := by
  have hmem := (eraseRepsBy_sublist _ _).mem h
  rw [List.mem_mergeSort, List.mem_flatMap] at hmem
  exact hmem

theorem exists_source (hp : p.ScansDown) (hd : d.IsTree) (h : f ∈ p.discover d) :
    ∃ l names, p.Source d f l names := by
  obtain ⟨r, hr, hmem⟩ := mem_filesUnder_of_discover h
  exact source_of_filesUnder hd hp.root (hp.down r hr) hmem

/-- A source file is spelled as below the first scan root that leads to it. -/
theorem find?_discover (p : Project) (d : Disk) (f : Path) :
    ((p.discover d).find? fun g => f.order g = .eq) =
      p.scan.roots.findSome? fun r => (p.filesUnder d r).find? fun g => f.order g = .eq := by
  rw [discover, find?_inOrderOnce, List.find?_flatMap]

/-! ## Without one of the files -/

theorem find?_congr_of_unique {α : Type} {P : α → Bool} {l m : List α}
    (hmem : ∀ a, P a → (a ∈ l ↔ a ∈ m)) (hunique : ∀ a ∈ l, ∀ b ∈ l, P a → P b → a = b) :
    l.find? P = m.find? P := by
  cases hl : l.find? P with
  | none =>
    symm
    rw [List.find?_eq_none] at hl ⊢
    exact fun a ha hPa => hl a ((hmem a hPa).2 ha) hPa
  | some a =>
    have ha := List.mem_of_find?_eq_some hl
    have hPa := List.find?_some hl
    cases hm : m.find? P with
    | none => exact absurd hPa (List.find?_eq_none.1 hm a ((hmem a hPa).1 ha))
    | some b =>
      have hPb := List.find?_some hm
      rw [hunique a ha b ((hmem b hPb).2 (List.mem_of_find?_eq_some hm)) hPa hPb]

theorem findSome?_congr {α β : Type} {l : List α} {F G : α → Option β} (h : ∀ a ∈ l, F a = G a) :
    l.findSome? F = l.findSome? G := by
  have hmap : ∀ F : α → Option β, l.findSome? F = (l.map F).findSome? id := by
    intro F
    rw [List.findSome?_map]
    rfl
  rw [hmap F, hmap G, List.map_congr_left h]

theorem eq_of_filesUnder (hd : d.IsTree) {r : Path} (hf : f ∈ p.filesUnder d r)
    (hg : g ∈ p.filesUnder d r) (h : f.components = g.components) : f = g := by
  obtain ⟨-, m, way, hres, hway, rfl⟩ := mem_filesUnder_iff.1 hf
  obtain ⟨-, m', way', hres', hway', rfl⟩ := mem_filesUnder_iff.1 hg
  obtain rfl : m = m' := Except.ok.inj (hres.symm.trans hres')
  have hnames : ∀ {way}, way ∈ p.waysBelow d m → ∀ n ∈ way, IsName n := by
    intro way hway n hn
    obtain ⟨⟨c, hfile⟩, -⟩ := (mem_waysBelow_iff hd).1 hway
    refine (hd.named_of_present (l := m ++ way) ?_ n (List.mem_append_right m hn)).1
    rw [hfile]
    rfl
  have hinj : Function.Injective Component.name := fun _ _ h => Component.name.inj h
  rw [components_extend (hnames hway), components_extend (hnames hway'),
    List.append_cancel_left_eq] at h
  rw [List.map_injective_iff.2 hinj h]

section Lacks

variable {c : ByteArray}

theorem mem_filesUnder_lacks_iff (hd : d.IsTree) (he : e.IsTree) (hroot : p.root.text ≠ "")
    (hfile : d.entry? l = some (.file c)) (h : e.Lacks d l) {r : Path} (hr : r.Descends) :
    f ∈ p.filesUnder e r ↔ f ∈ p.filesUnder d r ∧ d.walk f ≠ .ok l := by
  have hres : ∀ m, e.resolve (p.root.join r) = .ok m ↔
      d.resolve (p.root.join r) = .ok m ∧ m ≠ l := by
    intro m
    rw [Disk.resolve_eq, Disk.resolve_eq]
    cases Disk.flaw? (p.root.join r) with
    | some cause => simp
    | none => exact hd.walk_lacks_iff hfile h
  have hbase : (p.root.join r).text ≠ "" := Path.text_join_ne hroot hr.relative
  rw [mem_filesUnder_iff, mem_filesUnder_iff]
  constructor
  · rintro ⟨haccepts, m, way, hm, hway, rfl⟩
    obtain ⟨⟨a, ha⟩, hexcluded⟩ := (mem_waysBelow_iff he).1 hway
    have hne := h.entry_ne ha
    rw [h.entry_eq hne] at ha
    obtain ⟨hm, -⟩ := (hres m).1 hm
    refine ⟨⟨haccepts, m, way, hm, (mem_waysBelow_iff hd).2 ⟨⟨a, ha⟩, hexcluded⟩, rfl⟩, ?_⟩
    rw [walk_extend hd hbase (Disk.walk_of_resolve hm).2 (by rw [ha]; rfl)]
    exact fun heq => hne (Except.ok.inj heq)
  · rintro ⟨⟨haccepts, m, way, hm, hway, rfl⟩, hne⟩
    obtain ⟨⟨a, ha⟩, hexcluded⟩ := (mem_waysBelow_iff hd).1 hway
    rw [walk_extend hd hbase (Disk.walk_of_resolve hm).2 (by rw [ha]; rfl)] at hne
    have hne' : m ++ way ≠ l := fun heq => hne (by rw [heq])
    have hml : m ≠ l := by
      rintro rfl
      have hway' : way ≠ [] := by
        rintro rfl
        exact hne' (List.append_nil m)
      have hfolder := hd.folder_above (l := m) hway' (by rw [ha]; rfl)
      rw [hfile] at hfolder
      cases hfolder
    refine ⟨haccepts, m, way, (hres m).2 ⟨hm, hml⟩, ?_, rfl⟩
    rw [mem_waysBelow_iff he, h.entry_eq hne']
    exact ⟨⟨a, ha⟩, hexcluded⟩

/-- Without one of the source files, the others are found as before. -/
theorem discover_lacks (hp : p.ScansDown) (hd : d.IsTree) (he : e.IsTree)
    (hfile : d.entry? l = some (.file c)) (h : e.Lacks d l) {before after : List Path}
    (hsplit : p.discover d = before ++ f :: after) (hf : d.walk f = .ok l) :
    p.discover e = before ++ after := by
  have hclimbs := p.climbs_discover d
  obtain ⟨l', ns, hsource⟩ := exists_source hp hd (f := f) (by simp [hsplit])
  obtain rfl : l' = l := Except.ok.inj (hsource.walk.symm.trans hf)
  rw [hsplit] at hclimbs
  have hothers : Climbs Path.order (before ++ after) :=
    hclimbs.sublist (List.Sublist.append_left (List.sublist_cons_self f after) before)
  refine (p.climbs_discover e).eq hothers fun a => ?_
  have hwalk : ∀ r ∈ p.scan.roots, ∀ g ∈ p.filesUnder d r, a.order g = .eq →
      (d.walk g = .ok l' ↔ a.order f = .eq) := by
    intro r hr g hg hag
    obtain ⟨k, ms, hk⟩ := source_of_filesUnder hd hp.root (hp.down r hr) hg
    rw [hk.walk, Except.ok.injEq, hk.location_eq_iff hsource, ← Path.order_eq_iff]
    exact ⟨fun hgf => Std.TransCmp.eq_trans hag hgf, fun haf => eq_of_cmp_eq hag haf⟩
  have hmem : ∀ r ∈ p.scan.roots, ∀ g,
      g ∈ p.filesUnder e r ↔ g ∈ p.filesUnder d r ∧ d.walk g ≠ .ok l' :=
    fun r hr g => mem_filesUnder_lacks_iff hd he hp.root hfile h (hp.down r hr)
  rw [find?_discover, hclimbs.find?_without]
  by_cases haf : a.order f = .eq
  · -- What would be found is the file that is not there any more.
    rw [if_pos haf, List.findSome?_eq_none_iff]
    intro r hr
    rw [List.find?_eq_none]
    intro g hg hag
    obtain ⟨hg, hne⟩ := (hmem r hr g).1 hg
    exact hne ((hwalk r hr g hg (of_decide_eq_true hag)).2 haf)
  · rw [if_neg haf, ← hsplit, find?_discover]
    refine findSome?_congr fun r hr => ?_
    refine find?_congr_of_unique (fun g hag => ?_) fun g hg g' hg' hag hag' => ?_
    · rw [hmem r hr g]
      refine ⟨fun hg => hg.1, fun hg => ⟨hg, fun hgl => haf ?_⟩⟩
      exact (hwalk r hr g hg (of_decide_eq_true hag)).1 hgl
    · refine eq_of_filesUnder he hg hg' (Path.order_eq_iff.1 ?_)
      exact eq_of_cmp_eq (of_decide_eq_true hag) (of_decide_eq_true hag')

end Lacks

end Relocate.Project
