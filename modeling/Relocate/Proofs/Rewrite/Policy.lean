import Relocate.Proofs.Rewrite.Fixpoint
import Relocate.Proofs.Rewrite.Spelling

/-!
# What the policy does to relative imports

The policy `aliasOutside` asks one thing of a file: does its folder lie in the
components? Inside, it asks for the style that is written, so nothing tells it
from `preserve`. Outside, every import of a registered module gets the alias,
whatever its style, and a path that starts with the alias is never read as a
relative one again.

The question is put to the components folder as it is spelled, and a spelling
with a dot in it has nothing inside. Such a layout has no relative imports
either, so the answer does no harm: a folder that lies in the components by
its place (`Layout.Holds`) is treated as `preserve` treats it.

* `target?_aliasOutside`: in such a folder each clause has the same new path
  under both policies.
* `Engine.aliasOutside_rewrite`: the two policies on a whole text.
-/
namespace Relocate

open Text

/-- The place that `folder` leads to is the components folder or lies below
it, however the two are spelled. -/
def Layout.Holds (l : Layout) (folder : Path) : Prop :=
  ∃ names dir, folder.names? = some names ∧ l.componentsDir.names? = some dir ∧ dir <+: names

namespace Engine

section Inside

variable (registry : Registry) {l : Layout} {folder : Path}

theorem isInside_iff (e : Engine) :
    e.isInside folder = true ↔
      ∃ names, folder.names? = some names ∧ e.layout.componentsDir.encloses names = true := by
  unfold isInside
  cases folder.names? with
  | none => simp
  | some names => simp

/-- A folder that lies inside as the components folder is spelled does so by
its place. -/
theorem holds_of_isInside (e : Engine) (h : e.isInside folder = true) : e.layout.Holds folder := by
  obtain ⟨names, hnames, hinside⟩ := e.isInside_iff.1 h
  obtain ⟨dir, hprefix, hdir⟩ := List.prefix_map_iff.1 (List.isPrefixOf_iff_prefix.1 hinside)
  refine ⟨names, dir, hnames, ?_, hprefix⟩
  rw [Path.names?, hdir, walk?_eq, walkFrom?_names]
  simp

theorem isInside_of_holds (e : Engine) (hplain : e.layout.componentsDir.isPlain = true)
    (h : e.layout.Holds folder) : e.isInside folder = true := by
  obtain ⟨names, dir, hnames, hdir, hprefix⟩ := h
  refine e.isInside_iff.2 ⟨names, hnames, ?_⟩
  rw [Path.encloses, Path.components_of_isPlain hplain hdir, List.isPrefixOf_iff_prefix]
  exact hprefix.map _

/-- In a folder of the components, the policy keeps the style of an import. -/
theorem targetStyle_of_holds (h : l.Holds folder) {path : List Char} {s : Style}
    (hs : Import.shape? l folder path = some s) :
    (⟨registry, l, .aliasOutside⟩ : Engine).targetStyle folder s = s := by
  cases hplain : l.componentsDir.isPlain with
  | true =>
    have hinside := isInside_of_holds ⟨registry, l, .aliasOutside⟩ hplain h
    simp [targetStyle, hinside]
  | false =>
    -- A spelling with a dot encloses nothing, but leaves no relative import.
    obtain rfl := Import.aliased_of_not_isPlain hplain hs
    exact targetStyle_aliased _ folder

theorem target?_aliasOutside (h : l.Holds folder) (c : Clause) :
    (⟨registry, l, .aliasOutside⟩ : Engine).target? folder c =
      (⟨registry, l, .preserve⟩ : Engine).target? folder c := by
  refine Option.ext fun ⟨i, path⟩ => ?_
  rw [target?_eq_some_iff, target?_eq_some_iff]
  refine and_congr_right fun _ => and_congr_right fun hs => and_congr_right fun _ => ?_
  rw [targetStyle_of_holds registry h hs]
  rfl

end Inside

section Outside

variable (e : Engine) {folder : Path} {c : Clause} {i : Import} {path : String}

theorem targetStyle_outside (hpolicy : e.policy = .aliasOutside) (hout : e.isInside folder = false)
    {s : Style} (hs : s ≠ .malformed) : e.targetStyle folder s = .aliased := by
  cases s with
  | sameFolder => simp [targetStyle, hpolicy, hout, Style.isRelative]
  | otherFolder => simp [targetStyle, hpolicy, hout, Style.isRelative]
  | aliased => exact targetStyle_aliased e folder
  | malformed => exact absurd rfl hs

theorem canonical?_aliased_iff : e.canonical? folder i .aliased = some path ↔
    ∃ home, e.registry.home? i.name = some home ∧
      path = i.withExtension (e.layout.aliasedText home i.name) := by
  rw [canonical?_eq_some_iff]
  constructor
  · rintro ⟨home, resolved, hhome, hresolved, hpath⟩
    rw [← Option.some.inj hresolved] at hpath
    exact ⟨home, hhome, hpath⟩
  · rintro ⟨home, hhome, hpath⟩
    exact ⟨home, e.layout.aliasedText home i.name, hhome, rfl, hpath⟩

/-- Outside the components, the new path of an import is the aliased text of
its module. -/
theorem target?_outside (hpolicy : e.policy = .aliasOutside) (hout : e.isInside folder = false) :
    e.target? folder c = some (i, path) ↔
      Import.ofClause? e.layout folder c = some i ∧ i.style ≠ .malformed ∧
      ∃ home, e.registry.home? i.name = some home ∧
        path = i.withExtension (e.layout.aliasedText home i.name) := by
  unfold target?
  rw [Option.bind_eq_bind, Option.bind_eq_some_iff]
  constructor
  · rintro ⟨j, hj, h⟩
    split at h
    · cases h
    rename_i hstyle
    obtain ⟨q, hq, h⟩ := Option.bind_eq_some_iff.1 h
    cases h
    rw [targetStyle_outside e hpolicy hout hstyle] at hq
    obtain ⟨home, hhome, rfl⟩ := (canonical?_aliased_iff e).1 hq
    exact ⟨hj, hstyle, home, hhome, rfl⟩
  · rintro ⟨hi, hstyle, home, hhome, rfl⟩
    refine ⟨i, hi, ?_⟩
    rw [if_neg hstyle, targetStyle_outside e hpolicy hout hstyle]
    exact Option.bind_eq_some_iff.2 ⟨_, (canonical?_aliased_iff e).2 ⟨home, hhome, rfl⟩, rfl⟩

/-- Outside the components, a clause that has its new path is not a relative
one of a registered module. -/
theorem home?_retarget_outside (hpolicy : e.policy = .aliasOutside)
    (hout : e.isInside folder = false)
    (hi : Import.ofClause? e.layout folder (e.retarget folder c) = some i)
    (hrel : i.style.isRelative = true) : e.registry.home? i.name = none := by
  have hstyle : i.style ≠ .malformed := by
    intro h
    rw [h] at hrel
    cases hrel
  cases ht : e.target? folder c with
  | none =>
    rw [retarget_of_none ht] at hi
    cases hhome : e.registry.home? i.name with
    | none => rfl
    | some home =>
      rw [(target?_outside e hpolicy hout).2 ⟨hi, hstyle, home, hhome, rfl⟩] at ht
      cases ht
  | some p =>
    -- The alias in front leaves no other reading.
    rw [retarget_of_some ht] at hi
    obtain ⟨hj, hjstyle, -⟩ := (target?_outside e hpolicy hout).1 ht
    obtain ⟨home, -, hcases⟩ := target_cases ht
    obtain ⟨⟨shape, hshape, hending⟩, -⟩ := Import.ofClause?_eq_some_iff.1 hi
    obtain ⟨-, rfl⟩ := Import.matched_of_styleOf hending hstyle
    rcases hcases with ⟨-, htext⟩ | ⟨hjrel, hkept, -⟩
    · obtain ⟨x, rest, hrest⟩ := List.exists_cons_of_ne_nil (show home.toList ++ '/' ::
        (p.1.name.toList ++ Import.extensionText p.1.extension) ≠ [] by simp)
      rw [htext, hrest, Import.shape?_alias] at hshape
      rw [← Option.some.inj hshape] at hrel
      cases hrel
    · rw [targetStyle_outside e hpolicy hout hjstyle] at hkept
      rw [← hkept] at hjrel
      cases hjrel

end Outside

/-- In a file of the components, by spelling or by place, the policy makes no
difference to anything that `rewrite` returns. In any other file it leaves no
relative import of a registered module, and every edit writes the alias, the
module's home and the module, with the extension of the import it replaces. -/
theorem aliasOutside_rewrite (registry : Registry) (l : Layout) (t : String) (folder : Path)
    (hs : (⟨registry, l, .aliasOutside⟩ : Engine).Legible) :
    (((∃ names, folder.names? = some names ∧ l.componentsDir.encloses names = true) ∨
        l.Holds folder) →
      (⟨registry, l, .aliasOutside⟩ : Engine).rewrite t folder =
        (⟨registry, l, .preserve⟩ : Engine).rewrite t folder) ∧
    ((¬ ∃ names, folder.names? = some names ∧ l.componentsDir.encloses names = true) →
      (∀ s ∈ sites ((⟨registry, l, .aliasOutside⟩ : Engine).rewrite t folder).text.toList,
        ∀ i, Import.ofClause? l folder s.clause = some i → i.style.isRelative = true →
          registry.home? i.name = none) ∧
      ∀ edit ∈ ((⟨registry, l, .aliasOutside⟩ : Engine).rewrite t folder).edits,
        ∃ s ∈ sites (l.repair t).text.toList, ∃ i home,
          Import.ofClause? l folder s.clause = some i ∧ registry.home? i.name = some home ∧
          edit = ⟨s.cursor.line, i.name, i.style, String.ofList s.clause.path,
            i.withExtension (l.aliasedText home i.name)⟩) := by
  constructor
  · intro h
    have hholds : l.Holds folder := by
      rcases h with h | h
      · exact holds_of_isInside ⟨registry, l, .aliasOutside⟩ ((isInside_iff _).2 h)
      · exact h
    exact rewrite_congr rfl (target?_aliasOutside registry hholds)
  · intro h
    have hout : (⟨registry, l, .aliasOutside⟩ : Engine).isInside folder = false :=
      Bool.eq_false_iff.2 fun hinside => h ((isInside_iff ⟨registry, l, .aliasOutside⟩).1 hinside)
    constructor
    · intro s hmem i hi hrel
      have hclause := clause_mem_scan_iff.2 ⟨s, hmem, rfl⟩
      rw [hs.scan_rewrite t folder] at hclause
      obtain ⟨c, -, hc⟩ := clause_mem_mapClause hclause
      rw [hc] at hi
      exact home?_retarget_outside ⟨registry, l, .aliasOutside⟩ rfl hout hi hrel
    · intro edit hmem
      obtain ⟨s, hsite, hedit⟩ := List.mem_filterMap.1 hmem
      obtain ⟨i, path, ht, -, rfl⟩ := editAt?_eq_some_iff.1 hedit
      obtain ⟨hi, -, home, hhome, rfl⟩ := (target?_outside ⟨registry, l, .aliasOutside⟩ rfl hout).1 ht
      exact ⟨s, hsite, i, home, hi, hhome, rfl⟩

/-- In a file of the components the relative path stays relative under both
policies. In another file it becomes aliased, and the relative import that is
left is one of an unknown module. -/
theorem aliasOutside_rewrite_button :
    ∃ registry : Registry, (⟨registry, {}, .aliasOutside⟩ : Engine).Legible ∧
      ((⟨registry, {}, .aliasOutside⟩ : Engine).rewrite "from './Button'"
        ⟨"src/x/../components/forms"⟩).text = "from '../common/Button'" ∧
      (⟨registry, {}, .aliasOutside⟩ : Engine).rewrite "from './Button'"
          ⟨"src/x/../components/forms"⟩ =
        (⟨registry, {}, .preserve⟩ : Engine).rewrite "from './Button'"
          ⟨"src/x/../components/forms"⟩ ∧
      ((⟨registry, {}, .aliasOutside⟩ : Engine).rewrite
        "from '../components/Button.tsx\nfrom '../components/Card'" ⟨"src/routes"⟩).text =
          "from '@/components/common/Button.tsx'\nfrom '../components/Card'" ∧
      (∃ s ∈ sites "from '@/components/common/Button.tsx'\nfrom '../components/Card'".toList,
        ∃ i, Import.ofClause? {} ⟨"src/routes"⟩ s.clause = some i ∧ i.style.isRelative = true ∧
          registry.home? i.name = none) ∧
      ∃ edit ∈ ((⟨registry, {}, .aliasOutside⟩ : Engine).rewrite
          "from '../components/Button.tsx\nfrom '../components/Card'" ⟨"src/routes"⟩).edits,
        ∃ (i : Import) (home : String), registry.home? i.name = some home ∧
          edit.after = i.withExtension (({} : Layout).aliasedText home i.name) := by
  have hs : (⟨⟨[("Button", "common")]⟩, {}, .aliasOutside⟩ : Engine).Legible :=
    ⟨by decide, by decide⟩
  have hinside : (⟨"src/x/../components/forms"⟩ : Path).names? =
      some ["src", "components", "forms"] := by decide +kernel
  have houtside : (⟨"src/routes"⟩ : Path).names? = some ["src", "routes"] := by decide +kernel
  have htext : ((⟨⟨[("Button", "common")]⟩, {}, .aliasOutside⟩ : Engine).rewrite
      "from '../components/Button.tsx\nfrom '../components/Card'" ⟨"src/routes"⟩).text =
        "from '@/components/common/Button.tsx'\nfrom '../components/Card'" := by decide +kernel
  have hsame := (aliasOutside_rewrite _ _ "from './Button'" ⟨"src/x/../components/forms"⟩ hs).1
    (.inl ⟨_, hinside, by decide +kernel⟩)
  obtain ⟨hleft, hedits⟩ := (aliasOutside_rewrite _ _
      "from '../components/Button.tsx\nfrom '../components/Card'" ⟨"src/routes"⟩ hs).2 (by
    rintro ⟨names, hnames, hin⟩
    rw [← Option.some.inj (houtside.symm.trans hnames)] at hin
    exact absurd hin (by decide +kernel))
  rw [htext] at hleft
  have hclause : Piece.clause ⟨[' '], .single, "../components/Card".toList, .matched⟩ ∈
      scan "from '@/components/common/Button.tsx'\nfrom '../components/Card'".toList := by
    decide +kernel
  obtain ⟨s, hmem, hc⟩ := clause_mem_scan_iff.1 hclause
  have hi : Import.ofClause? {} ⟨"src/routes"⟩ s.clause = some ⟨.otherFolder, "Card", none⟩ := by
    rw [hc]
    decide +kernel
  have hedit : ⟨1, "Button", .otherFolder, "../components/Button.tsx",
      "@/components/common/Button.tsx"⟩ ∈ ((⟨⟨[("Button", "common")]⟩, {}, .aliasOutside⟩ :
        Engine).rewrite "from '../components/Button.tsx\nfrom '../components/Card'"
          ⟨"src/routes"⟩).edits := by decide +kernel
  obtain ⟨site, -, i, home, -, hhome, heq⟩ := hedits _ hedit
  exact ⟨_, hs, by decide +kernel, hsame, htext, ⟨s, hmem, _, hi, rfl, hleft s hmem _ hi rfl⟩,
    _, hedit, i, home, hhome, congrArg Edit.after heq⟩

end Engine

end Relocate
