import Relocate.Proofs.Rewrite.Spelling

/-!
# How the folder of a file is spelled

A file's folder decides three things: where a relative path leads, which way
leads from the file to a module, and whether the file lies inside the
components. Each of them asks for the place of the folder and not for its
spelling, so two spellings of one place are interchangeable
(`rewrite_eq_of_names?`, `audit_eq_of_names?`).

Two places are not. Of two folders take the one that lies at least as deep, and
let the components be a place directly below it: there it is reached by a
relative path, which from the other folder leads elsewhere (`told_apart`).

* `folder_spelling_iff`: hence the normal form is just what counts.
-/
namespace Relocate

open Text

variable {f g : Path}

/-! ## One place -/

namespace Import

theorem shape?_congr (h : f.names? = g.names?) (l : Layout) (path : List Char) :
    shape? l f path = shape? l g path := by
  simp only [shape?, Path.specifierNames?_congr h]

theorem ofClause?_congr (h : f.names? = g.names?) (l : Layout) (c : Clause) :
    ofClause? l f c = ofClause? l g c := by
  rw [ofClause?, ofClause?, shape?_congr h]

end Import

theorem Layout.canonical?_congr (h : f.names? = g.names?) (l : Layout) (home name : String)
    (style : Style) : l.canonical? home name f style = l.canonical? home name g style := by
  have hrelative : l.relativeText? home name f = l.relativeText? home name g := by
    rw [relativeText?_eq, relativeText?_eq, h]
  cases style with
  | sameFolder => exact hrelative
  | otherFolder => exact hrelative
  | aliased => rfl
  | malformed => rfl

namespace Engine

theorem targetStyle_congr (h : f.names? = g.names?) (e : Engine) (s : Style) :
    e.targetStyle f s = e.targetStyle g s := by
  have hinside : e.isInside f = e.isInside g := by
    unfold isInside
    rw [h]
  unfold targetStyle
  rw [hinside]

theorem canonical?_congr (h : f.names? = g.names?) (e : Engine) (i : Import) (s : Style) :
    e.canonical? f i s = e.canonical? g i s := by
  simp only [canonical?, Layout.canonical?_congr h]

theorem target?_congr (h : f.names? = g.names?) (e : Engine) (c : Clause) :
    e.target? f c = e.target? g c := by
  simp only [target?, Import.ofClause?_congr h, targetStyle_congr h, canonical?_congr h]

theorem rewrite_eq_of_names? (h : f.names? = g.names?) (e : Engine) (text : String) :
    e.rewrite text f = e.rewrite text g := rewrite_congr rfl (target?_congr h e)

theorem audit_eq_of_names? (h : f.names? = g.names?) (e : Engine) (text : String) :
    e.audit text f = e.audit text g := by
  have hfinding : e.findingAt? f = e.findingAt? g := by
    funext s
    simp only [findingAt?, Import.ofClause?_congr h, canonical?_congr h]
  rw [audit, audit, hfinding]

end Engine

/-! ## Two places -/

/-- A path to `a` in the folder itself, with a slash too many. -/
def besidePath : List Char := ['.', '/', '/', 'a']

/-- Rewrites imports of `a`, where the components are the `a` of a folder. -/
def besideEngine (names : List String) : Engine :=
  ⟨⟨[("a", "b")]⟩, { componentsDir := .ofNames (names ++ ["a"]) }, .aliasOutside⟩

theorem exists_site_beside : ∃ s, sites (probeText besidePath).toList = [s] ∧
    s.clause.path = besidePath ∧ s.clause.ending = .matched := by
  have hsites : (sites (probeText besidePath).toList).map
      (fun s => (s.clause.path, s.clause.ending)) = [(besidePath, .matched)] := by decide +kernel
  obtain ⟨s, hs, hclause⟩ := List.map_eq_singleton_iff.1 hsites
  exact ⟨s, hs, Prod.mk.inj hclause⟩

theorem specifierNames?_beside (folder : Path) :
    folder.specifierNames? besidePath = folder.names?.map (· ++ ["a"]) := by
  have hsegments : (besidePath.splitOn '/').filterMap Component.ofSegment? = [.name "a"] := by
    decide
  rw [Path.specifierNames?, hsegments, walk?_goes_on, Path.names?]
  cases walk? folder.components with
  | none => rfl
  | some names => simp [walkFrom?, Component.enter?]

section Beside

variable {gs : List String}

theorem encloses_beside (hgs : ∀ n ∈ gs, IsName n) (names : List String) :
    (besideEngine gs).layout.componentsDir.encloses names ↔ gs ++ ["a"] <+: names := by
  have hnames : ∀ n ∈ gs ++ ["a"], IsName n := by
    intro n hn
    rcases List.mem_append.1 hn with hn | hn
    · exact hgs n hn
    · rw [List.mem_singleton.1 hn]
      decide
  rw [besideEngine, Path.encloses, Path.components_ofNames hnames, List.isPrefixOf_iff_prefix]
  exact List.prefix_map_iff_of_injective fun _ _ h => Component.name.inj h

theorem shape?_beside (hgs : ∀ n ∈ gs, IsName n) (folder : Path) :
    Import.shape? (besideEngine gs).layout folder besidePath = folder.names?.bind fun names =>
      if gs ++ ["a"] <+: names ++ ["a"] then some .otherFolder else none := by
  have hdrop : dropPrefix? (besideEngine gs).layout.aliasBase besidePath = none := by
    change dropPrefix? ({} : Layout).aliasBase besidePath = none
    decide
  simp only [Import.shape?, hdrop, specifierNames?_beside, ← encloses_beside hgs]
  cases folder.names? with
  | none => rfl
  | some names =>
    simp only [Option.map_some, Option.bind_some]
    cases (besideEngine gs).layout.componentsDir.encloses (names ++ ["a"]) <;> rfl

/-- From the folder itself the path is an import, and the policy wants it
aliased, for the folder does not lie inside its own `a`. -/
theorem target?_beside (hg : g.names? = some gs) {c : Clause} (hpath : c.path = besidePath)
    (hending : c.ending = .matched) :
    (besideEngine gs).target? g c = some (⟨.otherFolder, "a", none⟩, "@/components/b/a") := by
  have hgs := isName_of_names? hg
  have houtside : (besideEngine gs).isInside g = false := by
    rw [Engine.isInside, hg, Bool.eq_false_iff, ne_eq, encloses_beside hgs]
    intro hprefix
    have hlength := hprefix.length_le
    rw [List.length_append, List.length_singleton] at hlength
    omega
  have hstyle : (besideEngine gs).targetStyle g .otherFolder = .aliased := by
    change (if true && !(besideEngine gs).isInside g then Style.aliased else .otherFolder) = _
    rw [houtside]
    rfl
  have htext : (besideEngine gs).layout.canonical? "b" "a" g .aliased =
      some "@/components/b/a" := by
    change some (({} : Layout).aliasedText "b" "a") = _
    decide
  refine Engine.target?_eq_some_iff.2 ⟨hending, ?_, ?_, ?_⟩
  · rw [hpath, shape?_beside hgs, hg]
    exact if_pos (List.prefix_refl _)
  · rw [hpath]
    exact ⟨by decide, by decide⟩
  · rw [hstyle]
    exact Engine.canonical?_eq_some_iff.2 ⟨"b", _, rfl, htext, rfl⟩

/-- From another folder, which lies no deeper, it is none. -/
theorem shape?_aside (hg : g.names? = some gs)
    (hf : ∀ fs, f.names? = some fs → fs ≠ gs ∧ fs.length ≤ gs.length) :
    Import.shape? (besideEngine gs).layout f besidePath = none := by
  rw [shape?_beside (isName_of_names? hg)]
  cases hnames : f.names? with
  | none => rfl
  | some fs =>
    obtain ⟨hne, hlength⟩ := hf fs hnames
    refine if_neg fun hprefix => hne ?_
    have hsame := hprefix.eq_of_length_le (by simpa using hlength)
    exact (List.append_cancel_right hsame).symm

/-- The engine tells the two folders apart, by its audit and by its edits. -/
theorem told_apart (hg : g.names? = some gs)
    (hf : ∀ fs, f.names? = some fs → fs ≠ gs ∧ fs.length ≤ gs.length) :
    (besideEngine gs).audit (probeText besidePath) f ≠
        (besideEngine gs).audit (probeText besidePath) g ∧
      (besideEngine gs).rewrite (probeText besidePath) f ≠
        (besideEngine gs).rewrite (probeText besidePath) g := by
  obtain ⟨s, hsites, hpath, hending⟩ := exists_site_beside
  have htarget := target?_beside hg hpath hending
  have hnone : Import.ofClause? (besideEngine gs).layout f s.clause = none := by
    rw [Import.ofClause?, hpath, shape?_aside hg hf]
    rfl
  constructor
  · obtain ⟨-, hshape, hnames, -⟩ := Engine.target?_eq_some_iff.1 htarget
    have himport := Import.ofClause?_eq_some_iff.2
      ⟨⟨_, hshape, by rw [hending]; rfl⟩, hnames⟩
    have hfound : (besideEngine gs).audit (probeText besidePath) g ≠ [] := by
      rw [Engine.audit, hsites]
      simp [Engine.findingAt?, himport]
    rw [Engine.audit, hsites]
    simpa [Engine.findingAt?, hnone] using hfound.symm
  · have hedits : ∀ folder, ((besideEngine gs).rewrite (probeText besidePath) folder).edits =
        [s].filterMap ((besideEngine gs).editAt? folder) := by
      intro folder
      rw [Engine.rewrite]
      simp only [(settled_of_site _ hsites hending).2.2, hsites]
    have hleft : (besideEngine gs).editAt? f s = none := by
      simp [Engine.editAt?, Engine.target?, hnone]
    have hedit := Engine.editAt?_eq_some_iff.2 ⟨_, _, htarget, by rw [hpath]; decide, rfl⟩
    intro hsame
    have hsame := congrArg Rewritten.edits hsame
    rw [hedits, hedits, List.filterMap_cons_none hleft, List.filterMap_cons_some hedit] at hsame
    cases hsame

end Beside

/-- Two folders in different places, or of which only one is in the project,
are told apart by some engine on some text. -/
theorem exists_told_apart (h : f.names? ≠ g.names?) : ∃ (e : Engine) (text : String),
    e.audit text f ≠ e.audit text g ∧ e.rewrite text f ≠ e.rewrite text g := by
  cases hf : f.names? with
  | none =>
    cases hg : g.names? with
    | none => exact absurd (hf.trans hg.symm) h
    | some gs => exact ⟨_, _, told_apart hg (by simp [hf])⟩
  | some fs =>
    cases hg : g.names? with
    | none =>
      obtain ⟨haudit, hrewrite⟩ := told_apart hf (f := g) (by simp [hg])
      exact ⟨_, _, haudit.symm, hrewrite.symm⟩
    | some gs =>
      have hne : fs ≠ gs := fun hsame => h (by rw [hf, hg, hsame])
      rcases Nat.le_total fs.length gs.length with hle | hle
      · exact ⟨_, _, told_apart hg (by simp [hf, hne, hle])⟩
      · obtain ⟨haudit, hrewrite⟩ := told_apart hf (f := g) (by simp [hg, hne.symm, hle])
        exact ⟨_, _, haudit.symm, hrewrite.symm⟩

/-- Two folders are interchangeable, for rewriting and for audit, whatever the
registry, the layout, the policy and the text, exactly when they have one
normal form. -/
theorem Engine.folder_spelling_iff (f g : Path) :
    ((∀ (e : Engine) (text : String), e.rewrite text f = e.rewrite text g) ↔
      f.normalize? = g.normalize?) ∧
    ((∀ (e : Engine) (text : String), e.audit text f = e.audit text g) ↔
      f.normalize? = g.normalize?) := by
  rw [Path.normalize?_eq_iff]
  refine ⟨⟨?_, fun h e text => rewrite_eq_of_names? h e text⟩,
    ⟨?_, fun h e text => audit_eq_of_names? h e text⟩⟩
  · intro hsame
    refine Decidable.byContradiction fun hne => ?_
    obtain ⟨e, text, -, hrewrite⟩ := exists_told_apart hne
    exact hrewrite (hsame e text)
  · intro hsame
    refine Decidable.byContradiction fun hne => ?_
    obtain ⟨e, text, haudit, -⟩ := exists_told_apart hne
    exact haudit (hsame e text)

end Relocate
