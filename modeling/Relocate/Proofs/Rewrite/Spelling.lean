import Relocate.Config.Basic
import Relocate.Proofs.Path.Normal
import Relocate.Proofs.Repair.Settled
import Relocate.Proofs.Rewrite.Target

/-!
# How the folder of the components is spelled

A module's home is found by walking the folder's components, so every spelling
of the folder leads there. Whether a path lies inside is told by comparing
names with the components as they are spelled, and a spelling with a dot in it
has nothing inside (`encloses_of_not_isPlain`). Then no relative path is an
import, audit is silent, and no relative path is edited.

* `SpelledAlike`: what two layouts must share to be told apart by nothing;
  `rewrite_eq` and `audit_eq` follow.
* `exists_audit_ne_nil`, `exists_relative_edit`: under a plain spelling some
  text has a finding and some text has a relative path edited.
* `spelled_alike_iff`: two spellings of one folder are interchangeable exactly
  when both are plain or neither is, unless the alias hides every relative path.
-/
namespace Relocate

open Text

/-! ## Spellings of one folder -/

namespace Path

variable {p q : Path} {names : List String}

/-- What is not spelled with names alone has nothing inside. -/
theorem encloses_of_not_isPlain (h : p.isPlain = false) (names : List String) :
    p.encloses names = false := by
  rw [encloses, Bool.eq_false_iff]
  intro hprefix
  rw [isPlain, List.all_eq_false] at h
  obtain ⟨c, hc, hname⟩ := h
  obtain ⟨n, -, rfl⟩ := List.mem_map.1 ((List.isPrefixOf_iff_prefix.1 hprefix).subset hc)
  exact hname rfl

theorem encloses_congr (hp : p.names? = some names) (hq : q.names? = some names)
    (h : p.isPlain = q.isPlain) (place : List String) : p.encloses place = q.encloses place := by
  cases hplain : q.isPlain with
  | false => rw [encloses_of_not_isPlain (h.trans hplain), encloses_of_not_isPlain hplain]
  | true =>
    rw [encloses, encloses, components_of_isPlain (h.trans hplain) hp,
      components_of_isPlain hplain hq]

/-- Two paths that lead to one place, and so does what is put behind them. An
empty path is left out: behind it, a leading dot says something else. -/
structure LeadsAlike (p q : Path) : Prop where
  names : p.names? = q.names?
  left : p.text.toList ≠ []
  right : q.text.toList ≠ []

theorem join_ne_nil (h : p.text.toList ≠ []) (r : Path) : (p.join r).text.toList ≠ [] := by
  unfold join
  split
  · rename_i habs
    intro hnil
    simp [isAbsolute, hnil] at habs
  · split <;> simp [h]

theorem LeadsAlike.join (h : p.LeadsAlike q) (r : Path) : (p.join r).LeadsAlike (q.join r) := by
  refine ⟨?_, join_ne_nil h.left r, join_ne_nil h.right r⟩
  cases hr : r.isAbsolute with
  | true => rw [Path.join, Path.join, if_pos hr, if_pos hr]
  | false => rw [names?_join_eq h.left hr, names?_join_eq h.right hr, h.names]

end Path

/-! ## Layouts that nothing tells apart -/

/-- One alias and one place of the components; and where relative paths can be
imports at all, the same paths lie inside. -/
structure Layout.SpelledAlike (l l' : Layout) : Prop where
  aliasPrefix : l.aliasPrefix = l'.aliasPrefix
  dir : l.componentsDir.LeadsAlike l'.componentsDir
  inside : l.aliasBase <+: ['.'] ∨
    ∀ place, l.componentsDir.encloses place = l'.componentsDir.encloses place

namespace Import

variable {l : Layout} {folder : Path} {path : List Char} {s : Style}

/-- Where the alias is a dot or nothing, it starts every relative path. -/
theorem exists_dropPrefix?_of_dot (h : l.aliasBase <+: ['.']) (hdotted : isDotted path) :
    ∃ rest, dropPrefix? l.aliasBase path = some rest := by
  have hpath : ['.'] <+: path := by
    rw [isDotted, Bool.or_eq_true, List.isPrefixOf_iff_prefix, List.isPrefixOf_iff_prefix] at hdotted
    rcases hdotted with hhere | hup
    · exact .trans (by decide) hhere
    · exact .trans (by decide) hup
  obtain ⟨rest, hrest⟩ := h.trans hpath
  exact ⟨rest, dropPrefix?_eq_some_iff.2 hrest.symm⟩

theorem aliased_of_dot (h : l.aliasBase <+: ['.']) (hs : shape? l folder path = some s) :
    s = .aliased := by
  unfold shape? at hs
  split at hs
  · cases hs
    rfl
  · cases hs
  · rename_i hdrop
    split at hs
    · rename_i hdotted
      obtain ⟨rest, hrest⟩ := exists_dropPrefix?_of_dot h hdotted
      rw [hrest] at hdrop
      cases hdrop
    · cases hs

end Import

namespace Layout.SpelledAlike

open Import

variable {l l' : Layout}

theorem aliasBase_eq (h : l.SpelledAlike l') : l'.aliasBase = l.aliasBase := by
  rw [aliasBase, aliasBase, h.aliasPrefix]

theorem canonical?_eq (h : l.SpelledAlike l') (home name : String) (folder : Path) (style : Style) :
    l.canonical? home name folder style = l'.canonical? home name folder style := by
  have hrelative : l.relativeText? home name folder = l'.relativeText? home name folder := by
    rw [relativeText?_eq, relativeText?_eq, homePath, homePath, ((h.dir.join _).join _).names]
  cases style with
  | sameFolder => exact hrelative
  | otherFolder => exact hrelative
  | aliased => rw [canonical?, canonical?, aliasedText, aliasedText, h.aliasBase_eq]
  | malformed => rfl

theorem shape?_eq (h : l.SpelledAlike l') (folder : Path) (path : List Char) :
    shape? l folder path = shape? l' folder path := by
  rcases h.inside with hdot | hinside
  · cases hdotted : isDotted path with
    | true =>
      obtain ⟨rest, hrest⟩ := exists_dropPrefix?_of_dot hdot hdotted
      simp only [shape?, h.aliasBase_eq, hrest]
      split
      · rfl
      · rfl
      · contradiction
    | false => simp only [shape?, h.aliasBase_eq, hdotted, Bool.false_eq_true, if_false]
  · simp only [shape?, h.aliasBase_eq, hinside]

theorem ofClause?_eq (h : l.SpelledAlike l') (folder : Path) (c : Clause) :
    ofClause? l folder c = ofClause? l' folder c := by
  rw [ofClause?, ofClause?, h.shape?_eq]

theorem repair_eq (h : l.SpelledAlike l') (text : String) : l.repair text = l'.repair text := by
  have htracks : l.tracks = l'.tracks := by
    funext path
    rw [tracks, tracks, aliasRoot, aliasRoot, h.aliasPrefix]
  have hpiece : l.repairPiece = l'.repairPiece := by
    funext piece
    cases piece <;> simp only [repairPiece, htracks]
  have hrepair : l.repairAt? = l'.repairAt? := by
    funext s
    simp only [repairAt?, htracks]
  have hambiguity : l.ambiguityAt? = l'.ambiguityAt? := by
    funext s
    simp only [ambiguityAt?, htracks]
  simp only [repair, hpiece, hrepair, hambiguity]

variable (registry : Registry) (policy : Policy)

/-- The policy asks whether the folder lies inside for relative imports only. -/
theorem targetStyle_eq (h : l.SpelledAlike l') {folder : Path} {path : List Char} {s : Style}
    (hs : shape? l folder path = some s) :
    (⟨registry, l, policy⟩ : Engine).targetStyle folder s =
      (⟨registry, l', policy⟩ : Engine).targetStyle folder s := by
  cases policy with
  | preserve => rfl
  | aliasOutside =>
    rcases h.inside with hdot | hinside
    · obtain rfl := aliased_of_dot hdot hs
      rfl
    · have hin : (⟨registry, l, .aliasOutside⟩ : Engine).isInside folder =
          (⟨registry, l', .aliasOutside⟩ : Engine).isInside folder := by
        unfold Engine.isInside
        cases folder.names? with
        | none => rfl
        | some names => exact hinside names
      simp only [Engine.targetStyle, hin]

theorem engine_canonical?_eq (h : l.SpelledAlike l') (folder : Path) (i : Import) (s : Style) :
    (⟨registry, l, policy⟩ : Engine).canonical? folder i s =
      (⟨registry, l', policy⟩ : Engine).canonical? folder i s := by
  simp only [Engine.canonical?, h.canonical?_eq]

theorem target?_eq (h : l.SpelledAlike l') (folder : Path) (c : Clause) :
    (⟨registry, l, policy⟩ : Engine).target? folder c =
      (⟨registry, l', policy⟩ : Engine).target? folder c := by
  refine Option.ext fun ⟨i, path⟩ => ?_
  rw [Engine.target?_eq_some_iff, Engine.target?_eq_some_iff, ← h.shape?_eq]
  refine and_congr_right fun _ => and_congr_right fun hs => and_congr_right fun _ => ?_
  rw [h.targetStyle_eq registry policy hs, h.engine_canonical?_eq]

theorem rewrite_eq (h : l.SpelledAlike l') (text : String) (folder : Path) :
    (⟨registry, l, policy⟩ : Engine).rewrite text folder =
      (⟨registry, l', policy⟩ : Engine).rewrite text folder :=
  Engine.rewrite_congr (h.repair_eq text) (h.target?_eq registry policy folder)

theorem audit_eq (h : l.SpelledAlike l') (text : String) (folder : Path) :
    (⟨registry, l, policy⟩ : Engine).audit text folder =
      (⟨registry, l', policy⟩ : Engine).audit text folder := by
  have hfinding : (⟨registry, l, policy⟩ : Engine).findingAt? folder =
      (⟨registry, l', policy⟩ : Engine).findingAt? folder := by
    funext s
    simp only [Engine.findingAt?, h.ofClause?_eq, h.engine_canonical?_eq]
  simp only [Engine.audit, hfinding]

end Layout.SpelledAlike

/-! ## What tells two spellings apart -/

/-- With a dot in the spelling, only the alias makes imports. -/
theorem Import.aliased_of_not_isPlain {l : Layout} (h : l.componentsDir.isPlain = false)
    {folder : Path} {path : List Char} {s : Style} (hs : shape? l folder path = some s) :
    s = .aliased := by
  rcases shape?_eq_some hs with ⟨haliased, -⟩ | ⟨-, -, place, -, hinside⟩
  · exact haliased
  · rw [Path.encloses_of_not_isPlain h] at hinside
    cases hinside

namespace Engine

theorem audit_of_not_isPlain (e : Engine) (h : e.layout.componentsDir.isPlain = false) (text : String)
    (folder : Path) : e.audit text folder = [] := by
  refine List.filterMap_eq_nil_iff.2 fun s _ => ?_
  unfold findingAt?
  split
  · rename_i i hi
    refine if_neg fun hother => ?_
    obtain ⟨⟨shape, hshape, hstyle⟩, -⟩ := Import.ofClause?_eq_some_iff.1 hi
    rw [hother] at hstyle
    obtain ⟨-, rfl⟩ := Import.matched_of_styleOf hstyle (by decide)
    cases Import.aliased_of_not_isPlain h hshape
  · rfl

theorem edits_of_not_isPlain (e : Engine) (h : e.layout.componentsDir.isPlain = false) {text : String}
    {folder : Path} {x : Edit} (hx : x ∈ (e.rewrite text folder).edits) : x.style = .aliased := by
  obtain ⟨c, i, ht, -, hstyle, -⟩ := of_mem_edits hx
  obtain ⟨-, hshape, -⟩ := target?_eq_some_iff.1 ht
  rw [hstyle]
  exact Import.aliased_of_not_isPlain h hshape

end Engine

/-- Two relative paths that share no more than their first dot. -/
def probes : List (List Char) := [['.', '/', 'x', '/', 'a'], ['.', '.', '/', 'x', '/', 'a']]

/-- The text with one clause, whose path is given. -/
def probeText (path : List Char) : String := String.ofList ("from '".toList ++ path ++ ['\''])

theorem exists_probe {b : List Char} (h : ¬ b <+: ['.']) : ∃ path ∈ probes, ¬ b <+: path := by
  by_cases hhere : b <+: ['.', '/', 'x', '/', 'a']
  · refine ⟨['.', '.', '/', 'x', '/', 'a'], by decide, fun hup => h ?_⟩
    match b with
    | [] => exact List.nil_prefix
    | [c] => exact List.cons_prefix_cons.2 ⟨(List.cons_prefix_cons.1 hhere).1, List.nil_prefix⟩
    | c :: d :: b =>
      obtain ⟨rfl, -⟩ := List.cons_prefix_cons.1 (List.cons_prefix_cons.1 hhere).2
      exact absurd (List.cons_prefix_cons.1 (List.cons_prefix_cons.1 hup).2).1 (by decide)
  · exact ⟨['.', '/', 'x', '/', 'a'], by decide, hhere⟩

theorem sites_probe : ∀ path ∈ probes,
    (sites (probeText path).toList).map (fun s => (s.clause.path, s.clause.ending)) =
      [(path, .matched)] := by decide +kernel

/-- Where the one clause of a text is closed, there is nothing to repair. -/
theorem settled_of_site (l : Layout) {text : String} {s : Site} (hsites : sites text.toList = [s])
    (hending : s.clause.ending = .matched) : l.Settled text := by
  refine Layout.settled_iff.2 fun c hc => ?_
  obtain ⟨s', hs', rfl⟩ := clause_mem_scan_iff.1 hc
  obtain rfl : s' = s := by simpa [hsites] using hs'
  simp [Layout.isBroken, hending, RepairKind.ofEnding?]

theorem names_probe {path : List Char} (h : path ∈ probes) :
    (⟨.otherFolder, "a", none⟩ : Import).Names path := by
  have hsplit : ∀ path ∈ probes,
      Import.splitExtension (afterLast '/' path) = (['a'], none) := by decide
  exact ⟨by decide, hsplit path h⟩

section Plain

variable {l : Layout} {names : List String}

theorem names?_folder (hnames : l.componentsDir.names? = some names) :
    (l.componentsDir.join ⟨"x"⟩).names? = some (names ++ ["x"]) := by
  rw [Path.names?, Path.components_join_name _ (by decide), walk?_append hnames]
  simp [walkFrom?, Component.enter?]

/-- Below the components both paths lead into them. -/
theorem exists_specifierNames? (hnames : l.componentsDir.names? = some names) {path : List Char}
    (hpath : path ∈ probes) :
    ∃ below, (l.componentsDir.join ⟨"x"⟩).specifierNames? path = some (names ++ below) := by
  rw [Path.specifierNames?, walk?_append (names?_folder hnames), List.reverse_append]
  simp only [probes, List.mem_cons, List.not_mem_nil, or_false] at hpath
  rcases hpath with rfl | rfl
  · have hsegments : (['.', '/', 'x', '/', 'a'].splitOn '/').filterMap Component.ofSegment? =
        [.name "x", .name "a"] := by decide
    exact ⟨["x", "x", "a"], by simp [hsegments, walkFrom?, Component.enter?]⟩
  · have hsegments : (['.', '.', '/', 'x', '/', 'a'].splitOn '/').filterMap
        Component.ofSegment? = [.up, .name "x", .name "a"] := by decide
    exact ⟨["x", "a"], by simp [hsegments, walkFrom?, Component.enter?]⟩

theorem shape?_probe (hplain : l.componentsDir.isPlain)
    (hnames : l.componentsDir.names? = some names) {path : List Char} (hpath : path ∈ probes)
    (halias : ¬ l.aliasBase <+: path) :
    Import.shape? l (l.componentsDir.join ⟨"x"⟩) path = some .otherFolder := by
  have hdrop : dropPrefix? l.aliasBase path = none := by
    refine Option.eq_none_iff_forall_ne_some.2 fun rest hrest => halias ?_
    exact ⟨rest, (dropPrefix?_eq_some_iff.1 hrest).symm⟩
  obtain ⟨below, hbelow⟩ := exists_specifierNames? hnames hpath
  have hinside : l.componentsDir.encloses (names ++ below) := by
    rw [Path.encloses, Path.components_of_isPlain hplain hnames, List.map_append]
    exact List.isPrefixOf_iff_prefix.2 (List.prefix_append _ _)
  simp only [Import.shape?, hdrop, hbelow, hinside]
  simp only [probes, List.mem_cons, List.not_mem_nil, or_false] at hpath
  rcases hpath with rfl | rfl <;> rfl

/-- Where the spelling is plain and the alias leaves relative paths alone, one
of the two paths is a relative import. -/
theorem exists_relative_site (hplain : l.componentsDir.isPlain)
    (hnames : l.componentsDir.names? = some names) (halias : ¬ l.aliasBase <+: ['.']) :
    ∃ path ∈ probes, ∃ s, sites (probeText path).toList = [s] ∧ s.clause.path = path ∧
      s.clause.ending = .matched ∧
      Import.shape? l (l.componentsDir.join ⟨"x"⟩) path = some .otherFolder := by
  obtain ⟨path, hpath, hnot⟩ := exists_probe halias
  obtain ⟨s, hsites, hs⟩ := List.map_eq_singleton_iff.1 (sites_probe path hpath)
  obtain ⟨hclause, hending⟩ := Prod.mk.inj hs
  exact ⟨path, hpath, s, hsites, hclause, hending, shape?_probe hplain hnames hpath hnot⟩

theorem exists_audit_ne_nil (registry : Registry) (policy : Policy)
    (hplain : l.componentsDir.isPlain) (hnames : l.componentsDir.names? = some names)
    (halias : ¬ l.aliasBase <+: ['.']) :
    ∃ text folder, (⟨registry, l, policy⟩ : Engine).audit text folder ≠ [] := by
  obtain ⟨path, hpath, s, hsites, rfl, hending, hshape⟩ :=
    exists_relative_site hplain hnames halias
  refine ⟨probeText s.clause.path, l.componentsDir.join ⟨"x"⟩, ?_⟩
  have himport := Import.ofClause?_eq_some_iff.2
    ⟨⟨_, hshape, by rw [hending]; rfl⟩, names_probe hpath⟩
  rw [Engine.audit, hsites]
  simp [Engine.findingAt?, himport]

/-- Beside the module's home, and below the components. -/
theorem canonical?_folder (hnames : l.componentsDir.names? = some names) :
    l.canonical? "b" "a" (l.componentsDir.join ⟨"x"⟩) .otherFolder = some "../b/a" := by
  have hhome : (l.homePath "b" "a").names? = some (names ++ ["b", "a"]) := by
    rw [Path.names?, Layout.homePath, Path.components_join_name _ (by decide),
      Path.components_join_name _ (by decide), List.append_assoc, walk?_append hnames]
    simp [walkFrom?, Component.enter?]
  rw [Layout.canonical?, Layout.relativeText?_eq, names?_folder hnames, hhome]
  exact congrArg (fun cs => some (relativeText cs)) (difference_append names ["x"] ["b", "a"])

theorem exists_relative_edit (hplain : l.componentsDir.isPlain)
    (hnames : l.componentsDir.names? = some names) (halias : ¬ l.aliasBase <+: ['.']) :
    ∃ text folder, ∃ x ∈ ((⟨⟨[("a", "b")]⟩, l, .preserve⟩ : Engine).rewrite text folder).edits,
      x.style = .otherFolder := by
  obtain ⟨path, hpath, s, hsites, rfl, hending, hshape⟩ :=
    exists_relative_site hplain hnames halias
  have hsettled := settled_of_site l hsites hending
  have htarget : (⟨⟨[("a", "b")]⟩, l, .preserve⟩ : Engine).target?
      (l.componentsDir.join ⟨"x"⟩) s.clause = some (⟨.otherFolder, "a", none⟩, "../b/a") :=
    Engine.target?_eq_some_iff.2 ⟨hending, hshape, names_probe hpath,
      Engine.canonical?_eq_some_iff.2 ⟨"b", "../b/a", rfl, canonical?_folder hnames, rfl⟩⟩
  have hne : ∀ path ∈ probes, "../b/a".toList ≠ path := by decide
  have hedit : (⟨⟨[("a", "b")]⟩, l, .preserve⟩ : Engine).editAt? (l.componentsDir.join ⟨"x"⟩) s =
      some ⟨s.cursor.line, "a", .otherFolder, String.ofList s.clause.path, "../b/a"⟩ := by
    simp only [Engine.editAt?, htarget, if_neg (hne _ hpath)]
  refine ⟨probeText s.clause.path, l.componentsDir.join ⟨"x"⟩, _,
    List.mem_filterMap.2 ⟨s, ?_, hedit⟩, rfl⟩
  rw [hsettled.2.2, hsites]
  exact List.mem_singleton_self s

end Plain

theorem Layout.isPlain_of_audit_eq {l l' : Layout} {names : List String}
    (hnames : l.componentsDir.names? = some names) (halias : ¬ l.aliasBase <+: ['.'])
    (hsame : ∀ registry policy text folder, (⟨registry, l, policy⟩ : Engine).audit text folder =
      (⟨registry, l', policy⟩ : Engine).audit text folder)
    (hplain : l.componentsDir.isPlain) : l'.componentsDir.isPlain := by
  cases hplain' : l'.componentsDir.isPlain with
  | true => rfl
  | false =>
    obtain ⟨text, folder, hfound⟩ := exists_audit_ne_nil {} .preserve hplain hnames halias
    rw [hsame {} .preserve text folder] at hfound
    exact absurd (Engine.audit_of_not_isPlain ⟨{}, l', .preserve⟩ hplain' text folder) hfound

theorem Layout.isPlain_of_rewrite_eq {l l' : Layout} {names : List String}
    (hnames : l.componentsDir.names? = some names) (halias : ¬ l.aliasBase <+: ['.'])
    (hsame : ∀ registry policy text folder, (⟨registry, l, policy⟩ : Engine).rewrite text folder =
      (⟨registry, l', policy⟩ : Engine).rewrite text folder)
    (hplain : l.componentsDir.isPlain) : l'.componentsDir.isPlain := by
  cases hplain' : l'.componentsDir.isPlain with
  | true => rfl
  | false =>
    obtain ⟨text, folder, x, hx, hstyle⟩ := exists_relative_edit hplain hnames halias
    rw [hsame] at hx
    have haliased := Engine.edits_of_not_isPlain ⟨⟨[("a", "b")]⟩, l', .preserve⟩ hplain' hx
    rw [haliased] at hstyle
    cases hstyle

/-- Validation has nothing against this folder of components. -/
def Path.IsAccepted (dir : Path) : Prop :=
  ∃ c : Config, c.layout.componentsDir = dir ∧ c.validate = .ok c

theorem Path.IsAccepted.ne_nil {dir : Path} (h : dir.IsAccepted) : dir.text.toList ≠ [] := by
  obtain ⟨c, rfl, hc⟩ := h
  intro hnil
  have htext : c.layout.componentsDir.text = "" := by simpa using hnil
  rw [Config.validate, Config.flaw?] at hc
  split at hc
  · cases hc
  · rename_i hflaw
    split at hflaw
    · cases hflaw
    · simp [htext] at hflaw

/-- Two spellings of one folder of components are interchangeable, for
rewriting and for audit, exactly when both are plain or neither is. Only an
alias that starts every relative path, a dot or nothing, makes the spelling
irrelevant. -/
theorem Layout.spelled_alike_iff (l l' : Layout) (p : Path)
    (hl : l.componentsDir.IsAccepted) (hl' : l'.componentsDir.IsAccepted)
    (halias : l.aliasPrefix = l'.aliasPrefix)
    (hp : l.componentsDir.normalize? = some p) (hp' : l'.componentsDir.normalize? = some p) :
    ((∀ registry policy text folder, (⟨registry, l, policy⟩ : Engine).rewrite text folder =
        (⟨registry, l', policy⟩ : Engine).rewrite text folder) ↔
      l.aliasBase <+: ['.'] ∨ l.componentsDir.isPlain = l'.componentsDir.isPlain) ∧
    ((∀ registry policy text folder, (⟨registry, l, policy⟩ : Engine).audit text folder =
        (⟨registry, l', policy⟩ : Engine).audit text folder) ↔
      l.aliasBase <+: ['.'] ∨ l.componentsDir.isPlain = l'.componentsDir.isPlain) := by
  obtain ⟨names, hnames, -⟩ := Option.map_eq_some_iff.1 hp
  have hnames' : l'.componentsDir.names? = some names := by
    rw [← hnames, Path.names?_of_normalize? hp, Path.names?_of_normalize? hp']
  have hbase : l.aliasBase = l'.aliasBase := by rw [aliasBase, aliasBase, halias]
  have halike : l.aliasBase <+: ['.'] ∨ l.componentsDir.isPlain = l'.componentsDir.isPlain →
      l.SpelledAlike l' := fun hcases =>
    ⟨halias, ⟨hnames.trans hnames'.symm, hl.ne_nil, hl'.ne_nil⟩,
      hcases.imp_right (Path.encloses_congr hnames hnames')⟩
  refine ⟨⟨fun hsame => ?_, fun h => (halike h).rewrite_eq⟩,
    ⟨fun hsame => ?_, fun h => (halike h).audit_eq⟩⟩
  · refine Decidable.or_iff_not_imp_left.2 fun hdot => Bool.eq_iff_iff.2 ⟨?_, ?_⟩
    · exact isPlain_of_rewrite_eq hnames hdot hsame
    · exact isPlain_of_rewrite_eq hnames' (hbase ▸ hdot) fun r p t f => (hsame r p t f).symm
  · refine Decidable.or_iff_not_imp_left.2 fun hdot => Bool.eq_iff_iff.2 ⟨?_, ?_⟩
    · exact isPlain_of_audit_eq hnames hdot hsame
    · exact isPlain_of_audit_eq hnames' (hbase ▸ hdot) fun r p t f => (hsame r p t f).symm

/-- Slashes, and dots behind the first segment, are no part of the spelling. -/
theorem Layout.spelled_alike_iff_slashes :
    (⟨"src/components"⟩ : Path).IsAccepted ∧ (⟨"src//components/./"⟩ : Path).IsAccepted ∧
    (⟨"src//components/./"⟩ : Path).normalize? = some ⟨"src/components"⟩ ∧
    ∀ registry policy text folder,
      (⟨registry, { componentsDir := ⟨"src/components"⟩ }, policy⟩ : Engine).rewrite text folder =
        (⟨registry, { componentsDir := ⟨"src//components/./"⟩ }, policy⟩ : Engine).rewrite text
          folder := by
  have hplain : (⟨"src/components"⟩ : Path).IsAccepted := ⟨{}, rfl, rfl⟩
  have hslashes : (⟨"src//components/./"⟩ : Path).IsAccepted :=
    ⟨{ layout := { componentsDir := ⟨"src//components/./"⟩ } }, rfl, rfl⟩
  have hsame := spelled_alike_iff { componentsDir := ⟨"src/components"⟩ }
    { componentsDir := ⟨"src//components/./"⟩ } ⟨"src/components"⟩ hplain hslashes rfl (by decide)
    (by decide)
  exact ⟨hplain, hslashes, by decide, hsame.1.2 (.inr (by decide))⟩

/-- With a dot in front, the folder is the same and accepted all the same, but
the import of a file inside is not seen. -/
theorem Layout.spelling_changes_rewrite :
    (⟨"src/components"⟩ : Path).IsAccepted ∧ (⟨"./src/components"⟩ : Path).IsAccepted ∧
    (⟨"./src/components"⟩ : Path).normalize? = (⟨"src/components"⟩ : Path).normalize? ∧
    (⟨"src/components"⟩ : Path).normalize?.isSome ∧
    ((⟨⟨[("Button", "common")]⟩, { componentsDir := ⟨"src/components"⟩ }, .preserve⟩ :
      Engine).rewrite "import B from './Button';\n" ⟨"src/components/forms"⟩).text =
        "import B from '../common/Button';\n" ∧
    ((⟨⟨[("Button", "common")]⟩, { componentsDir := ⟨"./src/components"⟩ }, .preserve⟩ :
      Engine).rewrite "import B from './Button';\n" ⟨"src/components/forms"⟩).text =
        "import B from './Button';\n" := by
  refine ⟨⟨{}, rfl, rfl⟩, ⟨{ layout := { componentsDir := ⟨"./src/components"⟩ } }, rfl, rfl⟩,
    by decide, by decide, by decide +kernel, by decide +kernel⟩

end Relocate
