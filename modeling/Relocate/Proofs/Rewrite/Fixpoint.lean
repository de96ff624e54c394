import Relocate.Proofs.Repair.Settled
import Relocate.Proofs.Rewrite.Target

/-!
# Rewriting twice

The second run of `rewrite` meets the paths that the first one wrote. Each is
read back as the path of the same clause (`stands_retarget`), and it has no
new path but itself (`fixed_retarget`): an aliased path names the same module
again; a relative one does too, or it ends in dots and names none.

* `rewrite_of_fixed`: a text is left alone when no literal in it is broken and
  each of its paths is the path it is to have.
* `rewrite_rewrite`: so is what `rewrite` leaves, for files that are cut off
  cleanly.
-/
namespace Relocate

open Text

/-! ## What the new path of a clause is spelled with -/

namespace Engine

/-- What the engine puts into a path can be read as part of one, and neither
the alias nor a module looks like a relative path. -/
structure Spells (e : Engine) : Prop where
  home : ∀ row ∈ e.registry.rows, row.2.toList.all isPathChar
  name : ∀ row ∈ e.registry.rows, row.1.toList.head? ≠ some '.'
  aliasBase : e.layout.aliasBase.all isPathChar
  aliasHead : e.layout.aliasBase.head? ≠ some '.'

/-- What the engine puts into a path can be read as part of one. -/
structure Legible (e : Engine) : Prop where
  home : ∀ row ∈ e.registry.rows, row.2.toList.all isPathChar
  aliasBase : e.layout.aliasBase.all isPathChar

variable {e : Engine} {folder : Path} {c : Clause} {i : Import} {path : String}

theorem Spells.legible (hs : e.Spells) : e.Legible := ⟨hs.home, hs.aliasBase⟩

theorem mem_rows_of_home? {name home : String} (h : e.registry.home? name = some home) :
    (name, home) ∈ e.registry.rows := by
  obtain ⟨before, after, hrows, -⟩ := List.lookup_eq_some_iff.1 h
  rw [hrows]
  exact List.mem_append_right before List.mem_cons_self

/-- A module's home starts as the components folder does, and the names behind
that are spelled by the home or the module. -/
theorem exists_kept_of_dir {l : Layout} {home name : String} {dir target : List String}
    (hdir : l.componentsDir.components = dir.map .name)
    (htarget : (l.homePath home name).names? = some target) :
    ∃ kept fresh, target = kept ++ fresh ∧ kept <+: dir ∧
      ∀ n ∈ fresh, n.toList ⊆ home.toList ∨ n.toList ⊆ name.toList := by
  have hnames : l.componentsDir.names? = some dir := by
    rw [Path.names?, hdir, walk?_eq, walkFrom?_names]
    simp
  obtain ⟨kept, fresh, rfl, hkept, hfresh⟩ := names?_join htarget
  rcases hkept with rfl | ⟨above, habove, hkept⟩
  · exact ⟨[], fresh, rfl, List.nil_prefix, fun n hn => .inr (hfresh n hn)⟩
  obtain ⟨kept', fresh', rfl, hkept', hfresh'⟩ := names?_join habove
  have hprefix : kept' <+: dir := by
    rcases hkept' with rfl | ⟨base, hbase, hkept'⟩
    · exact List.nil_prefix
    · obtain rfl : dir = base := Option.some.inj (hnames.symm.trans hbase)
      exact hkept'
  -- The second walk may go back over what the first one spelled, and further.
  rcases List.prefix_or_prefix_of_prefix hkept (List.prefix_append kept' fresh') with
    hshort | ⟨more, rfl⟩
  · exact ⟨kept, fresh, rfl, hshort.trans hprefix, fun n hn => .inr (hfresh n hn)⟩
  · refine ⟨kept', more ++ fresh, by simp, hprefix, ?_⟩
    intro n hn
    rcases List.mem_append.1 hn with hn | hn
    · exact .inl (hfresh' n (((List.prefix_append_right_inj kept').1 hkept).subset hn))
    · exact .inr (hfresh n hn)

/-- The target of an import starts as the folder does, and the names behind
that are spelled by the written path, the home or the module. -/
theorem exists_kept {l : Layout} {home name : String} {written : List Char}
    {base place target : List String} (hbase : folder.names? = some base)
    (hplace : folder.specifierNames? written = some place)
    (hin : l.componentsDir.encloses place)
    (htarget : (l.homePath home name).names? = some target) :
    ∃ kept fresh, target = kept ++ fresh ∧ kept <+: base ∧
      ∀ n ∈ fresh, n.toList ⊆ written ∨ n.toList ⊆ home.toList ∨ n.toList ⊆ name.toList := by
  obtain ⟨dir, hdir, hcomponents⟩ := List.prefix_map_iff.1 (List.isPrefixOf_iff_prefix.1 hin)
  obtain ⟨kept, fresh, rfl, hkept, hfresh⟩ := exists_kept_of_dir hcomponents htarget
  obtain ⟨walked, spelled, rfl, hwalked, hspelled⟩ := walk?_segments hbase hplace
  rcases List.prefix_or_prefix_of_prefix (hkept.trans hdir) (List.prefix_append walked spelled)
    with h | ⟨more, rfl⟩
  · exact ⟨kept, fresh, rfl, h.trans hwalked, fun n hmem => .inr (hfresh n hmem)⟩
  · refine ⟨walked, more ++ fresh, by simp, hwalked, ?_⟩
    intro n hmem
    rcases List.mem_append.1 hmem with hmem | hmem
    · have hsub := (List.prefix_append_right_inj walked).1 (hkept.trans hdir)
      exact .inl (hspelled n (hsub.subset hmem))
    · exact .inr (hfresh n hmem)

theorem Spells.isName (hs : e.Spells) {written : List Char} (hnames : i.Names written)
    {home : String} (hhome : e.registry.home? i.name = some home) : IsName i.name := by
  have hhead := hs.name _ (mem_rows_of_home? hhome)
  exact ⟨hnames.noSlash.1, hnames.ne_empty, fun h => hhead (by simp [h]),
    fun h => hhead (by simp [h])⟩

/-- The new path of a clause can be read as a path. -/
theorem Legible.isPathChar_target (hs : e.Legible) (hpath : ∀ x ∈ c.path, isPathChar x)
    (h : e.target? folder c = some (i, path)) : ∀ x ∈ path.toList, isPathChar x := by
  obtain ⟨-, hshape, hnames, -⟩ := target?_eq_some_iff.1 h
  obtain ⟨home, hhome, hcases⟩ := target_cases h
  have hsegment : ∀ x ∈ i.name.toList ++ Import.extensionText i.extension, isPathChar x := by
    intro x hx
    rw [← hnames.segment] at hx
    exact hpath x ((afterLast_suffix '/' c.path).subset hx)
  have hhomeChars := List.all_eq_true.1 (hs.home _ (mem_rows_of_home? hhome))
  rcases hcases with ⟨-, htext⟩ | ⟨hrel, -, base, target, hbase, htarget, htext⟩
  · rw [htext]
    simp only [List.forall_mem_append, List.forall_mem_cons]
    exact ⟨List.all_eq_true.1 hs.aliasBase, by decide, hhomeChars, by decide,
      List.forall_mem_append.1 hsegment⟩
  · rw [htext, List.forall_mem_append]
    refine ⟨?_, fun x hx => hsegment x (List.mem_append_right _ hx)⟩
    rcases Import.shape?_eq_some hshape with ⟨haliased, -⟩ | ⟨-, -, place, hplace, hin⟩
    · rw [haliased] at hrel
      cases hrel
    obtain ⟨kept, fresh, rfl, ⟨more, rfl⟩, hfresh⟩ :=
      exists_kept hbase hplace hin htarget
    -- What the folder and the target share is not spelled.
    rw [difference_append]
    refine of_mem_relativeText (by decide) (by decide) ?_
    intro d hd
    rcases of_mem_difference hd with rfl | ⟨n, hn, rfl⟩
    · exact List.all_eq_true.1 (by decide)
    · intro x hx
      rcases hfresh n hn with hsub | hsub | hsub
      · exact hpath x (hsub hx)
      · exact hhomeChars x (hsub hx)
      · exact hsegment x (List.mem_append_left _ (hsub hx))

/-! ## The clause with its new path -/

/-- The clause with the path it is to have. -/
def retarget (e : Engine) (folder : Path) (c : Clause) : Clause :=
  match e.target? folder c with
  | some (_, path) => { c with path := path.toList }
  | none => c

/-- The clause has the path it is to have, if any. -/
def Fixed (e : Engine) (folder : Path) (c : Clause) : Prop :=
  ∀ i path, e.target? folder c = some (i, path) → path.toList = c.path

theorem retarget_of_some (h : e.target? folder c = some (i, path)) :
    e.retarget folder c = { c with path := path.toList } := by
  rw [retarget, h]

theorem retarget_of_none (h : e.target? folder c = none) : e.retarget folder c = c := by
  rw [retarget, h]

theorem retarget_of_fixed (h : e.Fixed folder c) : e.retarget folder c = c := by
  cases ht : e.target? folder c with
  | none => exact retarget_of_none ht
  | some p => rw [retarget_of_some ht, h p.1 p.2 ht]

theorem rewritePiece_eq (e : Engine) (folder : Path) (p : Piece) :
    e.rewritePiece folder p = p.mapClause (e.retarget folder) := by
  cases p with
  | plain t => rfl
  | clause c =>
    rw [rewritePiece, Piece.mapClause]
    cases ht : e.target? folder c with
    | none => rw [retarget_of_none ht]
    | some p => rw [retarget_of_some ht]

theorem stands_retarget (hs : e.Legible) {rest r : List Char} (h : c.Stands rest)
    (hr : r.head? = rest.head?) : (e.retarget folder c).Stands r := by
  cases ht : e.target? folder c with
  | none =>
    rw [retarget_of_none ht]
    exact h.congr hr
  | some p =>
    obtain ⟨hend, -⟩ := target?_eq_some_iff.1 ht
    have hclosed := h.closed (r := r) (hs.isPathChar_target h.path ht)
    rw [← hend] at hclosed
    rw [retarget_of_some ht]
    exact hclosed

theorem isBroken_retarget (h : e.layout.isBroken c = false) :
    e.layout.isBroken (e.retarget folder c) = false := by
  cases ht : e.target? folder c with
  | none => rwa [retarget_of_none ht]
  | some p =>
    obtain ⟨hend, -⟩ := target?_eq_some_iff.1 ht
    rw [retarget_of_some ht, Layout.isBroken, hend]
    exact Bool.and_false _

/-- The last segment of the new path is the one written, or starts with a dot
and names nothing that could be registered. -/
theorem Spells.afterLast_target (hs : e.Spells) (h : e.target? folder c = some (i, path)) :
    afterLast '/' path.toList = afterLast '/' c.path ∨
      ∀ x, (afterLast '/' path.toList).head? = some x → x = '.' := by
  obtain ⟨-, -, hnames, -⟩ := target?_eq_some_iff.1 h
  obtain ⟨home, hhome, hcases⟩ := target_cases h
  rcases hcases with ⟨-, htext⟩ | ⟨-, -, base, target, -, htarget, htext⟩
  · refine .inl ?_
    rw [htext]
    exact hnames.afterLast_eq e.layout.aliasBase home.toList
  · rw [htext, afterLast_append hnames.noSlash.2]
    by_cases habove : target <+: base
    · refine .inr ?_
      intro x hx
      rw [afterLast_difference_above habove] at hx
      split at hx
      · cases hext : i.extension with
        | none => simp [hext, Import.extensionText] at hx
        | some ext => simpa [hext, Import.extensionText, eq_comm] using hx
      · simpa [eq_comm] using hx
    · refine .inl ?_
      have htargetNames := isName_of_names? htarget
      obtain ⟨above, -, rfl⟩ := Layout.names?_homePath (hs.isName hnames hhome) htarget
      rw [afterLast_difference_aside htargetNames habove, hnames.segment]

/-- The import at the new path is one of the same module, since a name that
starts with a dot has no home. -/
theorem Spells.same_module (hs : e.Spells) {j : Import} {q : String}
    (h : e.target? folder c = some (i, path))
    (hj : e.target? folder { c with path := path.toList } = some (j, q)) :
    j.name = i.name ∧ j.extension = i.extension := by
  obtain ⟨-, -, hnames, -⟩ := target?_eq_some_iff.1 h
  obtain ⟨-, -, hnames', -⟩ := target?_eq_some_iff.1 hj
  obtain ⟨home, hhome, -⟩ := target_cases hj
  refine hnames.unique hnames' ((hs.afterLast_target h).resolve_right fun hdot => ?_)
  have hhead := hs.name _ (mem_rows_of_home? hhome)
  rw [hnames'.head?] at hhead
  cases hx : (afterLast '/' path.toList).head? with
  | none => exact hnames'.ne_empty (List.head?_eq_none_iff.1 (hnames'.head?.trans hx))
  | some x =>
    rw [hdot x hx] at hx
    exact hhead hx

/-- A path that starts with a dot is no aliased one. -/
theorem Spells.isRelative_of_head (hs : e.Spells) {p q : List Char} {s s' : Style}
    (hq : q.head? = some '.') (h : Import.shape? e.layout folder p = some s) (hrel : s.isRelative)
    (h' : Import.shape? e.layout folder q = some s') : s'.isRelative := by
  rcases Import.shape?_eq_some h' with ⟨-, ⟨rest, rfl⟩⟩ | ⟨hrel', -⟩
  · rcases Import.shape?_eq_some h with ⟨rfl, -⟩ | ⟨-, hnot, -⟩
    · cases hrel
    · cases hbase : e.layout.aliasBase with
      | nil =>
        rw [hbase] at hnot
        exact absurd List.nil_prefix hnot
      | cons y ys =>
        have hhead := hs.aliasHead
        rw [hbase] at hq hhead
        exact absurd hq hhead
  · exact hrel'

/-- A clause that has got its new path has no other. -/
theorem fixed_retarget (hs : e.Spells) (folder : Path) (c : Clause) :
    e.Fixed folder (e.retarget folder c) := by
  cases ht : e.target? folder c with
  | none =>
    intro j q hj
    rw [retarget_of_none ht, ht] at hj
    cases hj
  | some p =>
    obtain ⟨i, path⟩ := p
    intro j q hj
    rw [retarget_of_some ht] at hj ⊢
    obtain ⟨-, hshape, -⟩ := target?_eq_some_iff.1 ht
    obtain ⟨-, hshape', -⟩ := target?_eq_some_iff.1 hj
    obtain ⟨home, hhome, hcases⟩ := target_cases ht
    obtain ⟨home', hhome', hcases'⟩ := target_cases hj
    obtain ⟨hname, hext⟩ := hs.same_module ht hj
    rw [hname] at hhome' hcases'
    rw [hext] at hcases'
    obtain rfl : home = home' := Option.some.inj (hhome.symm.trans hhome')
    rcases hcases with ⟨-, htext⟩ | ⟨hrel, hstyle, base, target, hbase, htarget, htext⟩
    · -- The alias in front makes it an aliased import again.
      have hj : j.style = .aliased := by
        rw [htext] at hshape'
        obtain ⟨x, rest, hrest⟩ := List.exists_cons_of_ne_nil
          (show home.toList ++ '/' :: (i.name.toList ++ Import.extensionText i.extension) ≠ [] by
            simp)
        rw [hrest, Import.shape?_alias] at hshape'
        exact (Option.some.inj hshape').symm
      rcases hcases' with ⟨-, htext'⟩ | ⟨hrel', -⟩
      · exact htext'.trans htext.symm
      · rw [hj] at hrel'
        cases hrel'
    · -- The dot in front makes it a relative import again.
      have hhead : path.toList.head? = some '.' := by
        rw [htext, List.head?_append, head?_relativeText, Option.some_or]
      have hrel' := hs.isRelative_of_head hhead hshape hrel hshape'
      have hstyle' : e.targetStyle folder j.style = j.style := by
        rcases e.targetStyle_cases folder with hall | hall
        · rw [hstyle.symm.trans (hall i.style hrel)] at hrel
          cases hrel
        · exact hall j.style hrel'
      rcases hcases' with ⟨haliased, -⟩ | ⟨-, -, base', target', hbase', htarget', htext'⟩
      · rw [← hstyle', haliased] at hrel'
        cases hrel'
      · obtain rfl : base = base' := Option.some.inj (hbase.symm.trans hbase')
        obtain rfl : target = target' := Option.some.inj (htarget.symm.trans htarget')
        exact htext'.trans htext.symm

/-! ## The text -/

theorem editAt?_of_fixed {s : Site} (h : e.Fixed folder s.clause) : e.editAt? folder s = none := by
  unfold editAt?
  split
  · rename_i i path ht
    rw [if_pos (h i path ht)]
  · rfl

/-- A text is left alone when no literal in it is broken and each of its paths
is the one it is to have. -/
theorem rewrite_of_fixed {t : String} (hsettled : e.layout.Settled t)
    (hfixed : ∀ c, .clause c ∈ scan t.toList → e.Fixed folder c) :
    (e.rewrite t folder).changed = false ∧ (e.rewrite t folder).repairs = [] ∧
      (e.rewrite t folder).edits = [] ∧ (e.rewrite t folder).text = t := by
  obtain ⟨hchanged, hrepairs, htext⟩ := hsettled
  have hedits : (e.rewrite t folder).edits = [] := by
    simp only [rewrite, htext, List.filterMap_eq_nil_iff]
    intro s hs
    exact editAt?_of_fixed (hfixed s.clause (clause_mem_scan_iff.2 ⟨s, hs, rfl⟩))
  have hpieces : (scan t.toList).map (e.rewritePiece folder) = scan t.toList := by
    conv => rhs; rw [← List.map_id (scan t.toList)]
    refine List.map_congr_left fun p hp => ?_
    cases p with
    | plain u => rfl
    | clause c => rw [rewritePiece_eq, Piece.mapClause, retarget_of_fixed (hfixed c hp)]; rfl
  refine ⟨?_, hrepairs, hedits, ?_⟩
  · change ((e.layout.repair t).changed || !(e.rewrite t folder).edits.isEmpty) = false
    rw [hchanged, hedits]
    rfl
  · simp only [rewrite, htext, hpieces, render_scan, String.ofList_toList]

/-- The rewritten text is read as the rewritten pieces. -/
theorem Legible.scan_rewrite (hs : e.Legible) (t : String) (folder : Path) :
    scan (e.rewrite t folder).text.toList =
      (scan (e.layout.repair t).text.toList).map (Piece.mapClause (e.retarget folder)) := by
  have hpieces : (scan (e.layout.repair t).text.toList).map (e.rewritePiece folder) =
      (scan (e.layout.repair t).text.toList).map (Piece.mapClause (e.retarget folder)) :=
    List.map_congr_left fun p _ => e.rewritePiece_eq folder p
  simp only [rewrite, String.toList_ofList, hpieces]
  exact scanFrom_mapClause (fun c rest r hc hr => stands_retarget hs hc hr) false _

theorem scan_rewrite_text (hs : e.Spells) (t : String) (folder : Path) :
    scan (e.rewrite t folder).text.toList =
      (scan (e.layout.repair t).text.toList).map (Piece.mapClause (e.retarget folder)) :=
  hs.legible.scan_rewrite t folder

end Engine

/-! ## Files that are cut off cleanly -/

/-- Nothing but spaces and tabs stands where the closing quote is missing. -/
def Ending.isCleanCut : Ending → Bool
  | .missing rest => rest.all isGap
  | .matched | .mismatched _ _ | .irregular _ | .ambiguous _ => true

theorem isQuiet_of_isGap {x : Char} (h : isGap x) : isQuiet x := of_isGap h rfl rfl

theorem Layout.inert_of_isCleanCut {l : Layout} {t : List Char}
    (h : ∀ s ∈ sites t, l.tracks s.clause.path → s.clause.ending.isCleanCut) :
    l.Inert (scan t) := by
  intro before c after rest hsplit htracks hend
  have hmem : Piece.clause c ∈ scan t := by
    rw [hsplit]
    exact List.mem_append_right before List.mem_cons_self
  obtain ⟨s, hs, rfl⟩ := clause_mem_scan_iff.1 hmem
  have hclean := h s hs htracks
  rw [hend] at hclean
  have hread := (stands_of_scanFrom hsplit).ending
  rw [hend] at hread
  refine reaches_quiet (fun x hx => isQuiet_of_isGap (List.all_eq_true.1 hclean x hx)) ?_
  intro x hx
  rw [(readEnding_eq_missing hread).2.2] at hx
  exact isTerminator_of_head? hx

namespace Engine

/-- A second run leaves alone what the first one wrote, if each literal that
lacks its closing quote stands at the end of its statement. -/
theorem rewrite_rewrite (e : Engine) (t : String) (folder : Path) (hs : e.Spells)
    (hclean : ∀ s ∈ sites t.toList, e.layout.tracks s.clause.path → s.clause.ending.isCleanCut) :
    (e.rewrite (e.rewrite t folder).text folder).changed = false ∧
      (e.rewrite (e.rewrite t folder).text folder).repairs = [] ∧
      (e.rewrite (e.rewrite t folder).text folder).edits = [] ∧
      (e.rewrite (e.rewrite t folder).text folder).text = (e.rewrite t folder).text := by
  have hrepaired : ∀ c, .clause c ∈ scan (e.layout.repair t).text.toList →
      e.layout.isBroken c = false := by
    rw [Layout.toList_repair_text]
    exact e.layout.not_broken_of_inert false t.toList (Layout.inert_of_isCleanCut hclean)
  have hclause : ∀ c, .clause c ∈ scan (e.rewrite t folder).text.toList →
      ∃ c', .clause c' ∈ scan (e.layout.repair t).text.toList ∧ c = e.retarget folder c' := by
    intro c hc
    rw [scan_rewrite_text hs] at hc
    obtain ⟨p, hp, hpc⟩ := List.mem_map.1 hc
    cases p with
    | plain u => cases hpc
    | clause c' =>
      cases hpc
      exact ⟨c', hp, rfl⟩
  refine rewrite_of_fixed (Layout.settled_iff.2 fun c hc => ?_) fun c hc => ?_
  · obtain ⟨c', hc', rfl⟩ := hclause c hc
    exact isBroken_retarget (hrepaired c' hc')
  · obtain ⟨c', -, rfl⟩ := hclause c hc
    exact fixed_retarget hs folder c'

/-- The first run closes a literal and corrects its path, the second finds
nothing to do. -/
theorem rewrite_rewrite_button :
    ∃ e : Engine, e.Spells ∧
      (e.rewrite "import B from './Button \n" ⟨"src/components/forms"⟩).text =
        "import B from '../common/Button' \n" ∧
      (e.rewrite "import B from '../common/Button' \n" ⟨"src/components/forms"⟩).changed =
        false := by
  have hs : (⟨⟨[("Button", "common")]⟩, {}, .preserve⟩ : Engine).Spells :=
    ⟨by decide, by decide, by decide, by decide⟩
  have htext : ((⟨⟨[("Button", "common")]⟩, {}, .preserve⟩ : Engine).rewrite
      "import B from './Button \n" ⟨"src/components/forms"⟩).text =
        "import B from '../common/Button' \n" := by decide +kernel
  have hagain := (rewrite_rewrite _ "import B from './Button \n" ⟨"src/components/forms"⟩ hs
    (by decide +kernel)).1
  rw [htext] at hagain
  exact ⟨_, hs, htext, hagain⟩

end Engine

end Relocate
