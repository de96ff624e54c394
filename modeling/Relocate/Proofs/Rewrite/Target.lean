import Relocate.Engine
import Relocate.Proofs.Path.Way

/-!
# The path that an import is to have

* `shape?_eq_some`: a path is an import for one of two reasons, the alias or a
  relative way into the components.
* `Import.Names`: the last segment of the path names the module.
* `target?_eq_some_iff`: all that the new path of an import depends on.
* `target_cases`: the new path itself, the aliased one or the relative one.
-/
namespace Relocate

open Text

/-! ## Shapes -/

namespace Import

variable {l : Layout} {folder : Path} {path : List Char} {s : Style}

theorem shape?_alias (l : Layout) (folder : Path) (x : Char) (rest : List Char) :
    shape? l folder (l.aliasBase ++ '/' :: x :: rest) = some .aliased := by
  have hdrop := dropPrefix?_eq_some_iff.2 (rfl : l.aliasBase ++ '/' :: x :: rest = _)
  simp only [shape?, hdrop]

theorem shape?_eq_some (h : shape? l folder path = some s) :
    (s = .aliased ∧ l.aliasBase <+: path) ∨
    (s.isRelative ∧ ¬ l.aliasBase <+: path ∧
      ∃ place, folder.specifierNames? path = some place ∧ l.componentsDir.encloses place) := by
  unfold shape? at h
  split at h
  · rename_i x rest hdrop
    cases h
    exact .inl ⟨rfl, _, (dropPrefix?_eq_some_iff.1 hdrop).symm⟩
  · cases h
  · rename_i hdrop
    refine .inr ?_
    have halias : ¬ l.aliasBase <+: path := by
      rintro ⟨r, hr⟩
      rw [dropPrefix?_eq_some_iff.2 hr.symm] at hdrop
      cases hdrop
    split at h
    · split at h
      · cases h
      · rename_i place hplace
        split at h
        · cases h
        · rename_i hin
          refine ⟨?_, halias, place, hplace, by simpa using hin⟩
          split at h
          · split at h <;> cases h <;> rfl
          · cases h
            rfl
    · cases h

/-! ## Names -/

/-- The extension as it stands behind the name. -/
def extensionText : Option String → List Char
  | some e => '.' :: e.toList
  | none => []

theorem toList_withExtension (i : Import) (resolved : String) :
    (i.withExtension resolved).toList = resolved.toList ++ extensionText i.extension := by
  unfold withExtension extensionText
  cases i.extension <;> simp

/-- The last segment of a path is the import's name, with its extension. -/
structure Names (i : Import) (path : List Char) : Prop where
  ne_empty : i.name.toList ≠ []
  split : splitExtension (afterLast '/' path) = (i.name.toList, i.extension.map String.toList)

variable {i j : Import}

theorem Names.segment (h : i.Names path) :
    afterLast '/' path = i.name.toList ++ extensionText i.extension := by
  have hsplit := h.split
  unfold splitExtension at hsplit
  split at hsplit
  · rename_i stem e he
    split at hsplit
    · obtain ⟨hname, hext⟩ := Prod.mk.inj hsplit
      obtain ⟨e', he', rfl⟩ := Option.map_eq_some_iff.1 hext.symm
      rw [← hname, he']
      exact (splitLast?_eq_some he).1
    · obtain ⟨hname, hext⟩ := Prod.mk.inj hsplit
      rw [← hname, Option.map_eq_none_iff.1 hext.symm, extensionText, List.append_nil]
  · obtain ⟨hname, hext⟩ := Prod.mk.inj hsplit
    rw [← hname, Option.map_eq_none_iff.1 hext.symm, extensionText, List.append_nil]

theorem Names.unique {q : List Char} (h : i.Names path) (hj : j.Names q)
    (hq : afterLast '/' q = afterLast '/' path) : j.name = i.name ∧ j.extension = i.extension := by
  have hboth := hj.split
  rw [hq, h.split] at hboth
  obtain ⟨hname, hext⟩ := Prod.mk.inj hboth
  exact ⟨(String.toList_inj.1 hname).symm,
    (Option.map_injective (fun _ _ => String.toList_inj.1) hext).symm⟩

theorem Names.noSlash (h : i.Names path) :
    '/' ∉ i.name.toList ∧ '/' ∉ extensionText i.extension := by
  have hnot := not_mem_afterLast '/' path
  rw [h.segment, List.mem_append, not_or] at hnot
  exact hnot

/-- A path keeps its last segment when only what stands before it changes. -/
theorem Names.afterLast_eq (h : i.Names path) (u v : List Char) :
    afterLast '/' (u ++ '/' :: (v ++ '/' :: (i.name.toList ++ extensionText i.extension))) =
      afterLast '/' path := by
  rw [afterLast_append_cons, afterLast_append_cons, ← h.segment]
  exact afterLast_of_not_mem (not_mem_afterLast '/' path)

theorem Names.head? (h : i.Names path) : i.name.toList.head? = (afterLast '/' path).head? := by
  rw [h.segment, List.head?_append]
  cases hname : i.name.toList with
  | nil => exact absurd hname h.ne_empty
  | cons x xs => rfl

theorem matched_of_styleOf {t : Style} {ending : Ending} (h : styleOf s ending = some t)
    (ht : t ≠ .malformed) : ending = .matched ∧ s = t := by
  cases ending with
  | matched => exact ⟨rfl, Option.some.inj h⟩
  | irregular _ => cases h
  | missing _ => exact absurd (Option.some.inj h).symm ht
  | mismatched _ _ => exact absurd (Option.some.inj h).symm ht
  | ambiguous _ => exact absurd (Option.some.inj h).symm ht

theorem ofClause?_eq_some_iff {c : Clause} :
    ofClause? l folder c = some i ↔
      (∃ s, shape? l folder c.path = some s ∧ styleOf s c.ending = some i.style) ∧
        i.Names c.path := by
  unfold ofClause?
  constructor
  · intro h
    obtain ⟨s, hs, h⟩ := Option.bind_eq_some_iff.1 h
    obtain ⟨style, hstyle, h⟩ := Option.bind_eq_some_iff.1 h
    simp only [Option.ite_none_left_eq_some, Option.some.injEq] at h
    obtain ⟨hname, rfl⟩ := h
    refine ⟨⟨s, hs, hstyle⟩, by simpa using hname, ?_⟩
    simp
  · rintro ⟨⟨s, hs, hstyle⟩, hnames⟩
    refine Option.bind_eq_some_iff.2 ⟨s, hs, Option.bind_eq_some_iff.2 ⟨i.style, hstyle, ?_⟩⟩
    simp only [hnames.split, if_neg hnames.ne_empty]
    simp

end Import

/-! ## Targets -/

namespace Engine

variable {e : Engine} {folder : Path} {c : Clause} {i : Import} {path : String}

theorem canonical?_eq_some_iff {style : Style} :
    e.canonical? folder i style = some path ↔
      ∃ home resolved, e.registry.home? i.name = some home ∧
        e.layout.canonical? home i.name folder style = some resolved ∧
        path = i.withExtension resolved := by
  unfold canonical?
  constructor
  · intro h
    obtain ⟨home, hhome, h⟩ := Option.bind_eq_some_iff.1 h
    obtain ⟨resolved, hresolved, h⟩ := Option.bind_eq_some_iff.1 h
    cases h
    exact ⟨home, resolved, hhome, hresolved, rfl⟩
  · rintro ⟨home, resolved, hhome, hresolved, rfl⟩
    exact Option.bind_eq_some_iff.2
      ⟨home, hhome, Option.bind_eq_some_iff.2 ⟨resolved, hresolved, rfl⟩⟩

/-- A clause has a new path when its literal is closed, it is an import, the
module is registered, and its home can be reached. -/
theorem target?_eq_some_iff :
    e.target? folder c = some (i, path) ↔
      c.ending = .matched ∧ Import.shape? e.layout folder c.path = some i.style ∧
      i.Names c.path ∧ e.canonical? folder i (e.targetStyle folder i.style) = some path := by
  unfold target?
  constructor
  · intro h
    obtain ⟨j, hj, h⟩ := Option.bind_eq_some_iff.1 h
    split at h
    · cases h
    rename_i hstyle
    obtain ⟨p, hp, h⟩ := Option.bind_eq_some_iff.1 h
    cases h
    obtain ⟨⟨s, hs, hst⟩, hnames⟩ := Import.ofClause?_eq_some_iff.1 hj
    obtain ⟨hc, rfl⟩ := Import.matched_of_styleOf hst hstyle
    exact ⟨hc, hs, hnames, hp⟩
  · rintro ⟨hc, hs, hnames, hp⟩
    have hi : Import.ofClause? e.layout folder c = some i := by
      refine Import.ofClause?_eq_some_iff.2 ⟨⟨i.style, hs, ?_⟩, hnames⟩
      rw [hc]
      rfl
    have hstyle : i.style ≠ .malformed := by
      intro h
      rw [h] at hs
      rcases Import.shape?_eq_some hs with ⟨h, -⟩ | ⟨h, -⟩ <;> cases h
    refine Option.bind_eq_some_iff.2 ⟨i, hi, ?_⟩
    rw [if_neg hstyle]
    exact Option.bind_eq_some_iff.2 ⟨path, hp, rfl⟩

/-- Whether the new path is relative depends on the policy and the folder only. -/
theorem targetStyle_cases (e : Engine) (folder : Path) :
    (∀ s : Style, s.isRelative → e.targetStyle folder s = .aliased) ∨
      (∀ s : Style, s.isRelative → e.targetStyle folder s = s) := by
  unfold targetStyle
  cases e.policy with
  | preserve => exact .inr fun s hs => rfl
  | aliasOutside =>
    cases hin : e.isInside folder with
    | true => exact .inr fun s hs => by simp
    | false => exact .inl fun s hs => by simp [hs]

theorem targetStyle_aliased (e : Engine) (folder : Path) :
    e.targetStyle folder .aliased = .aliased := by
  unfold targetStyle
  cases e.policy <;> rfl

/-- The new path is the aliased one or, for a relative import, the relative
one; the extension follows. -/
theorem target_cases (h : e.target? folder c = some (i, path)) :
    ∃ home, e.registry.home? i.name = some home ∧
      ((e.targetStyle folder i.style = .aliased ∧
        path.toList = e.layout.aliasBase ++ '/' ::
          (home.toList ++ '/' :: (i.name.toList ++ Import.extensionText i.extension))) ∨
      (i.style.isRelative ∧ e.targetStyle folder i.style = i.style ∧
        ∃ base target, folder.names? = some base ∧
          (e.layout.homePath home i.name).names? = some target ∧
          path.toList = (relativeText (difference base target)).toList ++
            Import.extensionText i.extension)) := by
  obtain ⟨-, hs, -, hp⟩ := target?_eq_some_iff.1 h
  obtain ⟨home, resolved, hhome, hresolved, rfl⟩ := canonical?_eq_some_iff.1 hp
  refine ⟨home, hhome, ?_⟩
  rw [Import.toList_withExtension]
  have halias : e.targetStyle folder i.style = .aliased →
      resolved.toList ++ Import.extensionText i.extension = e.layout.aliasBase ++ '/' ::
        (home.toList ++ '/' :: (i.name.toList ++ Import.extensionText i.extension)) := by
    intro hstyle
    rw [hstyle] at hresolved
    obtain rfl : e.layout.aliasedText home i.name = resolved := Option.some.inj hresolved
    simp [Layout.aliasedText]
  rcases Import.shape?_eq_some hs with ⟨haliased, -⟩ | ⟨hrel, -⟩
  · have hstyle := e.targetStyle_aliased folder
    rw [← haliased] at hstyle
    exact .inl ⟨hstyle.trans haliased, halias (hstyle.trans haliased)⟩
  · rcases e.targetStyle_cases folder with hall | hall
    · exact .inl ⟨hall i.style hrel, halias (hall i.style hrel)⟩
    · refine .inr ⟨hrel, hall i.style hrel, ?_⟩
      rw [hall i.style hrel, Layout.canonical?_of_isRelative hrel,
        Layout.relativeText?_eq] at hresolved
      obtain ⟨base, hb, hresolved⟩ := Option.bind_eq_some_iff.1 hresolved
      obtain ⟨target, ht, rfl⟩ := Option.map_eq_some_iff.1 hresolved
      exact ⟨base, target, hb, ht, rfl⟩

/-- The edit at a site tells the import there and its new path, if that is
another one. -/
theorem editAt?_eq_some_iff {s : Site} {edit : Edit} :
    e.editAt? folder s = some edit ↔
      ∃ i path, e.target? folder s.clause = some (i, path) ∧ path.toList ≠ s.clause.path ∧
        edit = ⟨s.cursor.line, i.name, i.style, String.ofList s.clause.path, path⟩ := by
  unfold editAt?
  split
  · rename_i i path ht
    rw [Option.ite_none_left_eq_some, Option.some.injEq]
    constructor
    · rintro ⟨hpath, rfl⟩
      exact ⟨i, path, ht, hpath, rfl⟩
    · rintro ⟨j, q, hj, hpath, rfl⟩
      obtain ⟨rfl, rfl⟩ : i = j ∧ path = q := by simpa using ht.symm.trans hj
      exact ⟨hpath, rfl⟩
  · rename_i ht
    constructor
    · intro h
      cases h
    · rintro ⟨i, path, hi, -⟩
      cases ht.symm.trans hi

/-- Engines that repair alike and give clauses the same new paths, each in its
own folder, rewrite alike. -/
theorem rewrite_congr {e' : Engine} {folder' : Path} {t : String}
    (hrepair : e.layout.repair t = e'.layout.repair t)
    (htarget : ∀ c, e.target? folder c = e'.target? folder' c) :
    e.rewrite t folder = e'.rewrite t folder' := by
  have hpiece : e.rewritePiece folder = e'.rewritePiece folder' := by
    funext piece
    cases piece <;> simp only [rewritePiece, htarget]
  have hedit : e.editAt? folder = e'.editAt? folder' := by
    funext s
    simp only [editAt?, htarget]
  simp only [rewrite, hrepair, hpiece, hedit]

end Engine

theorem of_mem_edits {e : Engine} {t : String} {folder : Path} {edit : Edit}
    (h : edit ∈ (e.rewrite t folder).edits) :
    ∃ c i, e.target? folder c = some (i, edit.after) ∧ edit.name = i.name ∧ edit.style = i.style ∧
      edit.before.toList = c.path := by
  obtain ⟨s, -, hs⟩ := List.mem_filterMap.1 h
  obtain ⟨i, path, ht, -, rfl⟩ := Engine.editAt?_eq_some_iff.1 hs
  exact ⟨s.clause, i, ht, rfl, rfl, by simp⟩

end Relocate
