import Relocate.Disk
import Relocate.Proofs.Path.Normal

/-!
# No path leads out of the project

A path can be followed on the disk from the project's root, component by
component, and it can be walked over names alone. The walk fails where the way
on the disk might leave the project; where it succeeds, both lead to the same
place, below the root (`place_of_names?`).

* `normalize?_inside`: which paths have a normal form, and that it stands for
  the path: for what it leads to, and for what is written behind it.
-/
namespace Relocate

/-- The walk keeps to the way on the disk, and never goes back behind its start. -/
theorem foldl_follow_of_walkFrom? {place names : List String} {cs : List Component}
    (h : walkFrom? place cs = some names) (root : Location) :
    cs.foldl Component.follow (root ++ place.reverse) = root ++ names.reverse := by
  induction cs generalizing place with
  | nil =>
    cases h
    rfl
  | cons c cs ih =>
    rw [walkFrom?_cons, Option.bind_eq_some_iff] at h
    obtain ⟨next, hnext, hrest⟩ := h
    have hstep : Component.follow (root ++ place.reverse) c = root ++ next.reverse := by
      cases c with
      | name s =>
        cases hnext
        simp [Component.follow]
      | here =>
        cases hnext
        rfl
      | up =>
        cases place with
        | nil => cases hnext
        | cons m place =>
          cases hnext
          simp [Component.follow, ← List.append_assoc]
      | root => cases hnext
    rw [List.foldl_cons, hstep, ih hrest]

namespace Path

/-- The names that a path leads to are those on the disk below the root. -/
theorem place_of_names? {p : Path} {names : List String} (h : p.names? = some names)
    (root : Location) : place root p = root ++ names := by
  obtain ⟨place, hplace, rfl⟩ := Option.map_eq_some_iff.1 h
  have hfollow := foldl_follow_of_walkFrom? hplace root
  rwa [List.reverse_nil, List.append_nil] at hfollow

/-- A path has no normal form exactly when it is absolute or, at some place on
the way, has more `..` behind it than names. Otherwise its normal form is
spelled with names alone, leads to the same place below the root, wherever that
is, is its own normal form, and takes the path's place in front of every
specifier, whose segments are put behind it one by one. -/
theorem normalize?_inside (p : Path) :
    (p.normalize? = none ↔ p.isAbsolute ∨ ∃ front, front <+: p.components ∧
      front.countP Component.isName < front.count .up) ∧
    ∀ q, p.normalize? = some q →
      q.isPlain ∧
      (∀ root, place root q = place root p ∧ root <+: place root p) ∧
      q.normalize? = some q ∧
      ∀ s, p.joinSpecifier? s = q.joinSpecifier? s ∧ p.joinSpecifier? s = (p.push s).normalize? := by
  constructor
  · rw [normalize?_eq_none_iff]
    simp [ClimbsOut]
  · intro q hq
    have hnames := names?_of_normalize? hq
    refine ⟨isPlain_of_normalize? hq, ?_, normalize?_of_normalize? hq, ?_⟩
    · intro root
      obtain ⟨names, hp, -⟩ := Option.map_eq_some_iff.1 hq
      rw [place_of_names? hp root, place_of_names? (hnames ▸ hp) root]
      exact ⟨rfl, List.prefix_append root names⟩
    · intro s
      exact ⟨joinSpecifier?_congr hnames s, (normalize?_push p s).symm⟩

/-- Down into a folder and back is no detour, but one step further up leaves the
project, although the path comes back to a name. -/
theorem normalize?_inside_routes :
    (⟨"./src/routes/../components"⟩ : Path).normalize? = some ⟨"src/components"⟩ ∧
    (⟨"src/components"⟩ : Path).isPlain ∧
    place ["work"] ⟨"src/components"⟩ =
      place ["work"] ⟨"./src/routes/../components"⟩ ∧
    (⟨"./src/routes/../components"⟩ : Path).joinSpecifier? ".//../../x".toList =
      (⟨"src/components"⟩ : Path).joinSpecifier? ".//../../x".toList ∧
    (⟨"src/../../x"⟩ : Path).normalize? = none := by
  have hnormal : (⟨"./src/routes/../components"⟩ : Path).normalize? = some ⟨"src/components"⟩ := by
    decide
  obtain ⟨hplain, hplace, -, hjoin⟩ := (normalize?_inside _).2 _ hnormal
  refine ⟨hnormal, hplain, (hplace ["work"]).1, (hjoin _).1, ?_⟩
  exact (normalize?_inside _).1.2 (.inr ⟨[.name "src", .up, .up], by decide, by decide⟩)

end Path

end Relocate
