import Relocate.Proofs.Clause.Line
import Relocate.Proofs.Rewrite.Target

/-!
# Audit predicts what rewriting does

Audit and rewriting go over the same clauses, each in its own way. Audit takes
the line of the path and asks for the canonical path in the style that is
written; rewriting takes the line of the keyword and asks for the style of the
policy. Between keyword and path stand blanks and a quote, so the lines are
the same (`line_pathStart`), and under `preserve` so are the styles
(`target?_preserve`). What one says of a clause, the other says too
(`pending_findingAt?`).

* `audit_predicts_edits`: the findings that are still to be put right are the
  edits of the imports that reach into another folder, one by one.
-/
namespace Relocate

open Text

/-- What is to be changed about a finding: its line, its module, its path and
the path it is to have, if that is another one. -/
def Finding.pending? (f : Finding) : Option (Nat × String × String × String) :=
  f.canonical.bind fun path =>
    if path = f.path then none else some (f.line, f.name, f.path, path)

/-- The line of an edit, its module, the path before and the path after. -/
def Edit.entry (x : Edit) : Nat × String × String × String := (x.line, x.name, x.before, x.after)

/-- A path starts on the line of its keyword. -/
theorem line_pathStart {t : List Char} {s : Site} (hs : s ∈ sites t) :
    s.pathStart.line = s.cursor.line := by
  obtain ⟨rest, hahead, hstands⟩ := stands_of_mem_sitesFrom rfl hs
  have hopening : s.cursor.ahead = s.clause.opening ++
      (s.clause.path ++ (s.clause.ending.text s.clause.quote ++ rest)) := by
    simpa [Clause.text, Clause.head] using hahead
  have hfeed : '\n' ∉ s.clause.opening := by
    have hall := hstands.noFeed
    simp only [Clause.text, Clause.head, List.mem_append, not_or] at hall
    exact hall.1.1
  simp only [Site.pathStart, Cursor.line, Cursor.behind_move hopening, List.count_append,
    List.count_reverse, List.count_eq_zero.2 hfeed, Nat.zero_add]

namespace Engine

variable (registry : Registry) (l : Layout) {folder : Path} {c : Clause} {i : Import}

theorem target?_preserve (hi : Import.ofClause? l folder c = some i) (hstyle : i.style ≠ .malformed) :
    (⟨registry, l, .preserve⟩ : Engine).target? folder c =
      ((⟨registry, l, .preserve⟩ : Engine).canonical? folder i i.style).map (i, ·) := by
  have hstep : (⟨registry, l, .preserve⟩ : Engine).target? folder c =
      ((⟨registry, l, .preserve⟩ : Engine).canonical? folder i i.style).bind
        fun path => some (i, path) := by
    simp only [target?, hi, Option.bind_eq_bind, Option.bind_some, if_neg hstyle]
    rfl
  rw [hstep]
  exact Option.map_eq_bind.symm

/-- A clause that is no import with a style of its own gets no new path. -/
theorem target?_eq_none {e : Engine}
    (h : ∀ i, Import.ofClause? e.layout folder c = some i → i.style = .malformed) :
    e.target? folder c = none := by
  unfold target?
  cases hi : Import.ofClause? e.layout folder c with
  | none => rfl
  | some i => simp [h i hi]

/-- What audit wants changed at a site is what rewriting changes there, for
imports that reach into another folder. -/
theorem pending_findingAt? {t : List Char} {s : Site} (hs : s ∈ sites t) :
    ((⟨registry, l, .preserve⟩ : Engine).findingAt? folder s).bind Finding.pending? =
      (((⟨registry, l, .preserve⟩ : Engine).editAt? folder s).filter
        fun x => x.style = .otherFolder).map Edit.entry := by
  cases hi : Import.ofClause? l folder s.clause with
  | none =>
    have htarget : (⟨registry, l, .preserve⟩ : Engine).target? folder s.clause = none :=
      target?_eq_none fun i h => by
        rw [hi] at h
        cases h
    simp [findingAt?, editAt?, hi, htarget]
  | some i =>
    by_cases hother : i.style = .otherFolder
    · have htarget := target?_preserve registry l hi (by rw [hother]; decide)
      rw [hother] at htarget
      simp only [findingAt?, hi, hother, if_true, Option.bind_some, Finding.pending?, editAt?,
        htarget, line_pathStart hs]
      cases (⟨registry, l, .preserve⟩ : Engine).canonical? folder i .otherFolder with
      | none => rfl
      | some path =>
        have hsame : path = String.ofList s.clause.path ↔ path.toList = s.clause.path := by
          rw [← String.toList_inj, String.toList_ofList]
        simp only [Option.bind_some, Option.map_some, hsame]
        split
        · rfl
        · simp [Edit.entry, Option.filter_some, hother]
    · -- Neither side speaks of an import of another style.
      have hfinding : (⟨registry, l, .preserve⟩ : Engine).findingAt? folder s = none := by
        simp [findingAt?, hi, hother]
      have hedit : ((⟨registry, l, .preserve⟩ : Engine).editAt? folder s).filter
          (fun x => x.style = .otherFolder) = none := by
        refine Option.filter_eq_none_iff.2 fun x hx => ?_
        obtain ⟨j, path, ht, -, rfl⟩ := editAt?_eq_some_iff.1 hx
        obtain ⟨hmatched, hshape, hnames, -⟩ := target?_eq_some_iff.1 ht
        have hj : Import.ofClause? l folder s.clause = some j := by
          refine Import.ofClause?_eq_some_iff.2 ⟨⟨j.style, hshape, ?_⟩, hnames⟩
          rw [hmatched]
          rfl
        rw [← Option.some.inj (hi.symm.trans hj)]
        simpa using hother
      rw [hfinding, hedit]
      rfl

/-- Under `preserve`, audit of the repaired text says beforehand what rewriting
does to imports that reach into another folder: the findings whose canonical
path is another one are, in order, the edits of that style, each with the same
line, module, old path and new path. A finding of an unknown module announces
no edit, and no edit is of that module. -/
theorem audit_predicts_edits (registry : Registry) (l : Layout) (t : String) (folder : Path) :
    ((⟨registry, l, .preserve⟩ : Engine).audit (l.repair t).text folder).filterMap
        Finding.pending? =
      (((⟨registry, l, .preserve⟩ : Engine).rewrite t folder).edits.filter
        fun x => x.style = .otherFolder).map Edit.entry ∧
    ∀ f ∈ (⟨registry, l, .preserve⟩ : Engine).audit (l.repair t).text folder,
      f.registered = false → f.pending? = none ∧
        ∀ x ∈ ((⟨registry, l, .preserve⟩ : Engine).rewrite t folder).edits, x.name ≠ f.name := by
  constructor
  · simp only [audit, rewrite, List.filterMap_filterMap, List.filter_filterMap, List.map_filterMap]
    exact List.filterMap_congr fun s hs => pending_findingAt? registry l hs
  · intro f hf hregistered
    obtain ⟨s, -, hs⟩ := List.mem_filterMap.1 hf
    unfold findingAt? at hs
    split at hs
    · rename_i i hi
      rw [Option.ite_none_right_eq_some] at hs
      obtain ⟨-, hs⟩ := hs
      cases hs
      have hhome : registry.home? i.name = none := by simpa using hregistered
      constructor
      · simp [Finding.pending?, canonical?, hhome]
      · intro x hx hname
        obtain ⟨c, j, ht, hxname, -⟩ := of_mem_edits hx
        obtain ⟨home, hj, -⟩ := target_cases ht
        rw [← hxname, hname] at hj
        rw [hhome] at hj
        cases hj
    · cases hs

/-- Of two findings one announces an edit; the other is of a module that nobody
registered. -/
theorem audit_predicts_edits_button :
    ∃ registry : Registry,
      (⟨registry, {}, .preserve⟩ : Engine).audit (({} : Layout).repair
          "from '../Button\nfrom '../x/Card.tsx'").text ⟨"src/components/forms"⟩ =
        [⟨1, 7, "../Button", "Button", true, some "../common/Button", "from '../Button'"⟩,
          ⟨2, 7, "../x/Card.tsx", "Card", false, none, "from '../x/Card.tsx'"⟩] ∧
      (((⟨registry, {}, .preserve⟩ : Engine).rewrite "from '../Button\nfrom '../x/Card.tsx'"
          ⟨"src/components/forms"⟩).edits.filter fun x => x.style = .otherFolder).map Edit.entry =
        [(1, "Button", "../Button", "../common/Button")] ∧
      ∀ x ∈ ((⟨registry, {}, .preserve⟩ : Engine).rewrite "from '../Button\nfrom '../x/Card.tsx'"
          ⟨"src/components/forms"⟩).edits, x.name ≠ "Card" := by
  have haudit : (⟨⟨[("Button", "common")]⟩, {}, .preserve⟩ : Engine).audit (({} : Layout).repair
      "from '../Button\nfrom '../x/Card.tsx'").text ⟨"src/components/forms"⟩ =
        [⟨1, 7, "../Button", "Button", true, some "../common/Button", "from '../Button'"⟩,
          ⟨2, 7, "../x/Card.tsx", "Card", false, none, "from '../x/Card.tsx'"⟩] := by
    decide +kernel
  obtain ⟨hsame, hunknown⟩ := audit_predicts_edits ⟨[("Button", "common")]⟩ {}
    "from '../Button\nfrom '../x/Card.tsx'" ⟨"src/components/forms"⟩
  rw [haudit] at hsame hunknown
  exact ⟨_, haudit, hsame.symm.trans (by decide), (hunknown _ (.tail _ (.head _)) rfl).2⟩

end Engine

end Relocate
