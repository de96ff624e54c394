import Mathlib.Logic.Basic
import Relocate.Proofs.Rewrite.Fixpoint

/-!
# The changed flag tells the truth

`rewrite` never compares texts: it counts what it did. What it did does not
cancel out. The first broken clause of a text is still the same clause in
order after repair (`exists_scanFrom_repaired`), with its literal closed; new
paths leave it closed; so the new text is not read as the old one was. Where
nothing was broken, a new path is a difference by itself.

* `edits_eq_nil_iff`: there are no edits exactly when each path of the
  repaired text is the one it is to have.
* `changed_iff_text_ne`: the flag, a difference in the text and an entry in
  the report go together.
-/
namespace Relocate

open Text

namespace Layout

variable {l : Layout}

/-- The first broken clause of a list of pieces. -/
theorem exists_first_broken {ps : List Piece} (h : ∃ c, .clause c ∈ ps ∧ l.isBroken c) :
    ∃ before c after, ps = before ++ .clause c :: after ∧ l.isBroken c ∧
      ∀ c', .clause c' ∈ before → l.isBroken c' = false := by
  induction ps with
  | nil =>
    obtain ⟨c, hc, -⟩ := h
    cases hc
  | cons p ps ih =>
    by_cases hp : ∃ c, p = .clause c ∧ l.isBroken c
    · obtain ⟨c, rfl, hc⟩ := hp
      exact ⟨[], c, ps, rfl, hc, by simp⟩
    · obtain ⟨c, hmem, hc⟩ := h
      have hrest : .clause c ∈ ps :=
        (List.mem_cons.1 hmem).resolve_left fun heq => hp ⟨c, heq.symm, hc⟩
      obtain ⟨before, a, after, rfl, ha, hbefore⟩ := ih ⟨c, hrest, hc⟩
      refine ⟨p :: before, a, after, rfl, ha, ?_⟩
      intro c' hc'
      rcases List.mem_cons.1 hc' with heq | hc'
      · exact Bool.eq_false_iff.2 fun hbroken => hp ⟨c', heq.symm, hbroken⟩
      · exact hbefore c' hc'

/-- Up to its first broken clause, a repaired text is read as the text was, and
then the clause with its literal closed. -/
theorem exists_scanFrom_repaired (l : Layout) (d : Bool) (t : List Char) {before after : List Piece}
    {c : Clause} (hsplit : scanFrom d t = before ++ .clause c :: after)
    (hbefore : ∀ c', .clause c' ∈ before → l.isBroken c' = false) :
    ∃ rest, scanFrom d ((scanFrom d t).flatMap l.repairPiece) =
      before ++ .clause (l.mended c).1 :: rest := by
  induction d, t using scan_induction generalizing before with
  | nil d => simp [scanFrom] at hsplit
  | take d p d' rest hp ih =>
    have halike := l.alike_repaired (scanFrom d' rest)
    rw [render_scanFrom] at halike
    rw [hp.scanFrom_eq] at hsplit ⊢
    rw [List.flatMap_cons]
    cases before with
    | nil =>
      obtain ⟨rfl, -⟩ : p = .clause c ∧ scanFrom d' rest = after := by simpa using hsplit
      obtain ⟨rfl, rfl, hc⟩ := takes_clause_iff.1 hp
      have hmended := takes_clause_iff.2 ⟨rfl, rfl, l.stands_mended hc halike.head.symm⟩
      rw [repairPiece_clause, List.append_assoc]
      exact ⟨_, hmended.scanFrom_eq⟩
    | cons q before =>
      obtain ⟨rfl, hrest⟩ : p = q ∧ scanFrom d' rest = before ++ .clause c :: after := by
        simpa using hsplit
      have hkept : l.repairPiece p = p.text := by
        cases p with
        | plain u => rfl
        | clause a => exact repairPiece_of_not_broken (hbefore a List.mem_cons_self)
      obtain ⟨more, hmore⟩ := ih hrest fun c' hc' => hbefore c' (List.mem_cons_of_mem p hc')
      refine ⟨more, ?_⟩
      rw [hkept, (hp.alike halike).scanFrom_eq, hmore]
      rfl

end Layout

namespace Engine

variable {e : Engine} {folder : Path} {t : String}

theorem editAt?_eq_none_iff {s : Site} : e.editAt? folder s = none ↔ e.Fixed folder s.clause := by
  refine ⟨fun h i path ht => ?_, editAt?_of_fixed⟩
  simp only [editAt?, ht] at h
  split at h
  · assumption
  · cases h

theorem edits_eq_nil_iff : (e.rewrite t folder).edits = [] ↔
    ∀ c, .clause c ∈ scan (e.layout.repair t).text.toList → e.Fixed folder c := by
  simp only [rewrite, List.filterMap_eq_nil_iff, editAt?_eq_none_iff]
  constructor
  · intro h c hc
    obtain ⟨s, hs, rfl⟩ := clause_mem_scan_iff.1 hc
    exact h s hs
  · intro h s hs
    exact h s.clause (clause_mem_scan_iff.2 ⟨s, hs, rfl⟩)

theorem fixed_of_retarget {c : Clause} (h : e.retarget folder c = c) : e.Fixed folder c := by
  intro i path ht
  rw [retarget_of_some ht] at h
  exact congrArg Clause.path h

/-- A text that comes out as it went in had no broken literal. -/
theorem Legible.repairs_eq_nil (hs : e.Legible) (h : (e.rewrite t folder).text = t) :
    (e.layout.repair t).repairs = [] := by
  refine Layout.repairs_eq_nil_iff.2 fun c hc => Bool.eq_false_iff.2 fun hbroken => ?_
  obtain ⟨before, a, after, hsplit, ha, hbefore⟩ := Layout.exists_first_broken ⟨c, hc, hbroken⟩
  obtain ⟨rest, hrest⟩ := e.layout.exists_scanFrom_repaired false t.toList hsplit hbefore
  -- Both readings have the same number of pieces before the clause.
  have hboth : before ++ .clause a :: after =
      (before ++ .clause (e.layout.mended a).1 :: rest).map (Piece.mapClause (e.retarget folder)) :=
    calc before ++ .clause a :: after
      _ = scan t.toList := hsplit.symm
      _ = scan (e.rewrite t folder).text.toList := by rw [h]
      _ = _ := by
        rw [hs.scan_rewrite t folder, Layout.toList_repair_text, scan]
        exact congrArg _ hrest
  rw [List.map_append, List.map_cons] at hboth
  obtain ⟨-, htail⟩ := List.append_inj hboth (by simp)
  have hclosed : a = e.retarget folder (e.layout.mended a).1 := by
    simpa [Piece.mapClause] using (List.cons.inj htail).1
  have hwhole : e.layout.isBroken (e.retarget folder (e.layout.mended a).1) = false :=
    isBroken_retarget (e.layout.isBroken_mended a)
  rw [← hclosed, ha] at hwhole
  cases hwhole

/-- A text that comes out as it went in had no path to put right. -/
theorem Legible.edits_eq_nil (hs : e.Legible) (h : (e.rewrite t folder).text = t) :
    (e.rewrite t folder).edits = [] := by
  obtain ⟨-, -, hsettled⟩ :=
    Layout.settled_iff.2 (Layout.repairs_eq_nil_iff.1 (hs.repairs_eq_nil h))
  have hpieces := hs.scan_rewrite t folder
  rw [h, hsettled] at hpieces
  refine edits_eq_nil_iff.2 fun c hc => fixed_of_retarget ?_
  rw [hsettled] at hc
  have hsame := List.map_eq_map_iff.1 ((List.map_id _).trans hpieces) _ hc
  simpa [Piece.mapClause] using hsame.symm

/-- A text comes out as it went in exactly when there was nothing to do. -/
theorem Legible.text_eq_iff (hs : e.Legible) : (e.rewrite t folder).text = t ↔
    (e.rewrite t folder).repairs = [] ∧ (e.rewrite t folder).edits = [] := by
  constructor
  · intro h
    exact ⟨hs.repairs_eq_nil h, hs.edits_eq_nil h⟩
  · intro ⟨hrepairs, hedits⟩
    have hsettled := Layout.settled_iff.2 (Layout.repairs_eq_nil_iff.1 hrepairs)
    have hfixed := edits_eq_nil_iff.1 hedits
    rw [hsettled.2.2] at hfixed
    exact (rewrite_of_fixed hsettled hfixed).2.2.2

/-- A rewrite sets the flag exactly when the text comes out as another one. -/
theorem Legible.rewrite_changed_iff (hs : e.Legible) (t : String) (folder : Path) :
    (e.rewrite t folder).changed = true ↔ (e.rewrite t folder).text ≠ t := by
  rw [ne_eq, hs.text_eq_iff, not_and_or]
  simp [rewrite, Layout.repair]

/-- The flag is set exactly when the text differs, and exactly when the report
has a repair or an edit: nothing that `rewrite` does is undone by something
else it does. -/
theorem changed_iff_text_ne (e : Engine) (hs : e.Legible) (t : String) (folder : Path) :
    ((e.rewrite t folder).changed = true ↔ (e.rewrite t folder).text ≠ t) ∧
    ((e.rewrite t folder).text ≠ t ↔
      (e.rewrite t folder).repairs ≠ [] ∨ (e.rewrite t folder).edits ≠ []) := by
  refine ⟨hs.rewrite_changed_iff t folder, ?_⟩
  rw [ne_eq, hs.text_eq_iff, not_and_or]

/-- Two wrong quotes are swapped, and one path gets longer by what the other
loses; the text has the same length and the same quotes as before. -/
theorem changed_iff_text_ne_swapped :
    ∃ e : Engine, e.Legible ∧
      (e.rewrite "from \"./Card'\nfrom '../components/Card\"" ⟨"src/components/forms"⟩).text =
        "from \"../view/Card\"\nfrom '../view/Card'" ∧
      (e.rewrite "from \"./Card'\nfrom '../components/Card\"" ⟨"src/components/forms"⟩).changed =
        true := by
  have hs : (⟨⟨[("Card", "view")]⟩, {}, .preserve⟩ : Engine).Legible := ⟨by decide, by decide⟩
  have htext : ((⟨⟨[("Card", "view")]⟩, {}, .preserve⟩ : Engine).rewrite
      "from \"./Card'\nfrom '../components/Card\"" ⟨"src/components/forms"⟩).text =
        "from \"../view/Card\"\nfrom '../view/Card'" := by decide +kernel
  refine ⟨_, hs, htext, ?_⟩
  rw [(changed_iff_text_ne _ hs _ _).1, htext]
  decide

end Engine

end Relocate
