import Relocate.Proofs.Clause.Line
import Relocate.Proofs.Rewrite.Fixpoint

/-!
# The report names every changed line

Repair and the new paths change a text only between a keyword and the end of
its statement, and no line feed stands there. So both leave the number of
lines alone, and a line that one of them changes is the line of a keyword,
which is the line of the entry.

`DifferAt` says this of two texts; it holds of texts that are put together
from stretches that stay and stretches that change (`DifferAt.keep`,
`DifferAt.swap`), hence of a text and its pieces written differently
(`differAt_pieces`).

* `differAt_repair`, `differAt_rewrite`: the two passes.
* `changed_line_reported`: the two together.
-/
namespace Relocate

/-! ## Lines -/

namespace Text

/-- The lines of a text, without the line feeds between them. -/
def lines (t : List Char) : List (List Char) := t.splitOn '\n'

variable {touched touched' : Nat → Prop} {first : Nat} {s t r u v : List Char}

theorem lines_feed (s : List Char) : lines ('\n' :: s) = [] :: lines s := by
  rw [lines, List.splitOn_cons_eq_if_modifyHead, if_pos (by decide)]
  rfl

theorem lines_cons {c : Char} (hc : c ≠ '\n') (s : List Char) :
    lines (c :: s) = (lines s).modifyHead (c :: ·) := by
  rw [lines, List.splitOn_cons_eq_if_modifyHead, if_neg (by simpa using hc)]
  rfl

theorem lines_append (hu : '\n' ∉ u) (s : List Char) :
    lines (u ++ s) = (lines s).modifyHead (u ++ ·) := by
  induction u with
  | nil =>
    rw [List.nil_append]
    cases lines s <;> rfl
  | cons c u ih =>
    obtain ⟨hc, hu⟩ : '\n' ≠ c ∧ '\n' ∉ u := by simpa using hu
    rw [List.cons_append, lines_cons (Ne.symm hc), ih hu, List.modifyHead_modifyHead]
    rfl

/-- Two texts have as many lines, and where these differ the line is a touched
one. The first line has the number `first`. -/
structure DifferAt (touched : Nat → Prop) (first : Nat) (s t : List Char) : Prop where
  length : (lines s).length = (lines t).length
  line : ∀ i, (lines s)[i]? ≠ (lines t)[i]? → touched (first + i)

namespace DifferAt

theorem refl (t : List Char) : DifferAt touched first t t := ⟨rfl, fun _ h => absurd rfl h⟩

theorem trans (h : DifferAt touched first s t) (h' : DifferAt touched' first t r) :
    DifferAt (fun n => touched n ∨ touched' n) first s r := by
  refine ⟨h.length.trans h'.length, fun i hi => ?_⟩
  by_cases hst : (lines s)[i]? = (lines t)[i]?
  · exact .inr (h'.line i (hst ▸ hi))
  · exact .inl (h.line i hst)

/-- A stretch without line feeds changes, on a touched line. -/
theorem swap (hu : '\n' ∉ u) (hv : '\n' ∉ v) (hfirst : touched first)
    (h : DifferAt touched first s t) : DifferAt touched first (u ++ s) (v ++ t) := by
  constructor
  · simp only [lines_append hu, lines_append hv, List.length_modifyHead, h.length]
  · intro i hi
    rw [lines_append hu, lines_append hv, List.getElem?_modifyHead, List.getElem?_modifyHead] at hi
    cases i with
    | zero => exact hfirst
    | succ i => exact h.line (i + 1) (by simpa using hi)

theorem feed (h : DifferAt touched (first + 1) s t) :
    DifferAt touched first ('\n' :: s) ('\n' :: t) := by
  constructor
  · simp only [lines_feed, List.length_cons, h.length]
  · intro i hi
    rw [lines_feed, lines_feed] at hi
    cases i with
    | zero => exact absurd rfl hi
    | succ i =>
      have hline := h.line i (by simpa using hi)
      rwa [Nat.add_assoc, Nat.add_comm 1 i] at hline

theorem cons {c : Char} (hc : c ≠ '\n') (h : DifferAt touched first s t) :
    DifferAt touched first (c :: s) (c :: t) := by
  constructor
  · simp only [lines_cons hc, List.length_modifyHead, h.length]
  · intro i hi
    rw [lines_cons hc, lines_cons hc, List.getElem?_modifyHead, List.getElem?_modifyHead] at hi
    refine h.line i fun heq => hi ?_
    rw [heq]

/-- A stretch stays, with the line feeds in it. -/
theorem keep (u : List Char) (h : DifferAt touched (first + u.count '\n') s t) :
    DifferAt touched first (u ++ s) (u ++ t) := by
  induction u generalizing first with
  | nil => exact h
  | cons c u ih =>
    by_cases hc : c = '\n'
    · subst hc
      refine feed (ih ?_)
      rwa [List.count_cons_self, Nat.add_comm _ 1, ← Nat.add_assoc] at h
    · refine cons hc (ih ?_)
      rwa [List.count_cons_of_ne hc] at h

end DifferAt

theorem Cursor.line_move {c : Cursor} (h : c.ahead = u ++ r) :
    (c.move u.length).line = c.line + u.count '\n' := by
  simp only [Cursor.line, Cursor.behind_move h, List.count_append, List.count_reverse]
  omega

end Text

open Text

/-! ## Pieces -/

/-- Where clauses are written differently, each on the line it stands on, the
text differs on the lines of their keywords. -/
theorem differAt_pieces {touched : Nat → Prop} {f : Piece → List Char}
    (hplain : ∀ t, f (.plain t) = t) (ps : List Piece) :
    ∀ cursor : Cursor, cursor.ahead = Piece.render ps →
      (∀ s ∈ sitesFrom cursor ps, f (.clause s.clause) = s.clause.text ∨
        ('\n' ∉ s.clause.text ∧ '\n' ∉ f (.clause s.clause) ∧ touched s.cursor.line)) →
      DifferAt touched cursor.line (Piece.render ps) (ps.flatMap f) := by
  induction ps with
  | nil => exact fun cursor _ _ => .refl []
  | cons p ps ih =>
    intro cursor hahead hclause
    have hnext := ih _ (Cursor.ahead_move hahead)
    rw [Cursor.line_move hahead] at hnext
    rw [Piece.render_cons, List.flatMap_cons]
    cases p with
    | plain t =>
      rw [hplain]
      exact .keep t (hnext hclause)
    | clause c =>
      rw [sitesFrom, List.forall_mem_cons] at hclause
      have hrest := hnext hclause.2
      rcases hclause.1 with hsame | ⟨hold, hnew, htouched⟩
      · rw [hsame]
        exact .keep c.text hrest
      · refine .swap hold hnew htouched ?_
        rwa [Piece.text, List.count_eq_zero.2 hold] at hrest

theorem differAt_clauses {touched : Nat → Prop} {f : Piece → List Char} (t : List Char)
    (hplain : ∀ u, f (.plain u) = u)
    (hclause : ∀ s ∈ sites t, f (.clause s.clause) = s.clause.text ∨
      ('\n' ∉ s.clause.text ∧ '\n' ∉ f (.clause s.clause) ∧ touched s.cursor.line)) :
    DifferAt touched 1 t ((scan t).flatMap f) := by
  have hpieces := differAt_pieces hplain (scan t) (Cursor.start t) (render_scan t).symm hclause
  rwa [render_scan] at hpieces

/-! ## Repair -/

theorem Layout.noFeed_repairPiece (l : Layout) {c : Clause} (h : '\n' ∉ c.text) :
    '\n' ∉ l.repairPiece (.clause c) := by
  have hquote : '\n' ≠ c.quote.char := by cases c.quote <;> decide
  have hparts : '\n' ∉ c.head ∧ '\n' ∉ c.ending.text c.quote := by simpa [Clause.text] using h
  rw [repairPiece]
  split
  · cases hc : c.ending <;> simp_all [Clause.closed, Ending.text]
  · exact h

/-- Repair changes no line but those of its repairs. -/
theorem Layout.differAt_repair (l : Layout) (t : String) :
    DifferAt (fun n => ∃ r ∈ (l.repair t).repairs, r.line = n) 1 t.toList
      (l.repair t).text.toList := by
  rw [toList_repair_text]
  refine differAt_clauses _ (fun _ => rfl) fun s hs => ?_
  obtain ⟨rest, -, hstands⟩ := stands_of_mem_sitesFrom rfl hs
  cases hbroken : l.isBroken s.clause with
  | false => exact .inl (repairPiece_of_not_broken hbroken)
  | true =>
    refine .inr ⟨hstands.noFeed, l.noFeed_repairPiece hstands.noFeed, ?_⟩
    rw [← isSome_repairAt?] at hbroken
    obtain ⟨r, hr⟩ := Option.isSome_iff_exists.1 hbroken
    refine ⟨r, List.mem_filterMap.2 ⟨s, hs, hr⟩, ?_⟩
    unfold repairAt? at hr
    split at hr
    · obtain ⟨kind, -, rfl⟩ := Option.map_eq_some_iff.1 hr
      rfl
    · cases hr

/-! ## New paths -/

theorem Layout.noFeed_aliasBase {l : Layout} (h : '\n' ∉ l.aliasPrefix.toList) :
    '\n' ∉ l.aliasBase := by
  intro hmem
  rw [aliasBase, trimEnd, List.mem_reverse] at hmem
  exact h (List.mem_reverse.1 ((List.dropWhile_sublist _).mem hmem))

namespace Engine

/-- What the engine puts into a path holds no line feed. -/
structure OnOneLine (e : Engine) : Prop where
  aliasPrefix : '\n' ∉ e.layout.aliasPrefix.toList
  componentsDir : '\n' ∉ e.layout.componentsDir.text.toList
  home : ∀ row ∈ e.registry.rows, '\n' ∉ row.2.toList

variable {e : Engine} {folder : Path} {c : Clause} {i : Import} {path : String}

/-- A new path keeps to its line; the folder of the file is not spelled in it. -/
theorem OnOneLine.noFeed_target (he : e.OnOneLine) (hpath : '\n' ∉ c.path)
    (h : e.target? folder c = some (i, path)) : '\n' ∉ path.toList := by
  obtain ⟨-, -, hnames, -⟩ := target?_eq_some_iff.1 h
  obtain ⟨home, hhome, hcases⟩ := target_cases h
  have hhomeFeed := he.home _ (mem_rows_of_home? hhome)
  have hsegment : '\n' ∉ i.name.toList ++ Import.extensionText i.extension := by
    rw [← hnames.segment]
    exact fun hmem => hpath ((afterLast_suffix '/' c.path).subset hmem)
  rw [List.mem_append, not_or] at hsegment
  rcases hcases with ⟨-, htext⟩ | ⟨-, -, base, target, -, htarget, htext⟩
  · rw [htext]
    simp [Layout.noFeed_aliasBase he.aliasPrefix, hhomeFeed, hsegment]
  · rw [htext, List.mem_append, not_or]
    refine ⟨fun hmem => ?_, hsegment.2⟩
    refine of_mem_relativeText (P := (· ≠ '\n')) (by decide) (by decide) ?_ _ hmem rfl
    intro d hd
    rcases of_mem_difference hd with rfl | ⟨n, hn, rfl⟩
    · simp [Component.text]
    · rintro x hx rfl
      rcases Path.mem_text_join ((name_of_names? htarget n hn).2 hx) with hx | hx | hx
      · rcases Path.mem_text_join hx with hx | hx | hx
        · exact he.componentsDir hx
        · exact hhomeFeed hx
        · exact absurd hx (by decide)
      · exact hsegment.1 hx
      · exact absurd hx (by decide)

/-- New paths change no line of the repaired text but those of the edits. -/
theorem OnOneLine.differAt_rewrite (he : e.OnOneLine) (t : String) (folder : Path) :
    DifferAt (fun n => ∃ x ∈ (e.rewrite t folder).edits, x.line = n) 1
      (e.layout.repair t).text.toList (e.rewrite t folder).text.toList := by
  have htext : (e.rewrite t folder).text.toList = (scan (e.layout.repair t).text.toList).flatMap
      fun p => (e.rewritePiece folder p).text := by
    simp only [rewrite, String.toList_ofList, Piece.render, List.flatMap_map]
  rw [htext]
  refine differAt_clauses _ (fun _ => rfl) fun s hs => ?_
  obtain ⟨rest, -, hstands⟩ := stands_of_mem_sitesFrom rfl hs
  rw [rewritePiece_eq, Piece.mapClause, Piece.text]
  cases ht : e.target? folder s.clause with
  | none => exact .inl (by rw [retarget_of_none ht])
  | some target =>
    obtain ⟨i, path⟩ := target
    rw [retarget_of_some ht]
    by_cases hsame : path.toList = s.clause.path
    · exact .inl (by rw [hsame])
    · have hparts : '\n' ∉ s.clause.opening ∧ '\n' ∉ s.clause.path ∧
          '\n' ∉ s.clause.ending.text s.clause.quote := by
        simpa [Clause.text, Clause.head, and_assoc] using hstands.noFeed
      have hnew := he.noFeed_target hparts.2.1 ht
      refine .inr ⟨hstands.noFeed, ?_, ?_⟩
      · simp only [Clause.text, Clause.head, List.mem_append, not_or]
        exact ⟨⟨hparts.1, hnew⟩, hparts.2.2⟩
      · have hedit : e.editAt? folder s = some
            ⟨s.cursor.line, i.name, i.style, String.ofList s.clause.path, path⟩ := by
          simp [editAt?, ht, hsame]
        exact ⟨_, List.mem_filterMap.2 ⟨s, hs, hedit⟩, rfl⟩

/-- Rewriting keeps the number of lines, and a line that comes out different is
the line of a repair or of an edit. -/
theorem changed_line_reported (e : Engine) (he : e.OnOneLine) (t : String) (folder : Path) :
    (lines (e.rewrite t folder).text.toList).length = (lines t.toList).length ∧
    ∀ i, (lines (e.rewrite t folder).text.toList)[i]? ≠ (lines t.toList)[i]? →
      (∃ r ∈ (e.rewrite t folder).repairs, r.line = i + 1) ∨
        ∃ x ∈ (e.rewrite t folder).edits, x.line = i + 1 := by
  have hboth := (e.layout.differAt_repair t).trans (he.differAt_rewrite t folder)
  refine ⟨hboth.length.symm, fun i hi => ?_⟩
  have hline := hboth.line i hi.symm
  rwa [Nat.add_comm 1 i] at hline

/-- A quote is put in below a comment of two lines, and a path gets longer
below that; the third line is reported for the repair, the fourth for the edit. -/
theorem changed_line_reported_cards :
    ∃ (e : Engine) (out : Rewritten), e.OnOneLine ∧
      e.rewrite "/* from\n*/ x;\ny from '@/components/view/Card\nz from './Card'"
        ⟨"src/components/forms"⟩ = out ∧
      out.text = "/* from\n*/ x;\ny from '@/components/view/Card'\nz from '../view/Card'" ∧
      ((∃ r ∈ out.repairs, r.line = 3) ∨ ∃ x ∈ out.edits, x.line = 3) ∧
      ((∃ r ∈ out.repairs, r.line = 4) ∨ ∃ x ∈ out.edits, x.line = 4) := by
  have he : (⟨⟨[("Card", "view")]⟩, {}, .preserve⟩ : Engine).OnOneLine :=
    ⟨by decide, by decide, by decide⟩
  have htext : ((⟨⟨[("Card", "view")]⟩, {}, .preserve⟩ : Engine).rewrite
      "/* from\n*/ x;\ny from '@/components/view/Card\nz from './Card'"
      ⟨"src/components/forms"⟩).text =
        "/* from\n*/ x;\ny from '@/components/view/Card'\nz from '../view/Card'" := by decide +kernel
  have hreported := (changed_line_reported _ he
    "/* from\n*/ x;\ny from '@/components/view/Card\nz from './Card'" ⟨"src/components/forms"⟩).2
  rw [htext] at hreported
  exact ⟨_, _, he, rfl, htext, hreported 2 (by decide), hreported 3 (by decide)⟩

end Engine

end Relocate
