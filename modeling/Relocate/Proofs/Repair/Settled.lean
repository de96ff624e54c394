import Relocate.Proofs.Clause.Splice
import Relocate.Repair

/-!
# When a second repair finds nothing

A text is settled when repair leaves it alone. Closing a literal lets reading
go on right behind the new quote, where it had gone on behind the statement
before; so what the statement holds after the path is read for the first time
once the literal is closed.

* `not_broken_of_seen`: a clause that the first reading saw is never touched
  again.
* `repair_settles_iff`: so a repaired text is settled exactly when no broken
  literal comes to light elsewhere. None does if each such rest of a statement,
  read as program text, leads back to its end.
* `repair_not_settled`: a rest that opens a template brings one to light.
-/
namespace Relocate

open Text

namespace Layout

/-- Repair leaves the text alone. -/
def Settled (l : Layout) (t : String) : Prop :=
  (l.repair t).changed = false ∧ (l.repair t).repairs = [] ∧ (l.repair t).text = t

instance (l : Layout) (t : String) : Decidable (l.Settled t) :=
  inferInstanceAs (Decidable (_ ∧ _ ∧ _))

/-- Whether repair has something to do at a clause. -/
def isBroken (l : Layout) (c : Clause) : Bool :=
  l.tracks c.path && (RepairKind.ofEnding? c.ending).isSome

theorem isSome_repairAt? (l : Layout) (s : Site) :
    (l.repairAt? s).isSome = l.isBroken s.clause := by
  unfold repairAt? isBroken
  split <;> simp_all

theorem repairAt?_of_not_broken {l : Layout} {s : Site} (h : l.isBroken s.clause = false) :
    l.repairAt? s = none := by
  rwa [← isSome_repairAt?, Option.isSome_eq_false_iff, Option.isNone_iff_eq_none] at h

theorem repairPiece_of_not_broken {l : Layout} {c : Clause} (h : l.isBroken c = false) :
    l.repairPiece (.clause c) = c.text := by
  unfold repairPiece Clause.closed
  simp only [isBroken, Bool.and_eq_false_iff] at h
  cases hc : c.ending <;> simp_all [RepairKind.ofEnding?]

theorem repairs_eq_nil_iff {l : Layout} {t : String} :
    (l.repair t).repairs = [] ↔ ∀ c, .clause c ∈ scan t.toList → l.isBroken c = false := by
  simp only [repair, List.filterMap_eq_nil_iff]
  constructor
  · intro h c hc
    obtain ⟨s, hs, rfl⟩ := clause_mem_scan_iff.1 hc
    rw [← isSome_repairAt?, h s hs]
    rfl
  · intro h s hs
    exact repairAt?_of_not_broken (h s.clause (clause_mem_scan_iff.2 ⟨s, hs, rfl⟩))

/-- A text is settled exactly when none of its clauses is broken. -/
theorem settled_iff {l : Layout} {t : String} :
    l.Settled t ↔ ∀ c, .clause c ∈ scan t.toList → l.isBroken c = false := by
  constructor
  · intro h
    exact repairs_eq_nil_iff.1 h.2.1
  · intro h
    have hnone := repairs_eq_nil_iff.2 h
    refine ⟨by simpa [repair] using hnone, hnone, ?_⟩
    have htext : (scan t.toList).map l.repairPiece = (scan t.toList).map Piece.text := by
      refine List.map_congr_left fun p hp => ?_
      cases p with
      | plain u => rfl
      | clause c => exact repairPiece_of_not_broken (h c hp)
    rw [repair, List.flatMap_def, htext, ← List.flatMap_def, ← Piece.render, render_scan,
      String.ofList_toList]

/-! ## What repair leaves of a clause -/

/-- The clause that stands where repair met `c`, and what it leaves behind it. -/
def mended (l : Layout) (c : Clause) : Clause × List Char :=
  if l.tracks c.path then
    match c.ending with
    | .missing rest => ({ c with ending := .matched }, rest)
    | .mismatched before after => ({ c with ending := .matched }, before ++ after)
    | .matched | .irregular _ | .ambiguous _ => (c, [])
  else (c, [])

theorem repairPiece_clause (l : Layout) (c : Clause) :
    l.repairPiece (.clause c) = (l.mended c).1.text ++ (l.mended c).2 := by
  obtain ⟨gap, quote, path, ending⟩ := c
  by_cases h : l.tracks path
  · cases ending <;> simp [repairPiece, mended, Clause.closed, Clause.text, Clause.head,
      Clause.opening, Ending.text, h]
  · simp [repairPiece, mended, h]

theorem head?_repairPiece (l : Layout) (c : Clause) :
    (l.repairPiece (.clause c)).head? = some 'f' := by
  rw [repairPiece_clause, List.head?_append, Clause.head?_text, Option.some_or]

theorem isBroken_mended (l : Layout) (c : Clause) : l.isBroken (l.mended c).1 = false := by
  unfold mended isBroken
  by_cases h : l.tracks c.path
  · cases hc : c.ending <;> simp [h, hc, RepairKind.ofEnding?]
  · simp [h]

/-- The clause that repair leaves can be read back, before text that starts
as the text behind the old clause did. -/
theorem stands_mended (l : Layout) {c : Clause} {rest r : List Char} (h : c.Stands rest)
    (hr : r.head? = rest.head?) : (l.mended c).1.Stands ((l.mended c).2 ++ r) := by
  unfold mended
  split
  · split
    · exact h.closed h.path
    · exact h.closed h.path
    · exact h.congr hr
    · exact h.congr hr
    · exact h.congr hr
  · exact h.congr hr

/-! ## The second reading -/

theorem toList_repair_text (l : Layout) (t : String) :
    (l.repair t).text.toList = (scan t.toList).flatMap l.repairPiece := by
  simp [repair]

theorem alike_repaired (l : Layout) (ps : List Piece) :
    Alike (Piece.render ps) (ps.flatMap l.repairPiece) :=
  alike_splice (fun _ => rfl) l.head?_repairPiece ps

/-- The place in the repaired text where `t` had a clause. -/
def Seen (l : Layout) (t : String) (cursor : Cursor) : Prop :=
  ∃ before c after, scan t.toList = before ++ .clause c :: after ∧
    cursor = (Cursor.start (l.repair t).text.toList).move (before.flatMap l.repairPiece).length

/-- A clause of the repaired text that stands where the text had a clause is
what repair left of that clause. -/
theorem not_broken_of_seen {l : Layout} {t : String} {s : Site}
    (hs : s ∈ sites (l.repair t).text.toList) (hseen : l.Seen t s.cursor) :
    l.isBroken s.clause = false := by
  obtain ⟨before, c, after, hsplit, hcursor⟩ := hseen
  obtain ⟨before', c', after', hsplit', rfl⟩ := mem_sitesFrom_iff.1 hs
  have hold : (l.repair t).text.toList = before.flatMap l.repairPiece ++
      ((l.mended c).1.text ++ ((l.mended c).2 ++ after.flatMap l.repairPiece)) := by
    rw [toList_repair_text, hsplit]
    simp [repairPiece_clause]
  have hnew : (l.repair t).text.toList =
      Piece.render before' ++ (c'.text ++ Piece.render after') := by
    rw [← render_scan (l.repair t).text.toList, hsplit']
    simp [Piece.render, Piece.text]
  -- Both readings stand before the same text, and only one clause can be read there.
  have htext : c'.text ++ Piece.render after' =
      (l.mended c).1.text ++ ((l.mended c).2 ++ after.flatMap l.repairPiece) := by
    have hahead := congrArg Cursor.ahead hcursor
    rw [Cursor.ahead_move_start, Cursor.ahead_move_start] at hahead
    calc c'.text ++ Piece.render after'
      _ = (l.repair t).text.toList.drop (Piece.render before').length := by
        rw [hnew, List.drop_left]
      _ = (l.repair t).text.toList.drop (before.flatMap l.repairPiece).length := hahead
      _ = _ := by rw [hold, List.drop_left]
  have hc : (l.mended c).1.Stands ((l.mended c).2 ++ after.flatMap l.repairPiece) :=
    l.stands_mended (stands_of_scanFrom hsplit) (l.alike_repaired after).head.symm
  rw [Clause.Stands.unique (stands_of_scanFrom hsplit') hc htext]
  exact l.isBroken_mended c

/-- Read as program text, what a statement holds after a path without a
closing quote leads back to where the clause ended. -/
def Inert (l : Layout) (ps : List Piece) : Prop :=
  ∀ before c after rest, ps = before ++ .clause c :: after → l.tracks c.path →
    c.ending = .missing rest →
    Reaches false (rest ++ Piece.render after) false (Piece.render after)

theorem inert_nil (l : Layout) : l.Inert [] := by
  intro before c after rest hsplit
  simp at hsplit

theorem inert_plain {l : Layout} {u : List Char} {ps : List Piece} :
    l.Inert (.plain u :: ps) ↔ l.Inert ps := by
  constructor
  · intro h before c after rest hsplit
    exact h (.plain u :: before) c after rest (by rw [hsplit]; rfl)
  · intro h before c after rest hsplit
    cases before with
    | nil => cases hsplit
    | cons p before => exact h before c after rest (List.cons.inj hsplit).2

theorem inert_clause {l : Layout} {c : Clause} {ps : List Piece} : l.Inert (.clause c :: ps) ↔
    (∀ rest, l.tracks c.path → c.ending = .missing rest →
      Reaches false (rest ++ Piece.render ps) false (Piece.render ps)) ∧ l.Inert ps := by
  constructor
  · intro h
    refine ⟨fun rest => h [] c ps rest rfl, fun before c' after rest hsplit => ?_⟩
    exact h (.clause c :: before) c' after rest (by rw [hsplit]; rfl)
  · intro ⟨hfirst, hmore⟩ before c' after rest hsplit
    cases before with
    | nil =>
      obtain ⟨heq, rfl⟩ := List.cons.inj hsplit
      obtain rfl := Piece.clause.inj heq
      exact hfirst rest
    | cons p before => exact hmore before c' after rest (List.cons.inj hsplit).2

/-- What repair leaves behind a mended clause is read as plain text. -/
theorem reaches_mended {l : Layout} {c : Clause} {rest : List Char} (h : c.Stands rest)
    (hinert : ∀ w, l.tracks c.path → c.ending = .missing w → Reaches false (w ++ rest) false rest) :
    Reaches false ((l.mended c).2 ++ rest) false rest ∧ (l.mended c).2.any isQuote = false := by
  unfold mended
  split
  · rename_i htracks
    have hend := h.ending
    split
    · rename_i w hw
      rw [hw] at hend
      exact ⟨hinert w htracks hw, (readEnding_eq_missing hend).1⟩
    · rename_i b a hba
      rw [hba] at hend
      obtain ⟨hblank, -, hrest⟩ := readEnding_eq_mismatched hend
      have hquiet : ∀ x ∈ b ++ a, isQuiet x := fun x hx =>
        isQuiet_of_isBlank (List.all_eq_true.1 hblank x hx)
      refine ⟨reaches_quiet hquiet ?_, any_isQuote_of_quiet hquiet⟩
      intro x hx
      rw [hrest] at hx
      exact isTerminator_of_head? hx
    · exact ⟨.refl _ _, rfl⟩
    · exact ⟨.refl _ _, rfl⟩
    · exact ⟨.refl _ _, rfl⟩
  · exact ⟨.refl _ _, rfl⟩

/-- No clause of a repaired text is broken, if the rests of its statements
are inert. -/
theorem not_broken_of_inert (l : Layout) (d : Bool) (t : List Char) :
    l.Inert (scanFrom d t) →
      ∀ c, .clause c ∈ scanFrom d ((scanFrom d t).flatMap l.repairPiece) →
        l.isBroken c = false := by
  induction d, t using scan_induction with
  | nil d =>
    intro _ c hc
    simp [scanFrom] at hc
  | take d p d' rest hp ih =>
    intro hinert c hc
    rw [hp.scanFrom_eq] at hinert hc
    have halike := l.alike_repaired (scanFrom d' rest)
    rw [render_scanFrom] at halike
    rw [List.flatMap_cons] at hc
    cases p with
    | plain u =>
      change _ ∈ scanFrom d ((Piece.plain u).text ++ _) at hc
      rw [(hp.congr halike).scanFrom_eq, List.mem_cons] at hc
      exact ih (inert_plain.1 hinert) c (hc.resolve_left (by simp))
    | clause a =>
      obtain ⟨rfl, rfl, ha⟩ := takes_clause_iff.1 hp
      have hmended := takes_clause_iff.2 ⟨rfl, rfl, l.stands_mended ha halike.head.symm⟩
      rw [repairPiece_clause, List.append_assoc] at hc
      change _ ∈ scanFrom false ((Piece.clause (l.mended a).1).text ++ _) at hc
      rw [hmended.scanFrom_eq, List.mem_cons] at hc
      rw [inert_clause, render_scanFrom] at hinert
      obtain ⟨hreach, hquote⟩ := reaches_mended ha hinert.1
      obtain ⟨ps, hps, hplain⟩ := hreach.congr halike _ rfl hquote
      rw [hps, List.mem_append] at hc
      rcases hc with hc | hc | hc
      · obtain rfl : c = (l.mended a).1 := by simpa using hc
        exact l.isBroken_mended a
      · obtain ⟨v, hv⟩ := hplain _ hc
        cases hv
      · exact ih hinert.2 c hc

/-- What repair left of a clause is never broken. So a repaired text is settled
exactly when no clause that comes to light elsewhere is broken, and it is
settled whenever the rests of its unclosed statements are inert. -/
theorem repair_settles_iff (l : Layout) (t : String) :
    (∀ s ∈ sites (l.repair t).text.toList, l.Seen t s.cursor → l.isBroken s.clause = false) ∧
    (l.Settled (l.repair t).text ↔
      ∀ s ∈ sites (l.repair t).text.toList, ¬ l.Seen t s.cursor → l.isBroken s.clause = false) ∧
    (l.Inert (scan t.toList) → l.Settled (l.repair t).text) := by
  refine ⟨fun s hs hseen => not_broken_of_seen hs hseen, ⟨?_, ?_⟩, ?_⟩
  · intro h s hs _
    exact settled_iff.1 h s.clause (clause_mem_scan_iff.2 ⟨s, hs, rfl⟩)
  · intro h
    refine settled_iff.2 fun c hc => ?_
    obtain ⟨s, hs, rfl⟩ := clause_mem_scan_iff.1 hc
    by_cases hseen : l.Seen t s.cursor
    · exact not_broken_of_seen hs hseen
    · exact h s hs hseen
  · intro h
    refine settled_iff.2 fun c hc => ?_
    rw [toList_repair_text] at hc
    exact l.not_broken_of_inert false t.toList h c hc

/-- Behind the first path stands a comment, behind the second one nothing. -/
theorem repair_settles_iff_comment :
    ({} : Layout).Inert (scan "from './A // see B\nfrom \"./C\n".toList) ∧
      ({} : Layout).Settled (({} : Layout).repair "from './A // see B\nfrom \"./C\n").text := by
  have hpieces : scan "from './A // see B\nfrom \"./C\n".toList =
      [.clause ⟨[' '], .single, "./A".toList, .missing " // see B".toList⟩, .plain ['\n'],
        .clause ⟨[' '], .double, "./C".toList, .missing []⟩, .plain ['\n']] := by decide +kernel
  have hcomment : Reaches false " // see B\nfrom \"./C\n".toList false "\nfrom \"./C\n".toList := by
    have hread := reaches_readOn 2 false " // see B\nfrom \"./C\n".toList
    rwa [show readOn 2 false " // see B\nfrom \"./C\n".toList =
      (false, "\nfrom \"./C\n".toList) by decide +kernel] at hread
  have hinert : ({} : Layout).Inert (scan "from './A // see B\nfrom \"./C\n".toList) := by
    rw [hpieces, inert_clause, inert_plain, inert_clause, inert_plain]
    refine ⟨fun rest _ hrest => ?_, fun rest _ hrest => ?_, inert_nil _⟩
    · cases hrest
      exact hcomment
    · cases hrest
      exact .refl _ _
  exact ⟨hinert, (repair_settles_iff _ _).2.2 hinert⟩

/-- Closing the first literal brings its backtick to light, which ends where
a template began before and leaves the second literal to be closed. -/
theorem repair_not_settled :
    ¬ ({} : Layout).Settled
      (({} : Layout).repair "import A from \"./A \x60\nlet s = \x60 from \"./B\n\x60;\n").text := by
  decide +kernel

end Layout

end Relocate
