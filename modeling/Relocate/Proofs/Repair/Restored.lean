import Relocate.Proofs.Repair.Settled

/-!
# Repair undoes damage

Take a text that repair leaves alone, and let closing quotes in it get lost or
be swapped for the other quote. If only a gap separated such a quote from the
end of its statement, the damage ends there too: reading meets again what it
met before (`Clause.Stands.damaged`, `scanFrom_gap`), and repair finds the
quotes that are wrong, puts each back in its place, and nothing else.

* `repair_damaged`: repair gives the text back, with one entry for each
  damaged literal.
-/
namespace Relocate

open Text

/-! ## Damage -/

/-- What can have happened to the closing quote of a literal. -/
inductive Damage where
  | lost
  | swapped
  deriving DecidableEq, Repr

namespace Damage

/-- What is left of the quote. -/
def remains (q : Quote) : Damage → List Char
  | lost => []
  | swapped => [q.opposite.char]

/-- The repair that undoes the damage. -/
def repairKind : Damage → RepairKind
  | lost => .inserted
  | swapped => .replaced

/-- How the damaged literal ends when `rest` is left of its statement. -/
def ending (rest : List Char) : Damage → Ending
  | lost => .missing rest
  | swapped => .mismatched [] rest

theorem ending_text (q : Quote) (rest : List Char) (damage : Damage) :
    (damage.ending rest).text q = damage.remains q ++ rest := by
  cases damage <;> rfl

theorem ofEnding?_ending (rest : List Char) (damage : Damage) :
    RepairKind.ofEnding? (damage.ending rest) = some damage.repairKind := by
  cases damage <;> rfl

theorem count_remains (q : Quote) (damage : Damage) : (damage.remains q).count '\n' = 0 := by
  cases damage <;> cases q <;> decide

end Damage

/-- The pieces ahead of a place as text, with the closing quotes damaged that
`harm` picks. -/
def damagedFrom (harm : Site → Option Damage) (cursor : Cursor) : List Piece → List Char
  | [] => []
  | .plain t :: ps => t ++ damagedFrom harm (cursor.move t.length) ps
  | .clause c :: ps =>
    (match harm ⟨cursor, c⟩ with
      | some damage => c.head ++ damage.remains c.quote
      | none => c.text) ++ damagedFrom harm (cursor.move c.text.length) ps

/-- The text with the closing quotes damaged that `harm` picks. -/
def damaged (harm : Site → Option Damage) (t : String) : String :=
  String.ofList (damagedFrom harm (Cursor.start t.toList) (scan t.toList))

/-- The literal is closed and repair looks after it, and only a gap separates
its closing quote from the end of the statement. -/
structure Layout.Restores (l : Layout) (s : Site) : Prop where
  matched : s.clause.ending = .matched
  tracked : l.tracks s.clause.path
  gap : (statementRest (s.cursor.move s.clause.text.length).ahead).all isGap

instance (l : Layout) (s : Site) : Decidable (l.Restores s) :=
  decidable_of_iff (s.clause.ending = .matched ∧ l.tracks s.clause.path ∧
    (statementRest (s.cursor.move s.clause.text.length).ahead).all isGap)
    ⟨fun h => ⟨h.1, h.2.1, h.2.2⟩, fun h => ⟨h.matched, h.tracked, h.gap⟩⟩

/-! ## Reading over a gap -/

theorem takes_gap {x : Char} (hx : isGap x) (d : Bool) (rest : List Char) :
    Takes d (.plain [x]) d rest := by
  refine ⟨x, rest, rfl, ?_⟩
  refine of_isGap hx ?_ ?_ <;>
    simp [scanStep, isQuote, backtick, isWordStart, isBeyondAscii, isAsciiBlank]

/-- A gap is read character by character, whatever follows. -/
theorem scanFrom_gap {u : List Char} (hu : ∀ x ∈ u, isGap x) (d : Bool) (r : List Char) :
    scanFrom d (u ++ r) = u.map (fun x => .plain [x]) ++ scanFrom d r := by
  induction u with
  | nil => rfl
  | cons x u ih =>
    have hstep := (takes_gap (hu x List.mem_cons_self) d (u ++ r)).scanFrom_eq
    rw [ih fun y hy => hu y (List.mem_cons_of_mem x hy)] at hstep
    exact hstep

theorem sitesFrom_plain (u : List Char) (cursor : Cursor) (ps : List Piece) :
    sitesFrom cursor (u.map (fun x => .plain [x]) ++ ps) = sitesFrom (cursor.move u.length) ps := by
  induction u generalizing cursor with
  | nil => rfl
  | cons x u ih =>
    rw [List.map_cons, List.cons_append, sitesFrom, ih, Cursor.move_move, List.length_cons,
      Nat.add_comm]
    rfl

theorem damagedFrom_plain (harm : Site → Option Damage) (u : List Char) (cursor : Cursor)
    (ps : List Piece) :
    damagedFrom harm cursor (u.map (fun x => .plain [x]) ++ ps) =
      u ++ damagedFrom harm (cursor.move u.length) ps := by
  induction u generalizing cursor with
  | nil => rfl
  | cons x u ih =>
    rw [List.map_cons, List.cons_append, damagedFrom, ih, Cursor.move_move, List.length_cons,
      Nat.add_comm]
    rfl

theorem repairPiece_plain (l : Layout) (u : List Char) (ps : List Piece) :
    (u.map (fun x => Piece.plain [x]) ++ ps).flatMap l.repairPiece =
      u ++ ps.flatMap l.repairPiece := by
  induction u with
  | nil => rfl
  | cons x u ih =>
    rw [List.map_cons, List.cons_append, List.flatMap_cons, ih]
    rfl

/-- Damage is not seen from before it. -/
theorem alike_damagedFrom (harm : Site → Option Damage) (ps : List Piece) :
    ∀ cursor, Alike (Piece.render ps) (damagedFrom harm cursor ps) := by
  induction ps with
  | nil => exact fun cursor => .refl []
  | cons p ps ih =>
    intro cursor
    cases p with
    | plain t => exact (ih (cursor.move t.length)).append t
    | clause c =>
      rw [Piece.render_cons, damagedFrom]
      refine .of_keyword c.head?_text ?_ _ _
      cases harm ⟨cursor, c⟩ with
      | none => exact c.head?_text
      | some damage => rfl

/-- Damage behind a gap leaves the gap and the terminator behind it. -/
theorem damagedFrom_gap (harm : Site → Option Damage) (cursor : Cursor) (d : Bool)
    {rest : List Char} (hgap : ∀ x ∈ statementRest rest, isGap x) :
    ∃ r, damagedFrom harm cursor (scanFrom d rest) = statementRest rest ++ r ∧
      r.head? = (afterStatement rest).head? := by
  have hscan := scanFrom_gap hgap d (afterStatement rest)
  rw [statementRest_append] at hscan
  have halike := alike_damagedFrom harm (scanFrom d (afterStatement rest))
    (cursor.move (statementRest rest).length)
  rw [render_scanFrom] at halike
  exact ⟨_, by rw [hscan, damagedFrom_plain], halike.head.symm⟩

/-! ## A damaged clause -/

section
variable {u r : List Char} {q : Quote}

theorem head?_gap_append {P : Char → Prop} (hu : ∀ x ∈ u, isGap x)
    (hr : ∀ x, r.head? = some x → isTerminator x) (hgap : ∀ x, isGap x → P x)
    (hstop : ∀ x, isTerminator x → P x) {x : Char} (hx : (u ++ r).head? = some x) : P x := by
  cases u with
  | nil => exact hstop x (hr x hx)
  | cons y u =>
    obtain rfl : y = x := by simpa using hx
    exact hgap y (hu y List.mem_cons_self)

theorem readEnding_lost (hu : ∀ x ∈ u, isGap x) (hr : ∀ x, r.head? = some x → isTerminator x) :
    readEnding q (u ++ r) = (.missing u, r) := by
  obtain ⟨hrest, hafter⟩ :=
    statementRest_append_stop (fun x hx => of_isGap (hu x hx) rfl rfl) hr
  have hquote : (statementRest (u ++ r)).any isQuote = false := by
    rw [hrest]
    exact any_isQuote_of_quiet fun x hx => of_isGap (hu x hx) rfl rfl
  have hhead : (u ++ r).head? ≠ some q.char := by
    intro hq
    refine head?_gap_append (P := (· ≠ q.char)) hu hr ?_ ?_ hq rfl
    · exact fun x hx => of_isGap hx (by cases q <;> decide) (by cases q <;> decide)
    · exact fun x hx => of_isTerminator hx (by cases q <;> decide) (by cases q <;> decide)
        (by cases q <;> decide)
  have h := readEnding_missing (q := q) hhead hquote
  rwa [hrest, hafter] at h

theorem readEnding_swapped (hu : ∀ x ∈ u, isGap x)
    (hr : ∀ x, r.head? = some x → isTerminator x) :
    readEnding q (q.opposite.char :: (u ++ r)) = (.mismatched [] u, r) := by
  have hopen : ∀ x ∈ q.opposite.char :: u, isTerminator x = false := by
    rw [List.forall_mem_cons]
    exact ⟨by cases q <;> rfl, fun x hx => of_isGap (hu x hx) rfl rfl⟩
  obtain ⟨hrest, hafter⟩ := statementRest_append_stop hopen hr
  rw [List.cons_append] at hrest hafter
  have hbefore : before q.opposite.char (q.opposite.char :: u) = [] := by simp [before]
  have hbehind : after q.opposite.char (q.opposite.char :: u) = u := by simp [after]
  have hstray : isStray q (q.opposite.char :: u) = true := by
    rw [isStray, hbefore, hbehind, List.all_eq_true.2 fun x hx => of_isGap (hu x hx) rfl rfl]
    rfl
  have hquote : q.char ∉ q.opposite.char :: u := by
    rw [List.mem_cons, not_or]
    refine ⟨q.char_opposite_ne.symm, fun hq => ?_⟩
    exact absurd (hu q.char hq) (by cases q <;> decide)
  have h := readEnding_mismatched (q := q) (t := q.opposite.char :: (u ++ r))
    (by simpa using q.char_opposite_ne)
    (by rw [hrest]; exact any_isQuote_of_mem List.mem_cons_self) (by rwa [hrest]) (by rwa [hrest])
  rwa [hrest, hafter, hbefore, hbehind] at h

/-- With its closing quote damaged, a clause takes the gap behind it and ends
with the statement. -/
theorem Clause.Stands.damaged {c : Clause} {rest : List Char} (h : c.Stands rest)
    (hu : ∀ x ∈ u, isGap x) (hr : ∀ x, r.head? = some x → isTerminator x) (damage : Damage) :
    Clause.Stands { c with ending := damage.ending u } r := by
  refine ⟨h.gap, h.path, ?_, ?_⟩
  · intro x hx
    cases damage with
    | lost =>
      refine head?_gap_append (P := (isPathChar · = false)) hu hr ?_ ?_ hx
      · exact fun x hx => of_isGap hx rfl rfl
      · exact fun x hx => of_isTerminator hx rfl rfl rfl
    | swapped =>
      obtain rfl : c.quote.opposite.char = x := by simpa [Damage.ending, Ending.text] using hx
      exact c.quote.opposite.not_isPathChar
  · cases damage with
    | lost => exact readEnding_lost hu hr
    | swapped => exact readEnding_swapped hu hr

theorem Clause.text_damaged (c : Clause) (damage : Damage) (u : List Char) :
    Clause.text { c with ending := damage.ending u } = c.head ++ damage.remains c.quote ++ u := by
  rw [Clause.text, Damage.ending_text, List.append_assoc]
  rfl

end

/-! ## Step by step

The text is read from the place `a` on, the damaged text from `b` on. -/

namespace Layout

/-- The entry that a damaged literal gets. -/
def restoreAt? (harm : Site → Option Damage) (s : Site) : Option Repair :=
  (harm s).map fun damage =>
    ⟨s.cursor.line, String.ofList s.clause.path, s.clause.quote, damage.repairKind⟩

/-- What repair makes of the damaged text ahead of `b` is the text ahead of
`a`, with an entry for each literal that was damaged. -/
structure Restored (l : Layout) (harm : Site → Option Damage) (d : Bool) (a b : Cursor) :
    Prop where
  text : (scanFrom d b.ahead).flatMap l.repairPiece = a.ahead
  repairs : (sitesFrom b (scanFrom d b.ahead)).filterMap l.repairAt? =
    (sitesFrom a (scanFrom d a.ahead)).filterMap (restoreAt? harm)

variable {l : Layout} {harm : Site → Option Damage} {d d' : Bool} {a b : Cursor}
  {rest r : List Char} {c : Clause}

theorem Restored.plain {u : List Char} (hp : Takes d (.plain u) d' rest)
    (ha : a.ahead = u ++ rest) (hb : b.ahead = u ++ r) (hr : Alike rest r)
    (h : Restored l harm d' (a.move u.length) (b.move u.length)) : Restored l harm d a b := by
  have hold : scanFrom d a.ahead = .plain u :: scanFrom d' rest := by
    rw [ha]
    exact hp.scanFrom_eq
  have hnew : scanFrom d b.ahead = .plain u :: scanFrom d' r := by
    rw [hb]
    exact (hp.congr hr).scanFrom_eq
  obtain ⟨htext, hrepairs⟩ := h
  rw [Cursor.ahead_move ha, Cursor.ahead_move hb] at htext hrepairs
  refine ⟨?_, ?_⟩
  · rw [hnew, List.flatMap_cons, htext, ha]
    rfl
  · rw [hold, hnew]
    exact hrepairs

theorem Restored.unharmed (hc : c.Stands rest) (hbroken : l.isBroken c = false)
    (hharm : harm ⟨a, c⟩ = none) (ha : a.ahead = c.text ++ rest) (hb : b.ahead = c.text ++ r)
    (hr : r.head? = rest.head?)
    (h : Restored l harm false (a.move c.text.length) (b.move c.text.length)) :
    Restored l harm false a b := by
  have hold : scanFrom false a.ahead = .clause c :: scanFrom false rest := by
    rw [ha]
    exact (takes_clause_iff.2 ⟨rfl, rfl, hc⟩).scanFrom_eq
  have hnew : scanFrom false b.ahead = .clause c :: scanFrom false r := by
    rw [hb]
    exact (takes_clause_iff.2 ⟨rfl, rfl, hc.congr hr⟩).scanFrom_eq
  have hentry : l.repairAt? ⟨b, c⟩ = none := repairAt?_of_not_broken hbroken
  obtain ⟨htext, hrepairs⟩ := h
  rw [Cursor.ahead_move ha, Cursor.ahead_move hb] at htext hrepairs
  refine ⟨?_, ?_⟩
  · rw [hnew, List.flatMap_cons, htext, ha, repairPiece_of_not_broken hbroken]
  · rw [hold, hnew, sitesFrom, sitesFrom, List.filterMap_cons_none hentry,
      List.filterMap_cons_none (by rw [restoreAt?, hharm]; rfl)]
    exact hrepairs

/-- Repair puts the closing quote back. -/
theorem repairPiece_damaged (htracks : l.tracks c.path) (hmatched : c.ending = .matched)
    (damage : Damage) (u : List Char) :
    l.repairPiece (.clause { c with ending := damage.ending u }) = c.text ++ u := by
  rw [repairPiece, if_pos htracks]
  cases damage <;>
    simp [Clause.closed, Damage.ending, Clause.text, Clause.head, Clause.opening, hmatched,
      Ending.text]

theorem Restores.isGap (hs : l.Restores ⟨a, c⟩) (ha : a.ahead = c.text ++ rest) :
    ∀ x ∈ statementRest rest, isGap x := by
  have hgap := hs.gap
  rw [Cursor.ahead_move ha] at hgap
  exact List.all_eq_true.1 hgap

theorem Restored.harmed {damage : Damage} (hc : c.Stands rest) (hs : l.Restores ⟨a, c⟩)
    (hharm : harm ⟨a, c⟩ = some damage) (hline : a.line = b.line)
    (ha : a.ahead = c.text ++ rest)
    (hb : b.ahead = (c.head ++ damage.remains c.quote) ++ (statementRest rest ++ r))
    (hr : r.head? = (afterStatement rest).head?)
    (h : Restored l harm false (a.move c.text.length)
      (b.move (c.head ++ damage.remains c.quote).length)) :
    Restored l harm false a b := by
  have hgap := hs.isGap ha
  have hstands : Clause.Stands { c with ending := damage.ending (statementRest rest) } r :=
    hc.damaged hgap (fun x hx => isTerminator_of_head? (hr ▸ hx)) damage
  have hold : scanFrom false a.ahead = .clause c :: scanFrom false rest := by
    rw [ha]
    exact (takes_clause_iff.2 ⟨rfl, rfl, hc⟩).scanFrom_eq
  have hnew : scanFrom false b.ahead =
      .clause { c with ending := damage.ending (statementRest rest) } :: scanFrom false r := by
    rw [hb, ← List.append_assoc, ← Clause.text_damaged]
    exact (takes_clause_iff.2 ⟨rfl, rfl, hstands⟩).scanFrom_eq
  have hentry : l.repairAt? ⟨b, { c with ending := damage.ending (statementRest rest) }⟩ =
      restoreAt? harm ⟨a, c⟩ := by
    rw [repairAt?, if_pos hs.tracked, Damage.ofEnding?_ending, restoreAt?, hharm, hline]
    rfl
  -- The gap is read as such in the text, and belongs to the clause in the damaged text.
  obtain ⟨htext, hrepairs⟩ := h
  rw [Cursor.ahead_move ha, Cursor.ahead_move hb, scanFrom_gap hgap] at htext hrepairs
  rw [repairPiece_plain] at htext
  rw [sitesFrom_plain, Cursor.move_move, ← List.length_append, ← Clause.text_damaged] at hrepairs
  refine ⟨?_, ?_⟩
  · rw [hnew, List.flatMap_cons, repairPiece_damaged hs.tracked hs.matched, List.append_assoc,
      htext, ha]
  · rw [hold, hnew, sitesFrom, sitesFrom, List.filterMap_cons, List.filterMap_cons, hentry,
      hrepairs]

/-! ## The whole text -/

theorem restored_damagedFrom (l : Layout) (harm : Site → Option Damage) (d : Bool)
    (t : List Char) :
    ∀ a b : Cursor, a.ahead = t → b.ahead = damagedFrom harm a (scanFrom d t) → a.line = b.line →
      (∀ s ∈ sitesFrom a (scanFrom d t), l.isBroken s.clause = false) →
      (∀ s ∈ sitesFrom a (scanFrom d t), (harm s).isSome → l.Restores s) →
      Restored l harm d a b := by
  induction d, t using scan_induction with
  | nil d =>
    intro a b ha hb _ _ _
    exact ⟨by simp [ha, hb, scanFrom, damagedFrom],
      by simp [ha, hb, scanFrom, damagedFrom, sitesFrom]⟩
  | take d p d' rest hp ih =>
    intro a b ha hb hline hwhole hharm
    rw [hp.scanFrom_eq] at hb hwhole hharm
    cases p with
    | plain u =>
      have ha : a.ahead = u ++ rest := ha
      have halike := alike_damagedFrom harm (scanFrom d' rest) (a.move u.length)
      rw [render_scanFrom] at halike
      refine Restored.plain hp ha hb halike ?_
      exact ih _ _ (Cursor.ahead_move ha) (Cursor.ahead_move hb)
        (Cursor.line_move_congr ha hb hline rfl) hwhole hharm
    | clause c =>
      have ha : a.ahead = c.text ++ rest := ha
      obtain ⟨rfl, rfl, hc⟩ := takes_clause_iff.1 hp
      rw [sitesFrom, List.forall_mem_cons] at hwhole hharm
      rw [damagedFrom] at hb
      cases hdamage : harm ⟨a, c⟩ with
      | none =>
        rw [hdamage] at hb
        have halike := alike_damagedFrom harm (scanFrom false rest) (a.move c.text.length)
        rw [render_scanFrom] at halike
        refine Restored.unharmed hc hwhole.1 hdamage ha hb halike.head.symm ?_
        exact ih _ _ (Cursor.ahead_move ha) (Cursor.ahead_move hb)
          (Cursor.line_move_congr ha hb hline rfl) hwhole.2 hharm.2
      | some damage =>
        rw [hdamage] at hb
        have hs := hharm.1 (by rw [hdamage]; rfl)
        have hcount : c.text.count '\n' = (c.head ++ damage.remains c.quote).count '\n' := by
          rw [Clause.text, hs.matched, List.count_append, List.count_append, damage.count_remains]
          cases c.quote <;> rfl
        obtain ⟨r, hgap, hr⟩ :=
          damagedFrom_gap harm (a.move c.text.length) false (hs.isGap ha)
        refine Restored.harmed hc hs hdamage hline ha (hgap ▸ hb) hr ?_
        exact ih _ _ (Cursor.ahead_move ha) (Cursor.ahead_move hb)
          (Cursor.line_move_congr ha hb hline hcount) hwhole.2 hharm.2

/-- Repair gives a text back whose closing quotes got lost or were swapped at
the end of their statements, in whatever places and however many. It has one
entry for each of them, in order, and no other. -/
theorem repair_damaged (l : Layout) (t : String) (harm : Site → Option Damage)
    (hunchanged : (l.repair t).changed = false)
    (hharm : ∀ s ∈ sites t.toList, (harm s).isSome → l.Restores s) :
    (l.repair (damaged harm t)).text = t ∧
    (l.repair (damaged harm t)).repairs = (sites t.toList).filterMap fun s =>
      (harm s).map fun damage =>
        ⟨s.cursor.line, String.ofList s.clause.path, s.clause.quote, damage.repairKind⟩ := by
  have hwhole : ∀ s ∈ sites t.toList, l.isBroken s.clause = false := by
    intro s hs
    have hnone : (l.repair t).repairs = [] := by simpa [repair] using hunchanged
    exact repairs_eq_nil_iff.1 hnone s.clause (clause_mem_scan_iff.2 ⟨s, hs, rfl⟩)
  obtain ⟨htext, hrepairs⟩ := restored_damagedFrom l harm false t.toList (Cursor.start t.toList)
    (Cursor.start (damaged harm t).toList) rfl (by simp [damaged, Cursor.start, scan]) rfl
    hwhole hharm
  refine ⟨?_, hrepairs⟩
  rw [← String.toList_inj, toList_repair_text]
  exact htext

/-- One quote is lost and one swapped; between them stand a comment, a literal
that ends late and one whose end is open. -/
theorem repair_damaged_both :
    ∃ harm : Site → Option Damage,
      damaged harm "from './A' ; // from './B\nfrom 'x' y'; from \"./B ' y\nfrom \"../C\"\t" =
        "from './A ; // from './B\nfrom 'x' y'; from \"./B ' y\nfrom \"../C'\t" ∧
      (({} : Layout).repair
        "from './A ; // from './B\nfrom 'x' y'; from \"./B ' y\nfrom \"../C'\t").text =
        "from './A' ; // from './B\nfrom 'x' y'; from \"./B ' y\nfrom \"../C\"\t" ∧
      (({} : Layout).repair
        "from './A ; // from './B\nfrom 'x' y'; from \"./B ' y\nfrom \"../C'\t").repairs =
        [⟨1, "./A", .single, .inserted⟩, ⟨3, "../C", .double, .replaced⟩] := by
  let harm : Site → Option Damage := fun s =>
    if s.clause.path = "./A".toList then some .lost
    else if s.clause.path = "../C".toList then some .swapped else none
  have hdamaged :
      damaged harm "from './A' ; // from './B\nfrom 'x' y'; from \"./B ' y\nfrom \"../C\"\t" =
        "from './A ; // from './B\nfrom 'x' y'; from \"./B ' y\nfrom \"../C'\t" := by
    decide +kernel
  have hback := repair_damaged {}
    "from './A' ; // from './B\nfrom 'x' y'; from \"./B ' y\nfrom \"../C\"\t" harm
    (by decide +kernel) (by decide +kernel)
  rw [hdamaged] at hback
  exact ⟨harm, hdamaged, hback.1, hback.2.trans (by decide +kernel)⟩

end Layout

end Relocate
