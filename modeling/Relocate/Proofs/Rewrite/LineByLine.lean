import Relocate.Engine
import Relocate.Proofs.Clause.Line
import Relocate.Proofs.Repair.Settled

/-!
# A broken line does not disturb the text below it

A line is read to its end, whatever stands on it. Repair leaves it a line
(`exists_repaired_line`), so the second reading, that of the repaired text,
ends with it as well. The entries of a report are local: the text below a line
has no part in the entries of the line, and the line moves those of the text
below it by one (`IsLocal`).

* `filterMap_line`: local entries of a line and the text below it.
* `rewrite_line_append`: rewriting a line with a text below it is rewriting
  the two one by one.
-/
namespace Relocate

open Text

/-! ## Places -/

namespace Text.Cursor

/-- The same place of a text with `line` on top of it. -/
def below (c : Cursor) (line : List Char) : Cursor := ⟨c.behind ++ '\n' :: line.reverse, c.ahead⟩

/-- The same place of a text that goes on with `more`. -/
def extend (c : Cursor) (more : List Char) : Cursor := ⟨c.behind, c.ahead ++ more⟩

variable {c : Cursor} {line more : List Char} {n : Nat}

theorem move_below (c : Cursor) (line : List Char) (n : Nat) :
    (c.below line).move n = (c.move n).below line := by
  simp [move, below]

theorem takeWhile_below (c : Cursor) (line : List Char) :
    (c.below line).behind.takeWhile (· != '\n') = c.behind.takeWhile (· != '\n') :=
  (span_append_stop (t := c.behind) (r := '\n' :: line.reverse) (by simp)).1

theorem line_below (h : '\n' ∉ line) : (c.below line).line = c.line + 1 := by
  simp [Cursor.line, below, List.count_eq_zero.2 h]

theorem column_below (c : Cursor) (line : List Char) : (c.below line).column = c.column := by
  rw [column, takeWhile_below, column]

theorem lineText_below (c : Cursor) (line : List Char) : (c.below line).lineText = c.lineText := by
  rw [lineText, takeWhile_below, lineText]
  rfl

theorem move_extend (h : n ≤ c.ahead.length) (more : List Char) :
    (c.extend more).move n = (c.move n).extend more := by
  simp [move, extend, List.take_append_of_le_length h, List.drop_append_of_le_length h]

theorem lineText_extend (h : '\n' ∈ c.ahead) (more : List Char) :
    (c.extend more).lineText = c.lineText := by
  have hahead : (c.ahead ++ more).takeWhile (· != '\n') = c.ahead.takeWhile (· != '\n') := by
    obtain ⟨u, v, hsplit⟩ := List.append_of_mem h
    rw [hsplit, List.append_assoc]
    exact (span_append_stop (t := u) (by simp)).1.trans (span_append_stop (t := u) (by simp)).1.symm
  simp only [lineText, extend, hahead]

end Text.Cursor

namespace Site

def below (s : Site) (line : List Char) : Site := ⟨s.cursor.below line, s.clause⟩

def extend (s : Site) (more : List Char) : Site := ⟨s.cursor.extend more, s.clause⟩

@[simp] theorem clause_below (s : Site) (line : List Char) : (s.below line).clause = s.clause := rfl

@[simp] theorem clause_extend (s : Site) (more : List Char) :
    (s.extend more).clause = s.clause := rfl

end Site

theorem sitesFrom_below (line : List Char) (ps : List Piece) (cursor : Cursor) :
    sitesFrom (cursor.below line) ps = (sitesFrom cursor ps).map (·.below line) := by
  induction ps generalizing cursor with
  | nil => rfl
  | cons p ps ih =>
    cases p with
    | plain t => rw [sitesFrom, Cursor.move_below, ih, sitesFrom]
    | clause c =>
      rw [sitesFrom, Cursor.move_below, ih, sitesFrom]
      rfl

theorem sitesFrom_extend (more : List Char) (ps : List Piece) (cursor : Cursor)
    (h : cursor.ahead = Piece.render ps) :
    sitesFrom (cursor.extend more) ps = (sitesFrom cursor ps).map (·.extend more) := by
  induction ps generalizing cursor with
  | nil => rfl
  | cons p ps ih =>
    have hfits : p.text.length ≤ cursor.ahead.length := by simp [h]
    have hnext := ih _ (Cursor.ahead_move h)
    rw [← Cursor.move_extend hfits] at hnext
    cases p with
    | plain t => exact hnext
    | clause c => exact congrArg (Site.extend ⟨cursor, c⟩ more :: ·) hnext

/-- The sites of a line and of the text below it. -/
theorem sites_line {u b : List Char} (hu : SingleLine u) (hb : OpensWithWord b) :
    sites (u ++ '\n' :: b) =
      (sites (u ++ ['\n'])).map (·.extend b) ++ (sites b).map (·.below u) := by
  have hstart : Cursor.start (u ++ '\n' :: b) = (Cursor.start (u ++ ['\n'])).extend b := by
    simp [Cursor.start, Cursor.extend]
  have hnext : (Cursor.start (u ++ '\n' :: b)).move (u ++ ['\n']).length =
      (Cursor.start b).below u := by
    have hsplit : u ++ '\n' :: b = (u ++ ['\n']) ++ b := by simp
    simp only [hsplit, Cursor.start, Cursor.move, Cursor.below, List.take_left, List.drop_left]
    simp
  rw [sites, scan_line hu hb, sitesFrom_append, render_scan, hnext, sitesFrom_below, hstart,
    sitesFrom_extend b _ _ (render_scan (u ++ ['\n'])).symm]
  rfl

/-! ## Entries -/

/-- What is entered for a clause depends on its own line and the lines above:
text behind the line has no part in it, and a line more above it moves it. -/
structure IsLocal {α : Type} (lower : α → α) (f : Site → Option α) : Prop where
  extend : ∀ (s : Site) (rest more : List Char), s.cursor.ahead = s.clause.text ++ rest →
    '\n' ∈ rest → f (s.extend more) = f s
  below : ∀ (s : Site) (line : List Char), '\n' ∉ line → f (s.below line) = (f s).map lower

theorem filterMap_line {α : Type} {lower : α → α} {f : Site → Option α} (hf : IsLocal lower f)
    {u b : List Char} (hu : SingleLine u) (hb : OpensWithWord b) :
    (sites (u ++ '\n' :: b)).filterMap f =
      (sites (u ++ ['\n'])).filterMap f ++ ((sites b).filterMap f).map lower := by
  have habove : ∀ s ∈ sites (u ++ ['\n']), f (s.extend b) = f s := by
    intro s hs
    obtain ⟨rest, hahead, hstands⟩ := stands_of_mem_sitesFrom rfl hs
    refine hf.extend s rest b hahead ?_
    -- The clause holds no line feed, and the text ahead of it ends with one.
    have hfeed : '\n' ∈ s.cursor.ahead := by
      obtain ⟨before, hsplit⟩ := cursor_ahead_suffix hs
      have hne : s.cursor.ahead ≠ [] := by simp [hahead, s.clause.text_ne_nil]
      have hlast := congrArg List.getLast? hsplit
      rw [List.getLast?_append_of_ne_nil _ hne] at hlast
      exact List.mem_of_getLast? (hlast.trans (by simp [Cursor.start]))
    rw [hahead, List.mem_append] at hfeed
    exact hfeed.resolve_left hstands.noFeed
  have hbelow : ∀ s ∈ sites b, f (s.below u) = (f s).map lower := fun s _ =>
    hf.below s u hu.noFeed
  rw [sites_line hu hb, List.filterMap_append, List.filterMap_map, List.filterMap_map,
    List.map_filterMap]
  exact congrArg₂ (· ++ ·) (List.filterMap_congr habove) (List.filterMap_congr hbelow)

/-- The entry one line further down. -/
def Repair.lowered (r : Repair) : Repair := { r with line := r.line + 1 }

@[inherit_doc Repair.lowered]
def Ambiguity.lowered (a : Ambiguity) : Ambiguity := { a with line := a.line + 1 }

@[inherit_doc Repair.lowered]
def Edit.lowered (e : Edit) : Edit := { e with line := e.line + 1 }

theorem Layout.isLocal_repairAt? (l : Layout) : IsLocal Repair.lowered l.repairAt? := by
  refine ⟨fun s rest more _ _ => rfl, fun s line hline => ?_⟩
  simp only [repairAt?, Site.below, Cursor.line_below hline]
  split
  · rw [Option.map_map]
    rfl
  · rfl

theorem Layout.isLocal_ambiguityAt? (l : Layout) : IsLocal Ambiguity.lowered l.ambiguityAt? := by
  refine ⟨fun s rest more hahead hfeed => ?_, fun s line hline => ?_⟩
  · have hfits : s.clause.head.length ≤ s.cursor.ahead.length := by
      simp [hahead, Clause.text]
    have hsame : (s.extend more).pathStop = s.pathStop.extend more :=
      Cursor.move_extend hfits more
    have hstatement : (s.extend more).cursor.lineText = s.cursor.lineText :=
      Cursor.lineText_extend (by rw [hahead]; exact List.mem_append_right _ hfeed) more
    simp only [ambiguityAt?, hsame, hstatement]
    rfl
  · have hsame : (s.below line).pathStop = s.pathStop.below line := Cursor.move_below _ _ _
    have hstatement : (s.below line).cursor.lineText = s.cursor.lineText :=
      Cursor.lineText_below _ _
    simp only [ambiguityAt?, Site.clause_below, hsame, hstatement, Cursor.line_below hline,
      Cursor.column_below]
    cases s.clause.ending with
    | ambiguous rest => by_cases htracks : l.tracks s.clause.path <;> simp [htracks, Ambiguity.lowered]
    | matched | missing _ | mismatched _ _ | irregular _ => rfl

theorem Engine.isLocal_editAt? (e : Engine) (folder : Path) :
    IsLocal Edit.lowered (e.editAt? folder) := by
  refine ⟨fun s rest more _ _ => rfl, fun s line hline => ?_⟩
  simp only [editAt?, Site.below, Cursor.line_below hline]
  split
  · split <;> rfl
  · rfl

/-! ## The repaired line -/

namespace Layout

variable {u b : List Char}

/-- Repair of a clause on a line leaves a line. -/
theorem singleLine_repairPiece {l : Layout} {c : Clause} {rest v : List Char} (hc : c.Stands rest)
    (h : SingleLine (c.text ++ v)) : SingleLine (l.repairPiece (.clause c) ++ v) := by
  cases hbroken : l.isBroken c with
  | false => rwa [repairPiece_of_not_broken hbroken]
  | true =>
    simp only [isBroken, Bool.and_eq_true] at hbroken
    rw [Clause.text, List.append_assoc] at h
    obtain ⟨hhead, htail⟩ := h.of_append
    rw [repairPiece, if_pos hbroken.1, Clause.closed]
    have hend := hc.ending
    cases hending : c.ending with
    | missing w =>
      rw [hending] at htail
      simpa [Ending.text] using hhead.quoted htail c.quote
    | mismatched w z =>
      rw [hending] at htail hend
      have hblank : ∀ x ∈ w, isBlank x := by
        intro x hx
        exact List.all_eq_true.1 (readEnding_eq_mismatched hend).1 x (List.mem_append_left z hx)
      -- Only blanks stand before the quote that is taken out, so no comment opens in its place.
      have hjoined : SingleLine (w ++ (z ++ v)) := by
        rw [Ending.text, List.append_assoc] at htail
        refine htail.of_append.1.append (htail.of_append.2.of_append (u := [_])).2 ?_
        intro x hx y _ hopen
        exact absurd (hblank x (List.mem_of_getLast? hx)) (by rw [hopen.1]; decide)
      simpa using hhead.quoted hjoined c.quote
    | matched | irregular _ | ambiguous _ => simp [hending, RepairKind.ofEnding?] at hbroken

/-- A repaired line is a line. -/
theorem exists_repaired_line (l : Layout) (d : Bool) (hu : SingleLine u) :
    ∃ v, SingleLine v ∧ v.head? = u.head? ∧
      (scanFrom d (u ++ ['\n'])).flatMap l.repairPiece = v ++ ['\n'] := by
  refine line_induction (motive := fun d u => ∃ v, SingleLine v ∧ v.head? = u.head? ∧
    (scanFrom d (u ++ ['\n'])).flatMap l.repairPiece = v ++ ['\n']) ?_ ?_ d u hu
  · intro d
    refine ⟨[], .nil, rfl, ?_⟩
    have hfeed := (takes_feed d []).scanFrom_eq
    rw [Piece.text, List.singleton_append] at hfeed
    simp [hfeed, scanFrom, repairPiece]
  · rintro d p d' v hline hstep ⟨w, hw, hhead, hrepaired⟩
    have hnew := hline.congr_right hw hhead
    refine ⟨l.repairPiece p ++ w, ?_, ?_, ?_⟩
    · cases p with
      | plain t => exact hnew
      | clause c =>
        obtain ⟨-, -, hc⟩ := takes_clause_iff.1 (hstep [])
        exact singleLine_repairPiece hc hnew
    · cases p with
      | plain t => exact head?_append_congr hhead
      | clause c => rw [List.head?_append, head?_repairPiece, List.head?_append, Piece.text,
          Clause.head?_text]; rfl
    · rw [List.append_assoc, (hstep []).scanFrom_eq, List.flatMap_cons, hrepaired,
        List.append_assoc]

/-- A repaired text begins with the same word. -/
theorem opensWithWord_repaired (l : Layout) (hb : OpensWithWord b) :
    OpensWithWord ((scan b).flatMap l.repairPiece) := by
  have hscan := (hb.takes false).scanFrom_eq
  rw [Piece.text, List.takeWhile_append_dropWhile] at hscan
  have halike := l.alike_repaired (scanFrom false (b.dropWhile isWordChar))
  rw [render_scanFrom] at halike
  have htake := (span_alike (p := isWordChar) halike.head.symm).1
  have hhead := head?_append_congr (u := b.takeWhile isWordChar) halike.head.symm
  rw [List.takeWhile_append_dropWhile] at hhead
  rw [scan, hscan, List.flatMap_cons, repairPiece]
  exact ⟨by rw [hhead]; exact hb.start, by rw [htake]; exact hb.other⟩

section
variable {line text : String}

theorem toList_line (line text : String) :
    (line ++ "\n" ++ text).toList = line.toList ++ '\n' :: text.toList ∧
      (line ++ "\n").toList = line.toList ++ ['\n'] := by
  simp

/-- The repaired text is a line again, with the repaired text below it. -/
theorem repair_text_line (l : Layout) (hline : SingleLine line.toList)
    (htext : OpensWithWord text.toList) :
    ∃ v, SingleLine v ∧ (l.repair (line ++ "\n")).text.toList = v ++ ['\n'] ∧
      (l.repair (line ++ "\n" ++ text)).text.toList =
        v ++ '\n' :: (l.repair text).text.toList := by
  obtain ⟨hwhole, hfirst⟩ := toList_line line text
  obtain ⟨v, hv, -, hrepaired⟩ := l.exists_repaired_line false hline
  refine ⟨v, hv, ?_, ?_⟩
  · rw [toList_repair_text, hfirst]
    exact hrepaired
  · rw [toList_repair_text, hwhole, scan_line hline htext, List.flatMap_append, scan, hrepaired,
      toList_repair_text]
    simp

theorem repairs_line (l : Layout) (hline : SingleLine line.toList)
    (htext : OpensWithWord text.toList) :
    (l.repair (line ++ "\n" ++ text)).repairs =
      (l.repair (line ++ "\n")).repairs ++ (l.repair text).repairs.map Repair.lowered := by
  obtain ⟨hwhole, hfirst⟩ := toList_line line text
  simp only [repair, hwhole, hfirst]
  exact filterMap_line l.isLocal_repairAt? hline htext

theorem ambiguous_line (l : Layout) (hline : SingleLine line.toList)
    (htext : OpensWithWord text.toList) :
    (l.repair (line ++ "\n" ++ text)).ambiguous =
      (l.repair (line ++ "\n")).ambiguous ++ (l.repair text).ambiguous.map Ambiguity.lowered := by
  obtain ⟨hwhole, hfirst⟩ := toList_line line text
  simp only [repair, hwhole, hfirst]
  exact filterMap_line l.isLocal_ambiguityAt? hline htext

theorem changed_eq (l : Layout) (text : String) :
    (l.repair text).changed = !(l.repair text).repairs.isEmpty := rfl

end

end Layout

/-! ## The outcome -/

/-- The outcome for a line, with that for the text below it. -/
def Rewritten.above (line text : Rewritten) : Rewritten where
  text := line.text ++ text.text
  changed := line.changed || text.changed
  repairs := line.repairs ++ text.repairs.map Repair.lowered
  edits := line.edits ++ text.edits.map Edit.lowered
  ambiguous := line.ambiguous ++ text.ambiguous.map Ambiguity.lowered

namespace Engine

/-- Rewriting goes line by line: what stands on a line, broken literals and
all, has no part in what becomes of the text below it, nor that text in what
becomes of the line. -/
theorem rewrite_line_append (e : Engine) (folder : Path) (line text : String)
    (hline : SingleLine line.toList) (htext : OpensWithWord text.toList) :
    e.rewrite (line ++ "\n" ++ text) folder =
      (e.rewrite (line ++ "\n") folder).above (e.rewrite text folder) := by
  obtain ⟨v, hv, hfirst, hwhole⟩ := e.layout.repair_text_line hline htext
  have hbelow : OpensWithWord (e.layout.repair text).text.toList := by
    rw [Layout.toList_repair_text]
    exact e.layout.opensWithWord_repaired htext
  have hrepairs := e.layout.repairs_line hline htext
  have hambiguous := e.layout.ambiguous_line hline htext
  have hedits := filterMap_line (e.isLocal_editAt? folder) hv hbelow
  have hpieces := scan_line hv hbelow
  rw [← hwhole, ← hfirst] at hedits hpieces
  simp only [rewrite, Rewritten.above, Rewritten.mk.injEq]
  refine ⟨?_, ?_, hrepairs, hedits, hambiguous⟩
  · rw [hpieces, List.map_append, Piece.render, List.flatMap_append, String.ofList_append]
    rfl
  · rw [Bool.eq_iff_iff]
    simp only [hedits, Layout.changed_eq, hrepairs, Bool.or_eq_true, Bool.not_eq_true',
      List.isEmpty_eq_false_iff, ne_eq, List.append_eq_nil_iff, List.map_eq_nil_iff, not_and_or]
    exact or_or_or_comm

/-- The first line lacks a quote and ends in a dot; below it, a quote is wrong
and one literal has no end. -/
theorem rewrite_line_append_cards :
    ∃ e : Engine, SingleLine "from './Button from.".toList ∧
      OpensWithWord "x from \"./Card '\ny from \"./Card'' z".toList ∧
      e.rewrite ("from './Button from." ++ "\n" ++ "x from \"./Card '\ny from \"./Card'' z")
        ⟨"src/components/forms"⟩ =
      { text := "from '../common/Button' from.\nx from \"../view/Card\" \ny from \"./Card'' z"
        changed := true
        repairs := [⟨1, "./Button", .single, .inserted⟩, ⟨2, "./Card", .double, .replaced⟩]
        edits := [⟨1, "Button", .sameFolder, "./Button", "../common/Button"⟩,
          ⟨2, "Card", .sameFolder, "./Card", "../view/Card"⟩]
        ambiguous := [⟨3, 15, "y from \"./Card'' z"⟩] } := by
  have hline : SingleLine "from './Button from.".toList :=
    ⟨by decide, by decide, by decide, by decide +kernel⟩
  have htext : OpensWithWord "x from \"./Card '\ny from \"./Card'' z".toList :=
    ⟨⟨'x', by decide, by decide⟩, by decide⟩
  refine ⟨⟨⟨[("Button", "common"), ("Card", "view")]⟩, {}, .preserve⟩, hline, htext, ?_⟩
  rw [rewrite_line_append _ _ _ _ hline htext]
  decide +kernel

end Engine

end Relocate
