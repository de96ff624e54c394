import Relocate.Bytes.Splice
import Relocate.Proofs.Bytes.Scan

/-!
# No slice is missing

The offsets of clauses fall between characters, one behind the other. So
repair, rewriting and auditing by slices always have a result, and it is the
one that work on the pieces of the text gives.

* `Offsets.Fit`: the offsets of a clause are in order, within the text and
  between characters.
* `lines_of_boundary`: such an offset has a line, a column and a line of text.
* `Draft.Spells`: what a draft and the text not yet copied spell together.
* `repair?_eq`, `rewrite?_eq`, `audit?_eq`: no slice is missing, and the
  outcome is that of the functions on characters.
* `clauses_in_order`: all of it, for any text.
-/
namespace Relocate

open Text

/-- The offsets at which a text may be cut around a clause. -/
def Offsets.cuts (o : Offsets) : List Nat :=
  [o.keyword, o.start, o.stop, o.finish] ++
    match o.stray with
    | some stray => [stray, stray + 1]
    | none => []

/-- The offsets of a clause are in order, within the text and between characters. -/
structure Offsets.Fit (text : String) (o : Offsets) : Prop where
  opened : o.keyword + 4 < o.start
  start_le : o.start ≤ o.stop
  stop_le : o.stop ≤ o.finish
  finish_le : o.finish ≤ text.utf8ByteSize
  stray : ∀ i, o.stray = some i → o.stop ≤ i ∧ i < o.finish
  boundary : ∀ i ∈ o.cuts, Bytes.IsBoundary text i

namespace Bytes

/-! ## Lines -/

theorem reverse_lines (t : List Char) : t.reverse =
    (t.dropWhile (· != '\n')).reverse ++ (t.takeWhile (· != '\n')).reverse := by
  rw [← List.reverse_append, List.takeWhile_append_dropWhile]

section Lines

variable {text : String} {u v : List Char}

theorem min_split (h : text.toList = u ++ v) : min (byteLength u) text.utf8ByteSize = byteLength u := by
  rw [utf8ByteSize_eq, h, byteLength_append]
  omega

theorem cut?_start (h : text.toList = u ++ v) : cut? text 0 (byteLength u) = some u := by
  simpa using cut?_of_split (u := []) h

theorem cut?_end (h : text.toList = u ++ v) :
    cut? text (byteLength u) text.utf8ByteSize = some v := by
  rw [utf8ByteSize_eq, h, byteLength_append]
  exact cut?_of_split (w := []) (by simpa using h)

theorem offset_eq (c : Cursor) : c.offset = byteLength c.behind.reverse := by
  rw [byteLength_reverse, Cursor.offset]

theorem lineColumn?_at {c : Cursor} (h : c.text = text.toList) :
    lineColumn? text c.offset = some (c.line, c.column) := by
  have hcut := cut?_start h.symm
  have hline : cut? (String.ofList c.behind.reverse) (lineStart c.behind.reverse)
      (byteLength c.behind.reverse) = some (c.behind.takeWhile (· != '\n')).reverse := by
    have hsplit : (String.ofList c.behind.reverse).toList =
        (c.behind.dropWhile (· != '\n')).reverse ++
          ((c.behind.takeWhile (· != '\n')).reverse ++ []) := by
      rw [String.toList_ofList, List.append_nil]
      exact reverse_lines c.behind
    have hslice := cut?_of_split hsplit
    rw [← byteLength_append, ← reverse_lines, byteLength_reverse] at hslice
    simpa [lineStart] using hslice
  simp only [lineColumn?, offset_eq, min_split h.symm, hcut, hline, Option.bind_eq_bind,
    Option.bind_some]
  simp [Cursor.line, Cursor.column]

theorem lineAt?_at {c : Cursor} (h : c.text = text.toList) :
    lineAt? text c.offset = some c.lineText := by
  have hsplit : text.toList = (c.behind.dropWhile (· != '\n')).reverse ++
      (((c.behind.takeWhile (· != '\n')).reverse ++ c.ahead.takeWhile (· != '\n')) ++
        c.ahead.dropWhile (· != '\n')) := by
    rw [List.append_assoc, List.takeWhile_append_dropWhile, ← List.append_assoc, ← reverse_lines,
      ← h, Cursor.text]
  have hslice := cut?_of_split hsplit
  rw [byteLength_append, ← Nat.add_assoc, ← byteLength_append, ← reverse_lines,
    byteLength_reverse (c.behind.dropWhile _)] at hslice
  simp only [lineAt?, offset_eq, min_split h.symm, cut?_start h.symm, cut?_end h.symm,
    Option.bind_eq_bind, Option.bind_some, lineStart, List.reverse_reverse, hslice]
  rfl

theorem seekFrom_append (behind u v : List Char) :
    Cursor.seekFrom behind (u ++ v) (byteLength u) = some ⟨u.reverse ++ behind, v⟩ := by
  induction u generalizing behind with
  | nil => cases v <;> rfl
  | cons c u ih =>
    have hpos := c.utf8Size_pos
    rw [List.cons_append, byteLength_cons, Cursor.seekFrom, if_neg (by omega),
      if_pos (Nat.le_add_right _ _), Nat.add_sub_cancel_left, ih]
    simp

theorem seek?_split (h : text.toList = u ++ v) :
    Cursor.seek? text.toList (byteLength u) = some ⟨u.reverse, v⟩ := by
  simpa [h, Cursor.seek?] using seekFrom_append [] u v

/-- An offset between characters has a line, a column and a line of text. -/
theorem lines_of_boundary {i : Nat} (h : IsBoundary text i) :
    ∃ c, Cursor.seek? text.toList i = some c ∧ lineColumn? text i = some (c.line, c.column) ∧
      lineAt? text i = some c.lineText := by
  obtain ⟨u, v, ht, rfl⟩ := isBoundary_iff.mp h
  have hc : (⟨u.reverse, v⟩ : Cursor).text = text.toList := by simp [Cursor.text, ht]
  have hoffset : (⟨u.reverse, v⟩ : Cursor).offset = byteLength u := by simp [Cursor.offset]
  refine ⟨⟨u.reverse, v⟩, seek?_split ht, ?_, ?_⟩
  · rw [← hoffset, lineColumn?_at hc]
  · rw [← hoffset, lineAt?_at hc]

end Lines

/-! ## Drafts -/

/-- With the part of `u` that is not copied yet, the draft of a text that starts with `u`
spells `v`. -/
def Draft.Spells (d : Draft) (u v : List Char) : Prop :=
  ∃ w kept, u = w ++ kept ∧ d.resume = byteLength w ∧ d.output ++ kept = v

namespace Draft.Spells

variable {text : String} {d : Draft} {u v t : List Char}

theorem start : ({} : Draft).Spells [] [] := ⟨[], [], rfl, rfl, rfl⟩

/-- A draft with nothing written leaves the text as it is. -/
theorem eq_of_start (h : ({} : Draft).Spells u v) : v = u := by
  obtain ⟨w, kept, rfl, hresume, rfl⟩ := h
  cases w with
  | nil => rfl
  | cons c w =>
    have := c.utf8Size_pos
    rw [byteLength_cons] at hresume
    simp only [] at hresume
    omega

/-- Text that stays needs no step. -/
theorem keep (h : d.Spells u v) (t : List Char) : d.Spells (u ++ t) (v ++ t) := by
  obtain ⟨w, kept, rfl, hresume, rfl⟩ := h
  exact ⟨w, kept ++ t, by simp, hresume, by simp⟩

/-- Text is written in the place of other text. -/
theorem copy? (h : d.Spells u v) (more gone : List Char) (ht : text.toList = u ++ t) :
    ∃ d', d.copy? text (byteLength u) more (byteLength u + byteLength gone) = some d' ∧
      d'.Spells (u ++ gone) (v ++ more) := by
  obtain ⟨w, kept, rfl, hresume, rfl⟩ := h
  have hcut : cut? text d.resume (byteLength (w ++ kept)) = some kept := by
    rw [hresume, byteLength_append]
    exact cut?_of_split (by simpa using ht)
  refine ⟨_, by rw [Draft.copy?, hcut, Option.map_some], w ++ kept ++ gone, [], ?_, ?_, ?_⟩
  · simp
  · simp [Nat.add_assoc]
  · simp

theorem finish? (h : d.Spells text.toList v) : d.finish? text = some v := by
  obtain ⟨w, kept, ht, hresume, rfl⟩ := h
  rw [Draft.finish?, hresume, cut?_end ht, Option.map_some]

end Draft.Spells

/-! ## Sites -/

/-- The site is one of the text: its clause stands there. -/
structure LiesIn (text : String) (s : Site) : Prop where
  text_eq : s.cursor.text = text.toList
  ahead : ∃ rest, s.cursor.ahead = s.clause.text ++ rest

namespace LiesIn

variable {text : String} {s : Site}

theorem of_split {u rest : List Char} {c : Clause} (h : text.toList = u ++ (c.text ++ rest)) :
    LiesIn text ⟨⟨u.reverse, c.text ++ rest⟩, c⟩ :=
  ⟨by simp [Cursor.text, h], rest, rfl⟩

theorem of_mem_sites (h : s ∈ sites text.toList) : LiesIn text s := by
  obtain ⟨rest, hahead, -⟩ := stands_of_mem_sitesFrom rfl h
  obtain ⟨before, c, after, -, rfl⟩ := mem_sitesFrom_iff.mp h
  exact ⟨by simp, rest, hahead⟩

theorem start_eq (h : LiesIn text s) : s.offsets.start = s.pathStart.offset := by
  obtain ⟨rest, hahead⟩ := h.ahead
  have hopening : s.cursor.ahead = s.clause.opening ++
      (s.clause.path ++ (s.clause.ending.text s.clause.quote ++ rest)) := by
    simpa [Clause.text, Clause.head] using hahead
  simp [Site.offsets, Site.pathStart, Cursor.offset, Cursor.behind_move hopening, Nat.add_comm]

theorem stop_eq (h : LiesIn text s) : s.offsets.stop = s.pathStop.offset := by
  obtain ⟨rest, hahead⟩ := h.ahead
  have hhead : s.cursor.ahead = s.clause.head ++
      (s.clause.ending.text s.clause.quote ++ rest) := by
    simpa [Clause.text] using hahead
  rw [Site.pathStop, Cursor.offset, Cursor.behind_move hhead]
  simp [Site.offsets, Cursor.offset, Clause.head]
  omega

/-- The lines that reports name exist. -/
theorem lines (h : LiesIn text s) :
    lineColumn? text (tokenOf s).keyword = some (s.cursor.line, s.cursor.column) ∧
      lineColumn? text (tokenOf s).start = some (s.pathStart.line, s.pathStart.column) ∧
      lineColumn? text (tokenOf s).stop = some (s.pathStop.line, s.pathStop.column) ∧
      lineAt? text (tokenOf s).keyword = some s.cursor.lineText := by
  refine ⟨lineColumn?_at h.text_eq, ?_, ?_, lineAt?_at h.text_eq⟩
  · rw [tokenOf, h.start_eq]
    exact lineColumn?_at (by simpa [Site.pathStart] using h.text_eq)
  · rw [tokenOf, h.stop_eq]
    exact lineColumn?_at (by simpa [Site.pathStop] using h.text_eq)

end LiesIn

/-! ## Repair -/

section Repairing

variable {text : String} {l : Layout}

/-- Looking after the clause of `s`, behind a text `u` that has become `v`, leads to `draft`. -/
structure StepsTo (l : Layout) (text : String) (p : Progress) (s : Site) (u v : List Char)
    (draft : Draft) : Prop where
  step : repairStep? l text p (tokenOf s) = some ⟨draft, p.repairs ++ (l.repairAt? s).toList,
    p.ambiguous ++ (l.ambiguityAt? s).toList⟩
  spells : draft.Spells (u ++ s.clause.text) (v ++ l.repairPiece (.clause s.clause))
  untouched : l.repairAt? s = none → draft = p.draft

theorem StepsTo.kept {p : Progress} {s : Site} {u v : List Char} (hp : p.draft.Spells u v)
    (hpiece : l.repairPiece (.clause s.clause) = s.clause.text) (hnone : l.repairAt? s = none)
    (hstep : repairStep? l text p (tokenOf s) = some ⟨p.draft, p.repairs,
      p.ambiguous ++ (l.ambiguityAt? s).toList⟩) : StepsTo l text p s u v p.draft :=
  ⟨by rw [hstep, hnone]; simp, by rw [hpiece]; exact hp.keep _, fun _ => rfl⟩

theorem exists_stepsTo {u v rest : List Char} {c : Clause} {p : Progress}
    (h : text.toList = u ++ (c.text ++ rest)) (hp : p.draft.Spells u v) :
    ∃ draft, StepsTo l text p ⟨⟨u.reverse, c.text ++ rest⟩, c⟩ u v draft := by
  have hlies := LiesIn.of_split h
  have hstop : (tokenOf ⟨⟨u.reverse, c.text ++ rest⟩, c⟩).stop = byteLength (u ++ c.head) := by
    simp [tokenOf, Site.offsets, Cursor.offset, Clause.head, Nat.add_assoc]
  have hclause : (⟨⟨u.reverse, c.text ++ rest⟩, c⟩ : Site).clause = c := rfl
  generalize (⟨⟨u.reverse, c.text ++ rest⟩, c⟩ : Site) = s at hlies hstop hclause
  subst hclause
  obtain ⟨hplace, -, hplaceStop, hline⟩ := hlies.lines
  have hhead : text.toList = (u ++ s.clause.head) ++
      (s.clause.ending.text s.clause.quote ++ rest) := by
    simpa [Clause.text] using h
  have hpath : (tokenOf s).path = s.clause.path := rfl
  have hquote : (tokenOf s).quote = s.clause.quote := rfl
  have hclosing : (tokenOf s).closing = closingOf (tokenOf s).stop s.clause.ending := rfl
  cases htracks : l.tracks s.clause.path with
  | false =>
    refine ⟨p.draft, .kept hp ?_ ?_ ?_⟩
    · simp [Layout.repairPiece, htracks]
    · simp [Layout.repairAt?, htracks]
    · have hambiguous : l.ambiguityAt? s = none := by
        unfold Layout.ambiguityAt?
        split <;> simp [htracks]
      simp [repairStep?, hpath, htracks, hambiguous]
  | true =>
    obtain ⟨closed, hcopy, hclosed⟩ := (hp.keep s.clause.head).copy? [s.clause.quote.char] [] hhead
    rw [byteLength_nil, Nat.add_zero, ← hstop] at hcopy
    rw [List.append_nil] at hclosed
    cases hending : s.clause.ending with
    | matched =>
      refine ⟨p.draft, .kept hp ?_ ?_ ?_⟩
      · simp [Layout.repairPiece, htracks, Clause.closed, hending]
      · simp [Layout.repairAt?, htracks, hending, RepairKind.ofEnding?]
      · simp [repairStep?, hpath, htracks, hplace, hclosing, hending, closingOf,
          Layout.ambiguityAt?]
    | irregular upTo =>
      refine ⟨p.draft, .kept hp ?_ ?_ ?_⟩
      · simp [Layout.repairPiece, htracks, Clause.closed, hending]
      · simp [Layout.repairAt?, htracks, hending, RepairKind.ofEnding?]
      · simp [repairStep?, hpath, htracks, hplace, hclosing, hending, closingOf,
          Layout.ambiguityAt?]
    | ambiguous r =>
      refine ⟨p.draft, .kept hp ?_ ?_ ?_⟩
      · simp [Layout.repairPiece, htracks, Clause.closed, hending]
      · simp [Layout.repairAt?, htracks, hending, RepairKind.ofEnding?]
      · simp [repairStep?, hpath, htracks, hplace, hclosing, hending, closingOf, hplaceStop, hline,
          Layout.ambiguityAt?]
    | missing r =>
      refine ⟨closed, ?_, ?_, ?_⟩
      · simp [repairStep?, hpath, hquote, htracks, hplace, hclosing, hending, closingOf, hcopy,
          Layout.repairAt?, Layout.ambiguityAt?, RepairKind.ofEnding?]
      · simpa [Layout.repairPiece, htracks, Clause.closed, Clause.text, hending, Ending.text] using
          hclosed.keep r
      · simp [Layout.repairAt?, htracks, hending, RepairKind.ofEnding?]
    | mismatched before after =>
      have hbefore : text.toList = (u ++ s.clause.head ++ before) ++
          (s.clause.quote.opposite.char :: after ++ rest) := by
        simpa [hending, Ending.text] using hhead
      obtain ⟨draft, hdraft, hspells⟩ :=
        (hclosed.keep before).copy? [] [s.clause.quote.opposite.char] hbefore
      rw [byteLength_append, ← hstop, byteLength_cons, utf8Size_quote, byteLength_nil] at hdraft
      refine ⟨draft, ?_, ?_, ?_⟩
      · simp [repairStep?, hpath, hquote, htracks, hplace, hclosing, hending, closingOf, hcopy,
          hdraft, Layout.repairAt?, Layout.ambiguityAt?, RepairKind.ofEnding?]
      · simpa [Layout.repairPiece, htracks, Clause.closed, Clause.text, hending, Ending.text] using
          hspells.keep after
      · simp [Layout.repairAt?, htracks, hending, RepairKind.ofEnding?]

theorem filterMap_cons {α β : Type} (f : α → Option β) (a : α) (as : List α) :
    (a :: as).filterMap f = (f a).toList ++ as.filterMap f := by
  rw [List.filterMap_cons]
  cases f a <;> rfl

theorem foldlM_repairStep? {ps : List Piece} {u v : List Char} {p : Progress}
    (h : text.toList = u ++ Piece.render ps) (hp : p.draft.Spells u v) :
    let found := sitesFrom ⟨u.reverse, Piece.render ps⟩ ps
    ∃ draft, (found.map tokenOf).foldlM (repairStep? l text) p = some ⟨draft,
        p.repairs ++ found.filterMap l.repairAt?, p.ambiguous ++ found.filterMap l.ambiguityAt?⟩ ∧
      draft.Spells (u ++ Piece.render ps) (v ++ ps.flatMap l.repairPiece) ∧
      (found.filterMap l.repairAt? = [] → draft = p.draft) := by
  induction ps generalizing u v p with
  | nil =>
    refine ⟨p.draft, ?_, ?_, fun _ => rfl⟩
    · simp [sitesFrom]
    · simpa using hp
  | cons piece ps ih =>
    cases piece with
    | plain t =>
      have hrest := ih (u := u ++ t) (by simpa [Piece.text] using h) (hp.keep t)
      simpa only [Piece.render_cons, Piece.text, sitesFrom_plain, List.flatMap_cons,
        Layout.repairPiece, List.append_assoc] using hrest
    | clause c =>
      simp only [Piece.render_cons, Piece.text] at h ⊢
      obtain ⟨draft, hstep⟩ := exists_stepsTo (l := l) h hp
      rw [sitesFrom_clause]
      have hclause : (⟨⟨u.reverse, c.text ++ Piece.render ps⟩, c⟩ : Site).clause = c := rfl
      generalize (⟨⟨u.reverse, c.text ++ Piece.render ps⟩, c⟩ : Site) = s at hstep hclause
      subst hclause
      obtain ⟨draft', hfold, hspells, hsame⟩ := ih
        (p := ⟨draft, p.repairs ++ (l.repairAt? s).toList, p.ambiguous ++ (l.ambiguityAt? s).toList⟩)
        (by simpa using h) hstep.spells
      refine ⟨draft', ?_, by simpa using hspells, ?_⟩
      · simp only [List.map_cons, List.foldlM_cons, hstep.step, Option.bind_eq_bind,
          Option.bind_some, hfold, filterMap_cons, List.append_assoc]
      · intro hnone
        rw [filterMap_cons, List.append_eq_nil_iff, Option.toList_eq_nil_iff] at hnone
        rw [hsame hnone.2, hstep.untouched hnone.1]

theorem repair?_eq (l : Layout) (text : String) : repair? l text = some (l.repair text) := by
  have hrender : Piece.render (scan text.toList) = text.toList := render_scan text.toList
  obtain ⟨draft, hfold, hspells, hsame⟩ := foldlM_repairStep? (l := l) (p := {})
    (show text.toList = [] ++ Piece.render (scan text.toList) by simp [hrender]) .start
  simp only [hrender, List.nil_append, List.reverse_nil] at hfold hspells hsame
  simp only [repair?, tokens?_eq, Option.bind_eq_bind, Option.bind_some, sites, Cursor.start, hfold]
  split
  · rename_i hnone
    have hnil := List.isEmpty_iff.mp hnone
    rw [hsame hnil] at hspells
    simp [Layout.repair, sites, Cursor.start, hnil, hspells.eq_of_start]
  · rename_i hsome
    simp [hspells.finish?, Layout.repair, sites, Cursor.start, hsome]

end Repairing

/-! ## Rewriting and auditing -/

section Rewriting

variable {text : String} {s : Site} {e : Engine} {folder : Path}

theorem ofClause?_clause (layout : Layout) (folder : Path) (s : Site) :
    Import.ofClause? layout folder (tokenOf s).clause = Import.ofClause? layout folder s.clause := by
  have hstyle : ∀ shape, Import.styleOf shape (tokenOf s).clause.ending =
      Import.styleOf shape s.clause.ending := by
    intro shape
    simp only [Token.clause, tokenOf, closingOf]
    cases s.clause.ending <;> rfl
  simp only [Import.ofClause?, hstyle]
  rfl

theorem target?_clause (e : Engine) (folder : Path) (s : Site) :
    e.target? folder (tokenOf s).clause = e.target? folder s.clause := by
  rw [Engine.target?, ofClause?_clause, Engine.target?]

/-- The edit at a site with the span of the old path. -/
def spannedEdit? (e : Engine) (folder : Path) (s : Site) : Option (Edit × Nat × Nat) :=
  (e.editAt? folder s).map (·, s.offsets.start, s.offsets.stop)

theorem editAt?_eq (h : LiesIn text s) :
    editAt? e text folder (tokenOf s) = some (spannedEdit? e folder s) := by
  rw [editAt?, target?_clause, spannedEdit?, Engine.editAt?]
  cases e.target? folder s.clause with
  | none => rfl
  | some target =>
    obtain ⟨i, path⟩ := target
    simp only [h.lines.1, show (tokenOf s).path = s.clause.path from rfl]
    by_cases hsame : path.toList = s.clause.path
    · simp [hsame]
    · simp [hsame, tokenOf]

theorem findingAt?_eq (h : LiesIn text s) :
    findingAt? e text folder (tokenOf s) = some (e.findingAt? folder s) := by
  obtain ⟨-, hplace, -, hline⟩ := h.lines
  rw [findingAt?, ofClause?_clause, Engine.findingAt?]
  cases Import.ofClause? e.layout folder s.clause with
  | none => rfl
  | some i =>
    by_cases hstyle : i.style = .otherFolder
    · simp only [hstyle, if_true, hplace, hline, Option.bind_eq_bind, Option.bind_some]
      rfl
    · simp [hstyle]

theorem exists_mapM_tokens {β : Type} {g : Token → Option (Option β)} {f : Site → Option β}
    {found : List Site} (h : ∀ s ∈ found, g (tokenOf s) = some (f s)) :
    ∃ read, (found.map tokenOf).mapM g = some read ∧ read.filterMap id = found.filterMap f := by
  refine ⟨found.map f, ?_, ?_⟩
  · induction found with
    | nil => rfl
    | cons s found ih =>
      simp [h s (by simp), ih fun s' hs' => h s' (List.mem_cons_of_mem _ hs')]
  · rw [List.filterMap_map]
    rfl

theorem audit?_eq (e : Engine) (text : String) (folder : Path) :
    audit? e text folder = some (e.audit text folder) := by
  obtain ⟨read, hread, hfound⟩ := exists_mapM_tokens (g := findingAt? e text folder)
    fun s hs => findingAt?_eq (.of_mem_sites hs)
  simp only [audit?, tokens?_eq, Option.bind_eq_bind, Option.bind_some, hread, hfound]
  rfl

theorem exists_copied (e : Engine) (folder : Path) {u v rest : List Char} {c : Clause} {d : Draft}
    (h : text.toList = u ++ (c.text ++ rest)) (hd : d.Spells u v) :
    ∃ d', (spannedEdit? e folder ⟨⟨u.reverse, c.text ++ rest⟩, c⟩).toList.foldlM
        (fun (d : Draft) edit => d.copy? text edit.2.1 edit.1.after.toList edit.2.2) d = some d' ∧
      d'.Spells (u ++ c.text) (v ++ (e.rewritePiece folder (.clause c)).text) := by
  rw [spannedEdit?, Engine.editAt?, Engine.rewritePiece]
  cases e.target? folder c with
  | none => exact ⟨d, rfl, hd.keep c.text⟩
  | some target =>
    obtain ⟨i, path⟩ := target
    by_cases hsame : path.toList = c.path
    · refine ⟨d, by simp [hsame], ?_⟩
      simp only [hsame]
      exact hd.keep c.text
    · have hopening : text.toList = (u ++ c.opening) ++
          (c.path ++ (c.ending.text c.quote ++ rest)) := by
        simpa [Clause.text, Clause.head] using h
      obtain ⟨d', hcopy, hspells⟩ := (hd.keep c.opening).copy? path.toList c.path hopening
      refine ⟨d', ?_, ?_⟩
      · simpa [hsame, Site.offsets, Cursor.offset] using hcopy
      · have hkept := hspells.keep (c.ending.text c.quote)
        rw [List.append_assoc v, List.append_assoc v, List.append_assoc u,
          List.append_assoc u] at hkept
        exact hkept

theorem foldlM_copy? (e : Engine) (folder : Path) {ps : List Piece} {u v : List Char} {d : Draft}
    (h : text.toList = u ++ Piece.render ps) (hd : d.Spells u v) :
    ∃ d', ((sitesFrom ⟨u.reverse, Piece.render ps⟩ ps).filterMap (spannedEdit? e folder)).foldlM
        (fun (d : Draft) edit => d.copy? text edit.2.1 edit.1.after.toList edit.2.2) d = some d' ∧
      d'.Spells (u ++ Piece.render ps) (v ++ Piece.render (ps.map (e.rewritePiece folder))) := by
  induction ps generalizing u v d with
  | nil => exact ⟨d, by simp [sitesFrom], by simpa using hd⟩
  | cons piece ps ih =>
    cases piece with
    | plain t =>
      have hrest := ih (u := u ++ t) (by simpa [Piece.text] using h) (hd.keep t)
      simpa only [Piece.render_cons, Piece.text, sitesFrom_plain, List.map_cons,
        Engine.rewritePiece, List.append_assoc] using hrest
    | clause c =>
      have hclause : (Piece.clause c).text = c.text := rfl
      simp only [Piece.render_cons, hclause, List.map_cons, sitesFrom_clause, filterMap_cons,
        List.foldlM_append] at h ⊢
      obtain ⟨d₁, hstep, hspells⟩ := exists_copied e folder h hd
      obtain ⟨d₂, hfold, hrest⟩ := ih (by simpa using h) hspells
      refine ⟨d₂, ?_, by simpa using hrest⟩
      rw [hstep, Option.bind_eq_bind, Option.bind_some, hfold]

theorem rewrite?_eq (e : Engine) (text : String) (folder : Path) :
    rewrite? e text folder = some (e.rewrite text folder) := by
  simp only [rewrite?, repair?_eq, Option.bind_eq_bind, Option.bind_some, tokens?_eq]
  generalize hrepaired : e.layout.repair text = repaired
  have hrender : Piece.render (scan repaired.text.toList) = repaired.text.toList :=
    render_scan repaired.text.toList
  obtain ⟨read, hread, hedits⟩ := exists_mapM_tokens (g := editAt? e repaired.text folder)
    fun s hs => editAt?_eq (.of_mem_sites hs)
  obtain ⟨draft, hfold, hspells⟩ := foldlM_copy? e folder
    (show repaired.text.toList = [] ++ Piece.render (scan repaired.text.toList) by simp [hrender])
    Draft.Spells.start
  simp only [hrender, List.nil_append, List.reverse_nil] at hfold hspells
  change (List.filterMap (spannedEdit? e folder) (sites repaired.text.toList)).foldlM _ _ = _ at hfold
  have hplain : ((sites repaired.text.toList).filterMap (spannedEdit? e folder)).map (·.1) =
      (sites repaired.text.toList).filterMap (e.editAt? folder) := by
    rw [List.map_filterMap]
    congr 1
    funext s
    rw [spannedEdit?, Option.map_map]
    exact Option.map_id'
  simp only [hread, Option.bind_some, hedits, Engine.rewrite, hrepaired, ← hplain]
  generalize (sites repaired.text.toList).filterMap (spannedEdit? e folder) = edits at hfold
  rw [List.isEmpty_map]
  split
  · rename_i hnone
    obtain rfl := List.isEmpty_iff.mp hnone
    obtain rfl : ({} : Draft) = draft := by simpa using hfold
    rw [hspells.eq_of_start, String.ofList_toList]
    rfl
  · simp [replace?, hfold, hspells.finish?]

end Rewriting

/-! ## Offsets -/

theorem exists_of_stray {s : Site} {i : Nat} (h : s.offsets.stray = some i) :
    ∃ before after, s.clause.ending = .mismatched before after ∧
      i = s.offsets.stop + byteLength before := by
  simp only [Site.offsets] at h ⊢
  cases hending : s.clause.ending with
  | mismatched before after => exact ⟨before, after, rfl, by simpa [hending] using h.symm⟩
  | matched | missing _ | irregular _ | ambiguous _ => simp [hending] at h

theorem LiesIn.fit {text : String} {s : Site} (h : LiesIn text s) : s.offsets.Fit text := by
  obtain ⟨rest, hahead⟩ := h.ahead
  have hcut : ∀ v w, s.clause.text = v ++ w → IsBoundary text (s.cursor.offset + byteLength v) := by
    intro v w hv
    have hsplit : text.toList = (s.cursor.behind.reverse ++ v) ++ (w ++ rest) := by
      rw [← h.text_eq, Cursor.text, hahead, hv]
      simp
    simpa [Cursor.offset] using isBoundary_of_split hsplit
  have hopening : byteLength s.clause.opening = 5 + byteLength s.clause.gap := by
    simp [Clause.opening, utf8Size_quote, show byteLength Clause.keyword = 4 from rfl]
    omega
  have hkeyword : s.offsets.keyword = s.cursor.offset := rfl
  have hstart : s.offsets.start = s.cursor.offset + byteLength s.clause.opening := rfl
  have hstop : s.offsets.stop = s.cursor.offset + byteLength s.clause.head := by
    simp [Site.offsets, Clause.head, Nat.add_assoc]
  have hfinish : s.offsets.finish = s.cursor.offset + byteLength s.clause.text := by
    simp [Site.offsets, Clause.text, Clause.head, Nat.add_assoc]
  have hhead : byteLength s.clause.head =
      byteLength s.clause.opening + byteLength s.clause.path := byteLength_append _ _
  have htext : byteLength s.clause.text = byteLength s.clause.head +
      byteLength (s.clause.ending.text s.clause.quote) := byteLength_append _ _
  refine ⟨by omega, by omega, by omega, ?_, ?_, ?_⟩
  · rw [hfinish]
    exact (hcut s.clause.text [] (by simp)).le_utf8ByteSize
  · intro i hi
    obtain ⟨before, after, hending, rfl⟩ := exists_of_stray hi
    rw [hending, Ending.text] at htext
    simp [utf8Size_quote] at htext
    omega
  · intro i hi
    rw [Offsets.cuts, List.mem_append] at hi
    rcases hi with hi | hi
    · simp only [List.mem_cons, List.not_mem_nil, or_false] at hi
      rcases hi with rfl | rfl | rfl | rfl
      · simpa [hkeyword] using hcut [] s.clause.text rfl
      · exact hcut s.clause.opening (s.clause.path ++ s.clause.ending.text s.clause.quote)
          (by simp [Clause.text, Clause.head])
      · rw [hstop]
        exact hcut s.clause.head _ rfl
      · rw [hfinish]
        exact hcut s.clause.text [] (by simp)
    · cases hstray : s.offsets.stray with
      | none => simp [hstray] at hi
      | some stray =>
        obtain ⟨before, after, hending, rfl⟩ := exists_of_stray hstray
        have hsplit : s.clause.text = (s.clause.head ++ before ++ [s.clause.quote.opposite.char]) ++
            after := by
          simp [Clause.text, hending, Ending.text]
        rw [hstray, hstop] at hi
        simp only [List.mem_cons, List.not_mem_nil, or_false] at hi
        rcases hi with rfl | rfl
        · simpa [Nat.add_assoc] using hcut (s.clause.head ++ before)
            (s.clause.quote.opposite.char :: after) (by simp [hsplit])
        · simpa [Nat.add_assoc, utf8Size_quote] using hcut _ after hsplit

/-- Behind `u` no clause starts before the end of `u`, and none before the end of the last. -/
theorem finish_le_keyword (ps : List Piece) (u : List Char) :
    (∀ s ∈ sitesFrom ⟨u.reverse, Piece.render ps⟩ ps, byteLength u ≤ s.offsets.keyword) ∧
      (sitesFrom ⟨u.reverse, Piece.render ps⟩ ps).Pairwise fun s s' =>
        s.offsets.finish ≤ s'.offsets.keyword := by
  induction ps generalizing u with
  | nil => simp [sitesFrom]
  | cons piece ps ih =>
    cases piece with
    | plain t =>
      have hrest := ih (u ++ t)
      rw [Piece.render_cons, Piece.text, sitesFrom_plain]
      refine ⟨fun s hs => ?_, hrest.2⟩
      have hle := hrest.1 s hs
      rw [byteLength_append] at hle
      omega
    | clause c =>
      have hrest := ih (u ++ c.text)
      rw [Piece.render_cons, Piece.text, sitesFrom_clause, List.pairwise_cons]
      have hfinish := finish_tokenOf ⟨u.reverse, c.text ++ Piece.render ps⟩ c
      rw [Cursor.offset, byteLength_reverse, ← byteLength_append] at hfinish
      refine ⟨?_, fun s hs => Nat.le_trans (Nat.le_of_eq hfinish) (hrest.1 s hs), hrest.2⟩
      intro s hs
      rcases List.mem_cons.mp hs with rfl | hs
      · simp [Site.offsets, Cursor.offset]
      · have hle := hrest.1 s hs
        rw [byteLength_append] at hle
        omega

end Bytes

/-- The offsets of the clauses of a text are in order, within the text and between characters,
and one clause ends before the next one starts. So whoever reads the text byte by byte and cuts
it at these offsets always gets to the end of it. -/
theorem clauses_in_order (text : String) (l : Layout) (e : Engine) (folder : Path) :
    (∀ s ∈ sites text.toList, s.offsets.Fit text) ∧
      ((sites text.toList).Pairwise fun s s' => s.offsets.finish ≤ s'.offsets.keyword) ∧
      Bytes.tokens? text = some ((sites text.toList).map Bytes.tokenOf) ∧
      (∀ s ∈ sites text.toList, ∀ i ∈ s.offsets.cuts, ∃ c, Cursor.seek? text.toList i = some c ∧
        Bytes.lineColumn? text i = some (c.line, c.column) ∧
        Bytes.lineAt? text i = some c.lineText) ∧
      Bytes.repair? l text = some (l.repair text) ∧
      Bytes.rewrite? e text folder = some (e.rewrite text folder) ∧
      Bytes.audit? e text folder = some (e.audit text folder) := by
  have hfit : ∀ s ∈ sites text.toList, s.offsets.Fit text := fun s hs =>
    (Bytes.LiesIn.of_mem_sites hs).fit
  refine ⟨hfit, ?_, Bytes.tokens?_eq text,
    fun s hs i hi => Bytes.lines_of_boundary ((hfit s hs).boundary i hi), Bytes.repair?_eq l text,
    Bytes.rewrite?_eq e text folder, Bytes.audit?_eq e text folder⟩
  have hordered := (Bytes.finish_le_keyword (scan text.toList) []).2
  rwa [render_scan] at hordered

end Relocate
