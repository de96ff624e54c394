import Relocate.Proofs.Clause.Reading

/-!
# Other text in place of clauses

A text is read as pieces, and then some of its clauses are written
differently. What lies before a clause cannot tell, since the clause still
starts with its keyword (`alike_splice`); so, as long as each new clause can
be read back, the new text is read as the new pieces (`scanFrom_mapClause`).

`sites` and the pieces say the same about where clauses stand
(`mem_sitesFrom_iff`).
-/
namespace Relocate

open Text

theorem Clause.head?_text (c : Clause) : c.text.head? = some 'f' := by
  simp [text, head, opening, keyword]

/-- Texts that start with the same character, which is no gap, are alike. -/
theorem Alike.of_head {s t : List Char} {c : Char} (hs : s.head? = some c) (ht : t.head? = some c)
    (hc : isGap c = false) : Alike s t := by
  refine ⟨hs.trans ht.symm, ?_⟩
  cases s with
  | nil => cases hs
  | cons x s =>
    cases t with
    | nil => cases ht
    | cons y t =>
      obtain rfl : x = c := by simpa using hs
      obtain rfl : y = x := by simpa using ht
      simp [hc]

/-- What starts with the keyword is alike, whatever follows. -/
theorem Alike.of_keyword {u v : List Char} (hu : u.head? = some 'f') (hv : v.head? = some 'f')
    (r s : List Char) : Alike (u ++ r) (v ++ s) :=
  .of_head (by rw [List.head?_append, hu, Option.some_or])
    (by rw [List.head?_append, hv, Option.some_or]) (by decide)

/-- Pieces and their replacements are alike when plain text stays and a
clause is replaced by something that starts with its keyword. -/
theorem alike_splice {f : Piece → List Char} (hplain : ∀ t, f (.plain t) = t)
    (hclause : ∀ c, (f (.clause c)).head? = some 'f') (ps : List Piece) :
    Alike (Piece.render ps) (ps.flatMap f) := by
  induction ps with
  | nil => exact .refl []
  | cons p ps ih =>
    rw [Piece.render_cons, List.flatMap_cons]
    cases p with
    | plain t => rw [hplain]; exact ih.append t
    | clause c => exact .of_keyword c.head?_text (hclause c) _ _

/-! ## Clauses for clauses -/

/-- The piece with its clause, if it is one, replaced. -/
def Piece.mapClause (f : Clause → Clause) : Piece → Piece
  | plain t => plain t
  | clause c => clause (f c)

theorem clause_mem_mapClause {f : Clause → Clause} {ps : List Piece} {c : Clause}
    (h : .clause c ∈ ps.map (Piece.mapClause f)) : ∃ c', .clause c' ∈ ps ∧ c = f c' := by
  obtain ⟨p, hp, hc⟩ := List.mem_map.1 h
  cases p with
  | plain t => cases hc
  | clause c' =>
    cases hc
    exact ⟨c', hp, rfl⟩

theorem alike_mapClause (f : Clause → Clause) (ps : List Piece) :
    Alike (Piece.render ps) (Piece.render (ps.map (Piece.mapClause f))) := by
  rw [Piece.render, Piece.render, List.flatMap_map]
  exact alike_splice (fun t => rfl) (fun c => (f c).head?_text) ps

/-- Clauses that can be read back before whatever clauses could are read back
in place of the clauses of a text. -/
theorem scanFrom_mapClause {f : Clause → Clause}
    (hf : ∀ c rest r, c.Stands rest → r.head? = rest.head? → (f c).Stands r) (d : Bool)
    (t : List Char) :
    scanFrom d (Piece.render ((scanFrom d t).map (Piece.mapClause f))) =
      (scanFrom d t).map (Piece.mapClause f) := by
  induction d, t using scan_induction with
  | nil d => simp [scanFrom]
  | take d p d' rest hp ih =>
    have halike := alike_mapClause f (scanFrom d' rest)
    rw [render_scanFrom] at halike
    rw [hp.scanFrom_eq, List.map_cons, Piece.render_cons]
    have hnew : Takes d (p.mapClause f) d'
        (Piece.render ((scanFrom d' rest).map (Piece.mapClause f))) := by
      cases p with
      | plain u => exact hp.congr halike
      | clause c =>
        obtain ⟨hd, hd', hc⟩ := takes_clause_iff.1 hp
        exact takes_clause_iff.2 ⟨hd, hd', hf c rest _ hc halike.head.symm⟩
    rw [hnew.scanFrom_eq, ih]

/-- Where the pieces of a text end in those of another, so does the text. -/
theorem eq_render_append {d d' : Bool} {t u : List Char} {ps : List Piece}
    (h : scanFrom d t = ps ++ scanFrom d' u) : t = Piece.render ps ++ u := by
  calc t
    _ = Piece.render (ps ++ scanFrom d' u) := by rw [← h, render_scanFrom]
    _ = Piece.render ps ++ Piece.render (scanFrom d' u) := List.flatMap_append
    _ = Piece.render ps ++ u := by rw [render_scanFrom]

/-- Each clause of a text stands before the pieces behind it. -/
theorem stands_of_scanFrom {d : Bool} {t : List Char} {ps qs : List Piece} {c : Clause}
    (h : scanFrom d t = ps ++ .clause c :: qs) : c.Stands (Piece.render qs) := by
  induction d, t using scan_induction generalizing ps with
  | nil d => simp [scanFrom] at h
  | take d p d' rest hp ih =>
    rw [hp.scanFrom_eq] at h
    cases ps with
    | nil =>
      obtain ⟨rfl, hqs⟩ : p = .clause c ∧ scanFrom d' rest = qs := by simpa using h
      rw [← hqs, render_scanFrom]
      exact (takes_clause_iff.1 hp).2.2
    | cons _ ps => exact ih (List.cons.inj h).2

/-! ## Places -/

namespace Text.Cursor

theorem move_move (c : Cursor) (m n : Nat) : (c.move m).move n = c.move (m + n) := by
  simp [move, List.take_add]

theorem ahead_move_start (t : List Char) (n : Nat) : ((start t).move n).ahead = t.drop n := rfl

theorem ahead_move_suffix (c : Cursor) (n : Nat) : (c.move n).ahead <:+ c.ahead :=
  List.drop_suffix n c.ahead

variable {c : Cursor} {u r : List Char}

theorem ahead_move (h : c.ahead = u ++ r) : (c.move u.length).ahead = r := by
  simp [move, h]

theorem behind_move (h : c.ahead = u ++ r) : (c.move u.length).behind = u.reverse ++ c.behind := by
  simp [move, h]

/-- Places on one line stay on one line behind the same number of line feeds. -/
theorem line_move_congr {c' : Cursor} {u' r' : List Char} (h : c.ahead = u ++ r)
    (h' : c'.ahead = u' ++ r') (hline : c.line = c'.line) (hu : u.count '\n' = u'.count '\n') :
    (c.move u.length).line = (c'.move u'.length).line := by
  simp only [line, behind_move h, behind_move h', List.count_append, List.count_reverse] at hline ⊢
  omega

end Text.Cursor

theorem sitesFrom_append (cursor : Cursor) (ps qs : List Piece) :
    sitesFrom cursor (ps ++ qs) =
      sitesFrom cursor ps ++ sitesFrom (cursor.move (Piece.render ps).length) qs := by
  induction ps generalizing cursor with
  | nil => simp [sitesFrom, Text.Cursor.move]
  | cons p ps ih =>
    cases p with
    | plain t => simp [sitesFrom, ih, Text.Cursor.move_move, Piece.text]
    | clause c => simp [sitesFrom, ih, Text.Cursor.move_move, Piece.text]

/-- A clause is among the sites at the place that the pieces before it end. -/
theorem mem_sitesFrom_iff {cursor : Cursor} {ps : List Piece} {s : Site} :
    s ∈ sitesFrom cursor ps ↔ ∃ before c after, ps = before ++ .clause c :: after ∧
      s = ⟨cursor.move (Piece.render before).length, c⟩ := by
  induction ps generalizing cursor with
  | nil => simp [sitesFrom]
  | cons p ps ih =>
    -- A split of the longer list is one of the shorter list with `p` put in front.
    have hcons : ∀ n, (∃ before c after, ps = before ++ .clause c :: after ∧
          s = ⟨(cursor.move n).move (Piece.render before).length, c⟩) ↔
        ∃ before c after, p :: ps = p :: before ++ .clause c :: after ∧
          s = ⟨cursor.move (n + (Piece.render before).length), c⟩ := by
      intro n
      simp [Text.Cursor.move_move]
    cases p with
    | plain t =>
      rw [sitesFrom, ih, hcons]
      constructor
      · rintro ⟨before, c, after, h, rfl⟩
        exact ⟨.plain t :: before, c, after, h, by simp [Piece.text]⟩
      · rintro ⟨before, c, after, h, rfl⟩
        cases before with
        | nil => cases h
        | cons q before =>
          obtain rfl : Piece.plain t = q := (List.cons.inj h).1
          exact ⟨before, c, after, h, by simp [Piece.text]⟩
    | clause a =>
      rw [sitesFrom, List.mem_cons, ih, hcons]
      constructor
      · rintro (rfl | ⟨before, c, after, h, rfl⟩)
        · exact ⟨[], a, ps, rfl, by simp [Text.Cursor.move]⟩
        · exact ⟨.clause a :: before, c, after, h, by simp [Piece.text]⟩
      · rintro ⟨before, c, after, h, rfl⟩
        cases before with
        | nil =>
          obtain rfl : a = c := by simpa using (List.cons.inj h).1
          exact .inl (by simp [Text.Cursor.move])
        | cons q before =>
          obtain rfl : Piece.clause a = q := (List.cons.inj h).1
          exact .inr ⟨before, c, after, h, by simp [Piece.text]⟩

/-- Ahead of a site stands its clause. -/
theorem stands_of_mem_sitesFrom {cursor : Cursor} {d : Bool} {t : List Char} {s : Site}
    (hcursor : cursor.ahead = t) (hs : s ∈ sitesFrom cursor (scanFrom d t)) :
    ∃ rest, s.cursor.ahead = s.clause.text ++ rest ∧ s.clause.Stands rest := by
  obtain ⟨before, c, after, hsplit, rfl⟩ := mem_sitesFrom_iff.1 hs
  refine ⟨Piece.render after, Text.Cursor.ahead_move ?_, stands_of_scanFrom hsplit⟩
  rw [hcursor, ← render_scanFrom d t, hsplit]
  simp [Piece.render, Piece.text]

theorem cursor_ahead_suffix {cursor : Cursor} {ps : List Piece} {s : Site}
    (h : s ∈ sitesFrom cursor ps) : s.cursor.ahead <:+ cursor.ahead := by
  obtain ⟨before, c, after, -, rfl⟩ := mem_sitesFrom_iff.1 h
  exact cursor.ahead_move_suffix _

/-- Behind the start of a path comes the path, and behind that its end. -/
theorem pathStart_ahead {s : Site} {rest : List Char}
    (h : s.cursor.ahead = s.clause.text ++ rest) :
    s.pathStart.ahead = s.clause.path ++ s.pathStop.ahead ∧
      s.pathStop.ahead = s.clause.ending.text s.clause.quote ++ rest := by
  have hstart : s.cursor.ahead = s.clause.opening ++
      (s.clause.path ++ (s.clause.ending.text s.clause.quote ++ rest)) := by
    simpa [Clause.text, Clause.head] using h
  have hstop : s.cursor.ahead =
      s.clause.head ++ (s.clause.ending.text s.clause.quote ++ rest) := by
    simpa [Clause.text] using h
  rw [Site.pathStart, Site.pathStop, Cursor.ahead_move hstart, Cursor.ahead_move hstop]
  exact ⟨rfl, rfl⟩

theorem clause_mem_scan_iff {t : List Char} {c : Clause} :
    .clause c ∈ scan t ↔ ∃ s ∈ sites t, s.clause = c := by
  constructor
  · intro h
    obtain ⟨before, after, hsplit⟩ := List.append_of_mem h
    exact ⟨_, mem_sitesFrom_iff.2 ⟨before, c, after, hsplit, rfl⟩, rfl⟩
  · rintro ⟨s, hs, rfl⟩
    obtain ⟨before, c, after, hsplit, rfl⟩ := mem_sitesFrom_iff.1 hs
    rw [hsplit]
    exact List.mem_append_right _ List.mem_cons_self

end Relocate
