import Relocate.Proofs.Repair.Settled

/-!
# Literals that are closed already

A literal that closes with its own quote on its line needs no repair. Reading
does not always see that: the rest of a statement ends at a semicolon, also at
one inside a literal. What stands before the semicolon is then taken for all
there is of the literal, and what stands behind it for program text, in which
further clauses may be found.

* `prefix_repaired_iff`: repair copies a text up to the first broken path, and
  no further.
* `repair_keeps_iff`: so a closed literal stays as it is exactly when no broken
  literal opens inside it; in particular when no semicolon follows its path.
* `repair_splits_closed`: a semicolon inside a closed literal gets a quote in
  front of it.
-/
namespace Relocate

open Text

/-! ## How far repair copies -/

theorem prefix_append_cases {w u v : List Char} (h : w <+: u ++ v) :
    w <+: u ∨ ∃ w', w = u ++ w' ∧ w' <+: v := by
  rcases List.prefix_or_prefix_of_prefix h (List.prefix_append u v) with hw | ⟨w', rfl⟩
  · exact .inl hw
  · exact .inr ⟨w', rfl, (List.prefix_append_right_inj u).1 h⟩

/-- A literal is broken because its own quote does not follow the path. -/
theorem Clause.Stands.head?_of_broken {l : Layout} {c : Clause} {rest : List Char}
    (h : c.Stands rest) (hbroken : l.isBroken c) :
    (c.ending.text c.quote ++ rest).head? ≠ some c.quote.char := by
  intro hhead
  have hmatched : (.matched, _) = (c.ending, rest) := (readEnding_matched hhead).symm.trans h.ending
  rw [Layout.isBroken, ← (Prod.mk.inj hmatched).1] at hbroken
  simp [RepairKind.ofEnding?] at hbroken

namespace Layout

variable {l : Layout} {cursor : Cursor} {c : Clause} {rest : List Char}

/-- Where a piece is copied, it depends on the rest how far repair copies. -/
theorem prefix_copied {v w r : List Char} {ss : List Site} (hw : w <+: v ++ rest)
    (hss : ∀ s ∈ ss, s.pathStop.ahead <:+ rest)
    (ih : ∀ w', w' <+: rest → (w' <+: r ↔
      ∀ s ∈ ss, l.isBroken s.clause → s.pathStop.ahead.length + w'.length ≤ rest.length)) :
    w <+: v ++ r ↔ ∀ s ∈ ss, l.isBroken s.clause →
      s.pathStop.ahead.length + w.length ≤ (v ++ rest).length := by
  rcases prefix_append_cases hw with hw | ⟨w', rfl, hw'⟩
  · refine iff_of_true (hw.trans (List.prefix_append v r)) ?_
    intro s hs _
    have hlen := (hss s hs).length_le
    have := hw.length_le
    rw [List.length_append]
    omega
  · rw [List.prefix_append_right_inj, ih w' hw']
    refine forall₂_congr fun s hs => imp_congr_right fun _ => ?_
    simp only [List.length_append]
    omega

theorem exists_repairPiece_of_broken (hbroken : l.isBroken c) :
    ∃ y, l.repairPiece (.clause c) = c.head ++ c.quote.char :: y := by
  rw [isBroken, Bool.and_eq_true] at hbroken
  obtain ⟨htracks, hkind⟩ := hbroken
  rw [repairPiece, if_pos htracks, Clause.closed]
  cases hend : c.ending with
  | missing rest => exact ⟨rest, rfl⟩
  | mismatched before after => exact ⟨before ++ after, by simp⟩
  | matched => simp [hend, RepairKind.ofEnding?] at hkind
  | irregular upTo => simp [hend, RepairKind.ofEnding?] at hkind
  | ambiguous rest => simp [hend, RepairKind.ofEnding?] at hkind

/-- At a broken clause, repair copies up to the end of the path: the quote that
it puts there is not what follows in the text. -/
theorem prefix_broken {w : List Char} (hc : c.Stands rest) (hbroken : l.isBroken c)
    (hw : w <+: c.text ++ rest) (r : List Char) :
    w <+: l.repairPiece (.clause c) ++ r ↔ w.length ≤ c.head.length := by
  obtain ⟨y, hy⟩ := exists_repairPiece_of_broken hbroken
  rw [Clause.text, List.append_assoc] at hw
  rw [hy, List.append_assoc]
  rcases prefix_append_cases hw with hw | ⟨w', rfl, hw'⟩
  · exact iff_of_true (hw.trans (List.prefix_append _ _)) hw.length_le
  · rw [List.prefix_append_right_inj]
    cases w' with
    | nil => simp
    | cons x w' =>
      refine iff_of_false ?_ (by simp)
      intro hquote
      obtain rfl : x = c.quote.char := (List.cons_prefix_cons.1 hquote).1
      exact hc.head?_of_broken hbroken (by
        obtain ⟨z, hz⟩ := hw'
        rw [← hz]
        rfl)

/-- Repair copies a text up to the end of the first broken path, and no
further. -/
theorem prefix_repaired_iff (l : Layout) (d : Bool) (t : List Char) :
    ∀ (cursor : Cursor) (w : List Char), cursor.ahead = t → w <+: t →
      (w <+: (scanFrom d t).flatMap l.repairPiece ↔
        ∀ s ∈ sitesFrom cursor (scanFrom d t), l.isBroken s.clause →
          s.pathStop.ahead.length + w.length ≤ t.length) := by
  induction d, t using scan_induction with
  | nil d =>
    intro cursor w _ hw
    simp [scanFrom, sitesFrom, List.prefix_nil.1 hw]
  | take d p d' rest hp ih =>
    intro cursor w hcursor hw
    have hrest : (cursor.move p.text.length).ahead = rest := Cursor.ahead_move hcursor
    have hsites : ∀ s ∈ sitesFrom (cursor.move p.text.length) (scanFrom d' rest),
        s.pathStop.ahead <:+ rest := by
      intro s hs
      rw [← hrest]
      exact (s.cursor.ahead_move_suffix _).trans (cursor_ahead_suffix hs)
    have hcopied := prefix_copied hw hsites (ih (cursor.move p.text.length) · hrest)
    rw [hp.scanFrom_eq, List.flatMap_cons]
    cases p with
    | plain u => exact hcopied
    | clause c =>
      obtain ⟨rfl, rfl, hc⟩ := takes_clause_iff.1 hp
      rw [sitesFrom, List.forall_mem_cons]
      cases hbroken : l.isBroken c with
      | false =>
        rw [repairPiece_of_not_broken hbroken]
        simpa [hbroken, Piece.text] using hcopied
      | true =>
        have hstop : (⟨cursor, c⟩ : Site).pathStop.ahead = c.ending.text c.quote ++ rest :=
          (pathStart_ahead (s := ⟨cursor, c⟩) hcursor).2
        rw [prefix_broken hc hbroken hw, hstop]
        simp only [Piece.text, Clause.text, List.length_append] at hsites ⊢
        constructor
        · intro hlen
          refine ⟨fun _ => by omega, fun s hs _ => ?_⟩
          have := (hsites s hs).length_le
          omega
        · intro hall
          have := hall.1 trivial
          omega

end Layout

/-! ## Closed literals -/

/-- What may stand in a literal that `q` opens and closes on one line: neither
the quote nor a backslash nor the end of a line. -/
def isBodyChar (q : Quote) (c : Char) : Bool :=
  c != q.char && c != '\\' && c != '\r' && c != '\n'

/-- The keyword, a gap, and a literal that closes on its line. -/
structure ClosedLiteral where
  gap : List Char
  quote : Quote
  body : List Char
  all_gap : gap.all isGap
  all_body : body.all (isBodyChar quote)

namespace ClosedLiteral

/-- From the keyword to the closing quote. -/
def text (k : ClosedLiteral) : List Char :=
  Clause.keyword ++ (k.gap ++ k.quote.char :: (k.body ++ [k.quote.char]))

/-- The path that the body starts with. -/
def path (k : ClosedLiteral) : List Char := k.body.takeWhile isPathChar

/-- What is left of the body behind the path. -/
def behindPath (k : ClosedLiteral) : List Char := k.body.dropWhile isPathChar

variable (k : ClosedLiteral) (post : List Char)

theorem isGap_of_mem : ∀ x ∈ k.gap, isGap x := List.all_eq_true.1 k.all_gap

/-- How reading takes the literal to end when `post` follows it. -/
def ending : Ending × List Char := readEnding k.quote (k.behindPath ++ k.quote.char :: post)

/-- The clause that the literal is read as when `post` follows it. -/
def clause : Clause where
  gap := k.gap
  quote := k.quote
  path := k.path
  ending := (k.ending post).1

theorem readClause?_eq : readClause? (k.gap ++ k.quote.char :: (k.body ++ k.quote.char :: post)) =
    some (k.clause post, (k.ending post).2) := by
  have hgap : ∀ x, (k.quote.char :: (k.body ++ k.quote.char :: post)).head? = some x →
      isGap x = false := by
    intro x hx
    obtain rfl : k.quote.char = x := by simpa using hx
    exact k.quote.not_isGap
  have hpath : ∀ x, (k.quote.char :: post).head? = some x → isPathChar x = false := by
    intro x hx
    obtain rfl : k.quote.char = x := by simpa using hx
    exact k.quote.not_isPathChar
  obtain ⟨htake, hdrop⟩ := span_append_stop (t := k.body) hpath
  unfold readClause?
  rw [dropWhile_append_stop k.isGap_of_mem hgap, takeWhile_append_stop k.isGap_of_mem hgap]
  simp only [Quote.ofChar?_char, Option.map_some, htake, hdrop]
  rfl

theorem clause_text_append : (k.clause post).text ++ (k.ending post).2 = k.text ++ post := by
  rw [readClause?_append (k.readClause?_eq post)]
  simp [text]

/-- Whatever its body, a closed literal is read as a clause. -/
theorem takes_clause : Takes false (.clause (k.clause post)) false (k.ending post).2 :=
  takes_clause_iff.2 ⟨rfl, rfl, (readClause?_eq_some_iff.1 (k.readClause?_eq post)).1⟩

theorem scanFrom_eq : scanFrom false (k.text ++ post) =
    .clause (k.clause post) :: scanFrom false (k.ending post).2 := by
  rw [← k.clause_text_append]
  exact (k.takes_clause post).scanFrom_eq

/-! Whether the closing quote belongs to the statement depends on the
semicolons of the body. -/

theorem of_mem_behindPath {x : Char} (h : x ∈ k.behindPath) :
    x ≠ k.quote.char ∧ x ≠ '\r' ∧ x ≠ '\n' := by
  have hmem : x ∈ k.body := (List.dropWhile_suffix isPathChar).subset h
  have hbody := List.all_eq_true.1 k.all_body x hmem
  simp only [isBodyChar, Bool.and_eq_true, bne_iff_ne] at hbody
  obtain ⟨⟨⟨hquote, -⟩, hreturn⟩, hfeed⟩ := hbody
  exact ⟨hquote, hreturn, hfeed⟩

theorem head?_behindPath_append (h : k.behindPath ≠ []) :
    (k.behindPath ++ k.quote.char :: post).head? ≠ some k.quote.char := by
  obtain ⟨y, ys, hcons⟩ := List.exists_cons_of_ne_nil h
  have hy := (k.of_mem_behindPath (x := y) (by rw [hcons]; exact List.mem_cons_self)).1
  rw [hcons]
  simpa using hy

theorem ending_of_no_semicolon (h : ';' ∉ k.behindPath) :
    k.ending post = (if k.behindPath = [] then .matched else .irregular k.behindPath, post) := by
  unfold ending
  split
  · rename_i hnil
    rw [hnil, List.nil_append, readEnding_matched rfl, List.tail_cons]
  · rename_i hnil
    have hne : ∀ x ∈ k.behindPath, (x != k.quote.char) = true := by
      intro x hx
      simpa using (k.of_mem_behindPath hx).1
    have hopen : ∀ x ∈ k.behindPath, (!isTerminator x) = true := by
      intro x hx
      have hsemicolon : x ≠ ';' := fun hx' => h (hx' ▸ hx)
      simp [isTerminator, hsemicolon, k.of_mem_behindPath hx]
    have hmem : k.quote.char ∈ statementRest (k.behindPath ++ k.quote.char :: post) := by
      rw [statementRest, List.takeWhile_append_of_pos hopen]
      cases k.quote <;> simp [Quote.char, isTerminator]
    have hbefore : before k.quote.char (k.behindPath ++ k.quote.char :: post) = k.behindPath :=
      takeWhile_append_stop hne (by simp)
    have hafter : after k.quote.char (k.behindPath ++ k.quote.char :: post) = post := by
      rw [after, dropWhile_append_stop hne (by simp), List.tail_cons]
    rw [readEnding_irregular (k.head?_behindPath_append post hnil) hmem, hbefore, hafter]

/-- A semicolon hides the closing quote. -/
theorem ending_of_semicolon (h : ';' ∈ k.behindPath) (hquotes : ∀ x ∈ k.body, isQuote x = false) :
    (k.ending post).1 = .missing (before ';' k.behindPath) := by
  have hsub : ∀ x ∈ before ';' k.behindPath, x ∈ k.behindPath := fun x hx =>
    (List.takeWhile_sublist _).mem hx
  have hopen : ∀ x ∈ before ';' k.behindPath, isTerminator x = false := by
    intro x hx
    have hsemicolon : x ≠ ';' := by simpa using of_mem_takeWhile hx
    simp [isTerminator, hsemicolon, k.of_mem_behindPath (hsub x hx)]
  have hsplit : k.behindPath ++ k.quote.char :: post = before ';' k.behindPath ++
      ';' :: (after ';' k.behindPath ++ k.quote.char :: post) := by
    conv => lhs; rw [← before_append_after h]
    simp
  obtain ⟨hrest, -⟩ := statementRest_append_stop (r := ';' :: (after ';' k.behindPath ++
    k.quote.char :: post)) hopen (by simp [isTerminator])
  rw [← hsplit] at hrest
  have hnone : (statementRest (k.behindPath ++ k.quote.char :: post)).any isQuote = false := by
    rw [hrest, List.any_eq_false]
    intro x hx
    simp [hquotes x ((List.dropWhile_suffix isPathChar).subset (hsub x hx))]
  have hhead := k.head?_behindPath_append post (List.ne_nil_of_mem h)
  rw [ending, readEnding_missing hhead hnone, hrest]

theorem clause_of_no_semicolon (h : ';' ∉ k.behindPath) (l : Layout) :
    l.isBroken (k.clause post) = false ∧ (k.clause post).text = k.text := by
  have hending := k.ending_of_no_semicolon post h
  refine ⟨?_, ?_⟩
  · unfold Layout.isBroken clause
    rw [hending]
    split <;> simp [RepairKind.ofEnding?]
  · have htext := k.clause_text_append post
    rw [hending] at htext
    exact List.append_cancel_right htext

theorem isBroken_of_semicolon (h : ';' ∈ k.behindPath) (hquotes : ∀ x ∈ k.body, isQuote x = false)
    (l : Layout) : l.isBroken (k.clause post) = l.tracks k.path := by
  unfold Layout.isBroken clause
  rw [k.ending_of_semicolon post h hquotes]
  simp [RepairKind.ofEnding?]

end ClosedLiteral

/-- The path of the site starts inside the body of the literal, which `post`
follows, or at its end. -/
def Site.OpensIn (s : Site) (k : ClosedLiteral) (post : List Char) : Prop :=
  k.quote.char :: post <:+ s.pathStart.ahead ∧ s.pathStart.ahead <:+ k.body ++ k.quote.char :: post

section
variable {k : ClosedLiteral} {post : List Char} {cursor : Cursor} {s : Site}

theorem clause_path_append (k : ClosedLiteral) (post : List Char) :
    (k.clause post).path ++ ((k.clause post).ending.text k.quote ++ (k.ending post).2) =
      k.body ++ k.quote.char :: post := by
  have htext := k.clause_text_append post
  rw [Clause.text_append] at htext
  simpa [ClosedLiteral.text, ClosedLiteral.clause] using htext

theorem pathStart_clause (hcursor : cursor.ahead = k.text ++ post) :
    (⟨cursor, k.clause post⟩ : Site).pathStart.ahead = k.body ++ k.quote.char :: post := by
  rw [← k.clause_text_append] at hcursor
  obtain ⟨hstart, hstop⟩ := pathStart_ahead (s := ⟨cursor, k.clause post⟩) hcursor
  rw [hstart, hstop]
  exact clause_path_append k post

/-- Behind the clause that the literal is read as, the others stand inside the
body or behind the literal. -/
theorem site_cases (hcursor : cursor.ahead = k.text ++ post)
    (hs : s ∈ sitesFrom cursor (scanFrom false (k.text ++ post))) :
    (s = ⟨cursor, k.clause post⟩ ∧ s.pathStart.ahead = k.body ++ k.quote.char :: post) ∨
      s.cursor.ahead <:+ k.body ++ k.quote.char :: post := by
  rw [k.scanFrom_eq, sitesFrom, List.mem_cons] at hs
  rcases hs with rfl | hs
  · exact .inl ⟨rfl, pathStart_clause hcursor⟩
  · rw [← k.clause_text_append] at hcursor
    have hsuffix := cursor_ahead_suffix hs
    rw [Cursor.ahead_move hcursor] at hsuffix
    rw [← clause_path_append k post, ← List.append_assoc]
    exact .inr (hsuffix.trans (List.suffix_append _ _))

/-- Read from the literal on, no path starts before the body of the literal. -/
theorem pathStart_suffix_body (hcursor : cursor.ahead = k.text ++ post)
    (hs : s ∈ sitesFrom cursor (scanFrom false (k.text ++ post))) :
    s.pathStart.ahead <:+ k.body ++ k.quote.char :: post := by
  rcases site_cases hcursor hs with ⟨-, hstart⟩ | hsuffix
  · exact hstart ▸ List.suffix_refl _
  · exact (s.cursor.ahead_move_suffix _).trans hsuffix

/-- In a body without quotes no other clause opens. -/
theorem eq_of_opensIn (hcursor : cursor.ahead = k.text ++ post)
    (hquotes : ∀ x ∈ k.body, isQuote x = false)
    (hs : s ∈ sitesFrom cursor (scanFrom false (k.text ++ post))) (hopens : s.OpensIn k post) :
    s = ⟨cursor, k.clause post⟩ := by
  rcases site_cases hcursor hs with ⟨rfl, -⟩ | ⟨w, hw⟩
  · rfl
  · obtain ⟨rest, hahead, -⟩ := stands_of_mem_sitesFrom hcursor hs
    obtain ⟨hstart, hstop⟩ := pathStart_ahead hahead
    obtain ⟨⟨z, hz⟩, -⟩ := hopens
    -- The opening quote of the other clause would belong to the body.
    have hbody : k.body ++ k.quote.char :: post = w ++ (s.clause.opening ++ z) ++
        k.quote.char :: post := by
      rw [← hw, hahead, List.append_assoc, List.append_assoc, hz, hstart, hstop]
      simp [Clause.text, Clause.head]
    have hmem : s.clause.quote.char ∈ k.body := by
      rw [List.append_cancel_right hbody]
      simp [Clause.opening]
    have hquote : isQuote s.clause.quote.char = true := by cases s.clause.quote <;> rfl
    rw [hquotes _ hmem] at hquote
    cases hquote

/-- A path starts in the body exactly when it ends before the literal does: it
cannot go over the closing quote. -/
theorem opensIn_iff (hcursor : cursor.ahead = k.text ++ post)
    (hs : s ∈ sitesFrom cursor (scanFrom false (k.text ++ post))) :
    s.OpensIn k post ↔ post.length < s.pathStop.ahead.length := by
  obtain ⟨rest, hahead, hstands⟩ := stands_of_mem_sitesFrom hcursor hs
  have hbody := pathStart_suffix_body hcursor hs
  have hpath := (pathStart_ahead hahead).1
  constructor
  · rintro ⟨⟨z, hz⟩, -⟩
    rw [hpath, List.append_eq_append_iff] at hz
    rcases hz with ⟨y, hy, hstop⟩ | ⟨y, -, hstop⟩
    · cases y with
      | nil =>
        rw [List.nil_append] at hstop
        rw [← hstop, List.length_cons]
        omega
      | cons x y =>
        obtain rfl : k.quote.char = x := (List.cons.inj hstop).1
        have hmem : k.quote.char ∈ s.clause.path := by simp [hy]
        exact absurd (hstands.path _ hmem) (by simp [k.quote.not_isPathChar])
    · rw [hstop, List.length_append, List.length_cons]
      omega
  · intro hlen
    refine ⟨?_, hbody⟩
    refine List.suffix_of_suffix_length_le (List.suffix_append _ _) hbody ?_
    rw [hpath, List.length_append, List.length_cons]
    omega

/-- What is read before the literal opens before it. -/
theorem not_opensIn_of_before {before : List Piece}
    (hcursor : cursor.ahead = Piece.render before ++ (k.text ++ post))
    (hs : s ∈ sitesFrom cursor before) : ¬ s.OpensIn k post := by
  obtain ⟨xs, c, ys, rfl, rfl⟩ := mem_sitesFrom_iff.1 hs
  have hahead : (cursor.move (Piece.render xs).length).ahead =
      c.text ++ (Piece.render ys ++ (k.text ++ post)) := by
    refine Cursor.ahead_move ?_
    rw [hcursor]
    simp [Piece.render, Piece.text]
  obtain ⟨hstart, hstop⟩ :=
    pathStart_ahead (s := ⟨cursor.move (Piece.render xs).length, c⟩) hahead
  rintro ⟨-, hbody⟩
  have hlen := hbody.length_le
  rw [hstart, hstop] at hlen
  simp only [ClosedLiteral.text, List.length_append, List.length_cons] at hlen
  omega

end

/-! ## What repair leaves of a closed literal -/

namespace Layout

/-- Repair copies the literal: behind what it makes of the text before, it
writes the literal letter by letter. -/
def Keeps (l : Layout) (t : String) (k : ClosedLiteral) (post : List Char) : Prop :=
  ∃ before, scan t.toList = before ++ scanFrom false (k.text ++ post) ∧
    before.flatMap l.repairPiece ++ k.text <+: (l.repair t).text.toList

theorem keeps_iff {l : Layout} {t : String} {k : ClosedLiteral} {post : List Char}
    {before : List Piece} (h : scan t.toList = before ++ scanFrom false (k.text ++ post)) :
    l.Keeps t k post ↔ k.text <+: (scanFrom false (k.text ++ post)).flatMap l.repairPiece := by
  have hprefix : before.flatMap l.repairPiece ++ k.text <+: (l.repair t).text.toList ↔
      k.text <+: (scanFrom false (k.text ++ post)).flatMap l.repairPiece := by
    rw [toList_repair_text, h, List.flatMap_append, List.prefix_append_right_inj]
  constructor
  · rintro ⟨before', h', hkept⟩
    obtain rfl : before = before' := List.append_cancel_right (h.symm.trans h')
    exact hprefix.1 hkept
  · exact fun hkept => ⟨before, h, hprefix.2 hkept⟩

/-- Repair leaves a closed literal as it is exactly when no broken literal opens
inside it. -/
theorem keeps_iff_not_opensIn {l : Layout} {t : String} {k : ClosedLiteral} {post : List Char}
    {before : List Piece} (h : scan t.toList = before ++ scanFrom false (k.text ++ post)) :
    l.Keeps t k post ↔ ∀ s ∈ sites t.toList, l.isBroken s.clause → ¬ s.OpensIn k post := by
  have htext := eq_render_append h
  have hcursor := Cursor.ahead_move (c := .start t.toList) htext
  rw [keeps_iff h, l.prefix_repaired_iff false _ _ k.text hcursor (List.prefix_append _ _), sites,
    h, sitesFrom_append, List.forall_mem_append]
  refine ⟨fun hkept => ⟨?_, ?_⟩, fun hnone s hs hbroken => ?_⟩
  · exact fun s hs _ => not_opensIn_of_before htext hs
  · intro s hs hbroken hopens
    have hlen := (opensIn_iff hcursor hs).1 hopens
    have := hkept s hs hbroken
    rw [List.length_append] at this
    omega
  · have hlen := mt (opensIn_iff hcursor hs).2 (hnone.2 s hs hbroken)
    rw [List.length_append]
    omega

theorem keeps_of_no_semicolon {l : Layout} {t : String} {k : ClosedLiteral} {post : List Char}
    {before : List Piece} (h : scan t.toList = before ++ scanFrom false (k.text ++ post))
    (hsemicolon : ';' ∉ k.behindPath) : l.Keeps t k post := by
  obtain ⟨hwhole, htext⟩ := k.clause_of_no_semicolon post hsemicolon l
  rw [keeps_iff h, k.scanFrom_eq, List.flatMap_cons, repairPiece_of_not_broken hwhole, htext]
  exact List.prefix_append _ _

/-- Where the body holds no quote, all depends on the clause that the literal
itself is read as. -/
theorem keeps_iff_of_no_quote {l : Layout} {t : String} {k : ClosedLiteral} {post : List Char}
    {before : List Piece} (h : scan t.toList = before ++ scanFrom false (k.text ++ post))
    (hquotes : ∀ x ∈ k.body, isQuote x = false) :
    l.Keeps t k post ↔ ¬ (l.tracks k.path ∧ ';' ∈ k.behindPath) := by
  by_cases hsemicolon : ';' ∈ k.behindPath
  · have htext := eq_render_append h
    have hcursor := Cursor.ahead_move (c := .start t.toList) htext
    have hbroken := k.isBroken_of_semicolon post hsemicolon hquotes l
    rw [keeps_iff_not_opensIn h, sites, h, sitesFrom_append]
    constructor
    · rintro hnone ⟨htracks, -⟩
      have hfirst : ⟨(Cursor.start t.toList).move (Piece.render before).length, k.clause post⟩ ∈
          sitesFrom ((Cursor.start t.toList).move (Piece.render before).length)
            (scanFrom false (k.text ++ post)) := by
        rw [k.scanFrom_eq, sitesFrom]
        exact List.mem_cons_self
      refine hnone _ (List.mem_append_right _ hfirst) (hbroken.trans htracks) ?_
      rw [Site.OpensIn, pathStart_clause hcursor]
      exact ⟨List.suffix_append _ _, List.suffix_refl _⟩
    · intro huntracked s hs hs_broken hopens
      rcases List.mem_append.1 hs with hs | hs
      · exact not_opensIn_of_before htext hs hopens
      · rw [eq_of_opensIn hcursor hquotes hs hopens, hbroken] at hs_broken
        exact huntracked ⟨hs_broken, hsemicolon⟩
  · exact iff_of_true (keeps_of_no_semicolon h hsemicolon) fun hboth => hsemicolon hboth.2

/-- Where reading comes to a literal that is closed, repair leaves the literal
as it is exactly when no broken literal opens inside it. That is so for every
literal without a semicolon behind its path. Where the body holds no quote, it
is so unless there is such a semicolon and repair looks after the path. -/
theorem repair_keeps_iff (l : Layout) (t : String) (k : ClosedLiteral) (post : List Char)
    (h : Reaches false t.toList false (k.text ++ post)) :
    (l.Keeps t k post ↔
      ∀ s ∈ sites t.toList, l.isBroken s.clause → ¬ s.OpensIn k post) ∧
    (';' ∉ k.behindPath → l.Keeps t k post) ∧
    ((∀ x ∈ k.body, isQuote x = false) →
      (l.Keeps t k post ↔ ¬ (l.tracks k.path ∧ ';' ∈ k.behindPath))) := by
  obtain ⟨before, hscan⟩ := h.scanFrom_eq
  exact ⟨keeps_iff_not_opensIn hscan, keeps_of_no_semicolon hscan, keeps_iff_of_no_quote hscan⟩

/-- What follows the path before the semicolon has a stray quote in it, so the
end of the literal is open, and it stays as it is. -/
theorem repair_keeps_iff_stray :
    ∃ (k : ClosedLiteral) (post : List Char), k.body = "./a 'b; c".toList ∧
      Reaches false "import A from \"./a 'b; c\";\n".toList false (k.text ++ post) ∧
      (∀ s ∈ sites "import A from \"./a 'b; c\";\n".toList,
        ({} : Layout).isBroken s.clause → ¬ s.OpensIn k post) ∧
      ({} : Layout).Keeps "import A from \"./a 'b; c\";\n" k post := by
  let k : ClosedLiteral := ⟨[' '], .double, "./a 'b; c".toList, rfl, by decide +kernel⟩
  have hreach := reaches_readOn 4 false "import A from \"./a 'b; c\";\n".toList
  rw [show readOn 4 false "import A from \"./a 'b; c\";\n".toList =
    (false, k.text ++ ";\n".toList) by decide +kernel] at hreach
  have hwhole : ∀ s ∈ sites "import A from \"./a 'b; c\";\n".toList,
      ({} : Layout).isBroken s.clause = false := by decide +kernel
  have hnone : ∀ s ∈ sites "import A from \"./a 'b; c\";\n".toList,
      ({} : Layout).isBroken s.clause → ¬ s.OpensIn k ";\n".toList := by
    intro s hs hbroken
    rw [hwhole s hs] at hbroken
    cases hbroken
  exact ⟨k, ";\n".toList, rfl, hreach, hnone, (repair_keeps_iff {} _ k _ hreach).1.2 hnone⟩

/-- The literal is closed, and gets a second closing quote in front of the
semicolon that it holds. -/
theorem repair_splits_closed :
    ∃ (k : ClosedLiteral) (post : List Char), k.body = "./icon.svg?a;b".toList ∧
      Reaches false "import icon from \"./icon.svg?a;b\";\n".toList false (k.text ++ post) ∧
      (({} : Layout).repair "import icon from \"./icon.svg?a;b\";\n").text =
        "import icon from \"./icon.svg\"?a;b\";\n" ∧
      ¬ ({} : Layout).Keeps "import icon from \"./icon.svg?a;b\";\n" k post := by
  let k : ClosedLiteral := ⟨[' '], .double, "./icon.svg?a;b".toList, rfl, by decide +kernel⟩
  have hreach := reaches_readOn 4 false "import icon from \"./icon.svg?a;b\";\n".toList
  rw [show readOn 4 false "import icon from \"./icon.svg?a;b\";\n".toList =
    (false, k.text ++ ";\n".toList) by decide +kernel] at hreach
  have htext : (({} : Layout).repair "import icon from \"./icon.svg?a;b\";\n").text =
      "import icon from \"./icon.svg\"?a;b\";\n" := by decide +kernel
  refine ⟨k, ";\n".toList, rfl, hreach, htext, ?_⟩
  rintro ⟨before, -, hkept⟩
  rw [htext] at hkept
  have hinfix : k.text <:+: "import icon from \"./icon.svg\"?a;b\";\n".toList :=
    (List.suffix_append _ _).isInfix.trans hkept.isInfix
  exact absurd hinfix (by decide +kernel)

end Layout

end Relocate
