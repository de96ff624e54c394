import Relocate.Proofs.Bytes.Splice
import Relocate.Proofs.Text.Split

/-!
# Positions and offsets

An offset between two characters has a line and a column. The line counts the
line feeds before the offset, the column the characters behind the last of them
(`line_split`, `column_split`), and the line of text runs from there to the
next one (`lineText_split`).

* `lt_position`: further on in the text is further on in line and column.
* `skipLines?_count`: skipping as many lines as there are line feeds in a text
  leads to its last line.
* `positions_identify`: so the offset can be found again from line and column,
  and the line of text is the line that is found there.
-/
namespace Relocate

open Text

/-- The text behind `n` lines, each of which ends in a line feed. -/
def skipLines? : Nat → List Char → Option (List Char)
  | 0, t => some t
  | n + 1, t => if '\n' ∈ t then skipLines? n (after '\n' t) else none

theorem skipLines?_feed (n : Nat) (t : List Char) :
    skipLines? (n + 1) ('\n' :: t) = skipLines? n t := by
  rw [skipLines?, if_pos List.mem_cons_self]
  rfl

theorem skipLines?_cons {x : Char} (hx : x ≠ '\n') (n : Nat) (t : List Char) :
    skipLines? (n + 1) (x :: t) = skipLines? (n + 1) t := by
  have hafter : after '\n' (x :: t) = after '\n' t := by simp [after, hx]
  rw [skipLines?, skipLines?, hafter]
  simp [Ne.symm hx]

/-- Behind all its line feeds stands the last line of a text. -/
theorem skipLines?_count (u v : List Char) :
    skipLines? (u.count '\n') (u ++ v) = some (afterLast '\n' u ++ v) := by
  induction u with
  | nil => rfl
  | cons x u ih =>
    by_cases hx : x = '\n'
    · subst hx
      rw [List.count_cons_self, List.cons_append, skipLines?_feed, ih]
      exact congrArg (fun l => some (l ++ v)) (afterLast_append_cons '\n' [] u).symm
    · rw [List.count_cons_of_ne hx]
      by_cases hfeed : '\n' ∈ u
      · obtain ⟨n, hn⟩ := Nat.exists_eq_add_one.2 (List.count_pos_iff.2 hfeed)
        rw [afterLast_cons_of_mem hfeed, ← ih, hn, List.cons_append, skipLines?_cons hx]
      · -- No line is skipped, and the whole of `x :: u` is the last one.
        rw [List.count_eq_zero.2 hfeed, afterLast_of_not_mem (by simp [Ne.symm hx, hfeed])]
        rfl

namespace Text

section Split

variable (u v : List Char)

theorem line_split : (⟨u.reverse, v⟩ : Cursor).line = u.count '\n' + 1 := by
  rw [Cursor.line, List.count_reverse]

theorem column_split : (⟨u.reverse, v⟩ : Cursor).column = (afterLast '\n' u).length + 1 := by
  rw [Cursor.column, afterLast, List.length_reverse]

theorem before_afterLast : before '\n' (afterLast '\n' u ++ v) = afterLast '\n' u ++ before '\n' v := by
  refine List.takeWhile_append_of_pos fun x hx => ?_
  rw [bne_iff_ne]
  rintro rfl
  exact not_mem_afterLast '\n' u hx

theorem lineText_split :
    (⟨u.reverse, v⟩ : Cursor).lineText = trim (before '\n' (afterLast '\n' u ++ v)) := by
  rw [before_afterLast]
  rfl

/-- Further on in the text is further on in line and column. -/
theorem lt_position {w : List Char} (hw : w ≠ []) (v' : List Char) :
    let c : Cursor := ⟨u.reverse, v⟩
    let d : Cursor := ⟨(u ++ w).reverse, v'⟩
    c.line < d.line ∨ c.line = d.line ∧ c.column < d.column := by
  intro c d
  rw [line_split, line_split, column_split, column_split, List.count_append]
  by_cases hfeed : '\n' ∈ w
  · have hcount := List.count_pos_iff.2 hfeed
    omega
  · have hcount := List.count_eq_zero.2 hfeed
    have hlength := List.length_pos_iff.2 hw
    rw [afterLast_append hfeed, List.length_append]
    omega

end Split

end Text

namespace Bytes

variable {text : String} {a b : Nat} {u v : List Char}

/-- The cursor stands at an offset, and line, column and line of text there are
its own. -/
structure IsAt (text : String) (a : Nat) (c : Cursor) : Prop where
  seek : Cursor.seek? text.toList a = some c
  position : lineColumn? text a = some (c.line, c.column)
  line : lineAt? text a = some c.lineText

theorem isAt_of_split (h : text.toList = u ++ v) : IsAt text (byteLength u) ⟨u.reverse, v⟩ := by
  obtain ⟨c, hseek, hposition, hline⟩ := lines_of_boundary (isBoundary_of_split h)
  obtain rfl : c = ⟨u.reverse, v⟩ := Option.some.inj (hseek.symm.trans (seek?_split h))
  exact ⟨hseek, hposition, hline⟩

/-- Of two offsets between characters, the first cuts a text within what stands
before the second. -/
theorem exists_split_of_lt (ha : IsBoundary text a) (hb : IsBoundary text b) (hab : a < b) :
    ∃ u w v, text.toList = u ++ (w ++ v) ∧ w ≠ [] ∧ a = byteLength u ∧ b = byteLength (u ++ w) := by
  obtain ⟨u, v, hu, rfl⟩ := isBoundary_iff.1 ha
  obtain ⟨u', v', hu', rfl⟩ := isBoundary_iff.1 hb
  rcases List.append_eq_append_iff.1 (hu.symm.trans hu') with ⟨w, rfl, rfl⟩ | ⟨w, rfl, rfl⟩
  · refine ⟨u, w, v', hu, ?_, rfl, rfl⟩
    rintro rfl
    simp at hab
  · rw [byteLength_append] at hab
    omega

theorem not_mem_trim {x : Char} {t : List Char} (h : x ∉ t) : x ∉ trim t := by
  obtain ⟨l, r, ht, -⟩ := exists_trim t
  intro hx
  rw [ht] at h
  simp [hx] at h

/-- Offsets between characters come in the order of their lines and columns.
From the start of the text, all lines before that of the offset, each with its
line feed, and then all characters of the line before the column lead back to
the offset; and the line that is entered there is the line of text at the
offset, less the blanks around it. -/
theorem positions_identify (text : String) :
    (∀ a b, IsBoundary text a → IsBoundary text b → a < b →
      ∃ c d, IsAt text a c ∧ IsAt text b d ∧
        (c.line < d.line ∨ c.line = d.line ∧ c.column < d.column)) ∧
    ∀ a, IsBoundary text a → ∃ c rest, IsAt text a c ∧
      skipLines? (c.line - 1) text.toList = some rest ∧
      c.column - 1 ≤ (before '\n' rest).length ∧
      a + byteLength (rest.drop (c.column - 1)) = text.utf8ByteSize ∧
      c.lineText = trim (before '\n' rest) ∧ '\n' ∉ c.lineText := by
  constructor
  · intro a b ha hb hab
    obtain ⟨u, w, v, htext, hw, rfl, rfl⟩ := exists_split_of_lt ha hb hab
    refine ⟨_, _, isAt_of_split htext, isAt_of_split (by rw [htext, List.append_assoc]), ?_⟩
    exact lt_position u (w ++ v) hw v
  · intro a ha
    obtain ⟨u, v, htext, rfl⟩ := isBoundary_iff.1 ha
    refine ⟨_, afterLast '\n' u ++ v, isAt_of_split htext, ?_, ?_, ?_, lineText_split u v, ?_⟩
    · rw [line_split, htext]
      exact skipLines?_count u v
    · rw [column_split, before_afterLast, List.length_append]
      omega
    · rw [column_split, Nat.add_sub_cancel, List.drop_left, utf8ByteSize_eq, htext,
        byteLength_append]
    · rw [lineText_split]
      exact not_mem_trim (not_mem_before '\n' _)

/-- The line feed behind a character of two bytes, and the last letter, two
lines further down and behind a blank. -/
theorem positions_identify_accent :
    IsBoundary "é\n\n ok" 2 ∧ IsBoundary "é\n\n ok" 6 ∧
    (∃ c d, IsAt "é\n\n ok" 2 c ∧ IsAt "é\n\n ok" 6 d ∧
      (c.line < d.line ∨ c.line = d.line ∧ c.column < d.column)) ∧
    ∃ c rest, IsAt "é\n\n ok" 6 c ∧ c.line = 3 ∧ c.column = 3 ∧
      skipLines? 2 "é\n\n ok".toList = some rest ∧ 6 + byteLength (rest.drop 2) = 7 ∧
      c.lineText = trim (before '\n' rest) := by
  have hfeed : IsBoundary "é\n\n ok" 2 := by decide
  have hletter : IsBoundary "é\n\n ok" 6 := by decide
  obtain ⟨horder, hback⟩ := positions_identify "é\n\n ok"
  obtain ⟨c, rest, hat, hskip, -, hsize, hline, -⟩ := hback 6 hletter
  have hseek : Cursor.seek? "é\n\n ok".toList 6 = some ⟨['o', ' ', '\n', '\n', 'é'], ['k']⟩ := by
    decide
  obtain rfl := Option.some.inj (hseek.symm.trans hat.seek)
  exact ⟨hfeed, hletter, horder 2 6 hfeed hletter (by decide),
    _, rest, hat, rfl, rfl, hskip, hsize, hline⟩

end Bytes

end Relocate
