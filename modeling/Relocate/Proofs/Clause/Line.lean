import Mathlib.Data.List.Chain
import Relocate.Proofs.Clause.Splice

/-!
# Reading line by line

A clause never holds a line feed (`Clause.Stands.noFeed`). Nor does anything
else that is read from the middle of a line, unless a template, a block comment
or a backslash takes the line feed in; a `SingleLine` has none of these, so
reading comes to its end whatever stands on it.

* `line_induction`: induction along the reading of such a line.
* `scanFrom_line`: its pieces come first, and they do not depend on what
  stands below.
* `scanFrom_word`: what stands below is read as if it stood alone, if it
  begins with a word other than `from`.
-/
namespace Relocate

variable {d d' : Bool} {p : Piece} {rest r u v b : List Char}

/-! ## Line feeds in what is read -/

theorem noFeed_statementRest (t : List Char) : '\n' ∉ statementRest t := by
  intro h
  have hopen := of_mem_takeWhile h
  exact absurd hopen (by decide)

theorem noFeed_readEnding (q : Quote) (t : List Char) : '\n' ∉ (readEnding q t).1.text q := by
  have hquote : '\n' ≠ q.char := by cases q <;> decide
  refine readEnding_cases q t ?_ ?_ ?_ ?_ ?_
  · intro _
    simpa [Ending.text] using hquote
  · intro _ hq
    have hbefore : '\n' ∉ before q.char t := fun h => absurd (of_mem_before hq h) (by decide)
    simpa [Ending.text, hquote] using hbefore
  · intro _ _
    exact noFeed_statementRest t
  · intro _ ha hq _
    rw [Ending.text, before_append_after (opposite_mem_of_isQuote ha hq)]
    exact noFeed_statementRest t
  · intro _ _ _ _
    exact noFeed_statementRest t

/-- A clause stands on one line. -/
theorem Clause.Stands.noFeed {c : Clause} (h : c.Stands rest) : '\n' ∉ c.text := by
  have hending := noFeed_readEnding c.quote (c.ending.text c.quote ++ rest)
  rw [h.ending] at hending
  have hgap : '\n' ∉ c.gap := fun hmem => absurd (h.gap _ hmem) (by decide)
  have hpath : '\n' ∉ c.path := fun hmem => absurd (h.path _ hmem) (by decide)
  have hquote : '\n' ≠ c.quote.char := by cases c.quote <;> decide
  simp only [Clause.text, Clause.head, Clause.opening, Clause.keyword, List.mem_append, not_or]
  exact ⟨⟨⟨⟨by decide, hgap⟩, by simpa using hquote⟩, hpath⟩, hending⟩

theorem noFeed_splitLiteral {q : Char} (hq : q ≠ '\n') (hu : '\\' ∉ u) :
    '\n' ∉ (splitLiteral q (u ++ '\n' :: b)).1 := by
  induction u with
  | nil => simp [splitLiteral]
  | cons c u ih =>
    obtain ⟨hc, hu⟩ : '\\' ≠ c ∧ '\\' ∉ u := by simpa using hu
    rw [List.cons_append, splitLiteral.eq_3 _ _ _ fun _ _ h _ => hc h.symm]
    split
    · simp
    · rename_i hfeed
      split
      · rename_i hclose
        simpa [hclose] using Ne.symm hq
      · simpa [Ne.symm hfeed] using ih hu

/-! ## Lines -/

/-- A stretch of text without a line feed, in which nothing opens that a line
feed would not end. -/
structure SingleLine (u : List Char) : Prop where
  noFeed : '\n' ∉ u
  noTemplate : backtick ∉ u
  noEscape : '\\' ∉ u
  noBlock : ¬ ['/', '*'] <:+: u

/-- No block comment opens between two neighbours. -/
def Unopened (x y : Char) : Prop := ¬ (x = '/' ∧ y = '*')

theorem isChain_unopened_iff : u.IsChain Unopened ↔ ¬ ['/', '*'] <:+: u := by
  rw [List.isChain_iff_forall_rel_of_append_cons_cons]
  constructor
  · rintro h ⟨before, after, rfl⟩
    exact @h '/' '*' before after (by simp) ⟨rfl, rfl⟩
  · rintro h x y before after rfl ⟨rfl, rfl⟩
    exact h ⟨before, after, by simp⟩

namespace SingleLine

theorem nil : SingleLine [] := ⟨by simp, by simp, by simp, by simp⟩

theorem of_append (h : SingleLine (u ++ v)) : SingleLine u ∧ SingleLine v := by
  obtain ⟨hfeed, htemplate, hescape, hblock⟩ := h
  simp only [List.mem_append, not_or] at hfeed htemplate hescape
  exact ⟨⟨hfeed.1, htemplate.1, hescape.1, fun h => hblock (h.trans (List.prefix_append u v).isInfix)⟩,
    ⟨hfeed.2, htemplate.2, hescape.2, fun h => hblock (h.trans (List.suffix_append u v).isInfix)⟩⟩

/-- Two stretches make one where no block comment opens between them. -/
theorem append (hu : SingleLine u) (hv : SingleLine v)
    (h : ∀ x ∈ u.getLast?, ∀ y ∈ v.head?, Unopened x y) : SingleLine (u ++ v) := by
  refine ⟨?_, ?_, ?_, ?_⟩
  · simpa using ⟨hu.noFeed, hv.noFeed⟩
  · simpa using ⟨hu.noTemplate, hv.noTemplate⟩
  · simpa using ⟨hu.noEscape, hv.noEscape⟩
  · rw [← isChain_unopened_iff, List.isChain_append]
    exact ⟨isChain_unopened_iff.2 hu.noBlock, isChain_unopened_iff.2 hv.noBlock, h⟩

/-- What stands behind a stretch may change, if it starts as before. -/
theorem congr_right (h : SingleLine (u ++ v)) (hr : SingleLine r) (hhead : r.head? = v.head?) :
    SingleLine (u ++ r) := by
  have hchain := isChain_unopened_iff.2 h.noBlock
  rw [List.isChain_append] at hchain
  refine h.of_append.1.append hr ?_
  rw [hhead]
  exact hchain.2.2

/-- A quote keeps any two stretches apart. -/
theorem quoted (hu : SingleLine u) (hv : SingleLine v) (q : Quote) :
    SingleLine (u ++ q.char :: v) := by
  have hq : SingleLine [q.char] := by cases q <;> exact ⟨by decide, by decide, by decide, by decide⟩
  have hqv : SingleLine ([q.char] ++ v) := by
    refine hq.append hv ?_
    intro x hx y _ hopen
    obtain rfl : q.char = x := by simpa using hx
    exact absurd hopen.1 (by cases q <;> decide)
  refine hu.append hqv ?_
  intro x _ y hy hopen
  obtain rfl : q.char = y := by simpa using hy
  exact absurd hopen.2 (by cases q <;> decide)

end SingleLine

/-! ## Steps on a line -/

/-- A step that starts on a line reads no line feed. -/
theorem Takes.noFeed {c : Char} (h : Takes d p d' rest)
    (ht : p.text ++ rest = c :: u ++ '\n' :: b) (hu : SingleLine (c :: u)) : '\n' ∉ p.text := by
  obtain ⟨c', cs, ht', hs⟩ := h
  rw [ht'] at ht
  obtain ⟨rfl, rfl⟩ : c' = c ∧ cs = u ++ '\n' :: b := List.cons.inj ht
  obtain ⟨hfeed, hrest⟩ : '\n' ≠ c' ∧ '\n' ∉ u := by simpa using hu.noFeed
  have hescape : '\\' ∉ u := fun h => hu.noEscape (List.mem_cons_of_mem c' h)
  simp only [scanStep] at hs
  split at hs
  · cases hs
    exact fun h => absurd (of_mem_takeWhile h) (by decide)
  split at hs
  · rename_i hblock
    exfalso
    cases u with
    | nil => simp at hblock
    | cons y u =>
      obtain ⟨rfl, rfl⟩ : c' = '/' ∧ y = '*' := by simpa using hblock
      exact hu.noBlock ⟨[], u, rfl⟩
  split at hs
  · cases hs
    simpa [Piece.text, hfeed] using noFeed_splitLiteral (Ne.symm hfeed) hescape
  split at hs
  · rename_i htick
    exact absurd List.mem_cons_self (htick ▸ hu.noTemplate)
  split at hs
  · cases p with
    | clause a => exact (stepWord_eq_clause hs).2.2.noFeed
    | plain w =>
      have hw : w = (c' :: (u ++ '\n' :: b)).takeWhile isWordChar := by
        simp only [stepWord] at hs
        split at hs
        · split at hs <;> cases hs
          rfl
        · cases hs
          rfl
      rw [hw]
      exact fun h => absurd (of_mem_takeWhile h) (by decide)
  · cases hs
    simpa [Piece.text] using hfeed

theorem exists_of_append_eq {x : Char} (h : x ∉ u) (he : u ++ r = v ++ x :: b) :
    ∃ w, v = u ++ w ∧ r = w ++ x :: b := by
  rcases List.append_eq_append_iff.1 he with ⟨w, rfl, hr⟩ | ⟨w, rfl, hx⟩
  · exact ⟨w, rfl, hr⟩
  · cases w with
    | nil => exact ⟨[], by simp, hx.symm⟩
    | cons y w =>
      obtain rfl : x = y := (List.cons.inj hx).1
      exact absurd (List.mem_append_right v List.mem_cons_self) h

theorem takes_feed (d : Bool) (b : List Char) : Takes d (.plain ['\n']) d b :=
  ⟨'\n', b, rfl, by simp [scanStep, isQuote, backtick, isWordStart, isBeyondAscii, isAsciiBlank]⟩

/-- What follows on a line is alike, whatever stands below. -/
theorem alike_line (u b b' : List Char) : Alike (u ++ '\n' :: b) (u ++ '\n' :: b') :=
  .append u (.of_head rfl rfl (by decide))

/-- Induction along the reading of a line: it is read to its end, or a step
reads a piece of it, whatever stands below. -/
theorem line_induction {motive : Bool → List Char → Prop} (nil : ∀ d, motive d [])
    (take : ∀ d p d' v, SingleLine (p.text ++ v) → (∀ b, Takes d p d' (v ++ '\n' :: b)) →
      motive d' v → motive d (p.text ++ v)) :
    ∀ d u, SingleLine u → motive d u := by
  intro d u
  induction hn : u.length using Nat.strongRecOn generalizing d u with
  | ind n ih =>
    intro hu
    cases u with
    | nil => exact nil d
    | cons c u =>
      have hstep := takes_scanStep d c (u ++ ['\n'])
      have htext : _ = c :: u ++ '\n' :: [] := scanStep_append d c (u ++ ['\n'])
      obtain ⟨v, hv, hrest⟩ := exists_of_append_eq (hstep.noFeed htext hu) htext
      rw [hrest] at hstep
      rw [hv] at hu hn ⊢
      have hshorter : v.length < n := by
        have := List.length_pos_iff.2 hstep.text_ne_nil
        rw [List.length_append] at hn
        omega
      exact take _ _ _ v hu (fun b => hstep.alike (alike_line v [] b))
        (ih v.length hshorter _ v rfl hu.of_append.2)

/-- The pieces of a line come first among those of a text that starts with it. -/
theorem scanFrom_line (d : Bool) (hu : SingleLine u) :
    ∃ d', ∀ b, scanFrom d (u ++ '\n' :: b) = scanFrom d (u ++ ['\n']) ++ scanFrom d' b := by
  refine line_induction (motive := fun d u => ∃ d', ∀ b,
    scanFrom d (u ++ '\n' :: b) = scanFrom d (u ++ ['\n']) ++ scanFrom d' b) ?_ ?_ d u hu
  · intro d
    have hfeed : ∀ b, scanFrom d ('\n' :: b) = .plain ['\n'] :: scanFrom d b := fun b =>
      (takes_feed d b).scanFrom_eq
    exact ⟨d, fun b => by simp [hfeed, scanFrom]⟩
  · rintro d p d₁ v - hstep ⟨d', ih⟩
    refine ⟨d', fun b => ?_⟩
    rw [List.append_assoc, List.append_assoc, (hstep b).scanFrom_eq, (hstep []).scanFrom_eq, ih b]
    rfl

/-! ## What stands below -/

/-- The text begins with a word, and the word is not `from`. -/
structure OpensWithWord (t : List Char) : Prop where
  start : ∃ c, t.head? = some c ∧ isWordStart c
  other : t.takeWhile isWordChar ≠ Clause.keyword

/-- A word other than `from` is read, in whatever state. -/
theorem OpensWithWord.takes {t : List Char} (h : OpensWithWord t) (d : Bool) :
    Takes d (.plain (t.takeWhile isWordChar)) false (t.dropWhile isWordChar) := by
  obtain ⟨c, hc, hstart⟩ := h.start
  cases t with
  | nil => cases hc
  | cons x cs =>
    obtain rfl : x = c := by simpa using hc
    have hslash : x ≠ '/' := by rintro rfl; exact absurd hstart (by decide)
    have hquote : ¬ isQuote x := by
      intro hq
      rcases (by simpa [isQuote] using hq : x = '"' ∨ x = '\'') with rfl | rfl <;>
        exact absurd hstart (by decide)
    have htick : x ≠ backtick := by rintro rfl; exact absurd hstart (by decide)
    refine ⟨x, cs, List.takeWhile_append_dropWhile, ?_⟩
    simp [scanStep, hslash, hquote, htick, hstart, stepWord, h.other]

/-- A text that begins with a word other than `from` is read as if it stood
alone. -/
theorem scanFrom_word {t : List Char} (h : OpensWithWord t) (d : Bool) :
    scanFrom d t = scan t := by
  have hstep : ∀ d, scanFrom d t =
      .plain (t.takeWhile isWordChar) :: scanFrom false (t.dropWhile isWordChar) := by
    intro d
    have := (h.takes d).scanFrom_eq
    rwa [Piece.text, List.takeWhile_append_dropWhile] at this
  rw [scan, hstep d, hstep false]

/-- The pieces of a line and of the text below it. -/
theorem scan_line (hu : SingleLine u) (hb : OpensWithWord b) :
    scan (u ++ '\n' :: b) = scan (u ++ ['\n']) ++ scan b := by
  obtain ⟨d', h⟩ := scanFrom_line false hu
  rw [scan, h b, scanFrom_word hb]
  rfl

end Relocate
