import Relocate.Clause.Site
import Relocate.Proofs.Clause.Lookahead

/-!
# Reading step by step

`Takes d p d' rest` says what one step does: in the state `d` it reads the
piece `p`, with `rest` to follow in the state `d'`. Whole texts are read by
such steps (`scan_induction`), and `Reaches` is what several of them do.

* `takes_clause_iff`: where a step reads a clause.
* `Takes.congr`: a step over plain text does not look beyond alike texts.
* `Reaches.congr`: nor do steps that stay before some place in the text.
-/
namespace Relocate

variable {d d' : Bool} {p : Piece} {rest r : List Char}

/-- In the state `d`, the text of `p` followed by `rest` is read as `p`, and
reading goes on with `rest` in the state `d'`. -/
def Takes (d : Bool) (p : Piece) (d' : Bool) (rest : List Char) : Prop :=
  ∃ c cs, p.text ++ rest = c :: cs ∧ scanStep d c cs = ⟨p, d', rest⟩

theorem takes_scanStep (d : Bool) (c : Char) (cs : List Char) :
    Takes d (scanStep d c cs).piece (scanStep d c cs).afterDot (scanStep d c cs).rest :=
  ⟨c, cs, scanStep_append d c cs, rfl⟩

theorem Takes.scanFrom_eq (h : Takes d p d' rest) :
    scanFrom d (p.text ++ rest) = p :: scanFrom d' rest := by
  obtain ⟨c, cs, ht, hs⟩ := h
  rw [ht, scanFrom]
  simp only [hs]

theorem Takes.text_ne_nil (h : Takes d p d' rest) : p.text ≠ [] := by
  obtain ⟨c, cs, -, hs⟩ := h
  have := scanStep_text_ne_nil d c cs
  rwa [hs] at this

/-- Induction along a reading: a text is empty, or a step reads its first
piece. -/
theorem scan_induction {motive : Bool → List Char → Prop} (nil : ∀ d, motive d [])
    (take : ∀ d p d' rest, Takes d p d' rest → motive d' rest → motive d (p.text ++ rest)) :
    ∀ d t, motive d t := by
  intro d t
  fun_induction scanFrom d t with
  | case1 d => exact nil d
  | case2 d c cs step ih =>
    have := take _ _ _ _ (takes_scanStep d c cs) ih
    rwa [scanStep_append] at this

/-! ## Steps over clauses -/

theorem stepWord_eq_clause {t : List Char} {c : Clause}
    (h : stepWord d t = ⟨.clause c, d', rest⟩) : d = false ∧ d' = false ∧ c.Stands rest := by
  simp only [stepWord] at h
  split at h
  · rename_i hw
    split at h
    · rename_i c' rest' hc
      cases h
      exact ⟨by simpa using hw.2, rfl, (readClause?_eq_some_iff.1 hc).1⟩
    · cases h
  · cases h

theorem scanStep_eq_clause {x : Char} {xs : List Char} {c : Clause}
    (h : scanStep d x xs = ⟨.clause c, d', rest⟩) : d = false ∧ d' = false ∧ c.Stands rest := by
  simp only [scanStep] at h
  split at h
  · cases h
  split at h
  · cases h
  split at h
  · cases h
  split at h
  · cases h
  split at h
  · exact stepWord_eq_clause h
  · cases h

theorem Clause.Stands.stepWord {c : Clause} (h : c.Stands rest) :
    stepWord false (c.text ++ rest) = ⟨.clause c, false, rest⟩ := by
  have hword : ∀ x ∈ Clause.keyword, isWordChar x := List.all_eq_true.1 (by decide)
  have hstop : ∀ x, (c.gap ++ c.quote.char :: (c.path ++ (c.ending.text c.quote ++ rest))).head? =
      some x → isWordChar x = false := by
    intro x hx
    cases hg : c.gap with
    | nil =>
      obtain rfl : c.quote.char = x := by simpa [hg] using hx
      cases c.quote <;> decide
    | cons y ys =>
      obtain rfl : y = x := by simpa [hg] using hx
      have := h.gap y (by rw [hg]; exact List.mem_cons_self)
      simp only [isGap, Bool.or_eq_true, beq_iff_eq] at this
      rcases this with rfl | rfl <;> decide
  rw [c.text_append, Relocate.stepWord]
  simp only [takeWhile_append_stop hword hstop, dropWhile_append_stop hword hstop, h.readClause?]
  simp

theorem takes_clause_iff {c : Clause} :
    Takes d (.clause c) d' rest ↔ d = false ∧ d' = false ∧ c.Stands rest := by
  constructor
  · rintro ⟨x, xs, -, hs⟩
    exact scanStep_eq_clause hs
  · rintro ⟨rfl, rfl, h⟩
    have hw := h.stepWord
    rw [c.text_append] at hw
    refine ⟨'f', _, c.text_append rest, ?_⟩
    rw [← hw]
    rfl

/-! ## Steps over plain text -/

theorem readClause?_eq_none_iff {t : List Char} :
    readClause? t = none ↔
      ∀ c, (t.dropWhile isGap).head? = some c → Quote.ofChar? c = none := by
  simp only [readClause?]
  cases t.dropWhile isGap with
  | nil => simp
  | cons c cs => simp

theorem readClause?_none_congr {s t : List Char} (h : Alike s t) (hs : readClause? s = none) :
    readClause? t = none := by
  rw [readClause?_eq_none_iff] at hs ⊢
  rwa [← h.afterGap]

theorem stepWord_plain_congr {t u : List Char} (h : stepWord d t = ⟨.plain u, d', rest⟩)
    (hr : Alike rest r) : stepWord d (u ++ r) = ⟨.plain u, d', r⟩ := by
  -- Whether the word is `from` or not, it is all that is read.
  have key : u = t.takeWhile isWordChar ∧ d' = false ∧ rest = t.dropWhile isWordChar ∧
      (u = Clause.keyword ∧ ¬ d → readClause? rest = none) := by
    simp only [stepWord] at h
    split at h
    · split at h
      · cases h
      · rename_i hn
        cases h
        exact ⟨rfl, rfl, rfl, fun _ => hn⟩
    · rename_i hw
      cases h
      exact ⟨rfl, rfl, rfl, fun hk => absurd hk hw⟩
  obtain ⟨rfl, rfl, rfl, hnone⟩ := key
  obtain ⟨htake, hdrop⟩ := span_alike (p := isWordChar) hr.head.symm
  simp only [stepWord, htake, hdrop]
  split
  · rename_i hw
    rw [readClause?_none_congr hr (hnone hw)]
  · rfl

theorem not_backslash_of_isQuote {c : Char} (h : isQuote c) : c ≠ '\\' := by
  rintro rfl
  exact absurd h (by decide)

/-- A step over plain text goes the same way before any alike text. -/
theorem Takes.congr {u : List Char} (h : Takes d (.plain u) d' rest) (hr : Alike rest r) :
    Takes d (.plain u) d' r := by
  obtain ⟨c, cs, ht, hs⟩ := h
  have hne : u ≠ [] := Takes.text_ne_nil ⟨c, cs, ht, hs⟩
  obtain ⟨us, rfl, rfl⟩ : ∃ us, u = c :: us ∧ cs = us ++ rest := by
    cases u with
    | nil => exact absurd rfl hne
    | cons x us =>
      simp only [Piece.text, List.cons_append, List.cons.injEq] at ht
      exact ⟨us, by rw [ht.1], ht.2.symm⟩
  have hhead : (us ++ r).head? = (us ++ rest).head? := head?_append_congr hr.head.symm
  refine ⟨c, us ++ r, rfl, ?_⟩
  simp only [scanStep, hhead] at hs ⊢
  -- The same branch is taken, and what it reads ends where it ended before.
  split at hs
  · rename_i hc
    rw [if_pos hc]
    simp only [ScanStep.mk.injEq, Piece.plain.injEq] at hs
    obtain ⟨hu, rfl, hd⟩ := hs
    have hspan := span_alike (p := (· != '\n')) (t := c :: (us ++ rest)) (r := r)
      (by rw [hd, hr.head])
    rw [hu, List.cons_append] at hspan
    rw [hspan.1, hspan.2]
  split at hs
  · rename_i h1 hc
    rw [if_neg h1, if_pos hc]
    simp only [ScanStep.mk.injEq, Piece.plain.injEq, List.cons.injEq, true_and] at hs
    obtain ⟨hu, rfl, hd⟩ := hs
    cases us with
    | nil => cases hu
    | cons x us =>
      simp only [List.cons_append, List.tail_cons, List.cons.injEq] at hu hd ⊢
      have hsplit := splitBlock_alike (us ++ rest) (r := r) (by rw [hd, hr.head])
      rw [hu.2] at hsplit
      rw [hsplit, hu.1]
  split at hs
  · rename_i h1 h2 hc
    rw [if_neg h1, if_neg h2, if_pos hc]
    simp only [ScanStep.mk.injEq, Piece.plain.injEq, List.cons.injEq, true_and] at hs
    obtain ⟨hu, rfl, hd⟩ := hs
    have hsplit := splitLiteral_alike (not_backslash_of_isQuote hc) (us ++ rest) (r := r)
      (by rw [hd, hr.head])
    rw [hu] at hsplit
    rw [hsplit]
  split at hs
  · rename_i h1 h2 h3 hc
    rw [if_neg h1, if_neg h2, if_neg h3, if_pos hc]
    simp only [ScanStep.mk.injEq, Piece.plain.injEq, List.cons.injEq, true_and] at hs
    obtain ⟨hu, rfl, hd⟩ := hs
    have hsplit := splitTemplate_alike (us ++ rest) (r := r) (by rw [hd, hr.head])
    rw [hu] at hsplit
    rw [hsplit]
  split at hs
  · rename_i h1 h2 h3 h4 h5
    rw [if_neg h1, if_neg h2, if_neg h3, if_neg h4, if_pos h5]
    exact stepWord_plain_congr hs hr
  · rename_i h1 h2 h3 h4 h5
    rw [if_neg h1, if_neg h2, if_neg h3, if_neg h4, if_neg h5]
    simp only [ScanStep.mk.injEq, Piece.plain.injEq, List.cons.injEq, true_and] at hs
    obtain ⟨rfl, rfl, -⟩ := hs
    rfl

/-- A step goes the same way before any alike text. -/
theorem Takes.alike (h : Takes d p d' rest) (hr : Alike rest r) : Takes d p d' r := by
  cases p with
  | plain w => exact h.congr hr
  | clause c =>
    obtain ⟨hd, hd', hc⟩ := takes_clause_iff.1 h
    exact takes_clause_iff.2 ⟨hd, hd', hc.congr hr.head.symm⟩

/-! ## Several steps -/

/-- From the state `d`, with `t` ahead, reading comes to the state `d'` with
`s` ahead. -/
inductive Reaches : Bool → List Char → Bool → List Char → Prop
  | refl (d : Bool) (t : List Char) : Reaches d t d t
  | take {d d₁ d' : Bool} {p : Piece} {rest s : List Char} :
    Takes d p d₁ rest → Reaches d₁ rest d' s → Reaches d (p.text ++ rest) d' s

/-- The state of reading and the text ahead, after at most `n` steps. -/
def readOn : Nat → Bool → List Char → Bool × List Char
  | 0, d, t => (d, t)
  | _ + 1, d, [] => (d, [])
  | n + 1, d, c :: cs => readOn n (scanStep d c cs).afterDot (scanStep d c cs).rest

theorem reaches_readOn (n : Nat) (d : Bool) (t : List Char) :
    Reaches d t (readOn n d t).1 (readOn n d t).2 := by
  fun_induction readOn n d t with
  | case1 d t => exact .refl d t
  | case2 n d => exact .refl d []
  | case3 n d c cs ih =>
    have := Reaches.take (takes_scanStep d c cs) ih
    rwa [scanStep_append] at this

theorem Reaches.suffix {t s : List Char} (h : Reaches d t d' s) : s <:+ t := by
  induction h with
  | refl d t => exact List.suffix_refl t
  | take _ _ ih => exact ih.trans (List.suffix_append _ _)

/-- What was read on the way comes first among the pieces. -/
theorem Reaches.scanFrom_eq {t s : List Char} (h : Reaches d t d' s) :
    ∃ ps, scanFrom d t = ps ++ scanFrom d' s := by
  induction h with
  | refl d t => exact ⟨[], rfl⟩
  | @take d d₁ d' p rest s hp _ ih =>
    obtain ⟨ps, hps⟩ := ih
    exact ⟨p :: ps, by rw [hp.scanFrom_eq, hps, List.cons_append]⟩

theorem Clause.quote_mem_text (c : Clause) : c.quote.char ∈ c.text := by
  simp [text, head, opening]

/-- Steps over a text without quotes read the same pieces, none of them a
clause, before any alike text. -/
theorem Reaches.congr {t s : List Char} (h : Reaches d t d' s) (hr : Alike s r) :
    ∀ u, t = u ++ s → u.any isQuote = false →
      ∃ ps, scanFrom d (u ++ r) = ps ++ scanFrom d' r ∧ ∀ p ∈ ps, ∃ v, p = .plain v := by
  induction h with
  | refl d t =>
    intro u hu _
    have hnil : u = [] := List.append_left_eq_self.1 hu.symm
    exact ⟨[], by rw [hnil]; rfl, by simp⟩
  | @take d d₁ d' p rest s hp hrest ih =>
    intro u hu hq
    obtain ⟨w, rfl⟩ := hrest.suffix
    obtain rfl : p.text ++ w = u := by
      rw [← List.append_assoc] at hu
      exact List.append_cancel_right hu
    rw [List.any_append, Bool.or_eq_false_iff] at hq
    obtain ⟨ps, hps, hplain⟩ := ih hr w rfl hq.2
    cases p with
    | clause c =>
      have := any_isQuote_of_mem c.quote_mem_text
      rw [Piece.text, this] at hq
      exact absurd hq.1 (by decide)
    | plain v =>
      refine ⟨.plain v :: ps, ?_, ?_⟩
      · rw [List.append_assoc, (hp.congr (hr.append w)).scanFrom_eq, hps, List.cons_append]
      · intro p hp
        rcases List.mem_cons.1 hp with rfl | hp
        · exact ⟨v, rfl⟩
        · exact hplain p hp

/-! ## Text that means nothing to reading -/

/-- The character neither opens a construct nor is a dot nor starts the word
`from`. -/
def isQuiet (c : Char) : Bool :=
  !isQuote c && c != '/' && c != backtick && c != '.' && c != 'f'

theorem isQuiet_of_isBlank {c : Char} (h : Text.isBlank c) : isQuiet c := by
  by_cases hq : isQuiet c
  · exact hq
  · simp only [isQuiet, isQuote, Bool.and_eq_true, bne_iff_ne, Bool.not_eq_true',
      Bool.or_eq_false_iff, beq_eq_false_iff_ne] at hq
    have hc : c = '"' ∨ c = '\'' ∨ c = '/' ∨ c = backtick ∨ c = '.' ∨ c = 'f' := by grind
    rcases hc with rfl | rfl | rfl | rfl | rfl | rfl <;> exact absurd h (by decide)

theorem any_isQuote_of_quiet {u : List Char} (h : ∀ x ∈ u, isQuiet x) : u.any isQuote = false := by
  rw [List.any_eq_false]
  intro x hx
  have := h x hx
  simp only [isQuiet, Bool.and_eq_true, Bool.not_eq_true'] at this
  simp [this.1.1.1.1]

theorem takes_quiet {c : Char} {u : List Char} (hu : ∀ x ∈ c :: u, isQuiet x)
    (hr : ∀ x, rest.head? = some x → isTerminator x) :
    ∃ w v, c :: u = w ++ v ∧ w ≠ [] ∧ Takes false (.plain w) false (v ++ rest) := by
  have hc := hu c List.mem_cons_self
  simp only [isQuiet, Bool.and_eq_true, bne_iff_ne, Bool.not_eq_true'] at hc
  obtain ⟨⟨⟨⟨hquote, hslash⟩, htick⟩, hdot⟩, -⟩ := hc
  have hstep : ∀ cs, scanStep false c cs =
      if isWordStart c then stepWord false (c :: cs) else ⟨.plain [c], false, cs⟩ := by
    intro cs
    have hlast : (c == '.') = false := by simpa using hdot
    simp [scanStep, hquote, hslash, htick, hlast]
  by_cases hw : isWordStart c
  · have hstop : ∀ x, rest.head? = some x → isWordChar x = false := by
      intro x hx
      have := hr x hx
      simp only [isTerminator, Bool.or_eq_true, beq_iff_eq] at this
      rcases this with (rfl | rfl) | rfl <;> decide
    have hspan := span_append_stop (t := c :: u) hstop
    refine ⟨(c :: u).takeWhile isWordChar, (c :: u).dropWhile isWordChar,
      List.takeWhile_append_dropWhile.symm, by simp [isWordChar, hw], c, u ++ rest, ?_, ?_⟩
    · rw [Piece.text, ← List.append_assoc, List.takeWhile_append_dropWhile]; rfl
    · have hne : (c :: u).takeWhile isWordChar ≠ Clause.keyword := by
        intro hk
        have hf : 'f' ∈ (c :: u).takeWhile isWordChar := by rw [hk]; decide
        exact absurd (hu 'f' ((List.takeWhile_sublist _).mem hf)) (by decide)
      rw [hstep, if_pos hw, stepWord, ← List.cons_append, hspan.1, hspan.2]
      simp only [hne, false_and, if_false]
  · exact ⟨[c], u, rfl, by simp, c, u ++ rest, rfl, by rw [hstep, if_neg hw]⟩

theorem reaches_quiet {u : List Char} (hu : ∀ x ∈ u, isQuiet x)
    (hr : ∀ x, rest.head? = some x → isTerminator x) : Reaches false (u ++ rest) false rest := by
  induction hn : u.length using Nat.strongRecOn generalizing u with
  | ind n ih =>
    cases u with
    | nil => exact .refl false rest
    | cons c u =>
      obtain ⟨w, v, huv, hw, ht⟩ := takes_quiet hu hr
      have hlen : v.length < n := by
        have := congrArg List.length huv
        have := List.length_pos_iff.2 hw
        simp only [List.length_append] at *
        omega
      rw [huv, List.append_assoc]
      exact .take ht (ih v.length hlen (fun x hx => hu x (by rw [huv]; simp [hx])) rfl)

end Relocate
