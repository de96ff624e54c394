import Relocate.Clause.Scan

/-!
# How far reading looks ahead

What is read at a place depends on the text that follows, but only on little
of it: its first character, and for the word `from` the first character after
a gap. Two texts that agree in this are `Alike`, and one may stand for the
other behind anything that was read.

* `splitLiteral_alike`, `splitTemplate_alike`, `splitBlock_alike`: a construct
  is passed over in the same way whatever alike text follows it.
* `readEnding_alike`: so is the end of a literal found.
* `readClause?_eq_some_iff`: a clause is read exactly where its own text
  stands and nothing behind it says otherwise (`Clause.Stands`).
-/
namespace Relocate

open Text (isBlank)

/-- Texts that reading cannot tell apart from what lies before them. -/
structure Alike (s t : List Char) : Prop where
  head : s.head? = t.head?
  afterGap : (s.dropWhile isGap).head? = (t.dropWhile isGap).head?

theorem Alike.refl (s : List Char) : Alike s s := ⟨rfl, rfl⟩

theorem Alike.append (u : List Char) {s t : List Char} (h : Alike s t) :
    Alike (u ++ s) (u ++ t) := by
  induction u with
  | nil => exact h
  | cons c u ih =>
    refine ⟨rfl, ?_⟩
    by_cases hc : isGap c
    · simpa [hc] using ih.afterGap
    · simp [hc]

theorem head?_append_congr {u s t : List Char} (h : s.head? = t.head?) :
    (u ++ s).head? = (u ++ t).head? := by
  cases u with
  | nil => exact h
  | cons c u => rfl

@[elab_as_elim]
theorem of_isGap {P : Char → Prop} {x : Char} (h : isGap x) (space : P ' ') (tab : P '\t') :
    P x := by
  rcases (by simpa [isGap] using h : x = ' ' ∨ x = '\t') with rfl | rfl
  · exact space
  · exact tab

@[elab_as_elim]
theorem of_isTerminator {P : Char → Prop} {x : Char} (h : isTerminator x) (semicolon : P ';')
    (feed : P '\n') (carriage : P '\r') : P x := by
  rcases (by simpa [isTerminator, or_assoc] using h : x = ';' ∨ x = '\n' ∨ x = '\r') with
    rfl | rfl | rfl
  · exact semicolon
  · exact feed
  · exact carriage

/-! ## Stretches of one kind -/

section
variable {p : Char → Bool} {w r t : List Char} {c : Char}

theorem takeWhile_append_stop (hw : ∀ c ∈ w, p c) (hr : ∀ c, r.head? = some c → p c = false) :
    (w ++ r).takeWhile p = w := by
  rw [List.takeWhile_append_of_pos hw]
  cases r with
  | nil => simp
  | cons c r => simp [hr c rfl]

theorem dropWhile_append_stop (hw : ∀ c ∈ w, p c) (hr : ∀ c, r.head? = some c → p c = false) :
    (w ++ r).dropWhile p = r := by
  rw [List.dropWhile_append_of_pos hw]
  cases r with
  | nil => simp
  | cons c r => simp [hr c rfl]

theorem span_append_stop (hr : ∀ c, r.head? = some c → p c = false) :
    (t ++ r).takeWhile p = t.takeWhile p ∧ (t ++ r).dropWhile p = t.dropWhile p ++ r := by
  induction t with
  | nil => exact ⟨takeWhile_append_stop (by simp) hr, dropWhile_append_stop (by simp) hr⟩
  | cons c t ih =>
    by_cases hc : p c
    · simp [hc, ih]
    · simp [hc]

theorem of_mem_takeWhile (h : c ∈ t.takeWhile p) : p c :=
  List.all_eq_true.1 List.all_takeWhile c h

theorem of_head?_dropWhile (h : (t.dropWhile p).head? = some c) : p c = false := by
  have := List.head?_dropWhile_not p t
  rwa [h] at this

/-- The first stretch of `p`s is found again before a text that starts as the
text behind it did. -/
theorem span_alike (h : r.head? = (t.dropWhile p).head?) :
    (t.takeWhile p ++ r).takeWhile p = t.takeWhile p ∧ (t.takeWhile p ++ r).dropWhile p = r := by
  have hw : ∀ c ∈ t.takeWhile p, p c := fun _ => of_mem_takeWhile
  have hr : ∀ c, r.head? = some c → p c = false := fun c hc => of_head?_dropWhile (h ▸ hc)
  exact ⟨takeWhile_append_stop hw hr, dropWhile_append_stop hw hr⟩

end

/-! ## What is passed over -/

/-- A backslash that had nothing behind it to take along has nothing now. -/
theorem lone_backslash_alike (f : List Char → List Char × List Char) (hf : f [] = ([], []))
    {c : Char} {cs r : List Char} (hb : ∀ d ds, c = '\\' → cs = d :: ds → False)
    (h : r.head? = (f cs).2.head?) : ∀ d ds, c = '\\' → (f cs).1 ++ r = d :: ds → False := by
  intro d ds hc hd
  cases cs with
  | cons e cs => exact hb e cs hc rfl
  | nil =>
    rw [hf] at h hd
    cases r with
    | nil => simp at hd
    | cons e r => simp at h

theorem splitLiteral_alike {q : Char} (hq : q ≠ '\\') (t : List Char) {r : List Char}
    (h : r.head? = (splitLiteral q t).2.head?) :
    splitLiteral q ((splitLiteral q t).1 ++ r) = ((splitLiteral q t).1, r) := by
  fun_induction splitLiteral q t with
  | case1 =>
    cases r with
    | nil => rfl
    | cons c r => simp at h
  | case2 c cs ih => simp [splitLiteral, ih h]
  | case3 cs =>
    cases r with
    | nil => simp at h
    | cons c r =>
      obtain rfl : c = '\n' := by simpa using h
      simp [splitLiteral]
  | case4 cs _ hn =>
    rw [List.singleton_append, splitLiteral.eq_3 _ _ _ fun _ _ hc _ => hq hc, if_neg hn, if_pos rfl]
  | case5 c cs hb hn hc ih =>
    simp only [Prod.map, id_eq, List.cons_append] at h ⊢
    rw [splitLiteral.eq_3 _ _ _ (lone_backslash_alike (splitLiteral q) rfl hb h), if_neg hn,
      if_neg hc, ih h]
    rfl

theorem splitTemplate_alike (t : List Char) {r : List Char}
    (h : r.head? = (splitTemplate t).2.head?) :
    splitTemplate ((splitTemplate t).1 ++ r) = ((splitTemplate t).1, r) := by
  fun_induction splitTemplate t with
  | case1 =>
    cases r with
    | nil => rfl
    | cons c r => simp at h
  | case2 c cs ih => simp [splitTemplate, ih h]
  | case3 cs =>
    rw [List.singleton_append, splitTemplate.eq_3 _ _ fun _ _ hc _ => absurd hc (by decide),
      if_pos rfl]
  | case4 c cs hb hc ih =>
    simp only [Prod.map, id_eq, List.cons_append] at h ⊢
    rw [splitTemplate.eq_3 _ _ (lone_backslash_alike splitTemplate rfl hb h), if_neg hc, ih h]
    rfl

theorem splitBlock_alike (t : List Char) {r : List Char} (h : r.head? = (splitBlock t).2.head?) :
    splitBlock ((splitBlock t).1 ++ r) = ((splitBlock t).1, r) := by
  fun_induction splitBlock t with
  | case1 =>
    cases r with
    | nil => rfl
    | cons c r => simp at h
  | case2 cs => simp [splitBlock]
  | case3 c cs hb ih =>
    simp only [Prod.map, id_eq, List.cons_append] at h ⊢
    have hhead : ((splitBlock cs).1 ++ r).head? = cs.head? := by
      rw [head?_append_congr h, splitBlock_append]
    have hrest : ∀ ds, c = '*' → (splitBlock cs).1 ++ r = '/' :: ds → False := by
      intro ds hc hd
      rw [hd, List.head?_cons] at hhead
      cases cs with
      | nil => simp at hhead
      | cons e cs =>
        obtain rfl : '/' = e := by simpa using hhead
        exact hb cs hc rfl
    rw [splitBlock.eq_3 _ _ hrest, ih h]
    rfl

/-! ## The end of a literal -/

section
variable {q : Quote} {t : List Char}

theorem any_isQuote_of_mem (h : q.char ∈ t) : t.any isQuote = true :=
  List.any_eq_true.2 ⟨q.char, h, by cases q <;> decide⟩

/-- The other quote, somewhere in `rest`, has only blanks around it. -/
def isStray (q : Quote) (rest : List Char) : Bool :=
  (before q.opposite.char rest).all isBlank && (after q.opposite.char rest).all isBlank

theorem readEnding_matched (h : t.head? = some q.char) : readEnding q t = (.matched, t.tail) := by
  simp [readEnding, h]

theorem readEnding_irregular (h : t.head? ≠ some q.char) (hq : q.char ∈ statementRest t) :
    readEnding q t = (.irregular (before q.char t), after q.char t) := by
  simp only [readEnding]
  rw [if_neg h, if_neg (by simp [any_isQuote_of_mem hq]), if_pos hq]

theorem readEnding_missing (h : t.head? ≠ some q.char)
    (ha : (statementRest t).any isQuote = false) :
    readEnding q t = (.missing (statementRest t), afterStatement t) := by
  simp only [readEnding]
  rw [if_neg h, if_pos (by simpa using ha)]

theorem readEnding_mismatched (h : t.head? ≠ some q.char)
    (ha : (statementRest t).any isQuote = true) (hq : q.char ∉ statementRest t)
    (hs : isStray q (statementRest t) = true) :
    readEnding q t = (.mismatched (before q.opposite.char (statementRest t))
      (after q.opposite.char (statementRest t)), afterStatement t) := by
  simp only [readEnding]
  rw [if_neg h, if_neg (by simp [ha]), if_neg hq]
  exact if_pos hs

theorem readEnding_ambiguous (h : t.head? ≠ some q.char)
    (ha : (statementRest t).any isQuote = true) (hq : q.char ∉ statementRest t)
    (hs : isStray q (statementRest t) = false) :
    readEnding q t = (.ambiguous (statementRest t), afterStatement t) := by
  simp only [readEnding]
  rw [if_neg h, if_neg (by simp [ha]), if_neg hq]
  exact if_neg (show ¬ isStray q (statementRest t) = true by simp [hs])

/-- The five ways in which a literal can end, with what each says of the text
behind the path. -/
@[elab_as_elim]
theorem readEnding_cases {motive : Ending × List Char → Prop} (q : Quote) (t : List Char)
    (matched : t.head? = some q.char → motive (.matched, t.tail))
    (irregular : t.head? ≠ some q.char → q.char ∈ statementRest t →
      motive (.irregular (before q.char t), after q.char t))
    (missing : t.head? ≠ some q.char → (statementRest t).any isQuote = false →
      motive (.missing (statementRest t), afterStatement t))
    (mismatched : t.head? ≠ some q.char → (statementRest t).any isQuote = true →
      q.char ∉ statementRest t → isStray q (statementRest t) = true →
      motive (.mismatched (before q.opposite.char (statementRest t))
        (after q.opposite.char (statementRest t)), afterStatement t))
    (ambiguous : t.head? ≠ some q.char → (statementRest t).any isQuote = true →
      q.char ∉ statementRest t → isStray q (statementRest t) = false →
      motive (.ambiguous (statementRest t), afterStatement t)) :
    motive (readEnding q t) := by
  by_cases hm : t.head? = some q.char
  · rw [readEnding_matched hm]; exact matched hm
  by_cases hq : q.char ∈ statementRest t
  · rw [readEnding_irregular hm hq]; exact irregular hm hq
  cases ha : (statementRest t).any isQuote with
  | false => rw [readEnding_missing hm ha]; exact missing hm ha
  | true =>
    cases hs : isStray q (statementRest t) with
    | false => rw [readEnding_ambiguous hm ha hq hs]; exact ambiguous hm ha hq hs
    | true => rw [readEnding_mismatched hm ha hq hs]; exact mismatched hm ha hq hs

/-- A statement goes up to the first terminator. -/
theorem statementRest_append_stop {u r : List Char} (hu : ∀ x ∈ u, isTerminator x = false)
    (hr : ∀ x, r.head? = some x → isTerminator x) :
    statementRest (u ++ r) = u ∧ afterStatement (u ++ r) = r := by
  have hopen : ∀ x ∈ u, (!isTerminator x) = true := fun x hx => by rw [hu x hx]; rfl
  have hstop : ∀ x, r.head? = some x → (!isTerminator x) = false := fun x hx => by
    rw [hr x hx]; rfl
  exact ⟨takeWhile_append_stop hopen hstop, dropWhile_append_stop hopen hstop⟩

theorem isTerminator_of_head? {c : Char} (h : (afterStatement t).head? = some c) :
    isTerminator c := by
  have := of_head?_dropWhile h
  simpa using this

theorem statementRest_alike {r : List Char} (h : r.head? = (afterStatement t).head?) :
    statementRest (statementRest t ++ r) = statementRest t ∧
      afterStatement (statementRest t ++ r) = r ∧ (statementRest t ++ r).head? = t.head? := by
  obtain ⟨ht, hd⟩ := span_alike h
  exact ⟨ht, hd, by rw [head?_append_congr h, statementRest_append]⟩

/-- What holds up to some `c` holds of everything before the first `c`. -/
theorem of_mem_before {p : Char → Bool} {c d : Char} (hc : c ∈ t.takeWhile p)
    (hd : d ∈ before c t) : p d := by
  induction t with
  | nil => cases hc
  | cons e t ih =>
    by_cases he : e = c
    · simp [before, he] at hd
    · have hp : p e := by
        by_cases hp : p e
        · exact hp
        · simp [hp] at hc
      simp only [before, bne_iff_ne, ne_eq, he, not_false_eq_true, List.takeWhile_cons_of_pos,
        List.mem_cons, hp] at hc hd
      rcases hd with rfl | hd
      · exact hp
      · exact ih (hc.resolve_left fun h => he h.symm) hd

/-- An irregular literal ends with its quote, whatever follows. -/
theorem readEnding_irregular_append (h : t.head? ≠ some q.char) (hq : q.char ∈ statementRest t)
    (r : List Char) :
    readEnding q (before q.char t ++ q.char :: r) = (.irregular (before q.char t), r) := by
  have hmem : q.char ∈ t := (List.takeWhile_sublist _).mem hq
  have hno : ∀ c ∈ before q.char t, (c != q.char) = true := fun _ => of_mem_takeWhile
  -- The quote comes before the terminator, so no terminator stands before the quote.
  have hopen : ∀ c ∈ before q.char t, (!isTerminator c) = true := fun _ => of_mem_before hq
  have hhead : (before q.char t ++ q.char :: r).head? ≠ some q.char := by
    rw [← before_append_after hmem] at h
    rwa [head?_append_congr (s := q.char :: r) (t := q.char :: after q.char t) rfl]
  have hrest : q.char ∈ statementRest (before q.char t ++ q.char :: r) := by
    rw [statementRest, List.takeWhile_append_of_pos hopen]
    cases q <;> simp [Quote.char, isTerminator]
  rw [readEnding_irregular hhead hrest]
  simp only [before, after] at hno ⊢
  rw [List.takeWhile_append_of_pos hno, List.dropWhile_append_of_pos hno]
  simp

/-- The end of a literal is found again before any text that starts as the
text behind it did. -/
theorem readEnding_alike (q : Quote) (t : List Char) {r : List Char} :
    r.head? = (readEnding q t).2.head? →
      readEnding q ((readEnding q t).1.text q ++ r) = ((readEnding q t).1, r) := by
  refine readEnding_cases q t ?_ ?_ ?_ ?_ ?_
  · intro _ _
    exact readEnding_matched rfl
  · intro hm hq _
    simpa [Ending.text] using readEnding_irregular_append hm hq r
  · intro hm ha h
    obtain ⟨h1, h2, h3⟩ := statementRest_alike h
    have := readEnding_missing (q := q) (t := statementRest t ++ r) (by rwa [h3]) (by rwa [h1])
    rwa [h1, h2] at this
  · intro hm ha hq hs h
    obtain ⟨h1, h2, h3⟩ := statementRest_alike h
    have := readEnding_mismatched (t := statementRest t ++ r) (by rwa [h3]) (by rwa [h1])
      (by rwa [h1]) (by rwa [h1])
    rw [h1, h2] at this
    rwa [Ending.text, before_append_after (opposite_mem_of_isQuote ha hq)]
  · intro hm ha hq hs h
    obtain ⟨h1, h2, h3⟩ := statementRest_alike h
    have := readEnding_ambiguous (t := statementRest t ++ r) (by rwa [h3]) (by rwa [h1])
      (by rwa [h1]) (by rwa [h1])
    rwa [h1, h2] at this

/-- A missing quote is missed in the whole rest of the statement. -/
theorem readEnding_eq_missing {w r : List Char} :
    readEnding q t = (.missing w, r) →
      w.any isQuote = false ∧ w = statementRest t ∧ r = afterStatement t := by
  refine readEnding_cases q t ?_ ?_ ?_ ?_ ?_
  · intro _ h; cases h
  · intro _ _ h; cases h
  · intro _ ha h; cases h; exact ⟨ha, rfl, rfl⟩
  · intro _ _ _ _ h; cases h
  · intro _ _ _ _ h; cases h

/-- A wrong quote is, blanks apart, the whole rest of the statement. -/
theorem readEnding_eq_mismatched {b a r : List Char} :
    readEnding q t = (.mismatched b a, r) →
      (b ++ a).all isBlank ∧ b ++ q.opposite.char :: a = statementRest t ∧
        r = afterStatement t := by
  refine readEnding_cases q t ?_ ?_ ?_ ?_ ?_
  · intro _ h; cases h
  · intro _ _ h; cases h
  · intro _ _ h; cases h
  · intro _ ha hq hs h
    cases h
    exact ⟨by rw [List.all_append]; exact hs,
      before_append_after (opposite_mem_of_isQuote ha hq), rfl⟩
  · intro _ _ _ _ h; cases h

end

/-! ## A whole clause -/

/-- The clause stands before `rest`: its parts are of their kinds, its path
goes no further, and its literal ends as the clause says. -/
structure Clause.Stands (c : Clause) (rest : List Char) : Prop where
  gap : ∀ x ∈ c.gap, isGap x
  path : ∀ x ∈ c.path, isPathChar x
  stop : ∀ x, (c.ending.text c.quote ++ rest).head? = some x → isPathChar x = false
  ending : readEnding c.quote (c.ending.text c.quote ++ rest) = (c.ending, rest)

theorem Clause.text_append (c : Clause) (rest : List Char) :
    c.text ++ rest = Clause.keyword ++
      (c.gap ++ c.quote.char :: (c.path ++ (c.ending.text c.quote ++ rest))) := by
  simp [text, head, opening]

theorem Quote.not_isGap (q : Quote) : isGap q.char = false := by cases q <;> decide

theorem Quote.not_isPathChar (q : Quote) : isPathChar q.char = false := by cases q <;> decide

theorem Clause.Stands.readClause? {c : Clause} {rest : List Char} (h : c.Stands rest) :
    readClause? (c.gap ++ c.quote.char :: (c.path ++ (c.ending.text c.quote ++ rest))) =
      some (c, rest) := by
  have hgap : ∀ x, (c.quote.char :: (c.path ++ (c.ending.text c.quote ++ rest))).head? = some x →
      isGap x = false := by
    intro x hx
    simp only [List.head?_cons, Option.some.injEq] at hx
    rw [← hx, c.quote.not_isGap]
  unfold Relocate.readClause?
  rw [dropWhile_append_stop h.gap hgap, takeWhile_append_stop h.gap hgap]
  simp only [Quote.ofChar?_char, Option.map_some, dropWhile_append_stop h.path h.stop,
    takeWhile_append_stop h.path h.stop, h.ending]

theorem readClause?_eq_some_iff {t : List Char} {c : Clause} {rest : List Char} :
    readClause? t = some (c, rest) ↔ c.Stands rest ∧ c.text ++ rest = Clause.keyword ++ t := by
  constructor
  · intro h
    have happ := readClause?_append h
    refine ⟨?_, happ⟩
    simp only [readClause?] at h
    split at h
    · cases h
    · rename_i d cs hd
      obtain ⟨q, hq, he⟩ := Option.map_eq_some_iff.1 h
      cases he
      have hback := readEnding_append q (cs.dropWhile isPathChar)
      refine ⟨fun _ => of_mem_takeWhile, fun _ => of_mem_takeWhile, ?_, ?_⟩
      · intro x hx
        rw [hback] at hx
        exact of_head?_dropWhile hx
      · exact readEnding_alike q _ rfl
  · rintro ⟨hs, ht⟩
    rw [c.text_append, List.append_cancel_left_eq] at ht
    rw [← ht]
    exact hs.readClause?

namespace Clause.Stands

variable {c : Clause} {rest r : List Char}

/-- Only one clause can be read at a place. -/
theorem unique {c' : Clause} (h : c.Stands rest) (h' : c'.Stands r)
    (ht : c.text ++ rest = c'.text ++ r) : c = c' := by
  have hc := readClause?_eq_some_iff.2 ⟨h, c.text_append rest⟩
  have hc' := readClause?_eq_some_iff.2 ⟨h', ht.symm.trans (c.text_append rest)⟩
  rw [hc] at hc'
  simpa using congrArg (Option.map Prod.fst) hc'

/-- A clause also stands before a text that starts in the same way. -/
theorem congr (h : c.Stands rest) (hr : r.head? = rest.head?) : c.Stands r := by
  have hhead : (c.ending.text c.quote ++ r).head? = (c.ending.text c.quote ++ rest).head? :=
    head?_append_congr hr
  refine ⟨h.gap, h.path, fun x hx => h.stop x (hhead ▸ hx), ?_⟩
  have hend := readEnding_alike c.quote (c.ending.text c.quote ++ rest) (r := r)
  rw [h.ending] at hend
  exact hend hr

/-- With its own quote put right behind a path, a clause stands before
anything. -/
theorem closed (h : c.Stands rest) {path : List Char} (hp : ∀ x ∈ path, isPathChar x) :
    Clause.Stands { c with path := path, ending := .matched } r := by
  refine ⟨h.gap, hp, ?_, readEnding_matched rfl⟩
  intro x hx
  obtain rfl : c.quote.char = x := by simpa [Ending.text] using hx
  exact c.quote.not_isPathChar

end Clause.Stands

end Relocate
