import Relocate.Clause.Basic
import Relocate.Text.Blank

/-!
# Finding the clauses of a text

`scan` reads a text from the left. Comments, string literals and templates
are passed over whole, so nothing inside them is taken for a clause; the word
`from` starts a clause when it does not follow a dot and a quote comes next
on its line, blanks apart.

Word and path characters include every character beyond ASCII. A backslash
in a string literal or a template takes the next character with it. A string
literal without a closing quote ends before the line feed, a template or a
block comment without an end reaches the end of the text.

* `render_scan`: the pieces of a text spell the text; nothing is lost.
-/
namespace Relocate

open Text (isBlank)

/-! ## Character classes -/

def isBeyondAscii (c : Char) : Bool := 0x80 ≤ c.toNat

def isWordStart (c : Char) : Bool :=
  c.isAlpha || c == '_' || c == '$' || isBeyondAscii c

def isWordChar (c : Char) : Bool := isWordStart c || c.isDigit

def isPathChar (c : Char) : Bool :=
  c.isAlphanum || ['_', '-', '.', '/', '@', '$', '~', '+', '#'].contains c || isBeyondAscii c

/-- A space or a tab: what may stand between the keyword and the quote. -/
def isGap (c : Char) : Bool := c == ' ' || c == '\t'

/-- The end of a statement, as far as clauses go. -/
def isTerminator (c : Char) : Bool := c == ';' || c == '\n' || c == '\r'

def isQuote (c : Char) : Bool := c == '"' || c == '\''

/-- The blanks that leave open which character came last. -/
def isAsciiBlank (c : Char) : Bool :=
  c == ' ' || c == '\t' || c == '\n' || c == '\x0c' || c == '\r'

def backtick : Char := '\x60'

/-! ## What is passed over

Each function splits the text after an opening mark in two: what belongs to
the construct, its closing mark included, and what follows. -/

/-- The rest of a string literal opened by `q`. -/
def splitLiteral (q : Char) : List Char → List Char × List Char
  | [] => ([], [])
  | '\\' :: c :: cs => (splitLiteral q cs).map ('\\' :: c :: ·) id
  | c :: cs =>
    if c = '\n' then ([], c :: cs)
    else if c = q then ([c], cs)
    else (splitLiteral q cs).map (c :: ·) id

/-- The rest of a template. -/
def splitTemplate : List Char → List Char × List Char
  | [] => ([], [])
  | '\\' :: c :: cs => (splitTemplate cs).map ('\\' :: c :: ·) id
  | c :: cs =>
    if c = backtick then ([c], cs)
    else (splitTemplate cs).map (c :: ·) id

/-- The rest of a block comment. -/
def splitBlock : List Char → List Char × List Char
  | [] => ([], [])
  | '*' :: '/' :: cs => (['*', '/'], cs)
  | c :: cs => (splitBlock cs).map (c :: ·) id

theorem splitLiteral_append (q : Char) (t : List Char) :
    (splitLiteral q t).1 ++ (splitLiteral q t).2 = t := by
  fun_induction splitLiteral q t <;> simp_all

theorem splitTemplate_append (t : List Char) :
    (splitTemplate t).1 ++ (splitTemplate t).2 = t := by
  fun_induction splitTemplate t <;> simp_all

theorem splitBlock_append (t : List Char) : (splitBlock t).1 ++ (splitBlock t).2 = t := by
  fun_induction splitBlock t <;> simp_all

/-! ## Reading a clause -/

/-- The rest of the statement: everything before its terminator. -/
def statementRest (t : List Char) : List Char := t.takeWhile fun c => !isTerminator c

def afterStatement (t : List Char) : List Char := t.dropWhile fun c => !isTerminator c

/-- The text before the first `c`. -/
def before (c : Char) (t : List Char) : List Char := t.takeWhile (· != c)

/-- The text after the first `c`. -/
def after (c : Char) (t : List Char) : List Char := (t.dropWhile (· != c)).tail

theorem before_append_after {c : Char} {t : List Char} (h : c ∈ t) :
    before c t ++ c :: after c t = t := by
  induction t with
  | nil => cases h
  | cons d t ih =>
    by_cases hd : d = c
    · subst hd; simp [before, after]
    · have : c ∈ t := by
        rcases List.mem_cons.1 h with rfl | h
        · exact absurd rfl hd
        · exact h
      have := ih this
      simpa [before, after, hd] using this

/-- How the literal opened by `q` ends when `t` follows its path, and the text
after it. -/
def readEnding (q : Quote) (t : List Char) : Ending × List Char :=
  let rest := statementRest t
  if t.head? = some q.char then (.matched, t.tail)
  else if !rest.any isQuote then (.missing rest, afterStatement t)
  else if q.char ∈ rest then (.irregular (before q.char t), after q.char t)
  else if (before q.opposite.char rest).all isBlank && (after q.opposite.char rest).all isBlank then
    (.mismatched (before q.opposite.char rest) (after q.opposite.char rest), afterStatement t)
  else (.ambiguous rest, afterStatement t)

theorem statementRest_append (t : List Char) : statementRest t ++ afterStatement t = t :=
  List.takeWhile_append_dropWhile

theorem opposite_mem_of_isQuote {q : Quote} {t : List Char} (h : t.any isQuote)
    (hq : q.char ∉ t) : q.opposite.char ∈ t := by
  obtain ⟨c, hc, hcq⟩ := List.any_eq_true.1 h
  simp only [isQuote, Bool.or_eq_true, beq_iff_eq] at hcq
  cases q <;> rcases hcq with rfl | rfl <;> simp_all [Quote.char, Quote.opposite]

theorem readEnding_append (q : Quote) (t : List Char) :
    (readEnding q t).1.text q ++ (readEnding q t).2 = t := by
  simp only [readEnding]
  split
  · rename_i h
    cases t with
    | nil => simp at h
    | cons c t => simp at h; simp [Ending.text, h]
  split
  · simp [Ending.text, statementRest_append]
  split
  · rename_i h
    have : q.char ∈ t := (List.takeWhile_sublist _).mem h
    simp [Ending.text, before_append_after this]
  rename_i hany hq
  have hopp : q.opposite.char ∈ statementRest t :=
    opposite_mem_of_isQuote (by simpa using hany) hq
  split
  · show (before _ _ ++ _ :: after _ _) ++ _ = _
    rw [before_append_after hopp, statementRest_append]
  · simp [Ending.text, statementRest_append]

/-- The clause whose keyword stands right before `t`, and the text after it. -/
def readClause? (t : List Char) : Option (Clause × List Char) :=
  match t.dropWhile isGap with
  | [] => none
  | c :: cs =>
    (Quote.ofChar? c).map fun q =>
      let ending := readEnding q (cs.dropWhile isPathChar)
      (⟨t.takeWhile isGap, q, cs.takeWhile isPathChar, ending.1⟩, ending.2)

theorem readClause?_append {t : List Char} {c : Clause} {rest : List Char}
    (h : readClause? t = some (c, rest)) : c.text ++ rest = Clause.keyword ++ t := by
  simp only [readClause?] at h
  split at h
  · cases h
  · rename_i d cs hd
    obtain ⟨q, hq, he⟩ := Option.map_eq_some_iff.1 h
    cases he
    have hqd : q.char = d := (Quote.ofChar?_eq_some_iff.1 hq).symm
    have hgap : t.takeWhile isGap ++ d :: cs = t := by
      rw [← hd]; exact List.takeWhile_append_dropWhile
    simp only [Clause.text, Clause.head, Clause.opening, List.append_assoc,
      List.cons_append, List.nil_append, readEnding_append,
      List.takeWhile_append_dropWhile, hqd, hgap]

/-! ## Scanning -/

/-- One reading step: the piece read, whether a dot came last, and the text
that follows. -/
structure ScanStep where
  piece : Piece
  afterDot : Bool
  rest : List Char

/-- A step over a word. Only the whole word `from`, not after a dot, may start
a clause. -/
def stepWord (afterDot : Bool) (t : List Char) : ScanStep :=
  let word := t.takeWhile isWordChar
  let rest := t.dropWhile isWordChar
  if word = Clause.keyword ∧ ¬ afterDot then
    match readClause? rest with
    | some (c, rest) => ⟨.clause c, false, rest⟩
    | none => ⟨.plain word, false, rest⟩
  else ⟨.plain word, false, rest⟩

/-- The step that starts at the character `c`, with `cs` after it. -/
def scanStep (afterDot : Bool) (c : Char) (cs : List Char) : ScanStep :=
  if c = '/' ∧ cs.head? = some '/' then
    ⟨.plain ((c :: cs).takeWhile (· != '\n')), afterDot, (c :: cs).dropWhile (· != '\n')⟩
  else if c = '/' ∧ cs.head? = some '*' then
    let comment := splitBlock cs.tail
    ⟨.plain (c :: '*' :: comment.1), afterDot, comment.2⟩
  else if isQuote c then
    let literal := splitLiteral c cs
    ⟨.plain (c :: literal.1), false, literal.2⟩
  else if c = backtick then
    let template := splitTemplate cs
    ⟨.plain (c :: template.1), false, template.2⟩
  else if isWordStart c then stepWord afterDot (c :: cs)
  else ⟨.plain [c], if isAsciiBlank c then afterDot else c == '.', cs⟩

theorem stepWord_append (afterDot : Bool) (t : List Char) :
    (stepWord afterDot t).piece.text ++ (stepWord afterDot t).rest = t := by
  simp only [stepWord]
  split
  · rename_i h
    split
    · rename_i c rest hc
      simp only [Piece.text]
      rw [readClause?_append hc, ← h.1, List.takeWhile_append_dropWhile]
    · simp [Piece.text]
  · simp [Piece.text]

theorem scanStep_append (afterDot : Bool) (c : Char) (cs : List Char) :
    (scanStep afterDot c cs).piece.text ++ (scanStep afterDot c cs).rest = c :: cs := by
  simp only [scanStep]
  split
  · simp only [Piece.text, List.takeWhile_append_dropWhile]
  split
  · rename_i h
    cases cs with
    | nil => simp at h
    | cons d cs => simp at h; simp [Piece.text, splitBlock_append, h]
  split
  · simp [Piece.text, splitLiteral_append]
  split
  · simp [Piece.text, splitTemplate_append]
  split
  · exact stepWord_append _ _
  · simp [Piece.text]

theorem stepWord_text_ne_nil (afterDot : Bool) {c : Char} (cs : List Char) (h : isWordStart c) :
    (stepWord afterDot (c :: cs)).piece.text ≠ [] := by
  have hw : (c :: cs).takeWhile isWordChar ≠ [] := by simp [isWordChar, h]
  simp only [stepWord]
  split
  · split
    · exact Clause.text_ne_nil _
    · exact hw
  · exact hw

theorem scanStep_text_ne_nil (afterDot : Bool) (c : Char) (cs : List Char) :
    (scanStep afterDot c cs).piece.text ≠ [] := by
  simp only [scanStep]
  split
  · rename_i h; simp [Piece.text, h.1]
  split
  · simp [Piece.text]
  split
  · simp [Piece.text]
  split
  · simp [Piece.text]
  split
  · rename_i h; exact stepWord_text_ne_nil _ _ h
  · simp [Piece.text]

theorem scanStep_rest_length (afterDot : Bool) (c : Char) (cs : List Char) :
    (scanStep afterDot c cs).rest.length < (c :: cs).length := by
  have h := congrArg List.length (scanStep_append afterDot c cs)
  have := List.length_pos_iff.2 (scanStep_text_ne_nil afterDot c cs)
  rw [List.length_append] at h
  omega

/-- The pieces of a text; `afterDot` says whether a dot came last before it. -/
def scanFrom (afterDot : Bool) : List Char → List Piece
  | [] => []
  | c :: cs =>
    let step := scanStep afterDot c cs
    step.piece :: scanFrom step.afterDot step.rest
termination_by t => t.length
decreasing_by exact scanStep_rest_length afterDot c cs

/-- The pieces of a text. -/
def scan (t : List Char) : List Piece := scanFrom false t

theorem render_scanFrom (afterDot : Bool) (t : List Char) :
    Piece.render (scanFrom afterDot t) = t := by
  fun_induction scanFrom afterDot t with
  | case1 => rfl
  | case2 afterDot c cs step ih =>
    rw [Piece.render_cons, ih]
    exact scanStep_append afterDot c cs

/-- The pieces of a text spell the text. -/
theorem render_scan (t : List Char) : Piece.render (scan t) = t := render_scanFrom false t

end Relocate
