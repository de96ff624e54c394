import Relocate.Proofs.Bytes.Splice

/-!
# What a token says

A token gives the offsets of a clause and says how its literal closes. Here
both are put in terms of the text alone. The text around the token is the
keyword, a gap, the quote and the longest run of path characters; and what
stands between the path and the first terminator settles the closing, by five
conditions of which exactly one holds.

* `Closes`: the five conditions, and where the clause ends in each case.
* `closes_readEnding`: reading the end of a literal goes by them.
* `tokens_describe`: every token of a text says what is there.
-/
namespace Relocate.Bytes

open Text

/-! ## Definitions -/

/-- The clauses of a text, by offsets. -/
def tokens (text : String) : List Token := (sites text.toList).map tokenOf

/-- Behind `blanks` comes the quote that `q` is not, and the rest is blank too. -/
def IsStrayBehind (q : Quote) (blanks rest : List Char) : Prop :=
  ∃ more, rest = blanks ++ q.opposite.char :: more ∧ ∀ x ∈ blanks ++ more, isBlank x

/-- How the literal opened by `q` closes and where its clause ends, if its path ends at `stop`
and `rest` stands from there to the end of the statement. -/
structure Closes (q : Quote) (stop : Nat) (rest : List Char) (closing : Closing) (finish : Nat) :
    Prop where
  matched : closing = .matched ↔ rest.head? = some q.char
  missing : closing = .missing ↔ ∀ x ∈ rest, isQuote x = false
  irregular : closing = .irregular ↔ rest.head? ≠ some q.char ∧ q.char ∈ rest
  mismatched : ∀ stray, closing = .mismatched stray ↔
    ∃ blanks, IsStrayBehind q blanks rest ∧ stray = stop + byteLength blanks
  /-- None of the other four. -/
  ambiguous : closing = .ambiguous ↔ rest.head? ≠ some q.char ∧ q.char ∉ rest ∧
    (∃ x ∈ rest, isQuote x) ∧ ∀ blanks, ¬ IsStrayBehind q blanks rest
  matched_finish : closing = .matched → finish = stop + 1
  irregular_finish : closing = .irregular →
    ∃ upTo more, rest = upTo ++ q.char :: more ∧ q.char ∉ upTo ∧ finish = stop + byteLength upTo + 1
  /-- All other clauses go up to the terminator. -/
  other_finish : closing ≠ .matched → closing ≠ .irregular → finish = stop + byteLength rest

/-- A token of a text that goes on, behind `before`, with the keyword, `gap`, the quote, the
path, the `rest` of the statement and what is `beyond` it. -/
structure Token.Describes (text : String) (before gap rest beyond : List Char) (t : Token) :
    Prop where
  text_eq : text.toList =
    before ++ (Clause.keyword ++ (gap ++ t.quote.char :: (t.path ++ (rest ++ beyond))))
  keyword_eq : t.keyword = byteLength before
  gap_blank : ∀ x ∈ gap, x = ' ' ∨ x = '\t'
  start_eq : t.start = byteLength (before ++ (Clause.keyword ++ (gap ++ [t.quote.char])))
  stop_eq : t.stop = t.start + byteLength t.path
  /-- Byte by byte, the path is the longest run of its kind. -/
  longest : t.stop = skipWhile isPathChar (bytes text) t.start
  rest_open : ∀ x ∈ rest, isTerminator x = false
  terminated : ∀ x, beyond.head? = some x → isTerminator x
  closes : Closes t.quote t.stop rest t.closing t.finish

/-! ## The five conditions -/

section Conditions

variable {q : Quote} {rest blanks t : List Char}

theorem isQuote_char (q : Quote) : isQuote q.char = true := by cases q <;> decide

theorem not_mem_of_blank (h : ∀ x ∈ blanks, isBlank x) (q : Quote) : q.char ∉ blanks := by
  intro hmem
  have hblank := h _ hmem
  rw [isBlank_quote] at hblank
  cases hblank

namespace IsStrayBehind

/-- The stray quote is the only quote. -/
theorem quotes (h : IsStrayBehind q blanks rest) :
    q.opposite.char ∈ rest ∧ q.char ∉ rest ∧ blanks = before q.opposite.char rest := by
  obtain ⟨more, hrest, hblank⟩ := h
  have hfront : ∀ x ∈ blanks, isBlank x := fun x hx => hblank x (List.mem_append_left _ hx)
  have hback : ∀ x ∈ more, isBlank x := fun x hx => hblank x (List.mem_append_right _ hx)
  refine ⟨by simp [hrest], ?_, ?_⟩
  · rw [hrest, List.mem_append, List.mem_cons, not_or, not_or]
    exact ⟨not_mem_of_blank hfront q, q.char_opposite_ne.symm, not_mem_of_blank hback q⟩
  · rw [hrest, (before_append (not_mem_of_blank hfront q.opposite) more).1]

end IsStrayBehind

/-- The test that reading makes is the condition. -/
theorem isStray_iff_behind (h : q.opposite.char ∈ rest) :
    isStray q rest ↔ ∃ blanks, IsStrayBehind q blanks rest := by
  unfold isStray
  constructor
  · intro hstray
    rw [← List.all_append, List.all_eq_true] at hstray
    exact ⟨_, _, (before_append_after h).symm, hstray⟩
  · intro ⟨blanks, hbehind⟩
    obtain ⟨-, -, hblanks⟩ := hbehind.quotes
    obtain ⟨more, hrest, hblank⟩ := hbehind
    have hafter : after q.opposite.char rest = more := by
      have hsplit := before_append_after h
      rw [← hblanks] at hsplit
      conv at hsplit => rhs; rw [hrest]
      simpa using hsplit
    rw [← hblanks, hafter, ← List.all_append, List.all_eq_true]
    exact hblank

theorem quoted_of_mem (h : q.char ∈ rest) : ¬ ∀ x ∈ rest, isQuote x = false := by
  intro hnone
  have hquote := hnone _ h
  rw [isQuote_char] at hquote
  cases hquote

/-! Each condition excludes the other four. -/

variable (stop : Nat)

theorem closes_matched (h : rest.head? = some q.char) : Closes q stop rest .matched (stop + 1) where
  matched := iff_of_true rfl h
  missing := iff_of_false nofun (quoted_of_mem (List.mem_of_head? h))
  irregular := iff_of_false nofun fun hirregular => hirregular.1 h
  mismatched _ := iff_of_false nofun fun ⟨_, hstray, _⟩ => hstray.quotes.2.1 (List.mem_of_head? h)
  ambiguous := iff_of_false nofun fun hambiguous => hambiguous.1 h
  matched_finish _ := rfl
  irregular_finish := nofun
  other_finish hne := absurd rfl hne

theorem closes_missing (h : ∀ x ∈ rest, isQuote x = false) :
    Closes q stop rest .missing (stop + byteLength rest) where
  matched := iff_of_false nofun fun hhead => quoted_of_mem (List.mem_of_head? hhead) h
  missing := iff_of_true rfl h
  irregular := iff_of_false nofun fun hirregular => quoted_of_mem hirregular.2 h
  mismatched _ := iff_of_false nofun fun ⟨_, hstray, _⟩ => quoted_of_mem hstray.quotes.1 h
  ambiguous := iff_of_false nofun fun ⟨_, _, ⟨x, hx, hquote⟩, _⟩ => by simp [h x hx] at hquote
  matched_finish := nofun
  irregular_finish := nofun
  other_finish _ _ := rfl

theorem closes_irregular {upTo more : List Char} (h : rest.head? ≠ some q.char)
    (hq : q.char ∈ rest) (hrest : rest = upTo ++ q.char :: more) (hupTo : q.char ∉ upTo) :
    Closes q stop rest .irregular (stop + byteLength upTo + 1) where
  matched := iff_of_false nofun h
  missing := iff_of_false nofun (quoted_of_mem hq)
  irregular := iff_of_true rfl ⟨h, hq⟩
  mismatched _ := iff_of_false nofun fun ⟨_, hstray, _⟩ => hstray.quotes.2.1 hq
  ambiguous := iff_of_false nofun fun hambiguous => hambiguous.2.1 hq
  matched_finish := nofun
  irregular_finish _ := ⟨upTo, more, hrest, hupTo, rfl⟩
  other_finish _ hne := absurd rfl hne

theorem closes_mismatched (h : IsStrayBehind q blanks rest) :
    Closes q stop rest (.mismatched (stop + byteLength blanks)) (stop + byteLength rest) where
  matched := iff_of_false nofun fun hhead => h.quotes.2.1 (List.mem_of_head? hhead)
  missing := iff_of_false nofun (quoted_of_mem h.quotes.1)
  irregular := iff_of_false nofun fun hirregular => h.quotes.2.1 hirregular.2
  mismatched stray := by
    constructor
    · intro hstray
      exact ⟨blanks, h, (Closing.mismatched.inj hstray).symm⟩
    · intro ⟨blanks', h', hstray⟩
      rw [hstray, h.quotes.2.2, h'.quotes.2.2]
  ambiguous := iff_of_false nofun fun hambiguous => hambiguous.2.2.2 blanks h
  matched_finish := nofun
  irregular_finish := nofun
  other_finish _ _ := rfl

theorem closes_ambiguous (h : rest.head? ≠ some q.char) (hq : q.char ∉ rest)
    (hany : ∃ x ∈ rest, isQuote x) (hstray : ∀ blanks, ¬ IsStrayBehind q blanks rest) :
    Closes q stop rest .ambiguous (stop + byteLength rest) where
  matched := iff_of_false nofun h
  missing := iff_of_false nofun fun hnone => by
    obtain ⟨x, hx, hquote⟩ := hany
    simp [hnone x hx] at hquote
  irregular := iff_of_false nofun fun hirregular => hq hirregular.2
  mismatched _ := iff_of_false nofun fun ⟨blanks, hbehind, _⟩ => hstray blanks hbehind
  ambiguous := iff_of_true rfl ⟨h, hq, hany, hstray⟩
  matched_finish := nofun
  irregular_finish := nofun
  other_finish _ _ := rfl

/-- No quote ends a statement. -/
theorem head?_statementRest (q : Quote) (t : List Char) :
    (statementRest t).head? = some q.char ↔ t.head? = some q.char := by
  cases t with
  | nil => rfl
  | cons c t =>
    unfold statementRest
    by_cases hc : isTerminator c
    · have hne : c ≠ q.char := by
        intro heq
        rw [heq] at hc
        exact absurd hc (by cases q <;> decide)
      simp [hc, hne]
    · simp [hc]

end Conditions

/-- Reading the end of a literal goes by the five conditions. -/
theorem closes_readEnding (q : Quote) (t : List Char) (stop : Nat) :
    Closes q stop (statementRest t) (closingOf stop (readEnding q t).1)
      (stop + byteLength ((readEnding q t).1.text q)) := by
  have hquote : q.char.utf8Size = 1 := utf8Size_quote q
  refine readEnding_cases q t ?_ ?_ ?_ ?_ ?_
  · intro h
    have hclose := closes_matched stop ((head?_statementRest q t).mpr h)
    simpa [closingOf, Ending.text, hquote] using hclose
  · intro h hq
    have hclose := closes_irregular stop (mt (head?_statementRest q t).mp h) hq
      (before_append_after hq).symm (not_mem_before q.char _)
    rw [before_statementRest hq] at hclose
    simpa [closingOf, Ending.text, hquote, Nat.add_assoc] using hclose
  · intro h hany
    exact closes_missing stop (by simpa using hany)
  · intro h hany hq hstray
    have hmem := opposite_mem_of_isQuote hany hq
    obtain ⟨blanks, hbehind⟩ := (isStray_iff_behind hmem).mp hstray
    have hclose := closes_mismatched stop hbehind
    rw [hbehind.quotes.2.2] at hclose
    simpa only [closingOf, Ending.text, before_append_after hmem] using hclose
  · intro h hany hq hstray
    have hmem := opposite_mem_of_isQuote hany hq
    apply closes_ambiguous stop (mt (head?_statementRest q t).mp h) hq (by simpa using hany)
    intro blanks hbehind
    rw [(isStray_iff_behind hmem).mpr ⟨blanks, hbehind⟩] at hstray
    cases hstray

/-! ## Tokens -/

/-- The token of a site says what stands there. -/
theorem describes_tokenOf {text : String} {s : Site} (h : s ∈ sites text.toList) :
    ∃ before gap rest beyond, (tokenOf s).Describes text before gap rest beyond := by
  have htext := (LiesIn.of_mem_sites h).text_eq
  obtain ⟨after, hahead, hstands⟩ := stands_of_mem_sitesFrom rfl h
  obtain ⟨cursor, c⟩ := s
  -- What follows the path is the rest of the statement and what is beyond it.
  have hrest := statementRest_append (c.ending.text c.quote ++ after)
  have hsplit : text.toList = cursor.behind.reverse ++ (Clause.keyword ++ (c.gap ++
      c.quote.char :: (c.path ++ (c.ending.text c.quote ++ after)))) := by
    rw [← htext, Cursor.text, hahead, c.text_append]
  have hstart : (tokenOf ⟨cursor, c⟩).start =
      byteLength (cursor.behind.reverse ++ (Clause.keyword ++ (c.gap ++ [c.quote.char]))) := by
    simp [tokenOf, Site.offsets, Cursor.offset, Clause.opening]
  refine ⟨cursor.behind.reverse, c.gap, statementRest (c.ending.text c.quote ++ after),
    afterStatement (c.ending.text c.quote ++ after), ?_⟩
  constructor
  · rw [hrest]
    exact hsplit
  · simp [tokenOf, Site.offsets, Cursor.offset]
  · intro x hx
    simpa [isGap] using hstands.gap x hx
  · exact hstart
  · rfl
  · rw [hstart, skipWhile_split bytewise_isPathChar (by simpa using hsplit),
      takeWhile_append_stop hstands.path hstands.stop, ← hstart]
    rfl
  · intro x hx
    simpa using of_mem_takeWhile hx
  · intro x hx
    exact isTerminator_of_head? hx
  · have hcloses := closes_readEnding c.quote (c.ending.text c.quote ++ after)
      (tokenOf ⟨cursor, c⟩).stop
    rw [hstands.ending] at hcloses
    exact hcloses

/-- Every token of a text describes a clause that stands there: the keyword, a gap, the quote
and the longest path; and it says how the literal closes as the rest of the statement does. -/
theorem tokens_describe (text : String) :
    tokens? text = some (tokens text) ∧
      ∀ t ∈ tokens text, ∃ before gap rest beyond, t.Describes text before gap rest beyond := by
  refine ⟨tokens?_eq text, ?_⟩
  intro t ht
  obtain ⟨s, hs, rfl⟩ := List.mem_map.mp ht
  exact describes_tokenOf hs

/-- A text with a clause of each closing; behind the stray quote stands a blank beyond ASCII. -/
def closings : String :=
  "from './a';\nfrom\t\"./b // c\nfrom 'd e'\nfrom './f \"\u2003;\nfrom \"./g' as h"

/-- Each closing comes up, and the tokens describe their clauses. -/
theorem tokens_describe_closings :
    (tokens closings).map Token.closing =
        [.matched, .missing, .irregular, .mismatched 48, .ambiguous] ∧
      ∀ t ∈ tokens closings, ∃ before gap rest beyond,
        t.Describes closings before gap rest beyond := by
  refine ⟨by decide +kernel, ?_⟩
  exact (tokens_describe closings).2

end Relocate.Bytes
