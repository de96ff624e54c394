import Relocate.Proofs.Bytes.Tokens
import Relocate.Proofs.Clause.Line

/-!
# Comments

A comment put between two lines is read as plain text, whatever it says, and
reading goes on behind it as it would have without it. This takes that nothing
is open there. A line ends inside a template or a block comment whose end is
still to come, and inside a string literal when a backslash takes the line feed
in; such a literal is open even where the next line feed cuts it off, so that
reading the text as it stands does come to that place.

* `IsComment.scanFrom_append`: a comment is plain text, and the state stays.
* `Takes.feed_or_unclosed`: what is read up to the end of a line ends with the
  line feed alone, or with something left open.
* `tokensAt_move`: the tokens of pieces move with the pieces.
* `comments_move_tokens_iff`: all comments leave the tokens alone, but for
  their places, exactly where nothing is open.
-/
namespace Relocate

variable {d d' : Bool} {p : Piece} {u t s a b c body rest : List Char}

/-! ## Definitions -/

/-- A comment, with all that belongs to it. -/
inductive IsComment : List Char → Prop
  | line {body : List Char} : '\n' ∉ body → IsComment ('/' :: '/' :: (body ++ ['\n']))
  | block {body : List Char} :
    ¬ ['*', '/'] <:+: body → IsComment ('/' :: '*' :: (body ++ ['*', '/']))

/-- Behind `u`, a construct that `f` splits off goes on: the text that follows is split as if
it stood at the start. -/
def StaysOpen (f : List Char → List Char × List Char) (u : List Char) : Prop :=
  ∀ r, f (u ++ r) = (f r).map (u ++ ·) id

/-- A construct whose closing mark is still to come. -/
inductive Unclosed : List Char → Prop
  | literal {q : Char} {u : List Char} :
    isQuote q → StaysOpen (splitLiteral q) u → Unclosed (q :: u)
  | template {u : List Char} : StaysOpen splitTemplate u → Unclosed (backtick :: u)
  | block {u : List Char} : StaysOpen splitBlock u → Unclosed ('/' :: '*' :: u)

/-- Reading `a ++ b` comes to `b` with nothing open: the last piece of `a`, if there is one,
is not left unclosed. -/
def Outside (a b : List Char) : Prop :=
  a = [] ∨ ∃ d p d', Reaches false (a ++ b) d (p.text ++ b) ∧ Takes d p d' b ∧ ¬ Unclosed p.text

/-! ## Reading a comment -/

theorem splitBlock_close (h : ¬ ['*', '/'] <:+: body) (r : List Char) :
    splitBlock (body ++ '*' :: '/' :: r) = (body ++ ['*', '/'], r) := by
  induction body with
  | nil => rfl
  | cons x body ih =>
    have hrest : ¬ ['*', '/'] <:+: body := fun hmark =>
      h (hmark.trans (List.suffix_cons x body).isInfix)
    have hmark : ∀ cs, x = '*' → body ++ '*' :: '/' :: r = '/' :: cs → False := by
      intro cs hx hcs
      cases body with
      | nil => exact absurd (List.cons.inj hcs).1 (by decide)
      | cons y body =>
        have hy : y = '/' := (List.cons.inj hcs).1
        exact h ⟨[], body, by simp [hx, hy]⟩
    rw [List.cons_append, splitBlock.eq_3 _ _ hmark, ih hrest]
    rfl

theorem takes_lineComment (d : Bool) (h : '\n' ∉ body) (b : List Char) :
    Takes d (.plain ('/' :: '/' :: body)) d ('\n' :: b) := by
  have hopen : ∀ x ∈ '/' :: '/' :: body, (x != '\n') = true := by
    intro x hx
    rw [bne_iff_ne]
    intro hfeed
    rw [hfeed] at hx
    simp [h] at hx
  have hstop : ∀ x, ('\n' :: b).head? = some x → (x != '\n') = false := by
    intro x hx
    obtain rfl : '\n' = x := by simpa using hx
    rfl
  refine ⟨'/', '/' :: body ++ '\n' :: b, rfl, ?_⟩
  have htake := takeWhile_append_stop hopen hstop
  have hdrop := dropWhile_append_stop hopen hstop
  unfold scanStep
  rw [if_pos ⟨rfl, rfl⟩, ← List.cons_append, htake, hdrop]

theorem takes_blockComment (d : Bool) (h : ¬ ['*', '/'] <:+: body) (b : List Char) :
    Takes d (.plain ('/' :: '*' :: (body ++ ['*', '/']))) d b := by
  refine ⟨'/', '*' :: (body ++ ['*', '/']) ++ b, rfl, ?_⟩
  have hclose := splitBlock_close h b
  simp [scanStep, hclose]

theorem scanFrom_feed (d : Bool) (b : List Char) :
    scanFrom d ('\n' :: b) = .plain ['\n'] :: scanFrom d b := (takes_feed d b).scanFrom_eq

/-- A comment is plain text before anything, and the state stays. -/
theorem IsComment.scanFrom_append (h : IsComment c) : ∃ ps : List Piece, Piece.render ps = c ∧
    (∀ p ∈ ps, ∃ u, p = .plain u) ∧ ∀ d b, scanFrom d (c ++ b) = ps ++ scanFrom d b := by
  cases h with
  | @line body hbody =>
    refine ⟨[.plain ('/' :: '/' :: body), .plain ['\n']], by simp [Piece.text], by simp, ?_⟩
    intro d b
    have hstep := (takes_lineComment d hbody b).scanFrom_eq
    rw [scanFrom_feed] at hstep
    simpa [Piece.text] using hstep
  | @block body hbody =>
    refine ⟨[.plain ('/' :: '*' :: (body ++ ['*', '/']))], by simp [Piece.text], by simp, ?_⟩
    intro d b
    exact (takes_blockComment d hbody b).scanFrom_eq

/-! ## What stays open -/

section Open

variable {f : List Char → List Char × List Char} {u v : List Char}

theorem StaysOpen.nil (f : List Char → List Char × List Char) : StaysOpen f [] := by
  intro r
  rfl

theorem StaysOpen.append (hu : StaysOpen f u) (hv : StaysOpen f v) : StaysOpen f (u ++ v) := by
  intro r
  rw [List.append_assoc, hu, hv]
  simp [Prod.map]

/-- What ends with a line feed does so at its end, if there is one. -/
theorem StaysOpen.of_append (h : (u ++ v).getLast? = some '\n')
    (hv : v.getLast? = some '\n' → StaysOpen f v) : StaysOpen f v := by
  by_cases hnil : v = []
  · rw [hnil]
    exact .nil f
  · rw [List.getLast?_append_of_ne_nil _ hnil] at h
    exact hv h

/-- A construct in which a backslash takes the next character with it, and any other
character either ends it or is passed over. -/
structure Escapes (f : List Char → List Char × List Char) : Prop where
  nil : f [] = ([], [])
  lone : f ['\\'] = (['\\'], [])
  escape : ∀ c, StaysOpen f ['\\', c]
  other : ∀ c, c ≠ '\\' → (∀ t, (f (c :: t)).1.getLast? ≠ some '\n') ∨ StaysOpen f [c]

/-- Such a construct is open behind a line feed that belongs to it. -/
theorem Escapes.staysOpen (hf : Escapes f) (t : List Char)
    (h : (f t).1.getLast? = some '\n') : StaysOpen f (f t).1 := by
  induction hn : t.length using Nat.strongRecOn generalizing t with
  | ind n ih =>
    -- What is passed over comes off: the rest, if there is any, ends with the line feed too.
    have hpass : ∀ u v, t = u ++ v → u ≠ [] → StaysOpen f u → StaysOpen f (f t).1 := by
      intro u v ht hu hopen
      have hshorter : v.length < n := by
        have := List.length_pos_iff.mpr hu
        rw [← hn, ht, List.length_append]
        omega
      rw [ht, hopen v] at h ⊢
      exact hopen.append (.of_append h fun hv => ih v.length hshorter v hv rfl)
    cases t with
    | nil =>
      rw [hf.nil] at h
      cases h
    | cons c t =>
      by_cases hback : c = '\\'
      · subst hback
        cases t with
        | nil =>
          rw [hf.lone] at h
          exact absurd h (by decide)
        | cons x t => exact hpass ['\\', x] t rfl (by simp) (hf.escape x)
      · obtain hends | hopen := hf.other c hback
        · exact absurd h (hends t)
        · exact hpass [c] t rfl (by simp) hopen

theorem escapes_splitLiteral {q : Char} (hq : isQuote q) : Escapes (splitLiteral q) where
  nil := rfl
  lone := by simp [splitLiteral, (not_backslash_of_isQuote hq).symm]
  escape c r := rfl
  other c hc := by
    by_cases hends : c = '\n' ∨ c = q
    · left
      intro t
      rw [Bytes.splitLiteral_cons hc]
      obtain rfl | rfl := hends
      · simp
      · have hfeed : c ≠ '\n' := by
          rintro rfl
          exact absurd hq (by decide)
        simp [hfeed]
    · obtain ⟨hfeed, hclose⟩ := not_or.mp hends
      right
      intro r
      rw [List.singleton_append, Bytes.splitLiteral_cons hc, if_neg hfeed, if_neg hclose]
      rfl

theorem escapes_splitTemplate : Escapes splitTemplate where
  nil := rfl
  lone := by decide
  escape c r := rfl
  other c hc := by
    by_cases hends : c = backtick
    · left
      intro t
      rw [Bytes.splitTemplate_cons hc, if_pos hends, hends]
      simp [backtick]
    · right
      intro r
      rw [List.singleton_append, Bytes.splitTemplate_cons hc, if_neg hends]
      rfl

/-- A block comment, too, is open behind a line feed that belongs to it. -/
theorem staysOpen_splitBlock (t : List Char) (h : (splitBlock t).1.getLast? = some '\n') :
    StaysOpen splitBlock (splitBlock t).1 := by
  fun_induction splitBlock t with
  | case1 => cases h
  | case2 cs => exact absurd h (by simp)
  | case3 c cs hmark ih =>
    have hrest : StaysOpen splitBlock (splitBlock cs).1 := .of_append (u := [c]) h ih
    intro r
    have hnext : ∀ ds, c = '*' → (splitBlock cs).1 ++ r = '/' :: ds → False := by
      intro ds hc hds
      cases hcs : (splitBlock cs).1 with
      | nil =>
        -- Nothing but the star would come last.
        simp [hcs, hc] at h
      | cons x xs =>
        have hx : x = '/' := by
          rw [hcs] at hds
          exact (List.cons.inj hds).1
        have hback := splitBlock_append cs
        rw [hcs, hx] at hback
        exact hmark _ hc hback.symm
    show splitBlock (c :: ((splitBlock cs).1 ++ r)) = _
    rw [splitBlock.eq_3 _ _ hnext, hrest]
    rfl

end Open

/-! ## The end of a line -/

theorem noFeed_stepWord (d : Bool) (t : List Char) : '\n' ∉ (stepWord d t).piece.text := by
  have hword : '\n' ∉ t.takeWhile isWordChar := fun h => absurd (of_mem_takeWhile h) (by decide)
  simp only [stepWord]
  split
  · split
    · rename_i hc
      exact (readClause?_eq_some_iff.1 hc).1.noFeed
    · exact hword
  · exact hword

/-- What is read up to behind a line feed is the line feed, or something left open. -/
theorem Takes.feed_or_unclosed (h : Takes d p d' rest) (hlast : p.text.getLast? = some '\n') :
    p = .plain ['\n'] ∧ d' = d ∨ Unclosed p.text := by
  obtain ⟨c, cs, -, hs⟩ := h
  have hfeed : '\n' ∈ p.text := List.mem_of_getLast? hlast
  simp only [scanStep] at hs
  split at hs
  · cases hs
    exact absurd (of_mem_takeWhile hfeed) (by decide)
  split at hs
  · rename_i hblock
    cases hs
    rw [hblock.1] at hlast ⊢
    exact .inr (.block (.of_append (u := ['/', '*']) hlast (staysOpen_splitBlock _)))
  split at hs
  · rename_i hquote
    cases hs
    exact .inr (.literal hquote (.of_append (u := [c]) hlast
      ((escapes_splitLiteral hquote).staysOpen _)))
  split at hs
  · rename_i htick
    cases hs
    rw [htick] at hlast ⊢
    exact .inr (.template (.of_append (u := [backtick]) hlast (escapes_splitTemplate.staysOpen _)))
  split at hs
  · have hno := noFeed_stepWord d (c :: cs)
    rw [hs] at hno
    exact absurd hfeed hno
  · cases hs
    obtain rfl : '\n' = c := by simpa [Piece.text] using hfeed
    exact .inl ⟨rfl, rfl⟩

/-! ## Steps up to a place -/

/-- The pieces on the way to a place, which are read before any text that is alike from
there on. -/
theorem Reaches.scanFrom_alike (h : Reaches d t d' s) : ∃ ps, t = Piece.render ps ++ s ∧
    ∀ r, Alike s r → scanFrom d (Piece.render ps ++ r) = ps ++ scanFrom d' r := by
  induction h with
  | refl d t => exact ⟨[], rfl, fun r _ => rfl⟩
  | @take d d₁ d' p rest s hp _ ih =>
    obtain ⟨ps, hrest, hps⟩ := ih
    refine ⟨p :: ps, by simp [hrest], ?_⟩
    intro r hr
    rw [hrest] at hp
    rw [Piece.render_cons, List.append_assoc, (hp.alike (hr.append _)).scanFrom_eq, hps r hr]
    rfl

/-- A place that is not the start is reached by a last step. -/
theorem Reaches.last (h : Reaches d t d' s) : d = d' ∧ t = s ∨
    ∃ d₁ p, Reaches d t d₁ (p.text ++ s) ∧ Takes d₁ p d' s := by
  induction h with
  | refl d t => exact .inl ⟨rfl, rfl⟩
  | @take d d₁ d' p rest s hp _ ih =>
    right
    obtain ⟨rfl, rfl⟩ | ⟨d₂, p', hreach, htake⟩ := ih
    · exact ⟨d, p, .refl _ _, hp⟩
    · exact ⟨d₂, p', .take hp hreach, htake⟩

/-- What comes before `b` is made up of the pieces on the way and the piece that is read last. -/
theorem Reaches.exists_pieces (h : Reaches d (a ++ b) d' (u ++ b)) :
    ∃ ps, a = Piece.render ps ++ u ∧
      ∀ r, Alike (u ++ b) r → scanFrom d (Piece.render ps ++ r) = ps ++ scanFrom d' r := by
  obtain ⟨ps, hsplit, hps⟩ := h.scanFrom_alike
  rw [← List.append_assoc] at hsplit
  exact ⟨ps, List.append_cancel_right hsplit, hps⟩

/-- Where nothing is open at the end of a line, reading goes on with whatever stands below. -/
theorem Outside.scan_append (h : Outside a b) (hline : a = [] ∨ a.getLast? = some '\n') :
    ∃ ps d, Piece.render ps = a ∧ (ps = [] ∨ ∃ qs, ps = qs ++ [.plain ['\n']]) ∧
      ∀ r, scan (a ++ r) = ps ++ scanFrom d r := by
  obtain hnil | ⟨d, p, d', hreach, htake, hclosed⟩ := h
  · exact ⟨[], false, hnil.symm, .inl rfl, fun r => by rw [hnil]; rfl⟩
  · obtain ⟨qs, ha, hqs⟩ := hreach.exists_pieces
    have hlast : p.text.getLast? = some '\n' := by
      rw [ha, List.getLast?_append_of_ne_nil _ htake.text_ne_nil] at hline
      exact hline.resolve_left (by simp [htake.text_ne_nil])
    obtain ⟨rfl, rfl⟩ := (htake.feed_or_unclosed hlast).resolve_right hclosed
    refine ⟨qs ++ [.plain ['\n']], d', by simp [ha, Piece.render, Piece.text], .inr ⟨qs, rfl⟩, ?_⟩
    intro r
    have hread := hqs ('\n' :: r) (alike_line [] b r)
    rw [scanFrom_feed] at hread
    simpa [ha, scan, Piece.text] using hread

/-! ## Comments where something is open -/

/-- What is left open takes in the start of a line comment, up to the mark that closes it. -/
theorem Unclosed.takes (h : Unclosed u) : ∃ mark, '\n' ∉ mark ∧
    ∀ d r, ∃ d', Takes d (.plain (u ++ '/' :: '/' :: mark)) d' r := by
  cases h with
  | @literal q u hq hopen =>
    have hslash : '/' ≠ q ∧ '\n' ≠ q := by
      constructor <;> rintro rfl <;> exact absurd hq (by decide)
    have hclose : ∀ r, splitLiteral q ('/' :: '/' :: q :: r) = (['/', '/', q], r) := by
      intro r
      simp [Bytes.splitLiteral_cons, not_backslash_of_isQuote hq, hslash, hslash.2.symm]
    refine ⟨[q], by simpa using hslash.2, fun d r => ⟨false, q, u ++ '/' :: '/' :: q :: r, ?_, ?_⟩⟩
    · simp [Piece.text]
    · simp [scanStep, hslash.1.symm, hq, hopen _, hclose]
  | @template u hopen =>
    have hclose : ∀ r, splitTemplate ('/' :: '/' :: backtick :: r) = (['/', '/', backtick], r) :=
      fun r => rfl
    refine ⟨[backtick], by decide, fun d r =>
      ⟨false, backtick, u ++ '/' :: '/' :: backtick :: r, ?_, ?_⟩⟩
    · simp [Piece.text]
    · have hslash : backtick ≠ '/' := by decide
      have hquote : isQuote backtick = false := by decide
      simp [scanStep, hslash, hquote, hopen _, hclose]
  | @block u hopen =>
    have hclose : ∀ r, splitBlock ('/' :: '/' :: '*' :: '/' :: r) = (['/', '/', '*', '/'], r) :=
      fun r => rfl
    refine ⟨['*', '/'], by decide, fun d r =>
      ⟨d, '/', '*' :: u ++ '/' :: '/' :: '*' :: '/' :: r, ?_, ?_⟩⟩
    · simp [Piece.text]
    · simp [scanStep, hopen _, hclose]

theorem Unclosed.alike (h : Unclosed u) (r s : List Char) : Alike (u ++ r) (u ++ s) := by
  cases h with
  | @literal q u hq hopen =>
    refine .of_head rfl rfl ?_
    obtain rfl | rfl : q = '"' ∨ q = '\'' := by simpa [isQuote] using hq
    · decide
    · decide
  | template hopen => exact .of_head rfl rfl (by decide)
  | block hopen => exact .of_head rfl rfl (by decide)

/-- A clause that stands before anything. -/
def shownClause : Clause := ⟨[' '], .single, ['.', '/', 'x'], .matched⟩

theorem stands_shownClause (r : List Char) : shownClause.Stands r where
  gap := List.all_eq_true.mp (by decide)
  path := List.all_eq_true.mp (by decide)
  stop x hx := by
    obtain rfl : Quote.single.char = x := Option.some.inj hx
    exact Quote.not_isPathChar .single
  ending := readEnding_matched rfl

/-- Text that ends a statement and goes on with a clause. -/
def shown : List Char := ';' :: shownClause.text

theorem scanFrom_shown (d : Bool) (r : List Char) :
    scanFrom d (shown ++ r) = .plain [';'] :: .clause shownClause :: scanFrom false r := by
  have hstop : Takes d (.plain [';']) false (shownClause.text ++ r) :=
    ⟨';', shownClause.text ++ r, rfl, by
      simp [scanStep, isQuote, backtick, isWordStart, isBeyondAscii, isAsciiBlank]⟩
  have hclause : Takes false (.clause shownClause) false r :=
    takes_clause_iff.2 ⟨rfl, rfl, stands_shownClause r⟩
  have hfirst := hstop.scanFrom_eq
  have hsecond := hclause.scanFrom_eq
  simp only [Piece.text] at hfirst hsecond
  rw [hsecond] at hfirst
  exact hfirst

end Relocate

namespace Relocate.Bytes

open Text

/-! ## Tokens in their places -/

/-- How a literal closes, with offsets taken through `f`. -/
def Closing.move (f : Nat → Nat) : Closing → Closing
  | .mismatched stray => .mismatched (f stray)
  | closing => closing

/-- A token with all its offsets taken through `f`. -/
def Token.move (f : Nat → Nat) (t : Token) : Token where
  keyword := f t.keyword
  quote := t.quote
  start := f t.start
  stop := f t.stop
  path := t.path
  closing := t.closing.move f
  finish := f t.finish

/-- Where an offset comes to lie when `n` bytes are put in at `i`. -/
def shift (i n k : Nat) : Nat := if i ≤ k then k + n else k

/-- The token of a clause at an offset. -/
def clauseToken (i : Nat) (c : Clause) : Token where
  keyword := i
  quote := c.quote
  start := i + byteLength c.opening
  stop := i + byteLength c.head
  path := c.path
  closing := closingOf (i + byteLength c.head) c.ending
  finish := i + byteLength c.text

/-- The tokens of pieces that lie at an offset. -/
def tokensAt (i : Nat) : List Piece → List Token
  | [] => []
  | .plain t :: ps => tokensAt (i + byteLength t) ps
  | .clause c :: ps => clauseToken i c :: tokensAt (i + byteLength c.text) ps

theorem tokenOf_eq (cursor : Cursor) (c : Clause) :
    tokenOf ⟨cursor, c⟩ = clauseToken cursor.offset c := by
  simp [tokenOf, clauseToken, Site.offsets, Clause.text, Clause.head, Nat.add_assoc]

theorem map_tokenOf_sitesFrom (u : List Char) (ps : List Piece) :
    (sitesFrom ⟨u.reverse, Piece.render ps⟩ ps).map tokenOf = tokensAt (byteLength u) ps := by
  induction ps generalizing u with
  | nil => rfl
  | cons p ps ih =>
    cases p with
    | plain t =>
      rw [Piece.render_cons, Piece.text, sitesFrom_plain, ih, byteLength_append]
      rfl
    | clause c =>
      rw [Piece.render_cons, Piece.text, sitesFrom_clause, List.map_cons, ih, byteLength_append,
        tokenOf_eq]
      simp [tokensAt, Cursor.offset]

theorem tokens_eq (text : String) : tokens text = tokensAt 0 (scan text.toList) := by
  have h := map_tokenOf_sitesFrom [] (scan text.toList)
  rwa [render_scan] at h

theorem tokensAt_append (i : Nat) (ps qs : List Piece) :
    tokensAt i (ps ++ qs) = tokensAt i ps ++ tokensAt (i + byteLength (Piece.render ps)) qs := by
  induction ps generalizing i with
  | nil => rfl
  | cons p ps ih =>
    cases p with
    | plain t => simp [tokensAt, ih, Piece.text, Nat.add_assoc]
    | clause c => simp [tokensAt, ih, Piece.text, Nat.add_assoc]

theorem tokensAt_plain {ps : List Piece} (h : ∀ p ∈ ps, ∃ u, p = .plain u) (i : Nat) :
    tokensAt i ps = [] := by
  induction ps generalizing i with
  | nil => rfl
  | cons p ps ih =>
    obtain ⟨u, rfl⟩ := h p List.mem_cons_self
    exact ih (fun p hp => h p (List.mem_cons_of_mem _ hp)) _

theorem mem_tokensAt_clause (i : Nat) (ps : List Piece) (c : Clause) (qs : List Piece) :
    clauseToken (i + byteLength (Piece.render ps)) c ∈ tokensAt i (ps ++ .clause c :: qs) := by
  rw [tokensAt_append, tokensAt]
  exact List.mem_append_right _ List.mem_cons_self

variable {f : Nat → Nat} {i n : Nat}

/-- A token moves with its clause. -/
theorem move_clauseToken {c : Clause} (h : ∀ k, i ≤ k → k ≤ i + byteLength c.text → f k = k + n) :
    (clauseToken i c).move f = clauseToken (i + n) c := by
  have hhead : byteLength c.head = byteLength c.opening + byteLength c.path := by simp [Clause.head]
  have htext : byteLength c.text = byteLength c.head + byteLength (c.ending.text c.quote) := by
    simp [Clause.text]
  have hmove : ∀ k, k ≤ byteLength c.text → f (i + k) = i + n + k := by
    intro k hk
    rw [h (i + k) (by omega) (by omega)]
    omega
  have hclosing : (closingOf (i + byteLength c.head) c.ending).move f =
      closingOf (i + n + byteLength c.head) c.ending := by
    cases hending : c.ending with
    | mismatched before after =>
      rw [hending] at htext
      simp only [Ending.text, byteLength_append] at htext
      have hstray := hmove (byteLength c.head + byteLength before) (by omega)
      simpa [closingOf, Closing.move, Nat.add_assoc] using hstray
    | _ => rfl
  have hkeyword := hmove 0 (by omega)
  have hstart := hmove (byteLength c.opening) (by omega)
  have hstop := hmove (byteLength c.head) (by omega)
  have hfinish := hmove (byteLength c.text) (by omega)
  unfold clauseToken Token.move
  simp only [hclosing, hstart, hstop, hfinish]
  simpa using hkeyword

/-- The tokens of pieces move with the pieces. -/
theorem tokensAt_move (ps : List Piece)
    (h : ∀ k, i ≤ k → k ≤ i + byteLength (Piece.render ps) → f k = k + n) :
    (tokensAt i ps).map (Token.move f) = tokensAt (i + n) ps := by
  induction ps generalizing i with
  | nil => rfl
  | cons p ps ih =>
    rw [Piece.render_cons, byteLength_append] at h
    have hrest := ih (i := i + byteLength p.text) fun k hk hle => h k (by omega) (by omega)
    rw [Nat.add_right_comm] at hrest
    cases p with
    | plain t => exact hrest
    | clause c =>
      have hfirst := move_clauseToken (c := c) fun k hk hle => h k hk (by rw [Piece.text]; omega)
      rw [tokensAt, List.map_cons, hfirst]
      exact congrArg _ hrest

/-! ## Comments between lines -/

/-- What stands on the lines before a place stays there. -/
theorem tokensAt_stay {ps : List Piece} (h : ps = [] ∨ ∃ qs, ps = qs ++ [.plain ['\n']]) (n : Nat) :
    (tokensAt 0 ps).map (Token.move (shift (byteLength (Piece.render ps)) n)) = tokensAt 0 ps := by
  obtain hnil | ⟨qs, hqs⟩ := h
  · rw [hnil]
    rfl
  · have hfeed : '\n'.utf8Size = 1 := rfl
    have hlast : byteLength (Piece.render ps) = byteLength (Piece.render qs) + 1 := by
      simp [hqs, Piece.render, Piece.text, hfeed]
    have hbefore := tokensAt_move (f := shift (byteLength (Piece.render ps)) n) (i := 0) (n := 0) qs
      fun k _ hk => if_neg (by omega)
    have hfront : tokensAt 0 ps = tokensAt 0 qs := by
      rw [hqs, tokensAt_append]
      exact List.append_nil _
    rw [hfront]
    exact hbefore

theorem keyword_move_shift (t : Token) (i n : Nat) :
    (t.move (shift i n)).keyword < i ∨ i + n ≤ (t.move (shift i n)).keyword := by
  simp only [Token.move, shift]
  split
  · right
    omega
  · left
    omega

/-- Where something is open, some comment shows a clause. -/
theorem exists_shown {d : Bool} {u a b : List Char} (h : Reaches false (a ++ b) d (u ++ b))
    (hopen : Unclosed u) : ∃ c, IsComment c ∧ ∃ t ∈ tokensAt 0 (scan (a ++ (c ++ b))),
      byteLength a ≤ t.keyword ∧ t.keyword < byteLength a + byteLength c := by
  obtain ⟨mark, hmark, htakes⟩ := hopen.takes
  obtain ⟨ps, ha, hps⟩ := h.exists_pieces
  have hbody : '\n' ∉ mark ++ shown := by
    rw [List.mem_append, not_or]
    exact ⟨hmark, by decide⟩
  obtain ⟨d', htake⟩ := htakes d (shown ++ '\n' :: b)
  -- The comment's start and the mark end what was open; then comes the clause.
  have hread := hps _ (hopen.alike b ('/' :: '/' :: (mark ++ shown ++ ['\n']) ++ b))
  have hstep := htake.scanFrom_eq
  rw [scanFrom_shown] at hstep
  simp only [Piece.text, List.append_assoc, List.cons_append, List.nil_append] at hread hstep
  rw [hstep] at hread
  have hscan : scan (a ++ ('/' :: '/' :: (mark ++ shown ++ ['\n']) ++ b)) =
      (ps ++ [.plain (u ++ '/' :: '/' :: mark), .plain [';']]) ++
        .clause shownClause :: scanFrom false ('\n' :: b) := by
    simpa [ha, scan] using hread
  have hshown := mem_tokensAt_clause 0 (ps ++ [.plain (u ++ '/' :: '/' :: mark), .plain [';']])
    shownClause (scanFrom false ('\n' :: b))
  rw [← hscan] at hshown
  have hfeed : '\n'.utf8Size = 1 := rfl
  refine ⟨_, .line hbody, _, hshown, ?_, ?_⟩
  · simp [ha, clauseToken, Piece.render, Piece.text]
  · simp [ha, clauseToken, Piece.render, Piece.text, shown, hfeed]
    omega

/-- Put in between two lines, all comments leave the tokens alone, but for their places,
exactly where nothing is open. -/
theorem comments_move_tokens_iff (a b : String) (hline : a = "" ∨ a.toList.getLast? = some '\n')
    (hplace : ∃ d, Reaches false (a.toList ++ b.toList) d b.toList) :
    (∀ c : String, IsComment c.toList → tokens (a ++ c ++ b) =
      (tokens (a ++ b)).map (Token.move (shift a.utf8ByteSize c.utf8ByteSize))) ↔
        Outside a.toList b.toList := by
  constructor
  · intro hmoved
    obtain ⟨d, hreach⟩ := hplace
    obtain ⟨-, hsame⟩ | ⟨d₁, p, hbefore, htake⟩ := hreach.last
    · exact .inl (List.append_left_eq_self.mp hsame)
    · refine .inr ⟨d₁, p, d, hbefore, htake, ?_⟩
      intro hopen
      obtain ⟨c, hc, t, ht, hle, hlt⟩ := exists_shown hbefore hopen
      have hnew := hmoved (String.ofList c) (by simpa using hc)
      have hmem : t ∈ tokens (a ++ String.ofList c ++ b) := by
        rw [tokens_eq]
        simpa using ht
      rw [hnew] at hmem
      obtain ⟨t', -, rfl⟩ := List.mem_map.mp hmem
      have hplace := keyword_move_shift t' a.utf8ByteSize (String.ofList c).utf8ByteSize
      rw [utf8ByteSize_eq, utf8ByteSize_eq, String.toList_ofList] at hplace hle hlt
      omega
  · intro houtside c hc
    obtain ⟨ps, d, hrender, hlast, hread⟩ := houtside.scan_append (by simpa using hline)
    obtain ⟨cs, hcs, hplain, hcomment⟩ := hc.scanFrom_append
    have hold : tokens (a ++ b) = tokensAt 0 ps ++
        tokensAt (byteLength a.toList) (scanFrom d b.toList) := by
      rw [tokens_eq, String.toList_append, hread, tokensAt_append, hrender, Nat.zero_add]
    have hnew : tokens (a ++ c ++ b) = tokensAt 0 ps ++
        tokensAt (byteLength a.toList + byteLength c.toList) (scanFrom d b.toList) := by
      rw [tokens_eq, String.toList_append, String.toList_append, List.append_assoc, hread, hcomment,
        tokensAt_append, tokensAt_append, tokensAt_plain hplain, hrender, hcs, Nat.zero_add]
      rfl
    have hback := tokensAt_move (f := shift (byteLength a.toList) (byteLength c.toList))
      (scanFrom d b.toList) fun k hk _ => if_pos hk
    have hfront := tokensAt_stay hlast (byteLength c.toList)
    rw [hrender] at hfront
    rw [hnew, hold, utf8ByteSize_eq, utf8ByteSize_eq, List.map_append, hfront, hback]

theorem not_unclosed_feed : ¬ Unclosed ['\n'] := by
  intro h
  generalize hu : ['\n'] = u at h
  cases h with
  | literal hq =>
    obtain rfl := (List.cons.inj hu).1
    exact absurd hq (by decide)
  | template => exact absurd (List.cons.inj hu).1 (by decide)
  | block => exact absurd (List.cons.inj hu).1 (by decide)

/-- Between a line that ends with a dot and one that starts with `from`, and below an unclosed
path. -/
theorem comments_move_tokens_behind_dot :
    let a := "from './a\nx.\n"
    let b := "from './b';from './c'\n"
    (tokens (a ++ b)).map Token.keyword = [0, 24] ∧
      ∀ c : String, IsComment c.toList → tokens (a ++ c ++ b) =
        (tokens (a ++ b)).map (Token.move (shift a.utf8ByteSize c.utf8ByteSize)) := by
  intro a b
  have hbefore := reaches_readOn 4 false (a.toList ++ b.toList)
  have hplace := reaches_readOn 5 false (a.toList ++ b.toList)
  rw [show readOn 4 false (a.toList ++ b.toList) = (true, '\n' :: b.toList) by decide +kernel]
    at hbefore
  rw [show readOn 5 false (a.toList ++ b.toList) = (true, b.toList) by decide +kernel] at hplace
  refine ⟨by decide +kernel, ?_⟩
  rw [comments_move_tokens_iff a b (.inr (by decide)) ⟨true, hplace⟩]
  exact .inr ⟨true, .plain ['\n'], true, hbefore, takes_feed true b.toList, not_unclosed_feed⟩

/-- A literal that a backslash carries on behind a line feed: the next line feed cuts it off,
but a comment between the two may close it and go on with a clause. -/
theorem comment_closes_literal :
    let a := "'\\\n"
    let b := "\n"
    let c := "//';from './x'\n"
    a.toList.getLast? = some '\n' ∧ (∃ d, Reaches false (a.toList ++ b.toList) d b.toList) ∧
      IsComment c.toList ∧ tokens (a ++ c ++ b) ≠
        (tokens (a ++ b)).map (Token.move (shift a.utf8ByteSize c.utf8ByteSize)) := by
  intro a b c
  have hplace := reaches_readOn 1 false (a.toList ++ b.toList)
  rw [show readOn 1 false (a.toList ++ b.toList) = (false, b.toList) by decide +kernel] at hplace
  have hcomment : IsComment c.toList := by
    rw [show c.toList = '/' :: '/' :: ("';from './x'".toList ++ ['\n']) by decide]
    exact .line (by decide)
  exact ⟨by decide, ⟨false, hplace⟩, hcomment, by decide +kernel⟩

end Relocate.Bytes
